import Tortor.Core.Bencode

/-! The scanners that look at bencoded bytes on their own, beside the decoder. -/

namespace Tortor.Core

def MAX_TORRENT_SIZE : Nat := 16 * 1024 * 1024

def MAX_BENCODE_DEPTH : Nat := 64

def isAsciiDigit (byte : UInt8) : Bool := decide (48 ≤ byte.toNat) && decide (byte.toNat ≤ 57)

/-- The rounds of `check_bencode_depth`.  Every round moves `index` on, so the length of `bytes`
is fuel enough. -/
def checkDepthLoop (bytes : List UInt8) : Nat → Nat → Nat → Except TorrentParseError Unit
  | 0, _, _ => .ok ()
  | fuel + 1, index, depth =>
    match bytes[index]? with
    | none => .ok ()
    | some byte =>
      if byte = 0x6c ∨ byte = 0x64 then
        if MAX_BENCODE_DEPTH < depth + 1 then .error (.invalidBencode "bencode nesting is too deep")
        else checkDepthLoop bytes fuel (index + 1) (depth + 1)
      else if byte = 0x65 then checkDepthLoop bytes fuel (index + 1) (depth - 1)
      else if byte = 0x69 then
        let index := index + ((bytes.drop index).takeWhile (· ≠ 0x65)).length
        checkDepthLoop bytes fuel (index + 1) depth
      else if isAsciiDigit byte then
        let digits := (bytes.drop index).takeWhile isAsciiDigit
        let len := digits.foldl
          (fun len digit => min (min (len * 10) (2 ^ 64 - 1) + (digit.toNat - 48)) (2 ^ 64 - 1)) 0
        -- Skip ':' and the string body; a malformed length ends the scan.
        let index := min (index + digits.length + 1 + len) (2 ^ 64 - 1)
        checkDepthLoop bytes fuel index depth
      else .ok ()

/-- Verifies that `bytes` does not nest lists and dictionaries deeper than
`MAX_BENCODE_DEPTH`. -/
def checkBencodeDepth (bytes : List UInt8) : Except TorrentParseError Unit :=
  checkDepthLoop bytes (bytes.length + 1) 0 0

def parseByteString (bytes : List UInt8) (start : Nat) :
    Except TorrentParseError (List UInt8 × Nat) :=
  let digits := (bytes.drop start).takeWhile isAsciiDigit
  if digits.isEmpty then .error (.invalidBencode "expected bencode byte string length prefix")
  else
    let index := start + digits.length
    if bytes[index]? ≠ some 0x3a then
      .error (.invalidBencode "missing ':' after byte string length")
    else
      let len := digits.foldl (fun len digit => len * 10 + (digit.toNat - 48)) 0
      if 2 ^ 64 ≤ len then .error (.invalidBencode "byte string length parse failed")
      else
        let contentStart := index + 1
        let contentEnd := contentStart + len
        if 2 ^ 64 ≤ contentEnd then .error (.invalidBencode "byte string length overflow")
        else if bytes.length < contentEnd then
          .error (.invalidBencode "byte string exceeds input length")
        else .ok ((bytes.take contentEnd).drop contentStart, contentEnd)

/-! `skip_bencode_value` and its two loops.  A value and the round of the loop it stands in take
at least one byte together, so twice the length of `bytes` is fuel enough. -/

mutual

def skipBencodeValue (bytes : List UInt8) : Nat → Nat → Nat → Except TorrentParseError Nat
  | 0, _, _ => .error (.invalidBencode "unexpected end of input while reading value")
  | fuel + 1, start, depth =>
    if MAX_BENCODE_DEPTH < depth then .error (.invalidBencode "bencode nesting is too deep")
    else match bytes[start]? with
      | none => .error (.invalidBencode "unexpected end of input while reading value")
      | some byte =>
        if byte = 0x69 then
          let index := start + 1 + ((bytes.drop (start + 1)).takeWhile (· ≠ 0x65)).length
          if bytes.length ≤ index then .error (.invalidBencode "unterminated integer value")
          else .ok (index + 1)
        else if byte = 0x6c then skipBencodeList bytes fuel (start + 1) depth
        else if byte = 0x64 then skipBencodeDict bytes fuel (start + 1) depth
        else if isAsciiDigit byte then (parseByteString bytes start).map (·.2)
        else .error (.invalidBencode "unknown bencode type prefix")

def skipBencodeList (bytes : List UInt8) : Nat → Nat → Nat → Except TorrentParseError Nat
  | 0, _, _ => .error (.invalidBencode "unterminated list value")
  | fuel + 1, index, depth =>
    match bytes[index]? with
    | none => .error (.invalidBencode "unterminated list value")
    | some byte =>
      if byte = 0x65 then .ok (index + 1)
      else match skipBencodeValue bytes fuel index (depth + 1) with
        | .error error => .error error
        | .ok index => skipBencodeList bytes fuel index depth

def skipBencodeDict (bytes : List UInt8) : Nat → Nat → Nat → Except TorrentParseError Nat
  | 0, _, _ => .error (.invalidBencode "unterminated dictionary value")
  | fuel + 1, index, depth =>
    match bytes[index]? with
    | none => .error (.invalidBencode "unterminated dictionary value")
    | some byte =>
      if byte = 0x65 then .ok (index + 1)
      else match parseByteString bytes index with
        | .error error => .error error
        | .ok (_, keyEnd) =>
          match skipBencodeValue bytes fuel keyEnd (depth + 1) with
          | .error error => .error error
          | .ok index => skipBencodeDict bytes fuel index depth

end

def bencodeValueLen (bytes : List UInt8) : Except TorrentParseError Nat :=
  skipBencodeValue bytes (2 * bytes.length + 2) 0 0

end Tortor.Core
