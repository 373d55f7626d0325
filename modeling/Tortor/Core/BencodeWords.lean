import Tortor.Core.TorrentFile
import Tortor.Lib.Checked

/-! The scanners of bencoded bytes on machine words.  A loop that takes more rounds than there can
be, a sum that does not fit in a `usize` and a slice that is not in the bytes give nothing.  A slice
has no more than `isize::MAX` bytes. -/

namespace Tortor.Core

open Tortor.Lib

def scanWhileWords (bytes : List UInt8) (more : UInt8 → Bool) : Nat → Nat → Option Nat
  | 0, _ => none
  | fuel + 1, index =>
    match bytes[index]? with
    | none => some index
    | some byte =>
      if more byte then (Checked.add 64 index 1).bind (scanWhileWords bytes more fuel)
      else some index

def scanLengthWords (bytes : List UInt8) : Nat → Nat → Nat → Option (Nat × Nat)
  | 0, _, _ => none
  | fuel + 1, index, len =>
    match bytes[index]? with
    | none => some (index, len)
    | some byte =>
      if isAsciiDigit byte then
        (Checked.sub byte.toNat 48).bind fun digit =>
          (Checked.add 64 index 1).bind fun index =>
            scanLengthWords bytes fuel index
              (min (min (len * 10) (2 ^ 64 - 1) + digit) (2 ^ 64 - 1))
      else some (index, len)

def sliceWords (bytes : List UInt8) (start stop : Nat) : Option (List UInt8) :=
  if start ≤ stop ∧ stop ≤ bytes.length then some (slice bytes start stop) else none

def checkDepthLoopWords (bytes : List UInt8) :
    Nat → Nat → Nat → Option (Except TorrentParseError Unit)
  | 0, _, _ => none
  | fuel + 1, index, depth =>
    match bytes[index]? with
    | none => some (.ok ())
    | some byte =>
      if byte = 0x6c ∨ byte = 0x64 then
        (Checked.add 64 depth 1).bind fun depth =>
          if MAX_BENCODE_DEPTH < depth then
            some (.error (.invalidBencode "bencode nesting is too deep"))
          else (Checked.add 64 index 1).bind fun index =>
            checkDepthLoopWords bytes fuel index depth
      else if byte = 0x65 then
        (Checked.add 64 index 1).bind fun index =>
          checkDepthLoopWords bytes fuel index (depth - 1)
      else if byte = 0x69 then
        (scanWhileWords bytes (· ≠ 0x65) (bytes.length + 1) index).bind fun index =>
          (Checked.add 64 index 1).bind fun index => checkDepthLoopWords bytes fuel index depth
      else if isAsciiDigit byte then
        (scanLengthWords bytes (bytes.length + 1) index 0).bind fun (index, len) =>
          checkDepthLoopWords bytes fuel
            (min (min (index + 1) (2 ^ 64 - 1) + len) (2 ^ 64 - 1)) depth
      else some (.ok ())

def checkBencodeDepthWords (bytes : List UInt8) : Option (Except TorrentParseError Unit) :=
  checkDepthLoopWords bytes (bytes.length + 1) 0 0

def parseByteStringWords (bytes : List UInt8) (start : Nat) :
    Option (Except TorrentParseError (List UInt8 × Nat)) :=
  if (bytes[start]?.map isAsciiDigit).getD false = false then
    some (.error (.invalidBencode "expected bencode byte string length prefix"))
  else (scanWhileWords bytes isAsciiDigit (bytes.length + 1) start).bind fun index =>
    if bytes[index]? ≠ some 0x3a then
      some (.error (.invalidBencode "missing ':' after byte string length"))
    else (sliceWords bytes start index).bind fun lenStr =>
      if 2 ^ 64 ≤ decimal lenStr then
        some (.error (.invalidBencode "byte string length parse failed"))
      else (Checked.add 64 index 1).bind fun contentStart =>
        match Checked.add 64 contentStart (decimal lenStr) with
        | none => some (.error (.invalidBencode "byte string length overflow"))
        | some contentEnd =>
          if bytes.length < contentEnd then
            some (.error (.invalidBencode "byte string exceeds input length"))
          else (sliceWords bytes contentStart contentEnd).map fun content =>
            .ok (content, contentEnd)

mutual

def skipBencodeValueWords (bytes : List UInt8) :
    Nat → Nat → Nat → Option (Except TorrentParseError Nat)
  | 0, _, _ => none
  | fuel + 1, start, depth =>
    if MAX_BENCODE_DEPTH < depth then
      some (.error (.invalidBencode "bencode nesting is too deep"))
    else match bytes[start]? with
      | none => some (.error (.invalidBencode "unexpected end of input while reading value"))
      | some byte =>
        if byte = 0x69 then
          (Checked.add 64 start 1).bind fun index =>
            (scanWhileWords bytes (· ≠ 0x65) (bytes.length + 1) index).bind fun index =>
              if bytes.length ≤ index then
                some (.error (.invalidBencode "unterminated integer value"))
              else (Checked.add 64 index 1).map .ok
        else if byte = 0x6c then
          (Checked.add 64 start 1).bind fun index => skipBencodeListWords bytes fuel index depth
        else if byte = 0x64 then
          (Checked.add 64 start 1).bind fun index => skipBencodeDictWords bytes fuel index depth
        else if isAsciiDigit byte then
          (parseByteStringWords bytes start).map fun found => found.map (·.2)
        else some (.error (.invalidBencode "unknown bencode type prefix"))

def skipBencodeListWords (bytes : List UInt8) :
    Nat → Nat → Nat → Option (Except TorrentParseError Nat)
  | 0, _, _ => none
  | fuel + 1, index, depth =>
    match bytes[index]? with
    | none => some (.error (.invalidBencode "unterminated list value"))
    | some byte =>
      if byte = 0x65 then (Checked.add 64 index 1).map .ok
      else (Checked.add 64 depth 1).bind fun deeper =>
        match skipBencodeValueWords bytes fuel index deeper with
        | none => none
        | some (.error error) => some (.error error)
        | some (.ok index) => skipBencodeListWords bytes fuel index depth

def skipBencodeDictWords (bytes : List UInt8) :
    Nat → Nat → Nat → Option (Except TorrentParseError Nat)
  | 0, _, _ => none
  | fuel + 1, index, depth =>
    match bytes[index]? with
    | none => some (.error (.invalidBencode "unterminated dictionary value"))
    | some byte =>
      if byte = 0x65 then (Checked.add 64 index 1).map .ok
      else match parseByteStringWords bytes index with
        | none => none
        | some (.error error) => some (.error error)
        | some (.ok (_, keyEnd)) =>
          (Checked.add 64 depth 1).bind fun deeper =>
            match skipBencodeValueWords bytes fuel keyEnd deeper with
            | none => none
            | some (.error error) => some (.error error)
            | some (.ok index) => skipBencodeDictWords bytes fuel index depth

end

def bencodeValueLenWords (bytes : List UInt8) : Option (Except TorrentParseError Nat) :=
  skipBencodeValueWords bytes (2 * bytes.length + 2) 0 0

def extractLoopWords (bytes : List UInt8) :
    Nat → Nat → Option (Except TorrentParseError (List UInt8))
  | 0, _ => none
  | fuel + 1, index =>
    match bytes[index]? with
    | none => some (.error .missingInfoDictionary)
    | some byte =>
      if byte = 0x65 then some (.error .missingInfoDictionary)
      else match parseByteStringWords bytes index with
        | none => none
        | some (.error error) => some (.error error)
        | some (.ok (key, valueStart)) =>
          match skipBencodeValueWords bytes (2 * bytes.length + 2) valueStart 0 with
          | none => none
          | some (.error error) => some (.error error)
          | some (.ok valueEnd) =>
            if key = INFO_KEY then (sliceWords bytes valueStart valueEnd).map .ok
            else extractLoopWords bytes fuel valueEnd

def extractInfoDictionarySliceWords (bytes : List UInt8) :
    Option (Except TorrentParseError (List UInt8)) :=
  if bytes.head? ≠ some 0x64 then
    some (.error (.invalidBencode "top-level value must be a dictionary"))
  else extractLoopWords bytes (bytes.length + 1) 1

section

variable {bytes : List UInt8}

theorem takeWhile_drop_cons {more : UInt8 → Bool} {index : Nat} {byte : UInt8}
    (hbyte : bytes[index]? = some byte) (hmore : more byte) :
    (bytes.drop index).takeWhile more = byte :: (bytes.drop (index + 1)).takeWhile more := by
  rw [drop_eq_cons hbyte, List.takeWhile_cons_of_pos hmore]

theorem scanWhileWords_eq (hfits : bytes.length < 2 ^ 63) (more : UInt8 → Bool) {fuel index : Nat}
    (hfuel : bytes.length < index + fuel) (hindex : index ≤ bytes.length) :
    scanWhileWords bytes more fuel index =
      some (index + ((bytes.drop index).takeWhile more).length) := by
  induction fuel generalizing index with
  | zero => omega
  | succ fuel ih =>
    rw [scanWhileWords]
    split
    case h_1 hnone =>
      rw [List.drop_eq_nil_of_le (List.getElem?_eq_none_iff.mp hnone)]
      simp
    case h_2 byte hbyte =>
      have hlt := (List.getElem?_eq_some_iff.mp hbyte).1
      by_cases hmore : more byte
      · rw [if_pos hmore, Checked.add_of_lt (by omega), Option.bind_some,
          ih (by omega) (by omega), takeWhile_drop_cons hbyte hmore, List.length_cons]
        congr 1
        omega
      · rw [if_neg hmore, drop_eq_cons hbyte, List.takeWhile_cons_of_neg hmore]
        simp

theorem scanLengthWords_eq (hfits : bytes.length < 2 ^ 63) {fuel index : Nat} (len : Nat)
    (hfuel : bytes.length < index + fuel) (hindex : index ≤ bytes.length) :
    scanLengthWords bytes fuel index len =
      some (index + ((bytes.drop index).takeWhile isAsciiDigit).length,
        ((bytes.drop index).takeWhile isAsciiDigit).foldl (fun len digit =>
          min (min (len * 10) (2 ^ 64 - 1) + (digit.toNat - 48)) (2 ^ 64 - 1)) len) := by
  induction fuel generalizing index len with
  | zero => omega
  | succ fuel ih =>
    rw [scanLengthWords]
    split
    case h_1 hnone =>
      rw [List.drop_eq_nil_of_le (List.getElem?_eq_none_iff.mp hnone)]
      simp
    case h_2 byte hbyte =>
      have hlt := (List.getElem?_eq_some_iff.mp hbyte).1
      by_cases hdigit : isAsciiDigit byte
      · have hlow : 48 ≤ byte.toNat := by
          rw [isAsciiDigit, Bool.and_eq_true, decide_eq_true_eq] at hdigit
          exact hdigit.1
        rw [if_pos hdigit, Checked.sub_of_le hlow, Option.bind_some,
          Checked.add_of_lt (by omega), Option.bind_some, ih _ (by omega) (by omega),
          takeWhile_drop_cons hbyte hdigit, List.length_cons, List.foldl_cons]
        congr 2
        omega
      · rw [if_neg hdigit, drop_eq_cons hbyte, List.takeWhile_cons_of_neg hdigit]
        simp

theorem sliceWords_eq {start stop : Nat} (hle : start ≤ stop) (hstop : stop ≤ bytes.length) :
    sliceWords bytes start stop = some (slice bytes start stop) := if_pos ⟨hle, hstop⟩

theorem length_takeWhile_drop_le (more : UInt8 → Bool) {index : Nat} (hindex : index ≤ bytes.length) :
    index + ((bytes.drop index).takeWhile more).length ≤ bytes.length := by
  have hle := (List.takeWhile_prefix more (l := bytes.drop index)).length_le
  rw [List.length_drop] at hle
  omega

theorem checkDepthLoopWords_eq (hfits : bytes.length < 2 ^ 63) {fuel index depth : Nat}
    (hpos : 0 < fuel) (hfuel : bytes.length < index + fuel) (hdepth : depth ≤ MAX_BENCODE_DEPTH) :
    checkDepthLoopWords bytes fuel index depth = some (checkDepthLoop bytes fuel index depth) := by
  induction fuel generalizing index depth with
  | zero => omega
  | succ fuel ih =>
    rw [checkDepthLoopWords, checkDepthLoop]
    cases hbyte : bytes[index]? with
    | none => rfl
    | some byte =>
    have hlt := (List.getElem?_eq_some_iff.mp hbyte).1
    simp only
    have hsmall : depth + 1 < 2 ^ 64 := by
      rw [MAX_BENCODE_DEPTH] at hdepth
      omega
    have hstep : Checked.add 64 index 1 = some (index + 1) := Checked.add_of_lt (by omega)
    split
    · rw [Checked.add_of_lt hsmall, Option.bind_some]
      split
      · rfl
      case isFalse hle =>
        rw [hstep, Option.bind_some, ih (by omega) (by omega) (Nat.not_lt.mp hle)]
    split
    · rw [hstep, Option.bind_some, ih (by omega) (by omega) (by omega)]
    split
    · have hstop := length_takeWhile_drop_le (· ≠ 0x65) (Nat.le_of_lt hlt)
      rw [scanWhileWords_eq hfits _ (by omega) (Nat.le_of_lt hlt), Option.bind_some,
        Checked.add_of_lt (by omega), Option.bind_some, ih (by omega) (by omega) hdepth]
    split
    case isTrue hdigit =>
      have hstop := length_takeWhile_drop_le isAsciiDigit (Nat.le_of_lt hlt)
      have hone : 1 ≤ ((bytes.drop index).takeWhile isAsciiDigit).length := by
        rw [takeWhile_drop_cons hbyte hdigit, List.length_cons]
        omega
      rw [scanLengthWords_eq hfits 0 (by omega) (Nat.le_of_lt hlt), Option.bind_some]
      simp only
      rw [Nat.min_eq_left (a := index + _ + 1) (by omega), ih (by omega) (by omega) hdepth]
    · rfl

theorem checkBencodeDepthWords_eq (hfits : bytes.length < 2 ^ 63) :
    checkBencodeDepthWords bytes = some (checkBencodeDepth bytes) :=
  checkDepthLoopWords_eq hfits (Nat.succ_pos _) (by omega) (by decide)

theorem parseByteStringWords_eq (hfits : bytes.length < 2 ^ 63) {start : Nat}
    (hstart : start ≤ bytes.length) :
    parseByteStringWords bytes start = some (parseByteString bytes start) := by
  rw [parseByteStringWords, parseByteString]
  cases hbyte : bytes[start]? with
  | none => simp [List.drop_eq_nil_of_le (List.getElem?_eq_none_iff.mp hbyte)]
  | some byte =>
    by_cases hdigit : isAsciiDigit byte
    · have hrun := takeWhile_drop_cons hbyte hdigit
      have hstop := length_takeWhile_drop_le isAsciiDigit hstart
      have hslice : slice bytes start
          (start + ((bytes.drop start).takeWhile isAsciiDigit).length) =
            (bytes.drop start).takeWhile isAsciiDigit := by
        rw [slice, List.drop_take, Nat.add_sub_cancel_left]
        exact (List.prefix_iff_eq_take.mp (List.takeWhile_prefix _)).symm
      have hempty : ((bytes.drop start).takeWhile isAsciiDigit).isEmpty = false := by
        rw [hrun]
        rfl
      simp only [Option.map_some, Option.getD_some, hdigit, Bool.true_eq_false, if_false, hempty,
        Bool.false_eq_true]
      rw [scanWhileWords_eq hfits _ (by omega) hstart, Option.bind_some]
      split
      · rfl
      case isFalse hcolon =>
      rw [sliceWords_eq (Nat.le_add_right _ _) hstop, Option.bind_some, hslice,
        Checked.add_of_lt (by omega), Option.bind_some]
      change (if 2 ^ 64 ≤ decimal _ then _ else _) = some (if 2 ^ 64 ≤ decimal _ then _ else _)
      split
      · rfl
      by_cases hover : 2 ^ 64 ≤ start + ((bytes.drop start).takeWhile isAsciiDigit).length + 1 +
          decimal ((bytes.drop start).takeWhile isAsciiDigit)
      · rw [Checked.add, Checked.fit, if_neg (by omega)]
        exact congrArg some (if_pos hover).symm
      · rw [Checked.add_of_lt (by omega)]
        refine Eq.trans ?_ (congrArg some (if_neg hover).symm)
        by_cases hin : bytes.length < start +
            ((bytes.drop start).takeWhile isAsciiDigit).length + 1 +
              decimal ((bytes.drop start).takeWhile isAsciiDigit)
        · exact (if_pos hin).trans (congrArg some (if_pos hin).symm)
        · refine Eq.trans (if_neg hin) ((congrArg (Option.map _)
            (sliceWords_eq (Nat.le_add_right _ _) (Nat.not_lt.mp hin))).trans ?_)
          exact congrArg some (if_neg hin).symm
    · have hempty : ((bytes.drop start).takeWhile isAsciiDigit).isEmpty = true := by
        rw [drop_eq_cons hbyte, List.takeWhile_cons_of_neg hdigit]
        rfl
      simp [hdigit, hempty]

/-- The skipper on words and its loops with that many rounds, wherever they start. -/
structure SkipsOnWords (bytes : List UInt8) (fuel : Nat) : Prop where
  value : ∀ start depth, start ≤ bytes.length → 2 * (bytes.length - start) + 2 ≤ fuel →
    skipBencodeValueWords bytes fuel start depth = some (skipBencodeValue bytes fuel start depth)
  list : ∀ index depth, index ≤ bytes.length → 2 * (bytes.length - index) + 3 ≤ fuel →
    depth ≤ MAX_BENCODE_DEPTH →
      skipBencodeListWords bytes fuel index depth = some (skipBencodeList bytes fuel index depth)
  dict : ∀ index depth, index ≤ bytes.length → 2 * (bytes.length - index) + 3 ≤ fuel →
    depth ≤ MAX_BENCODE_DEPTH →
      skipBencodeDictWords bytes fuel index depth = some (skipBencodeDict bytes fuel index depth)

theorem add_depth {depth : Nat} (hdepth : depth ≤ MAX_BENCODE_DEPTH) :
    Checked.add 64 depth 1 = some (depth + 1) := by
  unfold MAX_BENCODE_DEPTH at hdepth
  exact Checked.add_of_lt (by omega)

section

variable {fuel : Nat} (hfits : bytes.length < 2 ^ 63) (ih : SkipsOnWords bytes fuel)

include hfits ih

theorem skipBencodeValueWords_step {start depth : Nat} (hstart : start ≤ bytes.length)
    (hfuel : 2 * (bytes.length - start) + 2 ≤ fuel + 1) :
    skipBencodeValueWords bytes (fuel + 1) start depth =
      some (skipBencodeValue bytes (fuel + 1) start depth) := by
  rw [skipBencodeValueWords, skipBencodeValue]
  split
  · rfl
  case isFalse hdepth =>
  cases hbyte : bytes[start]? with
  | none => rfl
  | some byte =>
  have hlt := (List.getElem?_eq_some_iff.mp hbyte).1
  have hstep : Checked.add 64 start 1 = some (start + 1) := Checked.add_of_lt (by omega)
  simp only [hstep, Option.bind_some]
  split
  · have hstop := length_takeWhile_drop_le (· ≠ 0x65) hlt
    rw [scanWhileWords_eq hfits _ (by omega) hlt, Option.bind_some]
    split
    · rfl
    · rw [Checked.add_of_lt (by omega)]
      rfl
  split
  · exact ih.list _ _ hlt (by omega) (Nat.not_lt.mp hdepth)
  split
  · exact ih.dict _ _ hlt (by omega) (Nat.not_lt.mp hdepth)
  split
  · rw [parseByteStringWords_eq hfits hstart]
    rfl
  · rfl

theorem skipBencodeListWords_step {index depth : Nat} (hindex : index ≤ bytes.length)
    (hfuel : 2 * (bytes.length - index) + 3 ≤ fuel + 1) (hdepth : depth ≤ MAX_BENCODE_DEPTH) :
    skipBencodeListWords bytes (fuel + 1) index depth =
      some (skipBencodeList bytes (fuel + 1) index depth) := by
  rw [skipBencodeListWords, skipBencodeList]
  cases hbyte : bytes[index]? with
  | none => rfl
  | some byte =>
  have hlt := (List.getElem?_eq_some_iff.mp hbyte).1
  simp only [add_depth hdepth, Option.bind_some]
  split
  · rw [Checked.add_of_lt (by omega)]
    rfl
  rw [ih.value _ _ hindex (by omega)]
  cases hnext : skipBencodeValue bytes fuel index (depth + 1) with
  | error error => rfl
  | ok next =>
    have hbounds := skip_bounds hnext
    exact ih.list _ _ hbounds.2 (by omega) hdepth

theorem skipBencodeDictWords_step {index depth : Nat} (hindex : index ≤ bytes.length)
    (hfuel : 2 * (bytes.length - index) + 3 ≤ fuel + 1) (hdepth : depth ≤ MAX_BENCODE_DEPTH) :
    skipBencodeDictWords bytes (fuel + 1) index depth =
      some (skipBencodeDict bytes (fuel + 1) index depth) := by
  rw [skipBencodeDictWords, skipBencodeDict]
  cases hbyte : bytes[index]? with
  | none => rfl
  | some byte =>
  have hlt := (List.getElem?_eq_some_iff.mp hbyte).1
  simp only [add_depth hdepth, Option.bind_some]
  split
  · rw [Checked.add_of_lt (by omega)]
    rfl
  rw [parseByteStringWords_eq hfits hindex]
  cases hkey : parseByteString bytes index with
  | error error => rfl
  | ok found =>
    have hkeyEnd := parseByteString_bounds (show parseByteString bytes index =
      .ok (found.1, found.2) from hkey)
    simp only
    rw [ih.value _ _ hkeyEnd.2 (by omega)]
    cases hnext : skipBencodeValue bytes fuel found.2 (depth + 1) with
    | error error => rfl
    | ok next =>
      have hbounds := skip_bounds hnext
      exact ih.dict _ _ hbounds.2 (by omega) hdepth

end

theorem skipsOnWords (hfits : bytes.length < 2 ^ 63) (fuel : Nat) : SkipsOnWords bytes fuel := by
  induction fuel with
  | zero => exact ⟨fun _ _ _ h => by omega, fun _ _ _ h => by omega, fun _ _ _ h => by omega⟩
  | succ fuel ih =>
    exact {
      value := fun _ _ => skipBencodeValueWords_step hfits ih
      list := fun _ _ => skipBencodeListWords_step hfits ih
      dict := fun _ _ => skipBencodeDictWords_step hfits ih }

theorem bencodeValueLenWords_eq (hfits : bytes.length < 2 ^ 63) :
    bencodeValueLenWords bytes = some (bencodeValueLen bytes) :=
  (skipsOnWords hfits _).value _ _ (Nat.zero_le _) (by omega)

theorem extractLoopWords_eq (hfits : bytes.length < 2 ^ 63) {fuel more index : Nat}
    (hfuel : bytes.length < index + fuel) (hmore : bytes.length ≤ index + more)
    (hindex : index ≤ bytes.length) :
    extractLoopWords bytes fuel index = some (extractLoop bytes more index) := by
  induction fuel generalizing more index with
  | zero => omega
  | succ fuel ih =>
    rw [extractLoopWords]
    cases hbyte : bytes[index]? with
    | none => cases more <;> simp [extractLoop, hbyte]
    | some byte =>
    have hlt := (List.getElem?_eq_some_iff.mp hbyte).1
    obtain ⟨more, rfl⟩ : ∃ n, more = n + 1 := ⟨more - 1, by omega⟩
    rw [extractLoop, hbyte]
    simp only
    split
    · rfl
    rw [parseByteStringWords_eq hfits hindex]
    cases hkey : parseByteString bytes index with
    | error error => rfl
    | ok found =>
    have hkeyEnd := parseByteString_bounds (show parseByteString bytes index =
      .ok (found.1, found.2) from hkey)
    simp only
    rw [(skipsOnWords hfits _).value _ _ hkeyEnd.2 (by omega)]
    cases hnext : skipBencodeValue bytes (2 * bytes.length + 2) found.2 0 with
    | error error => rfl
    | ok next =>
    have hbounds := skip_bounds hnext
    simp only
    split
    · rw [sliceWords_eq (Nat.le_of_lt hbounds.1) hbounds.2]
      rfl
    · exact ih (by omega) (by omega) hbounds.2

theorem extractInfoDictionarySliceWords_eq (hfits : bytes.length < 2 ^ 63) :
    extractInfoDictionarySliceWords bytes = some (extractInfoDictionarySlice bytes) := by
  rw [extractInfoDictionarySliceWords, extractInfoDictionarySlice]
  split
  · rfl
  case isFalse hhead =>
    have hpos : 0 < bytes.length := by
      cases bytes with
      | nil => simp at hhead
      | cons => simp
    exact extractLoopWords_eq hfits (by omega) (by omega) hpos

end

end Tortor.Core
