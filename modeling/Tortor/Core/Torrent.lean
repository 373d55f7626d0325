import Mathlib.Algebra.GroupWithZero.Nat
import Mathlib.Data.List.DropRight
import Mathlib.Tactic.Common

namespace Tortor.Core

structure Digest where
  bytes : List UInt8
  size : bytes.length = 20
  deriving DecidableEq

abbrev Path := List String

structure TorrentFile where
  length : Nat
  path : List String
  deriving DecidableEq

structure TorrentMeta where
  name : String
  pieceLength : Nat
  piecesCount : Nat
  pieces : List Digest
  totalLength : Option Nat
  files : Option (List TorrentFile)
  infoHash : Digest
  deriving DecidableEq

/-- A missing total is the saturating sum of the file lengths. -/
def TorrentMeta.new (name : String) (pieceLength piecesCount : Nat) (pieces : List Digest)
    (totalLength : Option Nat) (files : Option (List TorrentFile)) (infoHash : Digest) :
    TorrentMeta where
  name := name
  pieceLength := pieceLength
  piecesCount := piecesCount
  pieces := pieces
  totalLength := totalLength.or
    (files.map fun fs => fs.foldl (fun acc f => min (acc + f.length) (2 ^ 64 - 1)) 0)
  files := files
  infoHash := infoHash

def TorrentMeta.pieceLenAt (self : TorrentMeta) (index : Nat) : Option Nat :=
  if self.pieces.length ≤ index then none
  else match self.totalLength with
    | some total =>
      let start := index * self.pieceLength
      if 2 ^ 64 ≤ start then none
      else if total ≤ start then none
      else some (min self.pieceLength (total - start))
    | none => some self.pieceLength

def MAX_COMPONENT_LEN : Nat := 255

def WINDOWS_RESERVED_NAMES : List String :=
  ["CON", "PRN", "AUX", "NUL", "COM1", "COM2", "COM3", "COM4", "COM5", "COM6", "COM7", "COM8",
    "COM9", "LPT1", "LPT2", "LPT3", "LPT4", "LPT5", "LPT6", "LPT7", "LPT8", "LPT9"]

inductive PathError
  | invalidComponent (component : String)
  | tooLong
  | separatorOrNul (component : String)
  | emptyPath
  deriving DecidableEq

def isControl (c : Char) : Bool := c.toNat < 0x20 || (0x7f ≤ c.toNat && c.toNat < 0xa0)

/-- Characters and device names the file system forbids are replaced, not rejected. -/
def sanitizeWindows (component : String) : Except PathError String :=
  let replaced := component.toList.map fun c =>
    if isControl c || "<>:\"|?*".toList.contains c then '_' else c
  let cleaned := replaced.rdropWhile fun c => c == '.' || c == ' '
  if cleaned.isEmpty then .error (.invalidComponent component)
  else
    let stem := (cleaned.takeWhile (· != '.')).map Char.toUpper
    if WINDOWS_RESERVED_NAMES.contains (String.ofList stem) then
      .ok (String.ofList ('_' :: cleaned))
    else .ok (String.ofList cleaned)

/-- Validates one path component coming from untrusted torrent metadata.  The flag
`windows` is `cfg!(windows)`. -/
def sanitizePathComponent (windows : Bool) (component : String) : Except PathError String :=
  if component = "" ∨ component = "." ∨ component = ".." then .error (.invalidComponent component)
  else if component.utf8ByteSize > MAX_COMPONENT_LEN then .error .tooLong
  else if component.toList.any (fun c => c == '/' || c == '\\' || c == '\x00') then
    .error (.separatorOrNul component)
  else if windows then sanitizeWindows component
  else .ok component

def buildFilePath (windows : Bool) (base : Path) (name : String) (isMulti : Bool)
    (parts : List String) : Except PathError Path := do
  if parts.isEmpty then throw .emptyPath
  let root ← if isMulti then (do return base ++ [← sanitizePathComponent windows name])
    else pure base
  let cleaned ← parts.mapM (sanitizePathComponent windows)
  return root ++ cleaned

end Tortor.Core
