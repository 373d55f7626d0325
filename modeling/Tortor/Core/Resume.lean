import Tortor.Core.Manager

namespace Tortor.Core

def MAGIC : List UInt8 := [0x54, 0x54, 0x52, 0x53]

def FORMAT_VERSION : UInt8 := 2

def HEADER_LEN : Nat := 4 + 1 + 4

def MAX_PIECES : Nat := 16 * 1024 * 1024

def le32 (n : Nat) : List UInt8 :=
  [UInt8.ofNat n, UInt8.ofNat (n / 256), UInt8.ofNat (n / 256 ^ 2), UInt8.ofNat (n / 256 ^ 3)]

def readLe32 (bytes : List UInt8) (offset : Nat) : Nat :=
  let byte (i : Nat) : Nat := (bytes.getD (offset + i) 0).toNat
  byte 0 + 256 * (byte 1 + 256 * (byte 2 + 256 * byte 3))

structure FastResumeState where
  version : UInt8
  totalPieces : Nat
  completed : List Nat
  deriving DecidableEq

inductive ResumeError
  | truncated
  | unsupportedVersion (version : UInt8)
  | tooManyPieces (pieces : Nat)
  | bitfieldSize
  | notJson
  deriving DecidableEq

namespace FastResumeState

def fromManager (manager : TorrentManager) : FastResumeState where
  version := FORMAT_VERSION
  totalPieces := manager.totalPieces
  completed := manager.completedPieces

def encode (self : FastResumeState) : List UInt8 :=
  MAGIC ++ FORMAT_VERSION :: le32 self.totalPieces ++
    (Bitfield.fromIndices self.totalPieces self.completed).bytes

/-- Reads the binary format; `json` is the decoder of what older versions wrote. -/
def decode (json : List UInt8 → Option FastResumeState) (bytes : List UInt8) :
    Except ResumeError FastResumeState :=
  if MAGIC.isPrefixOf bytes then
    if bytes.length < HEADER_LEN then .error .truncated
    else if bytes.getD 4 0 ≠ FORMAT_VERSION then .error (.unsupportedVersion (bytes.getD 4 0))
    else
      let totalPieces := readLe32 bytes 5
      if MAX_PIECES < totalPieces then .error (.tooManyPieces totalPieces)
      else match Bitfield.fromWire totalPieces (bytes.drop HEADER_LEN) with
        | none => .error .bitfieldSize
        | some bitfield => .ok ⟨FORMAT_VERSION, totalPieces, bitfield.iterOnes⟩
  else match json bytes with
    | some state => .ok state
    | none => .error .notJson

end FastResumeState

theorem readLe32_le32 {n : Nat} (h : n < 2 ^ 32) (head tail : List UInt8) :
    readLe32 (head ++ le32 n ++ tail) head.length = n := by
  have hbyte (i : Nat) (hi : i < 4) :
      (head ++ le32 n ++ tail).getD (head.length + i) 0 = (le32 n).getD i 0 := by
    rw [List.getD_eq_getElem?_getD, List.getD_eq_getElem?_getD, List.append_assoc,
      List.getElem?_append_right (by omega), List.getElem?_append_left (by simp [le32]; omega),
      Nat.add_sub_cancel_left]
  simp only [readLe32, hbyte 0 (by decide), hbyte 1 (by decide), hbyte 2 (by decide),
    hbyte 3 (by decide)]
  simp [le32]
  omega

theorem FastResumeState.decode_encode_eq (json : List UInt8 → Option FastResumeState)
    (state : FastResumeState) (h : state.totalPieces < 2 ^ 32) :
    decode json state.encode =
      if MAX_PIECES < state.totalPieces then .error (.tooManyPieces state.totalPieces)
      else .ok ⟨FORMAT_VERSION, state.totalPieces,
        (Bitfield.fromIndices state.totalPieces state.completed).iterOnes⟩ := by
  have htotal : readLe32 state.encode 5 = state.totalPieces :=
    readLe32_le32 h (MAGIC ++ [FORMAT_VERSION]) _
  have hdrop : state.encode.drop HEADER_LEN =
      (Bitfield.fromIndices state.totalPieces state.completed).bytes := rfl
  have hlen : ¬ state.encode.length < HEADER_LEN := by
    simp [encode, MAGIC, le32, HEADER_LEN]
  have hwire := Bitfield.fromWire_bytes
    (Bitfield.fromIndices state.totalPieces state.completed)
  rw [Bitfield.len_fromIndices] at hwire
  have hmagic : MAGIC.isPrefixOf state.encode = true := by simp [encode, MAGIC]
  have hversion : state.encode.getD 4 0 = FORMAT_VERSION := rfl
  simp only [decode, hmagic, if_true, hlen, if_false, hversion, ne_eq, not_true_eq_false, htotal,
    hdrop, hwire]

theorem FastResumeState.decode_encode (json : List UInt8 → Option FastResumeState)
    (state : FastResumeState) (h : state.totalPieces ≤ MAX_PIECES) :
    decode json state.encode = .ok ⟨FORMAT_VERSION, state.totalPieces,
      (Bitfield.fromIndices state.totalPieces state.completed).iterOnes⟩ := by
  rw [decode_encode_eq json state (by unfold MAX_PIECES at h; omega), if_neg (Nat.not_lt.mpr h)]

theorem FastResumeState.mem_completed_of_decode {json : List UInt8 → Option FastResumeState}
    {manager : TorrentManager} {state : FastResumeState} (hsmall : manager.totalPieces < 2 ^ 32)
    (h : decode json (fromManager manager).encode = .ok state) {p : Nat}
    (hp : p ∈ state.completed) : p ∈ manager.completed := by
  rw [decode_encode_eq json _ hsmall] at h
  split at h
  · cases h
  · cases h
    rw [Bitfield.mem_iterOnes, Bitfield.has_fromIndices] at hp
    exact (Finset.mem_sort _).mp hp.1

end Tortor.Core
