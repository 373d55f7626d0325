import Mathlib.Data.List.Basic
import Tortor.Core.Torrent

/-! The handshake that opens a connection between two peers.  Info hashes and peer ids are both
twenty bytes, and both are `Digest`s here. -/

namespace Tortor.Net

open Tortor.Core

structure Reserved where
  bytes : List UInt8
  size : bytes.length = 8
  deriving DecidableEq

structure Handshake where
  reserved : Reserved
  infoHash : Digest
  peerId : Digest
  deriving DecidableEq

inductive HandshakeError
  | invalidLength (got : Nat)
  | invalidLengthByte
  | invalidProtocol
  deriving DecidableEq

namespace Handshake

def PROTOCOL_STRING : List UInt8 :=
  [66, 105, 116, 84, 111, 114, 114, 101, 110, 116, 32, 112, 114, 111, 116, 111, 99, 111, 108]

def HANDSHAKE_LEN : Nat := 68

/-- The bit of the extension protocol (BEP 10) is set. -/
def new (infoHash peerId : Digest) : Handshake where
  reserved := ⟨(List.replicate 8 0).modify 5 (· ||| 0x10), rfl⟩
  infoHash := infoHash
  peerId := peerId

def supportsExtensionProtocol (self : Handshake) : Bool :=
  self.reserved.bytes.getD 5 0 &&& 0x10 != 0

def asBytes (self : Handshake) : List UInt8 :=
  [UInt8.ofNat PROTOCOL_STRING.length] ++ PROTOCOL_STRING ++ self.reserved.bytes ++
    self.infoHash.bytes ++ self.peerId.bytes

def slice (first last : Nat) (bytes : List UInt8) : List UInt8 :=
  (bytes.drop first).take (last - first)

theorem length_slice {first last : Nat} {bytes : List UInt8} (h : last ≤ bytes.length) :
    (slice first last bytes).length = last - first := by
  rw [slice, List.length_take, List.length_drop]
  omega

def fromBytes (bytes : List UInt8) : Except HandshakeError Handshake :=
  if h : bytes.length = HANDSHAKE_LEN then
    if (bytes.getD 0 0).toNat ≠ PROTOCOL_STRING.length then .error .invalidLengthByte
    else if slice 1 20 bytes ≠ PROTOCOL_STRING then .error .invalidProtocol
    else .ok
      { reserved := ⟨slice 20 28 bytes, length_slice (by rw [h]; decide)⟩
        infoHash := ⟨slice 28 48 bytes, length_slice (by rw [h]; decide)⟩
        peerId := ⟨slice 48 68 bytes, length_slice (by rw [h]; decide)⟩ }
  else .error (.invalidLength bytes.length)

theorem length_asBytes (self : Handshake) : self.asBytes.length = HANDSHAKE_LEN := by
  simp [asBytes, PROTOCOL_STRING, HANDSHAKE_LEN, self.reserved.size, self.infoHash.size,
    self.peerId.size]

theorem slice_append {first last : Nat} {xs ys zs : List UInt8} (hxs : xs.length = first)
    (hys : ys.length = last - first) : slice first last (xs ++ ys ++ zs) = ys := by
  rw [slice, List.append_assoc, ← hxs, List.drop_left, hxs, ← hys, List.take_left]

theorem slice_append_slice {first mid last : Nat} {bytes : List UInt8} (h : first ≤ mid)
    (h' : mid ≤ last) : slice first mid bytes ++ slice mid last bytes = slice first last bytes := by
  have hdrop : bytes.drop mid = (bytes.drop first).drop (mid - first) := by
    rw [List.drop_drop]
    congr 1
    omega
  rw [slice, slice, slice, hdrop, ← List.take_add]
  congr 1
  omega

theorem slice_all {last : Nat} {bytes : List UInt8} (h : bytes.length = last) :
    slice 0 last bytes = bytes := by
  rw [slice, List.drop_zero, Nat.sub_zero, ← h, List.take_length]

/-- What is accepted is the encoding of what it is read as, and nothing else is. -/
theorem fromBytes_eq_ok {bytes : List UInt8} {handshake : Handshake} :
    fromBytes bytes = .ok handshake ↔ bytes = handshake.asBytes := by
  constructor
  · intro h
    unfold fromBytes at h
    split at h
    case isFalse => cases h
    case isTrue hlen =>
      split at h
      · cases h
      case isFalse hfirst =>
        split at h
        · cases h
        case isFalse hprotocol =>
          cases h
          have hhead : slice 0 1 bytes = [UInt8.ofNat PROTOCOL_STRING.length] := by
            cases bytes with
            | nil => cases hlen
            | cons b rest =>
              have hb : b.toNat = PROTOCOL_STRING.length := not_not.mp hfirst
              rw [← hb, UInt8.ofNat_toNat]
              rfl
          rw [asBytes, ← hhead, ← not_not.mp hprotocol]
          simp only []
          rw [slice_append_slice (by decide) (by decide), slice_append_slice (by decide) (by decide),
            slice_append_slice (by decide) (by decide), slice_append_slice (by decide) (by decide)]
          exact (slice_all hlen).symm
  · rintro rfl
    have hlen := length_asBytes handshake
    have hreserved := handshake.reserved.size
    have hinfo := handshake.infoHash.size
    have hpeer := handshake.peerId.size
    have hfirst : (handshake.asBytes.getD 0 0).toNat = PROTOCOL_STRING.length := rfl
    have hstring : slice 1 20 handshake.asBytes = PROTOCOL_STRING := by
      rw [asBytes, List.append_assoc, List.append_assoc]
      exact slice_append rfl rfl
    have h₁ : slice 20 28 handshake.asBytes = handshake.reserved.bytes := by
      rw [asBytes, List.append_assoc]
      exact slice_append rfl hreserved
    have h₂ : slice 28 48 handshake.asBytes = handshake.infoHash.bytes := by
      rw [asBytes]
      exact slice_append (by simp [PROTOCOL_STRING, hreserved]) hinfo
    have h₃ : slice 48 68 handshake.asBytes = handshake.peerId.bytes := by
      rw [asBytes, ← List.append_nil (_ ++ handshake.peerId.bytes)]
      exact slice_append (by simp [PROTOCOL_STRING, hreserved, hinfo]) hpeer
    unfold fromBytes
    rw [dif_pos hlen, if_neg (not_not.mpr hfirst), if_neg (not_not.mpr hstring)]
    simp only [h₁, h₂, h₃]

theorem fromBytes_asBytes (handshake : Handshake) :
    fromBytes handshake.asBytes = .ok handshake := fromBytes_eq_ok.mpr rfl

@[simp] theorem supportsExtensionProtocol_new (infoHash peerId : Digest) :
    (new infoHash peerId).supportsExtensionProtocol = true := by
  unfold supportsExtensionProtocol
  have hbit : ((List.replicate 8 (0 : UInt8)).modify 5 (· ||| 0x10)).getD 5 0 &&& 0x10 != 0 := by
    decide
  exact hbit

end Handshake

def HandshakeError.message : HandshakeError → String
  | .invalidLength got =>
    s!"invalid handshake length: expected {Handshake.HANDSHAKE_LEN}, got {got}"
  | .invalidLengthByte => "invalid protocol string length byte in handshake"
  | .invalidProtocol => "invalid protocol string in handshake"

end Tortor.Net
