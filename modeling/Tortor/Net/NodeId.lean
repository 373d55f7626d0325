import Mathlib.Algebra.Group.Nat.Defs
import Mathlib.Data.List.GetD
import Mathlib.Tactic.Common

namespace Tortor.Net

@[ext] structure NodeId where
  bytes : List UInt8
  size : bytes.length = 20

instance : DecidableEq NodeId := fun a b =>
  decidable_of_iff (a.bytes = b.bytes) NodeId.ext_iff.symm

/-- `u8::leading_zeros` of a byte that is not zero. -/
def byteLeadingZeros (byte : UInt8) : Nat := 7 - byte.toNat.log2

def leadingZerosLoop : List UInt8 → Nat
  | [] => 0
  | byte :: rest => if byte = 0 then 8 + leadingZerosLoop rest else byteLeadingZeros byte

def xorBytes (xs ys : List UInt8) : List UInt8 := List.zipWith (· ^^^ ·) xs ys

def bitOf (bytes : List UInt8) (index : Nat) : UInt8 :=
  (bytes.getD (index / 8) 0 >>> UInt8.ofNat (7 - index % 8)) &&& 1

namespace NodeId

def xor (self other : NodeId) : NodeId where
  bytes := xorBytes self.bytes other.bytes
  size := by simp [xorBytes, self.size, other.size]

def leadingZeros (self : NodeId) : Nat := leadingZerosLoop self.bytes

def bitAt (self : NodeId) (index : Nat) : UInt8 := if 160 ≤ index then 0 else bitOf self.bytes index

end NodeId

theorem byteLeadingZeros_lt (byte : UInt8) : byteLeadingZeros byte < 8 := by
  unfold byteLeadingZeros; omega

theorem testBit_byteLeadingZeros {byte : UInt8} (h : byte ≠ 0) {i : Nat}
    (hi : i ≤ byteLeadingZeros byte) :
    byte.toNat.testBit (7 - i) = decide (i = byteLeadingZeros byte) := by
  have hne : byte.toNat ≠ 0 := fun he => h (UInt8.toNat_inj.mp he)
  have hlog : byte.toNat.log2 < 8 := (Nat.log2_lt hne).mpr byte.toNat_lt
  unfold byteLeadingZeros at hi ⊢
  by_cases he : i = 7 - byte.toNat.log2
  · rw [show 7 - i = byte.toNat.log2 by omega, Nat.testBit_log2 hne, decide_eq_true he]
  · rw [decide_eq_false he]
    exact Nat.testBit_lt_two_pow ((Nat.log2_lt hne).mp (by omega))

theorem shiftRight_and_one (byte : UInt8) {k : Nat} (hk : k < 8) :
    ((byte >>> UInt8.ofNat k) &&& 1).toNat = (byte.toNat.testBit k).toNat := by
  rw [UInt8.toNat_and, UInt8.toNat_shiftRight, UInt8.toNat_ofNat', Nat.testBit_eq_decide_div_mod_eq,
    Nat.mod_eq_of_lt (show k < 2 ^ 8 by omega), Nat.mod_eq_of_lt hk, Nat.shiftRight_eq_div_pow]
  rw [show (1 : UInt8).toNat = 1 from rfl, Nat.and_one_is_mod]
  rcases Nat.mod_two_eq_zero_or_one (byte.toNat / 2 ^ k) with h | h <;> simp [h]

theorem shiftRight_eq_iff (x y : UInt8) {k : Nat} (hk : k < 8) :
    (x >>> UInt8.ofNat k) &&& 1 = (y >>> UInt8.ofNat k) &&& 1 ↔
      (x ^^^ y).toNat.testBit k = false := by
  rw [← UInt8.toNat_inj, shiftRight_and_one x hk, shiftRight_and_one y hk, UInt8.toNat_xor,
    Nat.testBit_xor]
  cases x.toNat.testBit k <;> cases y.toNat.testBit k <;> simp

theorem bitOf_eq_iff {xs ys : List UInt8} (h : xs.length = ys.length) {i : Nat}
    (hi : i < 8 * xs.length) (hz : i ≤ leadingZerosLoop (xorBytes xs ys)) :
    bitOf xs i = bitOf ys i ↔ i < leadingZerosLoop (xorBytes xs ys) := by
  induction xs generalizing ys i with
  | nil => simp at hi
  | cons x xs ih =>
    cases ys with
    | nil => simp at h
    | cons y ys =>
      have hcons : xorBytes (x :: xs) (y :: ys) = (x ^^^ y) :: xorBytes xs ys := rfl
      rw [hcons, leadingZerosLoop] at hz ⊢
      rcases Nat.lt_or_ge i 8 with hlt | hge
      · -- The bit lies in the first byte.
        have hbit (b : UInt8) (bs : List UInt8) :
            bitOf (b :: bs) i = (b >>> UInt8.ofNat (7 - i)) &&& 1 := by
          rw [bitOf, Nat.div_eq_of_lt hlt, Nat.mod_eq_of_lt hlt]; rfl
        rw [hbit, hbit, shiftRight_eq_iff x y (by omega)]
        by_cases hxy : x ^^^ y = 0
        · simp only [hxy, if_pos]
          simp; omega
        · simp only [hxy, if_neg, not_false_eq_true] at hz ⊢
          rw [testBit_byteLeadingZeros hxy hz]
          simp; omega
      · have hxy : x ^^^ y = 0 := by
          by_contra hne
          rw [if_neg hne] at hz
          have := byteLeadingZeros_lt (x ^^^ y)
          omega
        have hbit (b : UInt8) (bs : List UInt8) : bitOf (b :: bs) i = bitOf bs (i - 8) := by
          rw [bitOf, bitOf, show i / 8 = (i - 8) / 8 + 1 by omega, show i % 8 = (i - 8) % 8 by omega]
          rfl
        rw [if_pos hxy] at hz ⊢
        simp only [List.length_cons] at h hi
        rw [hbit, hbit, ih (by omega) (by omega) (by omega)]
        omega

theorem leadingZerosLoop_le (bytes : List UInt8) : leadingZerosLoop bytes ≤ 8 * bytes.length := by
  induction bytes with
  | nil => exact Nat.le_refl 0
  | cons byte rest ih =>
    have := byteLeadingZeros_lt byte
    rw [leadingZerosLoop, List.length_cons]
    split <;> omega

theorem eq_of_leadingZerosLoop_xorBytes {xs ys : List UInt8} (h : xs.length = ys.length)
    (hz : leadingZerosLoop (xorBytes xs ys) = 8 * xs.length) : xs = ys := by
  induction xs generalizing ys with
  | nil => exact (List.length_eq_zero_iff.mp h.symm).symm
  | cons x xs ih =>
    cases ys with
    | nil => simp at h
    | cons y ys =>
      have hcons : xorBytes (x :: xs) (y :: ys) = (x ^^^ y) :: xorBytes xs ys := rfl
      rw [hcons, leadingZerosLoop, List.length_cons] at hz
      have := byteLeadingZeros_lt (x ^^^ y)
      split at hz
      case isTrue hxy =>
        rw [UInt8.xor_eq_zero_iff.mp hxy, ih (by simpa using h) (by omega)]
      case isFalse => omega

namespace NodeId

def common (a b : NodeId) : Nat := (a.xor b).leadingZeros

theorem bitAt_eq_iff {a b : NodeId} {i : Nat} (hi : i < 160) (hz : i ≤ a.common b) :
    b.bitAt i = a.bitAt i ↔ i < a.common b := by
  rw [bitAt, bitAt, if_neg (by omega), if_neg (by omega), eq_comm]
  exact bitOf_eq_iff (a.size.trans b.size.symm) (by rw [a.size]; omega) hz

theorem common_lt {a b : NodeId} (h : b ≠ a) : a.common b < 160 := by
  have hle := leadingZerosLoop_le (xorBytes a.bytes b.bytes)
  rw [show (xorBytes a.bytes b.bytes).length = 20 from (a.xor b).size] at hle
  refine Nat.lt_of_le_of_ne hle fun he => h ?_
  have heq := eq_of_leadingZerosLoop_xorBytes (a.size.trans b.size.symm)
    (he.trans (by rw [a.size]))
  cases a
  cases b
  exact NodeId.mk.injEq .. ▸ heq.symm

end NodeId
end Tortor.Net
