import Mathlib.Data.List.Basic
import Mathlib.Data.Nat.Bitwise
import Mathlib.Tactic.Common

namespace Tortor.Core

/-- The bit of a byte that stands for piece `index`: piece 0 is the most significant one. -/
def wireMask (index : Nat) : UInt8 := 0x80 >>> UInt8.ofNat (index % 8)

/-- The `spare` low bits of the last byte are the masks of the indices past the end. -/
theorem wireMask_and_spare : ∀ spare < 8, ∀ r < 8, 8 - spare ≤ r →
    wireMask r &&& ((1 <<< UInt8.ofNat spare) - 1) = wireMask r := by decide

theorem wireMask_mod (index : Nat) : wireMask (index % 8) = wireMask index := by
  simp [wireMask]

def hasBit (bytes : List UInt8) (index : Nat) : Bool :=
  bytes.getD (index / 8) 0 &&& wireMask index != 0

def setBit (bytes : List UInt8) (index : Nat) : List UInt8 :=
  bytes.set (index / 8) (bytes.getD (index / 8) 0 ||| wireMask index)

theorem hasBit_replicate_zero (n index : Nat) : hasBit (List.replicate n 0) index = false := by
  rcases Nat.lt_or_ge (index / 8) n with h | h <;>
    simp [hasBit, List.getD_eq_getElem?_getD, h]

theorem hasBit_eq_false_of_length_le {bytes : List UInt8} {index : Nat}
    (h : 8 * bytes.length ≤ index) : hasBit bytes index = false := by
  have : bytes.length ≤ index / 8 := by omega
  simp [hasBit, List.getD_eq_getElem?_getD, this]

theorem and_wireMask (byte : UInt8) (index : Nat) :
    (byte &&& wireMask index != 0) = byte.toNat.testBit (7 - index % 8) := by
  have hm : (wireMask index).toNat = 2 ^ (7 - index % 8) := by
    have : ∀ i < 8, (wireMask i).toNat = 2 ^ (7 - i) := by decide
    rw [← wireMask_mod, this _ (by omega)]
  have hz : (byte &&& wireMask index != 0) = ((byte &&& wireMask index).toNat != 0) := by
    rw [Bool.eq_iff_iff]; simp [← UInt8.toNat_inj]
  rw [hz, UInt8.toNat_and, hm, Nat.and_two_pow]
  cases byte.toNat.testBit (7 - index % 8) <;> simp

theorem hasBit_setBit {bytes : List UInt8} {index : Nat} (h : index < 8 * bytes.length)
    (other : Nat) :
    hasBit (setBit bytes index) other ↔ hasBit bytes other ∨ other = index := by
  have hb : index / 8 < bytes.length := by omega
  by_cases hd : index / 8 = other / 8
  · have heq : index % 8 = other % 8 ↔ other = index := by omega
    have hmask : (wireMask index).toNat.testBit (7 - other % 8) ↔ other = index := by
      have : ∀ i < 8, ∀ j < 8, (wireMask i).toNat.testBit (7 - j) = decide (i = j) := by decide
      rw [← wireMask_mod, this _ (by omega) _ (by omega), decide_eq_true_iff, heq]
    simp only [hasBit, setBit, ← hd, List.getD_eq_getElem?_getD, List.getElem?_set_self hb,
      Option.getD_some, and_wireMask, UInt8.toNat_or, Nat.testBit_or, Bool.or_eq_true, hmask]
  · have hne : other ≠ index := fun h' => hd (by rw [h'])
    simp [hasBit, setBit, List.getD_eq_getElem?_getD, List.getElem?_set_ne hd, hne]

/-- Fixed-size set of piece indices, stored in BitTorrent wire order.  No bit is set
past `len`, so two bitfields of one length are equal when they hold the same indices. -/
structure Bitfield where
  bytes : List UInt8
  len : Nat
  size : bytes.length = (len + 7) / 8
  spare : ∀ index, len ≤ index → hasBit bytes index = false
  deriving DecidableEq

namespace Bitfield

def new (len : Nat) : Bitfield where
  bytes := List.replicate ((len + 7) / 8) 0
  len := len
  size := by simp
  spare index _ := hasBit_replicate_zero _ index

def has (field : Bitfield) (index : Nat) : Bool :=
  index < field.len && hasBit field.bytes index

/-- The flag is `false` when `index` is out of range; a bit that is already set gives `true`. -/
def set (field : Bitfield) (index : Nat) : Bool × Bitfield :=
  if h : index < field.len then
    (true,
      { bytes := setBit field.bytes index
        len := field.len
        size := by simp [setBit, field.size]
        spare := fun other ho => by
          have hs := field.size
          rw [Bool.eq_false_iff, ne_eq, hasBit_setBit (by omega), field.spare other ho]
          simp; omega })
  else (false, field)

def fromIndices (len : Nat) (indices : List Nat) : Bitfield :=
  indices.foldl (fun field index => (field.set index).2) (new len)

/-- A bitfield with every piece set.  The range ends at `len as u32`. -/
def full (len : Nat) : Bitfield := fromIndices len (List.range (len % 2 ^ 32))

def countOnes (byte : UInt8) : Nat := (List.range 8).countP (fun i => byte &&& wireMask i != 0)

def count (field : Bitfield) : Nat := (field.bytes.map countOnes).sum

def iterOnes (field : Bitfield) : List Nat := (List.range field.len).filter field.has

def spareClear (len : Nat) (payload : List UInt8) : Bool :=
  let spare := payload.length * 8 - len
  spare == 0 || payload.getLastD 0 &&& ((1 <<< UInt8.ofNat spare) - 1) == 0

theorem spare_of_spareClear {len : Nat} {payload : List UInt8}
    (hl : payload.length = (len + 7) / 8) (hs : spareClear len payload) (index : Nat)
    (hi : len ≤ index) : hasBit payload index = false := by
  rcases Nat.lt_or_ge index (8 * payload.length) with h | h
  · have hlast : payload.getLastD 0 = payload.getD (index / 8) 0 := by
      have : index / 8 = payload.length - 1 := by omega
      rw [this, List.getLastD_eq_getLast?, List.getLast?_eq_getElem?, List.getD_eq_getElem?_getD]
    have hm := wireMask_and_spare (payload.length * 8 - len) (by omega) (index % 8)
      (by omega) (by omega)
    rw [wireMask_mod] at hm
    have hz : payload.getD (index / 8) 0 &&&
        ((1 <<< UInt8.ofNat (payload.length * 8 - len)) - 1) = 0 := by
      have hne : payload.length * 8 - len ≠ 0 := by omega
      rw [← hlast]
      simpa [spareClear, hne] using hs
    simp only [hasBit, bne_eq_false_iff_eq]
    rw [← hm, UInt8.and_comm (wireMask index), ← UInt8.and_assoc, hz, UInt8.zero_and]
  · exact hasBit_eq_false_of_length_le h

/-- Parses a wire BITFIELD payload.  Rejects a wrong size or set spare bits. -/
def fromWire (len : Nat) (payload : List UInt8) : Option Bitfield :=
  if hl : payload.length = (len + 7) / 8 then
    if hs : spareClear len payload then
      some ⟨payload, len, hl, spare_of_spareClear hl hs⟩
    else none
  else none

@[simp] theorem len_new (len : Nat) : (new len).len = len := rfl

@[simp] theorem len_set (field : Bitfield) (index : Nat) : (field.set index).2.len = field.len := by
  unfold set; split <;> rfl

theorem has_lt {field : Bitfield} {index : Nat} (h : field.has index) : index < field.len := by
  simp only [has, Bool.and_eq_true, decide_eq_true_eq] at h
  exact h.1

theorem has_eq_hasBit (field : Bitfield) (index : Nat) :
    field.has index = hasBit field.bytes index := by
  rcases Nat.lt_or_ge index field.len with h | h
  · simp [has, h]
  · simp [has, field.spare index h]

@[simp] theorem has_new (len index : Nat) : (new len).has index = false := by
  simp [has_eq_hasBit, new, hasBit_replicate_zero]

@[simp] theorem set_fst (field : Bitfield) (index : Nat) :
    (field.set index).1 = decide (index < field.len) := by
  unfold set; split <;> simp_all

theorem has_set (field : Bitfield) (index other : Nat) :
    (field.set index).2.has other ↔ field.has other ∨ other = index ∧ index < field.len := by
  unfold set
  split
  case isTrue h =>
    have hs := field.size
    simp only [has_eq_hasBit, h, and_true]
    exact hasBit_setBit (by omega) other
  case isFalse h => simp [h]

@[simp] theorem len_foldl_set (indices : List Nat) (field : Bitfield) :
    (indices.foldl (fun field index => (field.set index).2) field).len = field.len := by
  induction indices generalizing field with
  | nil => rfl
  | cons i is ih => rw [List.foldl_cons, ih, len_set]

theorem has_foldl_set (indices : List Nat) (field : Bitfield) (index : Nat) :
    (indices.foldl (fun field index => (field.set index).2) field).has index ↔
      field.has index ∨ index ∈ indices ∧ index < field.len := by
  induction indices generalizing field with
  | nil => simp
  | cons i is ih =>
    rw [List.foldl_cons, ih, has_set, len_set, List.mem_cons]
    constructor
    · rintro ((h | ⟨rfl, h⟩) | ⟨h, hl⟩)
      · exact .inl h
      · exact .inr ⟨.inl rfl, h⟩
      · exact .inr ⟨.inr h, hl⟩
    · rintro (h | ⟨rfl | h, hl⟩)
      · exact .inl (.inl h)
      · exact .inl (.inr ⟨rfl, hl⟩)
      · exact .inr ⟨h, hl⟩

@[simp] theorem len_fromIndices (len : Nat) (indices : List Nat) :
    (fromIndices len indices).len = len := by simp [fromIndices]

@[simp] theorem has_fromIndices (len : Nat) (indices : List Nat) (index : Nat) :
    (fromIndices len indices).has index ↔ index ∈ indices ∧ index < len := by
  simp [fromIndices, has_foldl_set]

@[simp] theorem len_full (len : Nat) : (full len).len = len := len_fromIndices _ _

@[simp] theorem has_full (len index : Nat) : (full len).has index ↔ index < len % 2 ^ 32 := by
  have hle := Nat.mod_le len (2 ^ 32)
  rw [full, has_fromIndices, List.mem_range]
  exact and_iff_left_of_imp fun h => h.trans_le hle

@[simp] theorem mem_iterOnes {field : Bitfield} {index : Nat} :
    index ∈ field.iterOnes ↔ field.has index := by
  simp only [iterOnes, List.mem_filter, List.mem_range, and_iff_right_iff_imp]
  exact has_lt

theorem nodup_iterOnes (field : Bitfield) : field.iterOnes.Nodup :=
  List.nodup_range.filter _

theorem len_fromWire {len : Nat} {payload : List UInt8} {field : Bitfield}
    (h : fromWire len payload = some field) : field.len = len := by
  unfold fromWire at h
  split at h
  · split at h
    · cases h; rfl
    · cases h
  · cases h

theorem hasBit_byte (bytes : List UInt8) {k : Nat} (hk : k < bytes.length) {i : Nat} (hi : i < 8) :
    hasBit bytes (8 * k + i) = (bytes[k] &&& wireMask i != 0) := by
  rw [hasBit, show (8 * k + i) / 8 = k by omega, ← wireMask_mod,
    show (8 * k + i) % 8 = i by omega]
  simp [List.getD_eq_getElem?_getD, hk]

theorem count_eq_zero {field : Bitfield} : field.count = 0 ↔ ∀ index, field.has index = false := by
  have hc : field.count = 0 ↔ ∀ byte ∈ field.bytes, ∀ i < 8, (byte &&& wireMask i != 0) = false := by
    simp [count, countOnes, List.sum_eq_zero_iff_forall_eq_nat, List.countP_eq_zero]
  rw [hc]
  constructor
  · intro h index
    rw [has_eq_hasBit]
    rcases Nat.lt_or_ge (index / 8) field.bytes.length with hi | hi
    · rw [show index = 8 * (index / 8) + index % 8 by omega, hasBit_byte _ hi (by omega)]
      exact h _ (List.getElem_mem hi) _ (by omega)
    · exact hasBit_eq_false_of_length_le (by omega)
  · intro h byte hb i hi
    obtain ⟨k, hk, rfl⟩ := List.getElem_of_mem hb
    rw [← hasBit_byte _ hk hi, ← has_eq_hasBit, h]

theorem ext_has {a b : Bitfield} (hl : a.len = b.len) (h : ∀ index, a.has index = b.has index) :
    a = b := by
  have hsize : a.bytes.length = b.bytes.length := by rw [a.size, b.size, hl]
  have hbytes : a.bytes = b.bytes := by
    apply List.ext_getElem hsize
    intro k hk hk'
    rw [← UInt8.toNat_inj]
    apply Nat.eq_of_testBit_eq
    intro j
    rcases Nat.lt_or_ge j 8 with hj | hj
    · have := h (8 * k + (7 - j))
      rw [has_eq_hasBit, has_eq_hasBit, hasBit_byte _ hk (by omega), hasBit_byte _ hk' (by omega),
        and_wireMask, and_wireMask] at this
      simpa [show 7 - (7 - j) % 8 = j by omega] using this
    · have hlt (x : UInt8) : x.toNat < 2 ^ j :=
        Nat.lt_of_lt_of_le x.toNat_lt (Nat.pow_le_pow_right (by omega) hj)
      rw [Nat.testBit_lt_two_pow (hlt _), Nat.testBit_lt_two_pow (hlt _)]
  cases a; cases b; cases hl; cases hbytes; rfl

theorem and_spare_eq_zero {byte : UInt8} {spare : Nat} (hs : spare < 8)
    (h : ∀ i, i < 8 → 8 - spare ≤ i → (byte &&& wireMask i != 0) = false) :
    byte &&& ((1 <<< UInt8.ofNat spare) - 1) = 0 := by
  have hmask : ∀ s < 8, ((1 <<< UInt8.ofNat s : UInt8) - 1).toNat = 2 ^ s - 1 := by decide
  rw [← UInt8.toNat_inj, UInt8.toNat_and, hmask spare hs, Nat.and_two_pow_sub_one_eq_mod]
  apply Nat.eq_of_testBit_eq
  intro j
  rw [Nat.testBit_mod_two_pow]
  by_cases hj : j < spare
  · have := h (7 - j) (by omega) (by omega)
    rw [and_wireMask, show 7 - (7 - j) % 8 = j by omega] at this
    simp [this]
  · simp [hj]

theorem fromWire_bytes (field : Bitfield) : fromWire field.len field.bytes = some field := by
  have hsize := field.size
  have hs : spareClear field.len field.bytes := by
    by_cases hzero : field.bytes.length * 8 - field.len = 0
    · simp [spareClear, hzero]
    · have hk : field.bytes.length - 1 < field.bytes.length := by omega
      have hlast : field.bytes.getLastD 0 = field.bytes[field.bytes.length - 1] := by
        rw [List.getLastD_eq_getLast?, List.getLast?_eq_getElem?, List.getElem?_eq_getElem hk]
        rfl
      have hclear : field.bytes[field.bytes.length - 1] &&&
          ((1 <<< UInt8.ofNat (field.bytes.length * 8 - field.len)) - 1) = 0 :=
        and_spare_eq_zero (by omega) fun i hi hle => by
          rw [← hasBit_byte field.bytes hk hi]
          exact field.spare _ (by omega)
      rw [spareClear, hlast, hclear]
      simp
  simp [fromWire, hsize, hs]

end Bitfield
end Tortor.Core
