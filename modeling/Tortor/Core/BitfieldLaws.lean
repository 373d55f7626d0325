import Tortor.Core.Bitfield

/-! Bitfields however they were obtained: what their bytes are, and what they say. -/

namespace Tortor.Core

theorem hasBit_cons_add (byte : UInt8) (bytes : List UInt8) (index : Nat) :
    hasBit (byte :: bytes) (8 + index) = hasBit bytes index := by
  have hdiv : (8 + index) / 8 = index / 8 + 1 := by omega
  have hmod : (8 + index) % 8 = index % 8 := by omega
  rw [hasBit, hasBit, hdiv, List.getD_cons_succ, ← wireMask_mod (8 + index), hmod, wireMask_mod]

theorem countP_hasBit (bytes : List UInt8) :
    (List.range (8 * bytes.length)).countP (hasBit bytes) = (bytes.map Bitfield.countOnes).sum := by
  induction bytes with
  | nil => rfl
  | cons byte bytes ih =>
    have hfirst : (List.range 8).countP (hasBit (byte :: bytes)) = Bitfield.countOnes byte := by
      rw [Bitfield.countOnes]
      refine List.countP_congr fun index hindex => ?_
      rw [hasBit, Nat.div_eq_of_lt (List.mem_range.mp hindex), List.getD_cons_zero]
    have hrest : ((List.range (8 * bytes.length)).map (8 + ·)).countP (hasBit (byte :: bytes)) =
        (bytes.map Bitfield.countOnes).sum := by
      rw [List.countP_map, ← ih]
      refine List.countP_congr fun index _ => ?_
      rw [Function.comp_apply, hasBit_cons_add]
    rw [List.length_cons, Nat.mul_succ, Nat.add_comm, List.range_add, List.countP_append, hfirst,
      hrest, List.map_cons, List.sum_cons]

namespace Bitfield

theorem count_eq_length_iterOnes (field : Bitfield) : field.count = field.iterOnes.length := by
  have hspare : 8 * field.bytes.length = field.len + (8 * field.bytes.length - field.len) := by
    have hsize := field.size
    omega
  have hnone : ((List.range (8 * field.bytes.length - field.len)).map (field.len + ·)).countP
      (hasBit field.bytes) = 0 := by
    rw [List.countP_eq_zero, List.forall_mem_map]
    intro index _
    rw [field.spare _ (Nat.le_add_right _ _)]
    exact Bool.false_ne_true
  rw [count, ← countP_hasBit, hspare, List.range_add, List.countP_append, hnone, Nat.add_zero,
    iterOnes, ← List.countP_eq_length_filter]
  exact List.countP_congr fun index _ => by rw [has_eq_hasBit]

theorem iterOnes_increasing (field : Bitfield) : field.iterOnes.Pairwise (· < ·) :=
  List.pairwise_lt_range.filter _

theorem eq_iff_has {a b : Bitfield} (hlen : a.len = b.len) :
    a = b ↔ ∀ index, a.has index = b.has index :=
  ⟨fun h index => by rw [h], ext_has hlen⟩

inductive Obtained (len : Nat) : Bitfield → Prop
  | new : Obtained len (new len)
  | full : Obtained len (full len)
  | fromIndices (indices : List Nat) : Obtained len (fromIndices len indices)
  | fromWire {payload : List UInt8} {field : Bitfield} (h : fromWire len payload = some field) :
    Obtained len field
  | set {field : Bitfield} (h : Obtained len field) (index : Nat) : Obtained len (field.set index).2

theorem Obtained.len_eq {len : Nat} {field : Bitfield} (h : Obtained len field) :
    field.len = len := by
  induction h with
  | new => rfl
  | full => exact len_full len
  | fromIndices indices => exact len_fromIndices len indices
  | fromWire h => exact len_fromWire h
  | set h index ih => exact (len_set _ index).trans ih

theorem bytes_fromWire {len : Nat} {payload : List UInt8} {field : Bitfield}
    (h : fromWire len payload = some field) : field.bytes = payload := by
  unfold fromWire at h
  split at h
  · split at h
    · cases h
      rfl
    · cases h
  · cases h

theorem fromWire_isSome_iff (len : Nat) (payload : List UInt8) :
    (fromWire len payload).isSome ↔ ∃ field, Obtained len field ∧ field.bytes = payload := by
  rw [Option.isSome_iff_exists]
  constructor
  · rintro ⟨field, h⟩
    exact ⟨field, .fromWire h, bytes_fromWire h⟩
  · rintro ⟨field, h, rfl⟩
    exact ⟨field, h.len_eq ▸ fromWire_bytes field⟩

/-- The bytes of a bitfield are as many as its length needs, with nothing in the bits to spare, and
so they say the same as its indices. -/
theorem represents (len : Nat) :
    (∀ field, Obtained len field →
      field.bytes.length = (len + 7) / 8 ∧
      (∀ index, len ≤ index → index < 8 * field.bytes.length →
        hasBit field.bytes index = false) ∧
      field.count = field.iterOnes.length ∧
      field.iterOnes.Pairwise (· < ·) ∧
      (∀ index, index ∈ field.iterOnes ↔ field.has index) ∧
      (∀ other, Obtained len other → (field = other ↔ ∀ index, field.has index = other.has index)) ∧
      (∀ index, (field.set index).1 = decide (index < len) ∧
        ∀ other, (field.set index).2.has other ↔ field.has other ∨ other = index ∧ index < len) ∧
      fromWire len field.bytes = some field) ∧
    ∀ payload, (fromWire len payload).isSome ↔
      ∃ field, Obtained len field ∧ field.bytes = payload := by
  refine ⟨fun field hfield => ?_, fromWire_isSome_iff len⟩
  cases hfield.len_eq
  exact ⟨field.size, fun index hle _ => field.spare index hle, field.count_eq_length_iterOnes,
    field.iterOnes_increasing, fun _ => mem_iterOnes,
    fun other hother => eq_iff_has hother.len_eq.symm,
    fun index => ⟨field.set_fst index, field.has_set index⟩, fromWire_bytes field⟩

end Bitfield

end Tortor.Core
