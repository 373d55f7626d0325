import Mathlib.Data.List.Basic

/-! Records of fields of fixed width, one after the other, and where a field is found again. -/

namespace Tortor.Lib

universe u

variable {α : Type u}

def slice (l : List α) (start width : Nat) : List α := (l.drop start).take width

theorem slice_append_left {xs : List α} {width : Nat} (h : xs.length = width) (ys : List α) :
    slice (xs ++ ys) 0 width = xs := by
  rw [slice, List.drop_zero, List.take_left' h]

theorem slice_append_right {xs : List α} {start : Nat} (h : xs.length ≤ start) (ys : List α)
    (width : Nat) : slice (xs ++ ys) start width = slice ys (start - xs.length) width := by
  rw [slice, List.drop_append, List.drop_eq_nil_of_le h, List.nil_append, slice]

theorem slice_self {xs : List α} {width : Nat} (h : xs.length = width) : slice xs 0 width = xs := by
  rw [slice, List.drop_zero, ← h, List.take_length]

theorem slice_take {l : List α} {start width n : Nat} (h : start + width ≤ n) :
    slice (l.take n) start width = slice l start width := by
  rw [slice, slice, List.drop_take, List.take_take, Nat.min_eq_left (Nat.le_sub_of_add_le' h)]

theorem take_flatMap {β : Type u} {f : β → List α} {width : Nat} {l : List β}
    (h : ∀ x ∈ l, (f x).length = width) (n : Nat) :
    (l.flatMap f).take (width * n) = (l.take n).flatMap f := by
  induction l generalizing n with
  | nil => rw [List.flatMap_nil, List.take_nil, List.take_nil, List.flatMap_nil]
  | cons x l ih =>
    obtain ⟨hx, hl⟩ := List.forall_mem_cons.mp h
    cases n with
    | zero => rfl
    | succ n =>
      have hwidth : width * (n + 1) - (f x).length = width * n := by
        rw [hx, Nat.mul_succ, Nat.add_sub_cancel]
      rw [List.flatMap_cons, List.take_append, hwidth, ih hl, List.take_succ_cons,
        List.flatMap_cons, List.take_of_length_le (hx ▸ Nat.le_mul_of_pos_right width n.succ_pos)]

end Tortor.Lib
