import Mathlib.Algebra.GroupWithZero.Nat
import Mathlib.Tactic.Common

/-! A quantity that is spread over the members of a list: what it is after one member changes,
and what bounds it. -/

namespace Tortor.Lib

universe u

variable {α : Type u} {l : List α} {i : Nat} {a b : α} {f : α → Nat}

def tally (f : α → Nat) (l : List α) : Nat := (l.map f).sum

@[simp] theorem tally_nil : tally f [] = 0 := rfl

@[simp] theorem tally_cons : tally f (a :: l) = f a + tally f l := by
  simp [tally]

@[simp] theorem tally_append (l k : List α) : tally f (l ++ k) = tally f l + tally f k := by
  simp [tally]

theorem tally_set (h : l[i]? = some a) (f : α → Nat) (b : α) :
    tally f (l.set i b) + f a = tally f l + f b := by
  induction l generalizing i with
  | nil => simp at h
  | cons c l ih =>
    cases i with
    | zero =>
      rw [List.getElem?_cons_zero, Option.some.injEq] at h
      simp only [List.set_cons_zero, tally_cons, h]
      omega
    | succ i =>
      have := ih (List.getElem?_cons_succ ▸ h)
      simp only [List.set_cons_succ, tally_cons]
      omega

theorem tally_set_of_eq (h : l[i]? = some a) (he : f b = f a) :
    tally f (l.set i b) = tally f l := by
  have := tally_set h f b
  omega

theorem tally_map {g : α → α} (h : ∀ a ∈ l, f (g a) = f a) : tally f (l.map g) = tally f l := by
  have hmap : l.map (f ∘ g) = l.map f := List.map_congr_left h
  rw [tally, tally, List.map_map, hmap]

theorem le_tally (h : a ∈ l) (f : α → Nat) : f a ≤ tally f l := by
  induction h with
  | head l => exact Nat.le_add_right _ _
  | tail b _ ih => exact Nat.le_trans ih (Nat.le_add_left _ _)

theorem tally_eq_zero : tally f l = 0 ↔ ∀ a ∈ l, f a = 0 := by
  simp [tally, List.sum_eq_zero_iff_forall_eq_nat]

/-- Where every member counts once or not at all, the tally counts members. -/
theorem tally_eq_countP {p : α → Bool} (h : ∀ a ∈ l, f a = (p a).toNat) :
    tally f l = l.countP p := by
  induction l with
  | nil => rfl
  | cons a l ih =>
    rw [tally_cons, h a List.mem_cons_self, ih fun b hb => h b (List.mem_cons_of_mem a hb),
      List.countP_cons]
    cases p a <;> simp [Nat.add_comm]

end Tortor.Lib
