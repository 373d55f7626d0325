import Mathlib.Algebra.GroupWithZero.Nat
import Mathlib.Tactic.Common

/-! Ranges that lie one behind the other.  Each element of the list has a begin and a length;
completion of the whole can be read off the bytes that are covered. -/

namespace Tortor.Lib

universe u v

variable {α : Type u} {β : Type v} {begin length : α → Nat} {done : α → Bool}

/-- The ranges of the list follow each other from the first offset to the last one. -/
inductive Tiling (begin length : α → Nat) : Nat → List α → Nat → Prop
  | nil (start : Nat) : Tiling begin length start [] start
  | cons {start stop : Nat} {a : α} {rest : List α} (hbegin : begin a = start)
      (hrest : Tiling begin length (start + length a) rest stop) :
      Tiling begin length start (a :: rest) stop

namespace Tiling

variable {start mid stop : Nat} {l l' : List α}

theorem add_sum (h : Tiling begin length start l stop) : start + (l.map length).sum = stop := by
  induction h with
  | nil => rfl
  | cons hbegin hrest ih =>
    rw [List.map_cons, List.sum_cons, ← Nat.add_assoc]
    exact ih

theorem append (h : Tiling begin length start l mid) (h' : Tiling begin length mid l' stop) :
    Tiling begin length start (l ++ l') stop := by
  induction h with
  | nil => exact h'
  | cons hbegin hrest ih => exact .cons hbegin (ih h')

theorem map (f : β → α) {l : List β} (h : Tiling (begin ∘ f) (length ∘ f) start l stop) :
    Tiling begin length start (l.map f) stop := by
  induction h with
  | nil => exact .nil _
  | cons hbegin hrest ih => exact .cons hbegin ih

theorem chunks (size total n : Nat) (hn : n * size < total + size) :
    Tiling (· * size) (fun i => min size (total - i * size)) 0 (List.range n)
      (min (n * size) total) := by
  induction n with
  | zero =>
    rw [Nat.zero_mul, Nat.zero_min]
    exact .nil 0
  | succ n ih =>
    have hlt : n * size < total := by
      rw [Nat.succ_mul] at hn
      omega
    have hfront := ih (by omega)
    rw [Nat.min_eq_left (Nat.le_of_lt hlt)] at hfront
    have hend : min ((n + 1) * size) total = n * size + min size (total - n * size) := by
      rw [Nat.succ_mul]
      omega
    rw [List.range_succ, hend]
    exact hfront.append (.cons rfl (.nil _))

theorem of_places (h : Tiling begin length start l stop)
    (hplaces : l'.map (fun a => (begin a, length a)) = l.map fun a => (begin a, length a)) :
    Tiling begin length start l' stop := by
  induction h generalizing l' with
  | nil start =>
    rw [List.map_eq_nil_iff.mp hplaces]
    exact .nil start
  | cons hbegin hrest ih =>
    obtain ⟨b, rest', rfl, hb, hrest'⟩ := List.map_eq_cons_iff.mp hplaces
    rw [Prod.mk.injEq] at hb
    rw [← hb.2] at ih
    exact .cons (hb.1.trans hbegin) (ih hrest')

theorem within (h : Tiling begin length start l stop) {a : α} (ha : a ∈ l) :
    start ≤ begin a ∧ begin a + length a ≤ stop := by
  induction h with
  | nil => cases ha
  | @cons start stop b rest hbegin hrest ih =>
    rcases List.mem_cons.mp ha with rfl | ha
    · have hsum := hrest.add_sum
      omega
    · obtain ⟨hle, hstop⟩ := ih ha
      omega

theorem exists_mem (h : Tiling begin length start l stop) {x : Nat} (hstart : start ≤ x)
    (hstop : x < stop) : ∃ a ∈ l, begin a ≤ x ∧ x < begin a + length a := by
  induction h with
  | nil => omega
  | @cons start stop b rest hbegin hrest ih =>
    by_cases hx : x < start + length b
    · exact ⟨b, List.mem_cons_self, by omega, by omega⟩
    · obtain ⟨a, ha, hin⟩ := ih (Nat.not_lt.mp hx) hstop
      exact ⟨a, List.mem_cons_of_mem b ha, hin⟩

theorem eq_of_mem (h : Tiling begin length start l stop) {a b : α} (ha : a ∈ l) (hb : b ∈ l)
    {x : Nat} (hxa : begin a ≤ x ∧ x < begin a + length a)
    (hxb : begin b ≤ x ∧ x < begin b + length b) : a = b := by
  induction h with
  | nil => cases ha
  | @cons start stop c rest hbegin hrest ih =>
    rcases List.mem_cons.mp ha with rfl | ha' <;> rcases List.mem_cons.mp hb with rfl | hb'
    · rfl
    · have hlater := hrest.within hb'
      omega
    · have hlater := hrest.within ha'
      omega
    · exact ih ha' hb'

theorem existsUnique (h : Tiling begin length start l stop) {x : Nat} (hstart : start ≤ x)
    (hstop : x < stop) : ∃! a, a ∈ l ∧ begin a ≤ x ∧ x < begin a + length a := by
  obtain ⟨a, ha, hin⟩ := h.exists_mem hstart hstop
  exact ⟨a, ⟨ha, hin⟩, fun b hb => h.eq_of_mem hb.1 ha hb.2 hin⟩

end Tiling

theorem sum_filter_le (l : List α) : ((l.filter done).map length).sum ≤ (l.map length).sum := by
  induction l with
  | nil => exact Nat.le_refl _
  | cons a l ih =>
    cases ha : done a with
    | false => simp [ha]; omega
    | true => simp [ha]; omega

/-- Where no range is empty, the covered total is the whole once every range is done. -/
theorem sum_filter_eq_iff {l : List α} (hpos : ∀ a ∈ l, 0 < length a) :
    ((l.filter done).map length).sum = (l.map length).sum ↔ ∀ a ∈ l, done a := by
  induction l with
  | nil => simp
  | cons a l ih =>
    have hrest := ih fun b hb => hpos b (List.mem_cons_of_mem a hb)
    have ha := hpos a List.mem_cons_self
    cases hdone : done a with
    | false =>
      have hle : ((l.filter done).map length).sum ≤ (l.map length).sum := sum_filter_le l
      simp [hdone]
      omega
    | true => simpa [hdone] using hrest

end Tortor.Lib
