import Mathlib.Data.List.Infix

/-! A stream between two parties.  What is written at one end comes out at the other, in order and
unchanged; when it comes out is up to whoever takes the steps, so nothing is said about time or
about the portions it travels in. -/

namespace Tortor.Lib

universe u

structure Pipe (α : Type u) where
  written : List α
  taken : Nat

namespace Pipe

variable {α : Type u} {p q : Pipe α} {xs ys zs : List α} {n : Nat}

def empty : Pipe α := ⟨[], 0⟩

def write (xs : List α) (p : Pipe α) : Pipe α := { p with written := p.written ++ xs }

/-- Reads exactly `n` items, once there are as many. -/
def readExact (n : Nat) (p : Pipe α) : Option (List α × Pipe α) :=
  if p.taken + n ≤ p.written.length then
    some ((p.written.drop p.taken).take n, { p with taken := p.taken + n })
  else none

@[simp] theorem taken_write (xs : List α) (p : Pipe α) : (p.write xs).taken = p.taken := rfl

@[simp] theorem written_write (xs : List α) (p : Pipe α) :
    (p.write xs).written = p.written ++ xs := rfl

@[simp] theorem write_nil (p : Pipe α) : p.write [] = p := by simp [write]

theorem readExact_eq_some : p.readExact n = some (xs, q) ↔
    p.taken + n ≤ p.written.length ∧ xs = (p.written.drop p.taken).take n ∧
      q = { p with taken := p.taken + n } := by
  unfold readExact
  split
  case isTrue h => simp [h, eq_comm]
  case isFalse h => simp [h]

theorem written_readExact (h : p.readExact n = some (xs, q)) : q.written = p.written := by
  obtain ⟨-, -, rfl⟩ := readExact_eq_some.mp h
  rfl

theorem taken_readExact (h : p.readExact n = some (xs, q)) :
    q.taken = p.taken + n ∧ q.taken ≤ q.written.length := by
  obtain ⟨hle, -, rfl⟩ := readExact_eq_some.mp h
  exact ⟨rfl, hle⟩

theorem length_readExact (h : p.readExact n = some (xs, q)) : xs.length = n := by
  obtain ⟨hle, rfl, -⟩ := readExact_eq_some.mp h
  rw [List.length_take, List.length_drop]
  omega

theorem readExact_first (h : p.readExact n = some (xs, q)) (htaken : p.taken = 0) :
    xs <+: p.written := by
  obtain ⟨-, rfl, -⟩ := readExact_eq_some.mp h
  rw [htaken, List.drop_zero]
  exact List.take_prefix n p.written

theorem readExact_prefix (h : p.readExact n = some (xs, q)) (htaken : p.taken = 0)
    (hys : ys <+: p.written) (hlen : ys.length = n) : xs = ys := by
  have hxs := readExact_first h htaken
  have heq : xs.length = ys.length := (length_readExact h).trans hlen.symm
  exact (List.prefix_of_prefix_length_le hxs hys (Nat.le_of_eq heq)).eq_of_length heq

/-- A reader that gets all that a writer will ever write has got all of it. -/
theorem readExact_within (h : p.readExact n = some (xs, q)) (htaken : p.taken = 0)
    (hys : p.written <+: ys) (hlen : ys.length = n) : xs = ys ∧ p.written = ys := by
  have hxs := readExact_first h htaken
  have heq : xs = ys := (hxs.trans hys).eq_of_length ((length_readExact h).trans hlen.symm)
  exact ⟨heq, hys.eq_of_length_le (heq ▸ hxs.length_le)⟩

end Pipe
end Tortor.Lib
