import Mathlib.Algebra.GroupWithZero.Nat
import Mathlib.Tactic.Common

/-! Arithmetic on unsigned machine words in which whatever would overflow, wrap, truncate or
divide by zero gives nothing.  A computation that gives a value here computes on the machine
what it computes on the numbers. -/

namespace Tortor.Lib.Checked

/-- A cast to `w` bits that would lose bits gives nothing. -/
def fit (w n : Nat) : Option Nat := if n < 2 ^ w then some n else none

def add (w a b : Nat) : Option Nat := fit w (a + b)

def mul (w a b : Nat) : Option Nat := fit w (a * b)

def sub (a b : Nat) : Option Nat := if b ≤ a then some (a - b) else none

def rem (a b : Nat) : Option Nat := if b = 0 then none else some (a % b)

variable {w a b n : Nat}

@[simp] theorem fit_of_lt (h : n < 2 ^ w) : fit w n = some n := if_pos h

@[simp] theorem add_of_lt (h : a + b < 2 ^ w) : add w a b = some (a + b) := fit_of_lt h

@[simp] theorem mul_of_lt (h : a * b < 2 ^ w) : mul w a b = some (a * b) := fit_of_lt h

@[simp] theorem sub_of_le (h : b ≤ a) : sub a b = some (a - b) := if_pos h

@[simp] theorem rem_of_pos (h : 0 < b) : rem a b = some (a % b) :=
  if_neg (Nat.pos_iff_ne_zero.mp h)

theorem mul_of_words {v : Nat} (ha : a < 2 ^ w) (hb : b < 2 ^ v) : mul (w + v) a b = some (a * b) :=
  mul_of_lt (by rw [Nat.pow_add]; exact Nat.mul_lt_mul'' ha hb)

end Tortor.Lib.Checked
