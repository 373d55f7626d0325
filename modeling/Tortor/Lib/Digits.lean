import Mathlib.Data.Nat.Digits.Defs
import Mathlib.Tactic.Ring

/-! Numbers written with the most significant digit first, and a stream of digits packed into wider
ones while it is read. -/

namespace Tortor.Lib

namespace Digits

def value (base : Nat) (digits : List Nat) : Nat := Nat.ofDigits base digits.reverse

variable {base : Nat} {digits : List Nat}

@[simp] theorem value_nil (base : Nat) : value base [] = 0 := rfl

theorem value_append (base : Nat) (front back : List Nat) :
    value base (front ++ back) = value base front * base ^ back.length + value base back := by
  rw [value, List.reverse_append, Nat.ofDigits_append, List.length_reverse, ← value, ← value]
  ring

theorem value_concat (base : Nat) (digits : List Nat) (d : Nat) :
    value base (digits ++ [d]) = value base digits * base + d := by
  rw [value_append, List.length_singleton, Nat.pow_one, value, value, List.reverse_singleton,
    Nat.ofDigits_singleton]

theorem value_lt (hbase : 1 < base) (h : ∀ d ∈ digits, d < base) :
    value base digits < base ^ digits.length := by
  rw [value, ← List.length_reverse]
  exact Nat.ofDigits_lt_base_pow_length hbase fun d hd => h d (List.mem_reverse.mp hd)

theorem eq_of_value_eq (hbase : 1 < base) {others : List Nat} (hlen : digits.length = others.length)
    (hdigits : ∀ d ∈ digits, d < base) (hothers : ∀ d ∈ others, d < base)
    (h : value base digits = value base others) : digits = others := by
  apply List.reverse_inj.mp
  exact Nat.ofDigits_inj_of_len_eq hbase (by simpa using hlen)
    (fun d hd => hdigits d (List.mem_reverse.mp hd))
    (fun d hd => hothers d (List.mem_reverse.mp hd)) h

def write (base : Nat) : Nat → Nat → List Nat
  | 0, _ => []
  | n + 1, number => write base n (number / base) ++ [number % base]

@[simp] theorem length_write (base n number : Nat) : (write base n number).length = n := by
  induction n generalizing number with
  | zero => rfl
  | succ n ih => rw [write, List.length_append, ih, List.length_singleton]

theorem write_lt (hbase : 0 < base) (n number : Nat) : ∀ d ∈ write base n number, d < base := by
  induction n generalizing number with
  | zero => exact List.forall_mem_nil _
  | succ n ih =>
    intro d hd
    rw [write, List.mem_append, List.mem_singleton] at hd
    rcases hd with hd | rfl
    · exact ih _ d hd
    · exact Nat.mod_lt _ hbase

theorem value_write (base n number : Nat) :
    value base (write base n number) = number % base ^ n := by
  induction n generalizing number with
  | zero => rw [write, value_nil, Nat.pow_zero, Nat.mod_one]
  | succ n ih =>
    rw [write, value_concat, ih, Nat.pow_succ, Nat.mul_comm (base ^ n), Nat.mod_mul,
      Nat.mul_comm base, Nat.add_comm]

/-- Digits on their way from one width to a wider one: those that are complete, and the bits that
do not make one yet. -/
structure Packer where
  out : List Nat
  rest : Nat
  bits : Nat

def Packer.push (narrow wide : Nat) (p : Packer) (d : Nat) : Packer :=
  let rest := p.rest * 2 ^ narrow + d
  let bits := p.bits + narrow
  if wide ≤ bits then
    ⟨p.out ++ [rest / 2 ^ (bits - wide)], rest % 2 ^ (bits - wide), bits - wide⟩
  else ⟨p.out, rest, bits⟩

structure Packs (narrow wide : Nat) (digits : List Nat) (p : Packer) : Prop where
  value : value (2 ^ narrow) digits = value (2 ^ wide) p.out * 2 ^ p.bits + p.rest
  length : wide * p.out.length + p.bits = narrow * digits.length
  bits_lt : p.bits < wide
  rest_lt : p.rest < 2 ^ p.bits
  out_lt : ∀ d ∈ p.out, d < 2 ^ wide

variable {narrow wide : Nat} {p : Packer}

theorem Packs.start (hwide : 0 < wide) : Packs narrow wide [] ⟨[], 0, 0⟩ where
  value := rfl
  length := rfl
  bits_lt := hwide
  rest_lt := Nat.one_pos
  out_lt := List.forall_mem_nil _

theorem Packs.rest_lt_push (h : Packs narrow wide digits p) {d : Nat} (hd : d < 2 ^ narrow) :
    p.rest * 2 ^ narrow + d < 2 ^ (p.bits + narrow) := by
  calc p.rest * 2 ^ narrow + d < (p.rest + 1) * 2 ^ narrow := by
        rw [Nat.add_mul, Nat.one_mul]
        exact Nat.add_lt_add_left hd _
    _ ≤ 2 ^ p.bits * 2 ^ narrow := Nat.mul_le_mul_right _ h.rest_lt
    _ = 2 ^ (p.bits + narrow) := (Nat.pow_add _ _ _).symm

theorem Packs.push (h : Packs narrow wide digits p) (hle : narrow ≤ wide) {d : Nat}
    (hd : d < 2 ^ narrow) : Packs narrow wide (digits ++ [d]) (p.push narrow wide d) := by
  have hrest := h.rest_lt_push hd
  have hbits := h.bits_lt
  have hlength := h.length
  have hvalue : Digits.value (2 ^ narrow) (digits ++ [d]) =
      Digits.value (2 ^ wide) p.out * 2 ^ (p.bits + narrow) + (p.rest * 2 ^ narrow + d) := by
    rw [value_concat, h.value, Nat.pow_add]
    ring
  rw [Packer.push]
  split
  case isTrue hfull =>
    have hsplit : p.bits + narrow = wide + (p.bits + narrow - wide) := by omega
    refine ⟨?_, ?_, ?_, Nat.mod_lt _ (Nat.two_pow_pos _), ?_⟩
    · have hpow : 2 ^ (p.bits + narrow) = 2 ^ wide * 2 ^ (p.bits + narrow - wide) := by
        rw [← Nat.pow_add, ← hsplit]
      rw [hvalue, value_concat, hpow, Nat.add_mul, Nat.mul_assoc, Nat.add_assoc,
        Nat.mul_comm (_ / _), Nat.div_add_mod]
    · rw [List.length_append, List.length_append, List.length_singleton, List.length_singleton]
      simp only [Nat.mul_add, Nat.mul_one]
      omega
    · dsimp only
      omega
    · intro e he
      rw [List.mem_append, List.mem_singleton] at he
      rcases he with he | rfl
      · exact h.out_lt e he
      · rw [Nat.div_lt_iff_lt_mul (Nat.two_pow_pos _), ← Nat.pow_add, ← hsplit]
        exact hrest
  case isFalse hpart =>
    refine ⟨hvalue, ?_, Nat.not_le.mp hpart, hrest, h.out_lt⟩
    rw [List.length_append, List.length_singleton, Nat.mul_add, Nat.mul_one]
    dsimp only
    omega

theorem Packs.even (h : Packs narrow wide digits p) (hdvd : wide ∣ narrow * digits.length) :
    wide * p.out.length = narrow * digits.length ∧
      Digits.value (2 ^ wide) p.out = Digits.value (2 ^ narrow) digits := by
  have hbits : p.bits = 0 := by
    rw [← h.length, Nat.dvd_add_right (Nat.dvd_mul_right _ _)] at hdvd
    exact Nat.eq_zero_of_dvd_of_lt hdvd h.bits_lt
  have hrest : p.rest = 0 := by
    have hlt := h.rest_lt
    rw [hbits, Nat.pow_zero] at hlt
    exact Nat.lt_one_iff.mp hlt
  have hlength := h.length
  have hvalue := h.value
  rw [hbits, Nat.add_zero] at hlength
  rw [hbits, hrest, Nat.pow_zero, Nat.mul_one, Nat.add_zero] at hvalue
  exact ⟨hlength, hvalue.symm⟩

end Digits

end Tortor.Lib
