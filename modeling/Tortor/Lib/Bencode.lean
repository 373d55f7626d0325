import Mathlib.Data.List.Basic

/-! Bencoded values: how they are written down and how deeply they nest.  Nothing is asked of the
keys of a dictionary, neither their order nor that they differ. -/

namespace Tortor.Lib

inductive Bencode
  | int (n : Int)
  | str (bytes : List UInt8)
  | list (items : List Bencode)
  | dict (entries : List (List UInt8 × Bencode))

namespace Bencode

def digits (n : Nat) : List UInt8 := (Nat.toDigits 10 n).map fun c => UInt8.ofNat c.toNat

def encodeStr (bytes : List UInt8) : List UInt8 := digits bytes.length ++ 0x3a :: bytes

def encodeInt : Int → List UInt8
  | .ofNat n => digits n
  | .negSucc n => 0x2d :: digits (n + 1)

mutual

def encode : Bencode → List UInt8
  | .int n => 0x69 :: (encodeInt n ++ [0x65])
  | .str bytes => encodeStr bytes
  | .list items => 0x6c :: (encodeItems items ++ [0x65])
  | .dict entries => 0x64 :: (encodeEntries entries ++ [0x65])

def encodeItems : List Bencode → List UInt8
  | [] => []
  | v :: items => v.encode ++ encodeItems items

def encodeEntries : List (List UInt8 × Bencode) → List UInt8
  | [] => []
  | (key, v) :: entries => encodeStr key ++ (v.encode ++ encodeEntries entries)

end

mutual

def nesting : Bencode → Nat
  | .int _ | .str _ => 0
  | .list items => nestingItems items + 1
  | .dict entries => nestingEntries entries + 1

def nestingItems : List Bencode → Nat
  | [] => 0
  | v :: items => max v.nesting (nestingItems items)

def nestingEntries : List (List UInt8 × Bencode) → Nat
  | [] => 0
  | (_, v) :: entries => max v.nesting (nestingEntries entries)

end

mutual

/-- How many containers stand around the deepest value.  An empty container has no value in it. -/
def level : Bencode → Nat
  | .int _ | .str _ => 0
  | .list items => levelItems items
  | .dict entries => levelEntries entries

def levelItems : List Bencode → Nat
  | [] => 0
  | v :: items => max (v.level + 1) (levelItems items)

def levelEntries : List (List UInt8 × Bencode) → Nat
  | [] => 0
  | (_, v) :: entries => max (v.level + 1) (levelEntries entries)

end

/-- What holds of a value when it holds of its parts, and of the parts of a list or a dictionary. -/
theorem induct {P : Bencode → Prop} {Q : List Bencode → Prop}
    {R : List (List UInt8 × Bencode) → Prop} (int : ∀ n, P (.int n))
    (str : ∀ bytes, P (.str bytes)) (list : ∀ items, Q items → P (.list items))
    (dict : ∀ entries, R entries → P (.dict entries)) (nil : Q [])
    (cons : ∀ v items, P v → Q items → Q (v :: items)) (empty : R [])
    (entry : ∀ key v entries, P v → R entries → R ((key, v) :: entries)) :
    (∀ v, P v) ∧ (∀ items, Q items) ∧ ∀ entries, R entries := by
  have hentry (e : List UInt8 × Bencode) (entries : List (List UInt8 × Bencode)) (hv : P e.2)
      (h : R entries) : R (e :: entries) := entry e.1 e.2 entries hv h
  have hpair (_ : List UInt8) (v : Bencode) (hv : P v) : P v := hv
  exact ⟨@Bencode.rec P Q R (fun e => P e.2) int str list dict nil cons empty hentry hpair,
    @Bencode.rec_1 P Q R (fun e => P e.2) int str list dict nil cons empty hentry hpair,
    @Bencode.rec_2 P Q R (fun e => P e.2) int str list dict nil cons empty hentry hpair⟩

theorem digits_ne_nil (n : Nat) : digits n ≠ [] := by
  intro h
  exact Nat.toDigits_ne_nil (List.map_eq_nil_iff.mp h)

theorem digit_bounds {n : Nat} {b : UInt8} (h : b ∈ digits n) : 48 ≤ b.toNat ∧ b.toNat ≤ 57 := by
  obtain ⟨c, hc, rfl⟩ := List.mem_map.mp h
  have hdigit := Nat.isDigit_of_mem_toDigits (by decide) (by decide) hc
  obtain ⟨hlow, hhigh⟩ : 48 ≤ c.toNat ∧ c.toNat ≤ 57 := Char.isDigit_iff_toNat.mp hdigit
  rw [UInt8.toNat_ofNat', Nat.mod_eq_of_lt (by omega)]
  exact ⟨hlow, hhigh⟩

theorem foldl_digits (n : Nat) :
    (digits n).foldl (fun value digit => value * 10 + (digit.toNat - 48)) 0 = n := by
  have hread := Nat.ofDigitChars_ten_toDigits (n := n)
  rw [Nat.ofDigitChars_eq_foldl] at hread
  rw [digits, List.foldl_map]
  refine Eq.trans (List.foldl_ext _ _ 0 fun value c hc => ?_) hread
  have hdigit := Nat.isDigit_of_mem_toDigits (by decide) (by decide) hc
  obtain ⟨-, hhigh⟩ : 48 ≤ c.toNat ∧ c.toNat ≤ 57 := Char.isDigit_iff_toNat.mp hdigit
  rw [UInt8.toNat_ofNat', Nat.mod_eq_of_lt (by omega), Nat.mul_comm]
  rfl

theorem ne_of_mem_encodeInt {n : Int} {b : UInt8} (h : b ∈ encodeInt n) : b ≠ 0x65 := by
  have hdigits {m : Nat} (h : b ∈ digits m) : b ≠ 0x65 := by
    rintro rfl
    exact absurd (digit_bounds h).2 (by decide)
  cases n with
  | ofNat n => exact hdigits h
  | negSucc n =>
    rcases List.mem_cons.mp h with rfl | h
    · decide
    · exact hdigits h

theorem encode_ne_nil (v : Bencode) : v.encode ≠ [] := by
  cases v with
  | str bytes => simp [encode, encodeStr]
  | _ => simp [encode]

/-- The value in the last container counts its containers, an empty one is a container more. -/
theorem level_le_nesting (v : Bencode) : v.level ≤ v.nesting ∧ v.nesting ≤ v.level + 1 := by
  have hall := induct (P := fun v => v.level ≤ v.nesting ∧ v.nesting ≤ v.level + 1)
    (Q := fun items => levelItems items ≤ nestingItems items + 1 ∧
      nestingItems items ≤ levelItems items)
    (R := fun entries => levelEntries entries ≤ nestingEntries entries + 1 ∧
      nestingEntries entries ≤ levelEntries entries)
    (fun _ => by simp [level, nesting]) (fun _ => by simp [level, nesting])
    (fun items h => by simp only [level, nesting]; omega)
    (fun entries h => by simp only [level, nesting]; omega)
    (by simp [levelItems, nestingItems])
    (fun v items hv h => by simp only [levelItems, nestingItems]; omega)
    (by simp [levelEntries, nestingEntries])
    (fun key v entries hv h => by simp only [levelEntries, nestingEntries]; omega)
  exact hall.1 v

end Bencode
end Tortor.Lib
