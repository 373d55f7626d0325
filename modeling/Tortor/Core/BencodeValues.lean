import Tortor.Core.BencodeTokens
import Tortor.Lib.Bencode

/-! What the scanners make of a value that is written down as bencode demands, and how far into the
bytes the skipper looks. -/

namespace Tortor.Core

open Tortor.Lib

def tooDeep : Except TorrentParseError Nat := .error (.invalidBencode "bencode nesting is too deep")

theorem isAsciiDigit_of_mem_digits {n : Nat} {b : UInt8} (h : b ∈ Bencode.digits n) :
    isAsciiDigit b := by
  have hbounds := Bencode.digit_bounds h
  simp [isAsciiDigit, hbounds.1, hbounds.2]

theorem decimal_digits (n : Nat) : decimal (Bencode.digits n) = n := Bencode.foldl_digits n

theorem parseByteString_eq {digits content : List UInt8} (hne : digits ≠ [])
    (hdigits : ∀ b ∈ digits, isAsciiDigit b) (hlen : decimal digits = content.length)
    (pre rest : List UInt8)
    (hfits : (pre ++ (digits ++ 0x3a :: content ++ rest)).length < 2 ^ 64) :
    parseByteString (pre ++ (digits ++ 0x3a :: content ++ rest)) pre.length =
      .ok (content, pre.length + (digits ++ 0x3a :: content).length) := by
  have hrun : ((pre ++ (digits ++ 0x3a :: content ++ rest)).drop pre.length).takeWhile
      isAsciiDigit = digits := by
    rw [List.drop_left, List.append_assoc, List.cons_append]
    exact takeWhile_append_stop hdigits (by decide)
  have hcolon : (pre ++ (digits ++ 0x3a :: content ++ rest))[pre.length + digits.length]? =
      some 0x3a := by simp
  have hvalue : digits.foldl (fun len digit => len * 10 + (digit.toNat - 48)) 0 = content.length :=
    hlen
  have hempty : digits.isEmpty = false := by simpa using hne
  simp only [List.length_append, List.length_cons] at hfits
  simp only [parseByteString, hrun, hcolon, hvalue, hempty, ne_eq, not_true_eq_false,
    Bool.false_eq_true, if_false]
  rw [if_neg (by omega), if_neg (by omega), if_neg (by simp; omega)]
  congr 2
  · have hcut : pre ++ (digits ++ 0x3a :: content ++ rest) =
        (pre ++ digits ++ [0x3a]) ++ content ++ rest := by simp
    have hstart : (pre ++ digits ++ [(0x3a : UInt8)]).length = pre.length + digits.length + 1 := by
      simp only [List.length_append, List.length_singleton]
    rw [hcut, List.take_left' (by simp; omega), List.drop_left' hstart]
  · simp
    omega

theorem parseByteString_encodeStr (content pre rest : List UInt8)
    (hfits : (pre ++ (Bencode.encodeStr content ++ rest)).length < 2 ^ 64) :
    parseByteString (pre ++ (Bencode.encodeStr content ++ rest)) pre.length =
      .ok (content, pre.length + (Bencode.encodeStr content).length) :=
  parseByteString_eq (Bencode.digits_ne_nil _) (fun _ => isAsciiDigit_of_mem_digits)
    (decimal_digits _) pre rest hfits

theorem skipBencodeValue_deep {bytes : List UInt8} {fuel start depth : Nat}
    (h : MAX_BENCODE_DEPTH < depth) : skipBencodeValue bytes (fuel + 1) start depth = tooDeep := by
  rw [skipBencodeValue, if_pos h]
  rfl

theorem skipBencodeValue_int {body : List UInt8} (hbody : ∀ b ∈ body, b ≠ 0x65)
    (pre rest : List UInt8) (fuel : Nat) {depth : Nat} (hdepth : depth ≤ MAX_BENCODE_DEPTH) :
    skipBencodeValue (pre ++ (0x69 :: (body ++ [0x65]) ++ rest)) (fuel + 1) pre.length depth =
      .ok (pre.length + (0x69 :: (body ++ [0x65])).length) := by
  have hbyte : (pre ++ (0x69 :: (body ++ [0x65]) ++ rest))[pre.length]? = some 0x69 := by simp
  have hcut : pre ++ (0x69 :: (body ++ [0x65]) ++ rest) = (pre ++ [0x69]) ++ (body ++ 0x65 :: rest) := by
    simp
  have hstart : (pre ++ [(0x69 : UInt8)]).length = pre.length + 1 := by
    simp only [List.length_append, List.length_singleton]
  have hrun : ((pre ++ (0x69 :: (body ++ [0x65]) ++ rest)).drop (pre.length + 1)).takeWhile
      (· ≠ 0x65) = body := by
    rw [hcut, List.drop_left' hstart]
    exact takeWhile_append_stop (by simpa using hbody) (by simp)
  simp only [skipBencodeValue, Nat.not_lt.mpr hdepth, hbyte, hrun, if_false, if_true]
  rw [if_neg (by simp; omega)]
  simp only [List.length_cons, List.length_append, List.length_nil]
  congr 1
  omega

theorem skipBencodeValue_encodeStr (content pre rest : List UInt8) (fuel : Nat) {depth : Nat}
    (hdepth : depth ≤ MAX_BENCODE_DEPTH)
    (hfits : (pre ++ (Bencode.encodeStr content ++ rest)).length < 2 ^ 64) :
    skipBencodeValue (pre ++ (Bencode.encodeStr content ++ rest)) (fuel + 1) pre.length depth =
      .ok (pre.length + (Bencode.encodeStr content).length) := by
  obtain ⟨digit, more, hdigits⟩ :=
    List.exists_cons_of_ne_nil (Bencode.digits_ne_nil content.length)
  have hdigit : isAsciiDigit digit :=
    isAsciiDigit_of_mem_digits (hdigits ▸ List.mem_cons_self)
  have hbyte : (pre ++ (Bencode.encodeStr content ++ rest))[pre.length]? = some digit := by
    simp [Bencode.encodeStr, hdigits]
  have hother {b : UInt8} (hb : isAsciiDigit b = false) : digit ≠ b := fun he => by
    rw [he, hb] at hdigit
    cases hdigit
  simp only [skipBencodeValue, Nat.not_lt.mpr hdepth, hbyte, hother (b := 0x69) (by decide),
    hother (b := 0x6c) (by decide), hother (b := 0x64) (by decide), hdigit, if_false, if_true]
  rw [parseByteString_encodeStr content pre rest hfits]
  rfl

theorem encode_head (v : Bencode) : ∃ b more, v.encode = b :: more ∧ b ≠ 0x65 := by
  cases v with
  | str content =>
    obtain ⟨digit, more, hdigits⟩ :=
      List.exists_cons_of_ne_nil (Bencode.digits_ne_nil content.length)
    refine ⟨digit, more ++ 0x3a :: content, by simp [Bencode.encode, Bencode.encodeStr, hdigits], ?_⟩
    rintro rfl
    exact absurd (Bencode.digit_bounds (hdigits ▸ List.mem_cons_self)).2 (by decide)
  | _ => exact ⟨_, _, rfl, by decide⟩

theorem skipBencodeList_close (pre rest : List UInt8) (fuel depth : Nat) :
    skipBencodeList (pre ++ 0x65 :: rest) (fuel + 1) pre.length depth = .ok (pre.length + 1) := by
  have hbyte : (pre ++ 0x65 :: rest)[pre.length]? = some 0x65 := by simp
  simp only [skipBencodeList, hbyte, if_true]

theorem skipBencodeDict_close (pre rest : List UInt8) (fuel depth : Nat) :
    skipBencodeDict (pre ++ 0x65 :: rest) (fuel + 1) pre.length depth = .ok (pre.length + 1) := by
  have hbyte : (pre ++ 0x65 :: rest)[pre.length]? = some 0x65 := by simp
  simp only [skipBencodeDict, hbyte, if_true]

def skipped (deepest stop : Nat) : Except TorrentParseError Nat :=
  if deepest ≤ MAX_BENCODE_DEPTH then .ok stop else tooDeep

/-- The skipper at an encoded value, and its loops at what is left of a list or a dictionary. -/
def SkipsValue (v : Bencode) : Prop :=
  ∀ (pre rest : List UInt8) (fuel depth : Nat), (pre ++ (v.encode ++ rest)).length < 2 ^ 64 →
    2 * v.encode.length ≤ fuel →
      skipBencodeValue (pre ++ (v.encode ++ rest)) fuel pre.length depth =
        skipped (depth + v.level) (pre.length + v.encode.length)

def SkipsItems (items : List Bencode) : Prop :=
  ∀ (pre rest : List UInt8) (fuel depth : Nat), depth ≤ MAX_BENCODE_DEPTH →
    (pre ++ (Bencode.encodeItems items ++ 0x65 :: rest)).length < 2 ^ 64 →
      2 * (Bencode.encodeItems items).length + 1 ≤ fuel →
        skipBencodeList (pre ++ (Bencode.encodeItems items ++ 0x65 :: rest)) fuel pre.length depth =
          skipped (depth + Bencode.levelItems items)
            (pre.length + (Bencode.encodeItems items).length + 1)

def SkipsEntries (entries : List (List UInt8 × Bencode)) : Prop :=
  ∀ (pre rest : List UInt8) (fuel depth : Nat), depth ≤ MAX_BENCODE_DEPTH →
    (pre ++ (Bencode.encodeEntries entries ++ 0x65 :: rest)).length < 2 ^ 64 →
      2 * (Bencode.encodeEntries entries).length + 1 ≤ fuel →
        skipBencodeDict (pre ++ (Bencode.encodeEntries entries ++ 0x65 :: rest)) fuel pre.length
            depth =
          skipped (depth + Bencode.levelEntries entries)
            (pre.length + (Bencode.encodeEntries entries).length + 1)

theorem skipsValue_list {items : List Bencode} (h : SkipsItems items) :
    SkipsValue (.list items) := by
  intro pre rest fuel depth hfits hfuel
  simp only [Bencode.encode, List.length_cons, List.length_append, List.length_nil] at hfits hfuel ⊢
  obtain ⟨fuel, rfl⟩ : ∃ n, fuel = n + 1 := ⟨fuel - 1, by omega⟩
  by_cases hdepth : depth ≤ MAX_BENCODE_DEPTH
  · have hbyte : (pre ++ (0x6c :: (Bencode.encodeItems items ++ [0x65]) ++ rest))[pre.length]? =
        some 0x6c := by simp
    have hcut : pre ++ (0x6c :: (Bencode.encodeItems items ++ [0x65]) ++ rest) =
        (pre ++ [0x6c]) ++ (Bencode.encodeItems items ++ 0x65 :: rest) := by simp
    have hnext := h (pre ++ [0x6c]) rest fuel depth hdepth (by simp; omega) (by omega)
    rw [← hcut, List.length_append, List.length_singleton] at hnext
    simp only [skipBencodeValue, Nat.not_lt.mpr hdepth, hbyte, if_false, if_true]
    rw [if_neg (by decide), hnext, Bencode.level]
    congr 1
    omega
  · rw [skipBencodeValue_deep (Nat.not_le.mp hdepth), skipped, if_neg (by omega)]

theorem skipsValue_dict {entries : List (List UInt8 × Bencode)} (h : SkipsEntries entries) :
    SkipsValue (.dict entries) := by
  intro pre rest fuel depth hfits hfuel
  simp only [Bencode.encode, List.length_cons, List.length_append, List.length_nil] at hfits hfuel ⊢
  obtain ⟨fuel, rfl⟩ : ∃ n, fuel = n + 1 := ⟨fuel - 1, by omega⟩
  by_cases hdepth : depth ≤ MAX_BENCODE_DEPTH
  · have hbyte : (pre ++ (0x64 :: (Bencode.encodeEntries entries ++ [0x65]) ++ rest))[pre.length]? =
        some 0x64 := by simp
    have hcut : pre ++ (0x64 :: (Bencode.encodeEntries entries ++ [0x65]) ++ rest) =
        (pre ++ [0x64]) ++ (Bencode.encodeEntries entries ++ 0x65 :: rest) := by simp
    have hnext := h (pre ++ [0x64]) rest fuel depth hdepth (by simp; omega) (by omega)
    rw [← hcut, List.length_append, List.length_singleton] at hnext
    simp only [skipBencodeValue, Nat.not_lt.mpr hdepth, hbyte, if_false, if_true]
    rw [if_neg (by decide), if_neg (by decide), hnext, Bencode.level]
    congr 1
    omega
  · rw [skipBencodeValue_deep (Nat.not_le.mp hdepth), skipped, if_neg (by omega)]

theorem skipsItems_cons {v : Bencode} {items : List Bencode} (hv : SkipsValue v)
    (h : SkipsItems items) : SkipsItems (v :: items) := by
  intro pre rest fuel depth hdepth hfits hfuel
  simp only [Bencode.encodeItems, List.append_assoc, List.length_append, List.length_cons]
    at hfits hfuel ⊢
  obtain ⟨fuel, rfl⟩ : ∃ n, fuel = n + 1 := ⟨fuel - 1, by omega⟩
  obtain ⟨b, more, hhead, hb⟩ := encode_head v
  have hpos : 0 < v.encode.length := by simp [hhead]
  have hbyte : (pre ++ (v.encode ++ (Bencode.encodeItems items ++ 0x65 :: rest)))[pre.length]? =
      some b := by simp [hhead]
  have hvalue := hv pre (Bencode.encodeItems items ++ 0x65 :: rest) fuel (depth + 1)
    (by simp; omega) (by omega)
  have hnext := h (pre ++ v.encode) rest fuel depth hdepth (by simp; omega) (by omega)
  rw [List.append_assoc, List.length_append] at hnext
  simp only [skipBencodeList, hbyte, hb, if_false, hvalue, Bencode.levelItems]
  by_cases hlevel : depth + 1 + v.level ≤ MAX_BENCODE_DEPTH
  · simp only [skipped, if_pos hlevel] at hnext ⊢
    rw [hnext]
    by_cases hrest : depth + Bencode.levelItems items ≤ MAX_BENCODE_DEPTH
    · rw [if_pos hrest, if_pos (by omega)]
      congr 1
      omega
    · rw [if_neg hrest, if_neg (by omega)]
  · simp only [skipped, if_neg hlevel, tooDeep]
    rw [if_neg (by omega)]

theorem skipsEntries_cons {key : List UInt8} {v : Bencode} {entries : List (List UInt8 × Bencode)}
    (hv : SkipsValue v) (h : SkipsEntries entries) : SkipsEntries ((key, v) :: entries) := by
  intro pre rest fuel depth hdepth hfits hfuel
  simp only [Bencode.encodeEntries, List.append_assoc, List.length_append, List.length_cons]
    at hfits hfuel ⊢
  obtain ⟨fuel, rfl⟩ : ∃ n, fuel = n + 1 := ⟨fuel - 1, by omega⟩
  obtain ⟨b, more, hhead, hb⟩ := encode_head (.str key)
  have hbyte : (pre ++ (Bencode.encodeStr key ++ (v.encode ++
      (Bencode.encodeEntries entries ++ 0x65 :: rest))))[pre.length]? = some b := by
    rw [Bencode.encode] at hhead
    simp [hhead]
  have hpos : 0 < v.encode.length := List.length_pos_of_ne_nil (Bencode.encode_ne_nil v)
  have hkey := parseByteString_encodeStr key pre
    (v.encode ++ (Bencode.encodeEntries entries ++ 0x65 :: rest)) (by simp; omega)
  have hvalue := hv (pre ++ Bencode.encodeStr key) (Bencode.encodeEntries entries ++ 0x65 :: rest)
    fuel (depth + 1) (by simp; omega) (by omega)
  have hnext := h (pre ++ Bencode.encodeStr key ++ v.encode) rest fuel depth hdepth
    (by simp; omega) (by omega)
  simp only [List.append_assoc, List.length_append] at hvalue hnext
  simp only [skipBencodeDict, hbyte, hb, if_false, hkey, hvalue, Bencode.levelEntries]
  by_cases hlevel : depth + 1 + v.level ≤ MAX_BENCODE_DEPTH
  · simp only [skipped, if_pos hlevel] at hnext ⊢
    simp only [Nat.add_assoc] at hnext ⊢
    rw [hnext]
    by_cases hrest : depth + Bencode.levelEntries entries ≤ MAX_BENCODE_DEPTH
    · rw [if_pos hrest, if_pos (by omega)]
    · rw [if_neg hrest, if_neg (by omega)]
  · simp only [skipped, if_neg hlevel, tooDeep]
    rw [if_neg (by omega)]

/-- The induction on the value runs along with the recursion of the skipper. -/
theorem skips (v : Bencode) : SkipsValue v := by
  have hint (n : Int) : SkipsValue (.int n) := by
    intro pre rest fuel depth hfits hfuel
    have hpos : 0 < fuel := by
      simp only [Bencode.encode, List.length_cons] at hfuel
      omega
    obtain ⟨fuel, rfl⟩ : ∃ n, fuel = n + 1 := ⟨fuel - 1, by omega⟩
    by_cases hdepth : depth ≤ MAX_BENCODE_DEPTH
    · rw [Bencode.encode, skipBencodeValue_int (fun b => Bencode.ne_of_mem_encodeInt) pre rest fuel
        hdepth, skipped, Bencode.level, if_pos (by omega)]
    · rw [skipBencodeValue_deep (Nat.not_le.mp hdepth), skipped, if_neg (by omega)]
  have hstr (content : List UInt8) : SkipsValue (.str content) := by
    intro pre rest fuel depth hfits hfuel
    have hpos : 0 < fuel := by
      have := List.length_pos_of_ne_nil (Bencode.encode_ne_nil (.str content))
      omega
    obtain ⟨fuel, rfl⟩ : ∃ n, fuel = n + 1 := ⟨fuel - 1, by omega⟩
    by_cases hdepth : depth ≤ MAX_BENCODE_DEPTH
    · rw [Bencode.encode] at hfits ⊢
      rw [skipBencodeValue_encodeStr content pre rest fuel hdepth hfits, skipped, Bencode.level,
        if_pos (by omega)]
    · rw [skipBencodeValue_deep (Nat.not_le.mp hdepth), skipped, if_neg (by omega)]
  have hnil : SkipsItems [] := by
    intro pre rest fuel depth hdepth hfits hfuel
    obtain ⟨fuel, rfl⟩ : ∃ n, fuel = n + 1 := ⟨fuel - 1, by omega⟩
    exact (skipBencodeList_close pre rest fuel depth).trans (if_pos hdepth).symm
  have hempty : SkipsEntries [] := by
    intro pre rest fuel depth hdepth hfits hfuel
    obtain ⟨fuel, rfl⟩ : ∃ n, fuel = n + 1 := ⟨fuel - 1, by omega⟩
    exact (skipBencodeDict_close pre rest fuel depth).trans (if_pos hdepth).symm
  exact (Bencode.induct hint hstr (fun _ => skipsValue_list) (fun _ => skipsValue_dict) hnil
    (fun _ _ => skipsItems_cons) hempty (fun _ _ _ => skipsEntries_cons)).1 v

theorem bencodeValueLen_encode (v : Bencode) (rest : List UInt8)
    (hfits : (v.encode ++ rest).length < 2 ^ 64) :
    bencodeValueLen (v.encode ++ rest) = skipped v.level v.encode.length := by
  have h := skips v [] rest (2 * (v.encode ++ rest).length + 2) 0 hfits
    (by rw [List.length_append]; omega)
  simpa [bencodeValueLen] using h

end Tortor.Core
