import Tortor.Core.BencodeValues
import Tortor.Core.BencodeWords

/-! The info dictionary is found, the end of a value is found, and the check of the nesting keeps
the recursive scanner shallow. -/

namespace Tortor.Core

open Tortor.Lib

section

variable {bytes other : List UInt8} {start stop : Nat}

theorem getElem?_of_take (hsame : other.take stop = bytes.take stop) {i : Nat} {b : UInt8}
    (hbyte : bytes[i]? = some b) (hi : i < stop) : other[i]? = some b := by
  rw [← List.getElem?_take_of_lt hi, hsame, List.getElem?_take_of_lt hi, hbyte]

theorem take_of_le (hsame : other.take stop = bytes.take stop) {less : Nat} (hle : less ≤ stop) :
    other.take less = bytes.take less := by
  have h := congrArg (List.take less) hsame
  rwa [List.take_take, List.take_take, Nat.min_eq_left hle] at h

theorem le_length_of_take (hsame : other.take stop = bytes.take stop)
    (hstop : stop ≤ bytes.length) : stop ≤ other.length := by
  have h := congrArg List.length hsame
  simp only [List.length_take] at h
  omega

theorem slice_of_take (hsame : other.take stop = bytes.take stop) (start : Nat) :
    slice other start stop = slice bytes start stop := by
  rw [slice, slice, hsame]

theorem eq_append_of_take (hsame : other.take stop = bytes.take stop) (hle : start ≤ stop)
    (hstop : stop ≤ bytes.length) :
    ∃ pre rest, pre.length = start ∧ other = pre ++ (slice bytes start stop ++ rest) := by
  have hother := le_length_of_take hsame hstop
  refine ⟨other.take start, other.drop stop, List.length_take_of_le (by omega), ?_⟩
  rw [← slice_of_take hsame start]
  exact eq_append_slice hle

theorem parseByteString_of_take {content : List UInt8}
    (h : parseByteString bytes start = .ok (content, stop))
    (hsame : other.take stop = bytes.take stop) (hfits : other.length < 2 ^ 63) :
    parseByteString other start = .ok (content, stop) := by
  have hbounds := parseByteString_bounds h
  obtain ⟨digits, hne, hdigits, hlen, htext⟩ := slice_byteString h
  obtain ⟨pre, rest, rfl, rfl⟩ := eq_append_of_take hsame (Nat.le_of_lt hbounds.1) hbounds.2
  have hlength := congrArg List.length htext
  rw [length_slice hbounds.2] at hlength
  rw [htext] at hfits ⊢
  rw [parseByteString_eq hne hdigits hlen pre rest (by omega), ← hlength]
  congr 2
  omega

theorem skipInt_of_take {depth more : Nat} (hbyte : bytes[start]? = some 0x69)
    (hlt : start + 1 + ((bytes.drop (start + 1)).takeWhile (· ≠ 0x65)).length < bytes.length)
    (hstop : stop = start + 1 + ((bytes.drop (start + 1)).takeWhile (· ≠ 0x65)).length + 1)
    (hdepth : depth ≤ MAX_BENCODE_DEPTH) (hsame : other.take stop = bytes.take stop) :
    skipBencodeValue other (more + 1) start depth = .ok stop := by
  obtain ⟨body, hbody, htext⟩ := slice_int hbyte hlt
  rw [← hstop] at htext
  have hbounds : start ≤ stop ∧ stop ≤ bytes.length := by omega
  obtain ⟨pre, rest, rfl, rfl⟩ := eq_append_of_take hsame hbounds.1 hbounds.2
  have hlength := congrArg List.length htext
  rw [length_slice hbounds.2] at hlength
  rw [htext, skipBencodeValue_int hbody pre rest more hdepth, ← hlength]
  congr 1
  omega

def SkipsSame (bytes other : List UInt8) (extra : Nat)
    (skip skipOther : Nat → Nat → Nat → Except TorrentParseError Nat) (fuel : Nat) : Prop :=
  ∀ start depth stop, skip fuel start depth = .ok stop → other.take stop = bytes.take stop →
    ∀ more, 2 * (stop - start) + extra ≤ more → skipOther more start depth = .ok stop

structure SkipsLocally (bytes other : List UInt8) (fuel : Nat) : Prop where
  value : SkipsSame bytes other 0 (skipBencodeValue bytes) (skipBencodeValue other) fuel
  list : SkipsSame bytes other 1 (skipBencodeList bytes) (skipBencodeList other) fuel
  dict : SkipsSame bytes other 1 (skipBencodeDict bytes) (skipBencodeDict other) fuel

section

variable {fuel : Nat} (hfits : other.length < 2 ^ 63) (ih : SkipsLocally bytes other fuel)

include hfits ih

theorem skipsLocally_value : SkipsSame bytes other 0 (skipBencodeValue bytes)
    (skipBencodeValue other) (fuel + 1) := by
  intro start depth stop h hsame more hmore
  have hbounds := skip_bounds h
  obtain ⟨n, byte, hn, hdepth, hbyte, hcases⟩ := skipBencodeValue_ok h
  obtain rfl := Nat.succ.inj hn
  obtain ⟨more, rfl⟩ : ∃ n, more = n + 1 := ⟨more - 1, by omega⟩
  have hother := getElem?_of_take hsame hbyte hbounds.1
  rcases hcases with ⟨rfl, hlt, hstop⟩ | ⟨rfl, hrest⟩ | ⟨rfl, hrest⟩ | ⟨hdigit, content, hstring⟩
  · exact skipInt_of_take hbyte hlt hstop hdepth hsame
  · simp only [skipBencodeValue, Nat.not_lt.mpr hdepth, hother, if_false, if_true]
    rw [if_neg (by decide)]
    exact ih.list _ _ _ hrest hsame more (by omega)
  · simp only [skipBencodeValue, Nat.not_lt.mpr hdepth, hother, if_false, if_true]
    rw [if_neg (by decide), if_neg (by decide)]
    exact ih.dict _ _ _ hrest hsame more (by omega)
  · have hne {b : UInt8} (hb : isAsciiDigit b = false) : byte ≠ b := fun he => by
      rw [he, hb] at hdigit
      cases hdigit
    simp only [skipBencodeValue, Nat.not_lt.mpr hdepth, hother, hne (b := 0x69) (by decide),
      hne (b := 0x6c) (by decide), hne (b := 0x64) (by decide), hdigit, if_false, if_true]
    rw [parseByteString_of_take hstring hsame hfits]
    rfl

omit hfits in
theorem skipsLocally_list : SkipsSame bytes other 1 (skipBencodeList bytes)
    (skipBencodeList other) (fuel + 1) := by
  intro index depth stop h hsame more hmore
  have hle := ((spelled_of_skip bytes (fuel + 1)).2.1 _ _ _ h).le
  obtain ⟨n, byte, hn, hbyte, hcases⟩ := skipBencodeList_ok h
  obtain rfl := Nat.succ.inj hn
  obtain ⟨more, rfl⟩ : ∃ n, more = n + 1 := ⟨more - 1, by omega⟩
  rcases hcases with ⟨rfl, rfl⟩ | ⟨hbyte', next, hnext, hrest⟩
  · simp only [skipBencodeList, getElem?_of_take hsame hbyte (Nat.lt_succ_self index), if_true]
  · have hvalue := skip_bounds hnext
    have hrestLe := ((spelled_of_skip bytes fuel).2.1 _ _ _ hrest).le
    simp only [skipBencodeList, getElem?_of_take hsame hbyte (by omega), hbyte', if_false]
    rw [ih.value _ _ _ hnext (take_of_le hsame hrestLe) more (by omega)]
    exact ih.list _ _ _ hrest hsame more (by omega)

theorem skipsLocally_dict : SkipsSame bytes other 1 (skipBencodeDict bytes)
    (skipBencodeDict other) (fuel + 1) := by
  intro index depth stop h hsame more hmore
  have hle := ((spelled_of_skip bytes (fuel + 1)).2.2 _ _ _ h).le
  obtain ⟨n, byte, hn, hbyte, hcases⟩ := skipBencodeDict_ok h
  obtain rfl := Nat.succ.inj hn
  obtain ⟨more, rfl⟩ : ∃ n, more = n + 1 := ⟨more - 1, by omega⟩
  rcases hcases with ⟨rfl, rfl⟩ | ⟨hbyte', key, keyEnd, next, hkey, hnext, hrest⟩
  · simp only [skipBencodeDict, getElem?_of_take hsame hbyte (Nat.lt_succ_self index), if_true]
  · have hkeyEnd := parseByteString_bounds hkey
    have hvalue := skip_bounds hnext
    have hrestLe := ((spelled_of_skip bytes fuel).2.2 _ _ _ hrest).le
    simp only [skipBencodeDict, getElem?_of_take hsame hbyte (by omega), hbyte', if_false]
    rw [parseByteString_of_take hkey (take_of_le hsame (by omega)) hfits]
    simp only
    rw [ih.value _ _ _ hnext (take_of_le hsame hrestLe) more (by omega)]
    exact ih.dict _ _ _ hrest hsame more (by omega)

end

theorem skipsLocally (bytes : List UInt8) (hfits : other.length < 2 ^ 63) (fuel : Nat) :
    SkipsLocally bytes other fuel := by
  induction fuel with
  | zero =>
    refine ⟨fun _ _ _ h => ?_, fun _ _ _ h => ?_, fun _ _ _ h => ?_⟩
    · obtain ⟨n, -, hn, -⟩ := skipBencodeValue_ok h
      cases hn
    · obtain ⟨n, -, hn, -⟩ := skipBencodeList_ok h
      cases hn
    · obtain ⟨n, -, hn, -⟩ := skipBencodeDict_ok h
      cases hn
  | succ fuel ih =>
    exact ⟨skipsLocally_value hfits ih, skipsLocally_list ih, skipsLocally_dict hfits ih⟩

theorem bencodeValueLen_of_take {n : Nat} (h : bencodeValueLen bytes = .ok n)
    (hsame : other.take n = bytes.take n) (hfits : other.length < 2 ^ 63) :
    bencodeValueLen other = .ok n := by
  have hlen := le_length_of_take hsame (skip_bounds h).2
  exact (skipsLocally bytes hfits _).value _ _ _ h hsame _ (by omega)

end

/-- The check, `depth` containers deep at `index`, finds nothing wrong. -/
def Passes (bytes : List UInt8) (index depth : Nat) : Prop :=
  ∃ fuel, bytes.length < index + fuel ∧ checkDepthLoop bytes fuel index depth = .ok ()

section

variable {bytes : List UInt8} {index start stop depth : Nat}

theorem Passes.token (token : Token) (h : Passes bytes start depth)
    (hfits : bytes.length < 2 ^ 63) (hlt : start < stop) (hstop : stop ≤ bytes.length)
    (htext : TokenText token (slice bytes start stop)) :
    match token with
    | .opening => depth + 1 ≤ MAX_BENCODE_DEPTH ∧ Passes bytes stop (depth + 1)
    | .closing => Passes bytes stop (depth - 1)
    | .leaf => Passes bytes stop depth := by
  obtain ⟨fuel, hfuel, hcheck⟩ := h
  obtain ⟨fuel, rfl⟩ : ∃ n, fuel = n + 1 := ⟨fuel - 1, by omega⟩
  have hcut : bytes = bytes.take start ++ (slice bytes start stop ++ bytes.drop stop) :=
    eq_append_slice (Nat.le_of_lt hlt)
  have hpre : (bytes.take start).length = start := List.length_take_of_le (by omega)
  have hround := checkDepthLoop_token htext (bytes.take start) (bytes.drop stop)
    (by rw [← hcut]; omega) fuel depth
  have hnext : (bytes.take start ++ slice bytes start stop).length = stop := by
    rw [List.length_append, hpre, length_slice hstop]
    omega
  rw [← hcut, hpre, hnext, hcheck] at hround
  have hmore : bytes.length < stop + fuel := by omega
  cases token with
  | opening =>
    simp only at hround ⊢
    split at hround
    · cases hround
    case isFalse hle => exact ⟨Nat.not_lt.mp hle, fuel, hmore, hround.symm⟩
  | closing => exact ⟨fuel, hmore, hround.symm⟩
  | leaf => exact ⟨fuel, hmore, hround.symm⟩

theorem Passes.byteString {content : List UInt8} (h : Passes bytes start depth)
    (hfits : bytes.length < 2 ^ 63) (hstring : parseByteString bytes start = .ok (content, stop)) :
    Passes bytes stop depth :=
  h.token .leaf hfits (parseByteString_bounds hstring).1 (parseByteString_bounds hstring).2
    (token_byteString hstring)

theorem Passes.close (h : Passes bytes index (depth + 1)) (hfits : bytes.length < 2 ^ 63)
    (hbyte : bytes[index]? = some 0x65) : Passes bytes (index + 1) depth :=
  h.token .closing hfits (Nat.lt_succ_self index) (List.getElem?_eq_some_iff.mp hbyte).1
    (by rw [slice_byte hbyte]; exact .close)

theorem Passes.open {byte : UInt8} (h : Passes bytes index depth) (hfits : bytes.length < 2 ^ 63)
    (hbyte : bytes[index]? = some byte) (hopen : TokenText .opening [byte]) :
    depth + 1 ≤ MAX_BENCODE_DEPTH ∧ Passes bytes (index + 1) (depth + 1) :=
  h.token .opening hfits (Nat.lt_succ_self index) (List.getElem?_eq_some_iff.mp hbyte).1
    (by rw [slice_byte hbyte]; exact hopen)

def KeepsStep (bytes : List UInt8) (depth : Nat) (result : Except TorrentParseError Nat) : Prop :=
  result ≠ tooDeep ∧ ∀ stop, result = .ok stop → Passes bytes stop depth

theorem keepsStep_error {error : TorrentParseError}
    (h : error ≠ .invalidBencode "bencode nesting is too deep") :
    KeepsStep bytes depth (.error error) := by
  refine ⟨fun he => h (Except.error.inj he), fun next hnext => ?_⟩
  cases hnext

theorem keepsStep_ok (h : Passes bytes stop depth) : KeepsStep bytes depth (.ok stop) := by
  refine ⟨fun he => ?_, fun next hnext => ?_⟩
  · cases he
  · cases hnext
    exact h

theorem parseByteString_error {error : TorrentParseError}
    (h : parseByteString bytes start = .error error) :
    error ≠ .invalidBencode "bencode nesting is too deep" := by
  rintro rfl
  simp only [parseByteString] at h
  repeat' split at h
  all_goals simp at h

structure SkipsInStep (bytes : List UInt8) (fuel : Nat) : Prop where
  value : ∀ start depth, depth ≤ MAX_BENCODE_DEPTH → Passes bytes start depth →
    KeepsStep bytes depth (skipBencodeValue bytes fuel start depth)
  list : ∀ index depth, depth + 1 ≤ MAX_BENCODE_DEPTH → Passes bytes index (depth + 1) →
    KeepsStep bytes depth (skipBencodeList bytes fuel index depth)
  dict : ∀ index depth, depth + 1 ≤ MAX_BENCODE_DEPTH → Passes bytes index (depth + 1) →
    KeepsStep bytes depth (skipBencodeDict bytes fuel index depth)

section

variable {fuel : Nat} (hfits : bytes.length < 2 ^ 63) (ih : SkipsInStep bytes fuel)

include hfits ih

theorem skipsInStep_value (hdepth : depth ≤ MAX_BENCODE_DEPTH) (h : Passes bytes start depth) :
    KeepsStep bytes depth (skipBencodeValue bytes (fuel + 1) start depth) := by
  rw [skipBencodeValue, if_neg (Nat.not_lt.mpr hdepth)]
  cases hbyte : bytes[start]? with
  | none => exact keepsStep_error (by simp)
  | some byte =>
  simp only
  split
  case isTrue hint =>
    subst hint
    split
    · exact keepsStep_error (by simp)
    case isFalse hlt =>
      have hlt := Nat.not_le.mp hlt
      exact keepsStep_ok (h.token .leaf hfits (by omega) hlt (token_int hbyte hlt))
  split
  case isTrue hopen =>
    subst hopen
    have hnext := h.open hfits hbyte .list
    exact ih.list _ _ hnext.1 hnext.2
  split
  case isTrue hopen =>
    subst hopen
    have hnext := h.open hfits hbyte .dict
    exact ih.dict _ _ hnext.1 hnext.2
  split
  · cases hstring : parseByteString bytes start with
    | error error => exact keepsStep_error (parseByteString_error hstring)
    | ok found => exact keepsStep_ok (h.byteString hfits hstring)
  · exact keepsStep_error (by simp)

theorem skipsInStep_list (hdepth : depth + 1 ≤ MAX_BENCODE_DEPTH)
    (h : Passes bytes index (depth + 1)) :
    KeepsStep bytes depth (skipBencodeList bytes (fuel + 1) index depth) := by
  rw [skipBencodeList]
  cases hbyte : bytes[index]? with
  | none => exact keepsStep_error (by simp)
  | some byte =>
  simp only
  split
  case isTrue hend =>
    subst hend
    exact keepsStep_ok (h.close hfits hbyte)
  obtain ⟨hdeep, hpass⟩ := ih.value _ _ hdepth h
  cases hnext : skipBencodeValue bytes fuel index (depth + 1) with
  | error error =>
    exact keepsStep_error fun he => hdeep (hnext.trans (congrArg Except.error he))
  | ok next => exact ih.list _ _ hdepth (hpass next hnext)

theorem skipsInStep_dict (hdepth : depth + 1 ≤ MAX_BENCODE_DEPTH)
    (h : Passes bytes index (depth + 1)) :
    KeepsStep bytes depth (skipBencodeDict bytes (fuel + 1) index depth) := by
  rw [skipBencodeDict]
  cases hbyte : bytes[index]? with
  | none => exact keepsStep_error (by simp)
  | some byte =>
  simp only
  split
  case isTrue hend =>
    subst hend
    exact keepsStep_ok (h.close hfits hbyte)
  cases hkey : parseByteString bytes index with
  | error error => exact keepsStep_error (parseByteString_error hkey)
  | ok found =>
  obtain ⟨hdeep, hpass⟩ := ih.value _ _ hdepth (h.byteString hfits hkey)
  simp only
  cases hnext : skipBencodeValue bytes fuel found.2 (depth + 1) with
  | error error =>
    exact keepsStep_error fun he => hdeep (hnext.trans (congrArg Except.error he))
  | ok next => exact ih.dict _ _ hdepth (hpass next hnext)

end

theorem skipsInStep (hfits : bytes.length < 2 ^ 63) (fuel : Nat) : SkipsInStep bytes fuel := by
  induction fuel with
  | zero =>
    refine ⟨fun _ _ _ _ => ?_, fun _ _ _ _ => ?_, fun _ _ _ _ => ?_⟩
    · rw [skipBencodeValue]
      exact keepsStep_error (by simp)
    · rw [skipBencodeList]
      exact keepsStep_error (by simp)
    · rw [skipBencodeDict]
      exact keepsStep_error (by simp)
  | succ fuel ih =>
    exact {
      value := fun _ _ => skipsInStep_value hfits ih
      list := fun _ _ => skipsInStep_list hfits ih
      dict := fun _ _ => skipsInStep_dict hfits ih }

theorem bencodeValueLen_of_check (hfits : bytes.length < 2 ^ 63)
    (hcheck : checkBencodeDepth bytes = .ok ()) : bencodeValueLen bytes ≠ tooDeep :=
  ((skipsInStep hfits _).value 0 0 (Nat.zero_le _) ⟨_, by omega, hcheck⟩).1

end

/-- Behind the check no recursion is too deep, whatever the bytes are. -/
theorem check_keeps_skip_shallow (bytes : List UInt8) (hfits : bytes.length < 2 ^ 63) :
    ∃ checked, checkBencodeDepthWords bytes = some checked ∧
      (checked = .ok () → ∃ result, bencodeValueLenWords bytes = some result ∧
        result ≠ .error (.invalidBencode "bencode nesting is too deep")) :=
  ⟨_, checkBencodeDepthWords_eq hfits, fun hcheck =>
    ⟨_, bencodeValueLenWords_eq hfits, bencodeValueLen_of_check hfits hcheck⟩⟩

theorem check_keeps_skip_shallow_unterminated :
    ∃ checked, checkBencodeDepthWords (0x6c :: List.replicate 30 0x39) = some checked ∧
      (checked = .ok () →
        ∃ result, bencodeValueLenWords (0x6c :: List.replicate 30 0x39) = some result ∧
          result ≠ .error (.invalidBencode "bencode nesting is too deep")) :=
  check_keeps_skip_shallow _ (by decide)

/-! What the check makes of a value that is written down as bencode demands. -/

mutual

def valueTokens : Bencode → List Token
  | .int _ | .str _ => [.leaf]
  | .list items => .opening :: (itemTokens items ++ [.closing])
  | .dict entries => .opening :: (entryTokens entries ++ [.closing])

def itemTokens : List Bencode → List Token
  | [] => []
  | v :: items => valueTokens v ++ itemTokens items

def entryTokens : List (List UInt8 × Bencode) → List Token
  | [] => []
  | (_, v) :: entries => .leaf :: (valueTokens v ++ entryTokens entries)

end

theorem tokenText_encodeStr (content : List UInt8) :
    TokenText .leaf (Bencode.encodeStr content) :=
  .string (Bencode.digits_ne_nil _) (fun _ => isAsciiDigit_of_mem_digits) (decimal_digits _)

theorem spells_container {tokens : List Token} {text : List UInt8} {b : UInt8}
    (hopen : TokenText .opening [b]) (h : Spells tokens text) :
    Spells (.opening :: (tokens ++ [.closing])) (b :: (text ++ [0x65])) :=
  .cons hopen (h.append TokenText.close.spells)

theorem spells_encode (v : Bencode) : Spells (valueTokens v) v.encode :=
  (Bencode.induct (P := fun v => Spells (valueTokens v) v.encode)
    (Q := fun items => Spells (itemTokens items) (Bencode.encodeItems items))
    (R := fun entries => Spells (entryTokens entries) (Bencode.encodeEntries entries))
    (fun _ => (TokenText.int fun _ => Bencode.ne_of_mem_encodeInt).spells)
    (fun content => (tokenText_encodeStr content).spells)
    (fun _ h => spells_container .list h) (fun _ h => spells_container .dict h) .nil
    (fun _ _ hv h => hv.append h) .nil
    (fun key _ _ hv h => .cons (tokenText_encodeStr key) (hv.append h))).1 v

/-- The check follows a value down to its deepest container and comes back to where it was. -/
def ShallowAround (nesting : Nat) (tokens : List Token) : Prop :=
  ∀ depth rest, depth ≤ MAX_BENCODE_DEPTH →
    (Shallow depth (tokens ++ rest) ↔ depth + nesting ≤ MAX_BENCODE_DEPTH ∧ Shallow depth rest)

theorem shallowAround_leaf : ShallowAround 0 [.leaf] := by
  intro depth rest hdepth
  simp [Shallow, hdepth]

theorem ShallowAround.append {n m : Nat} {ts us : List Token} (hts : ShallowAround n ts)
    (hus : ShallowAround m us) : ShallowAround (max n m) (ts ++ us) := by
  intro depth rest hdepth
  rw [List.append_assoc, hts depth _ hdepth, hus depth _ hdepth]
  constructor
  · rintro ⟨hn, hm, hrest⟩
    exact ⟨by omega, hrest⟩
  · rintro ⟨hboth, hrest⟩
    exact ⟨by omega, by omega, hrest⟩

theorem ShallowAround.container {n : Nat} {tokens : List Token} (h : ShallowAround n tokens) :
    ShallowAround (n + 1) (.opening :: (tokens ++ [.closing])) := by
  intro depth rest hdepth
  rw [List.cons_append, Shallow, List.append_assoc]
  constructor
  · rintro ⟨hdeeper, hrest⟩
    obtain ⟨hn, hclosed⟩ := (h (depth + 1) _ hdeeper).mp hrest
    exact ⟨by omega, hclosed⟩
  · rintro ⟨hn, hrest⟩
    have hdeeper : depth + 1 ≤ MAX_BENCODE_DEPTH := by omega
    exact ⟨hdeeper, (h (depth + 1) _ hdeeper).mpr ⟨by omega, hrest⟩⟩

theorem shallowAround_nil : ShallowAround 0 [] := by
  intro depth rest hdepth
  simp [hdepth]

theorem shallowAround_value (v : Bencode) : ShallowAround v.nesting (valueTokens v) := by
  refine (Bencode.induct (P := fun v => ShallowAround v.nesting (valueTokens v))
    (Q := fun items => ShallowAround (Bencode.nestingItems items) (itemTokens items))
    (R := fun entries => ShallowAround (Bencode.nestingEntries entries) (entryTokens entries))
    (fun _ => shallowAround_leaf) (fun _ => shallowAround_leaf) (fun _ h => h.container)
    (fun _ h => h.container) shallowAround_nil (fun _ _ hv h => hv.append h) shallowAround_nil
    fun key v entries hv h => ?_).1 v
  have hentry := shallowAround_leaf.append (hv.append h)
  rwa [Nat.zero_max] at hentry

theorem checkBencodeDepth_encode (v : Bencode) (hfits : v.encode.length < 2 ^ 63) :
    checkBencodeDepth v.encode = .ok () ↔ v.nesting ≤ MAX_BENCODE_DEPTH := by
  have hspells := spells_encode v
  have hshallow := shallowAround_value v 0 [] (Nat.zero_le _)
  rw [List.append_nil, Nat.zero_add] at hshallow
  constructor
  · intro hcheck
    have hle := hspells.length_le
    have hround : checkDepthLoop ([] ++ (v.encode ++ [])) (v.encode.length + 1) 0 0 = .ok () := by
      simpa [checkBencodeDepth] using hcheck
    exact (hshallow.mp (shallow_of_check hspells [] [] (by simp; omega) (by omega) hround)).1
  · intro hnesting
    exact check_of_shallow hspells [] (by simp; omega) (hshallow.mpr ⟨hnesting, trivial⟩)

theorem bencodeValueLen_encode_ok (v : Bencode) (hfits : v.encode.length < 2 ^ 63) :
    (∃ n, bencodeValueLen v.encode = .ok n) ↔ v.level ≤ MAX_BENCODE_DEPTH := by
  have hlen := bencodeValueLen_encode v [] (by simp; omega)
  rw [List.append_nil] at hlen
  rw [hlen, skipped, tooDeep]
  split
  case isTrue h => simp [h]
  case isFalse h => simp [h]

/-- The two guards differ on the values with a container too many in which nothing stands. -/
theorem guards_agree_iff (v : Bencode) (hfits : v.encode.length < 2 ^ 63) :
    ((checkBencodeDepth v.encode = .ok () ↔ ∃ n, bencodeValueLen v.encode = .ok n) ∧
      ((∃ n, bencodeValueLen v.encode = .ok n) ↔ v.nesting ≤ MAX_BENCODE_DEPTH)) ↔
        ¬ (v.nesting = MAX_BENCODE_DEPTH + 1 ∧ v.level = MAX_BENCODE_DEPTH) := by
  have hlevel := v.level_le_nesting
  rw [checkBencodeDepth_encode v hfits, bencodeValueLen_encode_ok v hfits]
  omega

def emptyLists (n : Nat) : Bencode := Nat.repeat (fun v => .list [v]) n (.list [])

theorem guards_agree_at_limit :
    (checkBencodeDepth (emptyLists 63).encode = .ok () ↔
        ∃ n, bencodeValueLen (emptyLists 63).encode = .ok n) ∧
      ((∃ n, bencodeValueLen (emptyLists 63).encode = .ok n) ↔
        (emptyLists 63).nesting ≤ MAX_BENCODE_DEPTH) :=
  (guards_agree_iff (emptyLists 63) (by decide +kernel)).mpr (by decide +kernel)

theorem guards_disagree_above_limit :
    ¬ ∀ v : Bencode, v.encode.length < 2 ^ 63 →
      (checkBencodeDepth v.encode = .ok () ↔ ∃ n, bencodeValueLen v.encode = .ok n) ∧
        ((∃ n, bencodeValueLen v.encode = .ok n) ↔ v.nesting ≤ MAX_BENCODE_DEPTH) := by
  intro h
  have hfits : (emptyLists 64).encode.length < 2 ^ 63 := by decide +kernel
  have hnesting := (h (emptyLists 64) hfits).2.mp
    ((bencodeValueLen_encode_ok _ hfits).mpr (by decide +kernel))
  exact absurd hnesting (by decide +kernel)

def infoValue (entries : List (List UInt8 × Bencode)) : Except TorrentParseError (List UInt8) :=
  match entries.find? (·.1 = INFO_KEY) with
  | some entry => .ok entry.2.encode
  | none => .error .missingInfoDictionary

theorem extractLoop_entry (key : List UInt8) (v : Bencode) (pre tail : List UInt8) (fuel : Nat)
    (hlevel : v.level ≤ MAX_BENCODE_DEPTH)
    (hfits : (pre ++ (Bencode.encodeStr key ++ (v.encode ++ tail))).length < 2 ^ 63) :
    extractLoop (pre ++ (Bencode.encodeStr key ++ (v.encode ++ tail))) (fuel + 1) pre.length =
      if key = INFO_KEY then .ok v.encode
      else extractLoop (pre ++ (Bencode.encodeStr key ++ (v.encode ++ tail))) fuel
        (pre ++ Bencode.encodeStr key ++ v.encode).length := by
  obtain ⟨bytes, hbytes⟩ : ∃ bytes, bytes = pre ++ (Bencode.encodeStr key ++ (v.encode ++ tail)) :=
    ⟨_, rfl⟩
  have hlength := congrArg List.length hbytes
  simp only [List.length_append] at hlength hfits ⊢
  obtain ⟨b, more, hhead, hb⟩ := encode_head (.str key)
  have hbyte : bytes[pre.length]? = some b := by
    rw [Bencode.encode] at hhead
    simp [hbytes, hhead]
  have hkey : parseByteString bytes pre.length =
      .ok (key, pre.length + (Bencode.encodeStr key).length) := by
    rw [hbytes]
    exact parseByteString_encodeStr key pre _ (by rw [← hbytes]; omega)
  have hvalue : skipBencodeValue bytes (2 * bytes.length + 2)
      (pre.length + (Bencode.encodeStr key).length) 0 =
        .ok (pre.length + (Bencode.encodeStr key).length + v.encode.length) := by
    have hskips := skips v (pre ++ Bencode.encodeStr key) tail (2 * bytes.length + 2) 0
      (by rw [List.append_assoc, ← hbytes]; omega) (by omega)
    rwa [List.append_assoc, ← hbytes, skipped, if_pos (by omega), List.length_append] at hskips
  have hslice : slice bytes (pre.length + (Bencode.encodeStr key).length)
      (pre.length + (Bencode.encodeStr key).length + v.encode.length) = v.encode := by
    have hdrop : bytes.drop (pre.length + (Bencode.encodeStr key).length) = v.encode ++ tail := by
      rw [hbytes, ← List.append_assoc, ← List.length_append, List.drop_left]
    exact slice_of_drop hdrop
  rw [← hbytes, extractLoop, hbyte]
  simp only [hb, if_false, hkey, hvalue, hslice]

theorem extractLoop_encode (entries : List (List UInt8 × Bencode)) (pre rest : List UInt8)
    {fuel : Nat} (hnesting : ∀ entry ∈ entries, entry.2.nesting ≤ MAX_BENCODE_DEPTH)
    (hfits : (pre ++ (Bencode.encodeEntries entries ++ 0x65 :: rest)).length < 2 ^ 63)
    (hfuel : (Bencode.encodeEntries entries).length < fuel) :
    extractLoop (pre ++ (Bencode.encodeEntries entries ++ 0x65 :: rest)) fuel pre.length =
      infoValue entries := by
  induction entries generalizing pre fuel with
  | nil =>
    obtain ⟨fuel, rfl⟩ : ∃ n, fuel = n + 1 := ⟨fuel - 1, by omega⟩
    simp [Bencode.encodeEntries, extractLoop, infoValue]
  | cons entry entries ih =>
    obtain ⟨key, v⟩ := entry
    obtain ⟨fuel, rfl⟩ : ∃ n, fuel = n + 1 := ⟨fuel - 1, by omega⟩
    have hnested : v.nesting ≤ MAX_BENCODE_DEPTH := hnesting (key, v) List.mem_cons_self
    have hlevel := v.level_le_nesting.1.trans hnested
    simp only [Bencode.encodeEntries, List.append_assoc] at hfits hfuel ⊢
    rw [extractLoop_entry key v pre _ fuel hlevel hfits]
    by_cases hinfo : key = INFO_KEY
    · rw [if_pos hinfo, infoValue, List.find?_cons_of_pos (by simpa using hinfo)]
    · have hpos : 0 < v.encode.length := List.length_pos_of_ne_nil (Bencode.encode_ne_nil v)
      have hless : (Bencode.encodeEntries entries).length < fuel := by
        simp only [List.length_append] at hfuel
        omega
      have hrest := ih (pre ++ Bencode.encodeStr key ++ v.encode)
        (fun entry hentry => hnesting entry (List.mem_cons_of_mem _ hentry))
        (by simpa only [List.append_assoc] using hfits) hless
      rw [if_neg hinfo, infoValue.eq_def ((key, v) :: entries),
        List.find?_cons_of_neg (by simpa using hinfo), ← infoValue, ← hrest]
      simp only [List.append_assoc]

/-- Nothing before the entry `info`, and nothing behind it, is taken for it. -/
theorem extractInfoDictionarySlice_encode (entries : List (List UInt8 × Bencode))
    (rest : List UInt8) (hnesting : ∀ entry ∈ entries, entry.2.nesting ≤ MAX_BENCODE_DEPTH)
    (hfits : ((Bencode.dict entries).encode ++ rest).length < 2 ^ 63) :
    extractInfoDictionarySlice ((Bencode.dict entries).encode ++ rest) = infoValue entries := by
  have hcut : (Bencode.dict entries).encode ++ rest =
      [0x64] ++ (Bencode.encodeEntries entries ++ 0x65 :: rest) := by
    simp [Bencode.encode]
  rw [hcut] at hfits ⊢
  have hfuel : (Bencode.encodeEntries entries).length <
      ([0x64] ++ (Bencode.encodeEntries entries ++ 0x65 :: rest)).length := by
    simp only [List.length_append, List.length_cons]
    omega
  rw [extractInfoDictionarySlice, if_neg (by simp)]
  exact extractLoop_encode entries [0x64] rest hnesting hfits hfuel

theorem infix_of_extractInfoDictionarySlice {bytes found : List UInt8}
    (h : extractInfoDictionarySlice bytes = .ok found) : found <:+: bytes := by
  rw [extractInfoDictionarySlice] at h
  split at h
  · cases h
  · obtain ⟨start, stop, -, -, rfl⟩ := spelled_of_extractLoop h
    exact (List.drop_suffix start (bytes.take stop)).isInfix.trans
      (List.take_prefix stop bytes).isInfix

theorem infoValue_missing_iff (entries : List (List UInt8 × Bencode)) :
    infoValue entries = .error .missingInfoDictionary ↔ ∀ entry ∈ entries, entry.1 ≠ INFO_KEY := by
  rw [infoValue]
  cases hfind : entries.find? (·.1 = INFO_KEY) with
  | none =>
    rw [List.find?_eq_none] at hfind
    exact ⟨fun _ entry hentry => by simpa using hfind entry hentry, fun _ => rfl⟩
  | some entry =>
    have hinfo : entry.1 = INFO_KEY := by simpa using List.find?_some hfind
    refine ⟨fun h => ?_, fun h => absurd hinfo (h entry (List.mem_of_find?_eq_some hfind))⟩
    cases h

/-- The info slice is the first entry `info` as it was written, and always a part of the bytes. -/
theorem info_slice_exact :
    (∀ (entries : List (List UInt8 × Bencode)) (rest : List UInt8),
      (∀ entry ∈ entries, entry.2.nesting ≤ MAX_BENCODE_DEPTH) →
      ((Bencode.dict entries).encode ++ rest).length < 2 ^ 63 →
        extractInfoDictionarySliceWords ((Bencode.dict entries).encode ++ rest) =
            some (infoValue entries) ∧
          (extractInfoDictionarySliceWords ((Bencode.dict entries).encode ++ rest) =
              some (.error .missingInfoDictionary) ↔
            ∀ entry ∈ entries, entry.1 ≠ INFO_KEY)) ∧
    ∀ bytes : List UInt8, bytes.length < 2 ^ 63 →
      ∃ result, extractInfoDictionarySliceWords bytes = some result ∧
        ∀ found, result = .ok found → found <:+: bytes := by
  refine ⟨fun entries rest hnesting hfits => ?_, fun bytes hfits => ?_⟩
  · have hslice : extractInfoDictionarySliceWords ((Bencode.dict entries).encode ++ rest) =
        some (infoValue entries) := by
      rw [extractInfoDictionarySliceWords_eq hfits,
        extractInfoDictionarySlice_encode entries rest hnesting hfits]
    refine ⟨hslice, ?_⟩
    rw [hslice, Option.some.injEq, infoValue_missing_iff]
  · exact ⟨_, extractInfoDictionarySliceWords_eq hfits,
      fun found => infix_of_extractInfoDictionarySlice⟩

theorem info_slice_exact_nested :
    extractInfoDictionarySliceWords ((Bencode.dict
      [([0x61], .dict [(INFO_KEY, .int 7)]), (INFO_KEY, .list [.int (-1)])]).encode ++ [0x78]) =
        some (.ok (Bencode.list [.int (-1)]).encode) :=
  (info_slice_exact.1 _ [0x78] (by decide +kernel) (by decide +kernel)).1

end Tortor.Core
