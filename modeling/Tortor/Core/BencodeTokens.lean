import Tortor.Core.BencodeScan

/-! What the two scanners have in common: they cut the bytes into the same tokens. -/

namespace Tortor.Core

inductive Token
  | opening
  | closing
  | leaf
  deriving DecidableEq

def decimal (digits : List UInt8) : Nat :=
  digits.foldl (fun len digit => len * 10 + (digit.toNat - 48)) 0

inductive TokenText : Token → List UInt8 → Prop
  | list : TokenText .opening [0x6c]
  | dict : TokenText .opening [0x64]
  | close : TokenText .closing [0x65]
  | int {body : List UInt8} (hbody : ∀ b ∈ body, b ≠ 0x65) :
      TokenText .leaf (0x69 :: (body ++ [0x65]))
  | string {digits content : List UInt8} (hne : digits ≠ [])
      (hdigits : ∀ b ∈ digits, isAsciiDigit b) (hlen : decimal digits = content.length) :
      TokenText .leaf (digits ++ 0x3a :: content)

inductive Spells : List Token → List UInt8 → Prop
  | nil : Spells [] []
  | cons {token : Token} {text : List UInt8} {tokens : List Token} {rest : List UInt8} :
      TokenText token text → Spells tokens rest → Spells (token :: tokens) (text ++ rest)

theorem TokenText.spells {token : Token} {text : List UInt8} (h : TokenText token text) :
    Spells [token] text := by
  have hs := Spells.cons h .nil
  rwa [List.append_nil] at hs

theorem Spells.append {ts us : List Token} {xs ys : List UInt8} (hx : Spells ts xs)
    (hy : Spells us ys) : Spells (ts ++ us) (xs ++ ys) := by
  induction hx with
  | nil => exact hy
  | cons htext _ ih =>
    rw [List.append_assoc]
    exact .cons htext ih

def slice (bytes : List UInt8) (start stop : Nat) : List UInt8 := (bytes.take stop).drop start

theorem slice_append {bytes : List UInt8} {a b c : Nat} (hab : a ≤ b) (hbc : b ≤ c)
    (hc : c ≤ bytes.length) : slice bytes a c = slice bytes a b ++ slice bytes b c := by
  have hb : (bytes.take b).length = b := List.length_take_of_le (Nat.le_trans hbc hc)
  have hcut : bytes.take c = bytes.take b ++ slice bytes b c := by
    rw [slice, ← List.take_append_drop b (bytes.take c), List.take_take, Nat.min_eq_left hbc]
    simp [hb]
  calc slice bytes a c = (bytes.take b ++ slice bytes b c).drop a := by rw [slice, hcut]
    _ = slice bytes a b ++ slice bytes b c := List.drop_append_of_le_length (by omega)

theorem length_slice {bytes : List UInt8} {start stop : Nat} (h : stop ≤ bytes.length) :
    (slice bytes start stop).length = stop - start := by
  simp [slice, h]

structure Spelled (bytes : List UInt8) (start stop : Nat) : Prop where
  le : start ≤ stop
  le_length : stop ≤ bytes.length
  spells : ∃ tokens, Spells tokens (slice bytes start stop)

theorem Spelled.trans {bytes : List UInt8} {a b c : Nat} (hab : Spelled bytes a b)
    (hbc : Spelled bytes b c) : Spelled bytes a c where
  le := Nat.le_trans hab.le hbc.le
  le_length := hbc.le_length
  spells := by
    obtain ⟨ts, hts⟩ := hab.spells
    obtain ⟨us, hus⟩ := hbc.spells
    rw [slice_append hab.le hbc.le hbc.le_length]
    exact ⟨ts ++ us, hts.append hus⟩

theorem slice_of_drop {bytes text rest : List UInt8} {start : Nat}
    (hdrop : bytes.drop start = text ++ rest) :
    slice bytes start (start + text.length) = text := by
  rw [slice, List.drop_take, hdrop, Nat.add_sub_cancel_left, List.take_left']
  rfl

theorem spelled_of_slice {bytes : List UInt8} {start stop : Nat} {token : Token}
    (hle : start ≤ stop) (hstop : stop ≤ bytes.length)
    (htext : TokenText token (slice bytes start stop)) : Spelled bytes start stop :=
  ⟨hle, hstop, [token], htext.spells⟩

theorem eq_append_slice {bytes : List UInt8} {start stop : Nat} (hle : start ≤ stop) :
    bytes = bytes.take start ++ (slice bytes start stop ++ bytes.drop stop) := by
  have hcut : bytes.take start ++ slice bytes start stop = bytes.take stop := by
    rw [slice]
    conv_rhs => rw [← List.take_append_drop start (bytes.take stop), List.take_take,
      Nat.min_eq_left hle]
  rw [← List.append_assoc, hcut, List.take_append_drop]

theorem drop_eq_cons {bytes : List UInt8} {i : Nat} {b : UInt8} (h : bytes[i]? = some b) :
    bytes.drop i = b :: bytes.drop (i + 1) := by
  obtain ⟨hi, rfl⟩ := List.getElem?_eq_some_iff.mp h
  exact List.drop_eq_getElem_cons hi

theorem slice_byte {bytes : List UInt8} {i : Nat} {b : UInt8} (h : bytes[i]? = some b) :
    slice bytes i (i + 1) = [b] := by
  have hdrop : bytes.drop i = [b] ++ bytes.drop (i + 1) := drop_eq_cons h
  exact slice_of_drop hdrop

theorem spelled_byte {bytes : List UInt8} {i : Nat} {b : UInt8} {token : Token}
    (h : bytes[i]? = some b) (htext : TokenText token [b]) : Spelled bytes i (i + 1) :=
  spelled_of_slice (Nat.le_succ i) (List.getElem?_eq_some_iff.mp h).1
    (by rw [slice_byte h]; exact htext)

theorem drop_eq_takeWhile {bytes : List UInt8} {p : UInt8 → Bool} {i : Nat} {b : UInt8}
    (h : bytes[i + ((bytes.drop i).takeWhile p).length]? = some b) :
    bytes.drop i = (bytes.drop i).takeWhile p ++ b ::
      bytes.drop (i + ((bytes.drop i).takeWhile p).length + 1) := by
  rw [← drop_eq_cons h, ← List.drop_drop]
  conv_lhs => rw [← List.take_append_drop ((bytes.drop i).takeWhile p).length (bytes.drop i)]
  congr 1
  exact (List.prefix_iff_eq_take.mp (List.takeWhile_prefix p)).symm

theorem getElem?_length_takeWhile (p : UInt8 → Bool) (l : List UInt8) :
    l[(l.takeWhile p).length]? = (l.dropWhile p).head? := by
  induction l with
  | nil => rfl
  | cons b l ih => cases hb : p b <;> simp [hb, ih]

theorem getElem?_of_takeWhile {bytes : List UInt8} {p : UInt8 → Bool} {i : Nat}
    (h : i + ((bytes.drop i).takeWhile p).length < bytes.length) :
    ∃ b, bytes[i + ((bytes.drop i).takeWhile p).length]? = some b ∧ p b = false := by
  have hhead := List.head?_dropWhile_not p (bytes.drop i)
  rw [← getElem?_length_takeWhile, List.getElem?_drop, List.getElem?_eq_getElem h] at hhead
  exact ⟨_, List.getElem?_eq_getElem h, hhead⟩

theorem parseByteString_ok {bytes content : List UInt8} {start stop : Nat}
    (h : parseByteString bytes start = .ok (content, stop)) :
    ∃ digits, digits ≠ [] ∧ (∀ b ∈ digits, isAsciiDigit b) ∧
      decimal digits = content.length ∧ stop = start + (digits ++ 0x3a :: content).length ∧
      start ≤ bytes.length ∧ ∃ rest, bytes.drop start = (digits ++ 0x3a :: content) ++ rest := by
  simp only [parseByteString] at h
  split at h
  · cases h
  case isFalse hne =>
  split at h
  · cases h
  case isFalse hcolon =>
  split at h
  · cases h
  split at h
  · cases h
  split at h
  · cases h
  case isFalse hfits =>
  rw [Except.ok.injEq, Prod.mk.injEq] at h
  obtain ⟨hcontent, rfl⟩ := h
  rw [Decidable.not_not] at hcolon
  generalize hdigits : (bytes.drop start).takeWhile isAsciiDigit = digits at *
  have hdrop := drop_eq_takeWhile (p := isAsciiDigit) (by rw [hdigits]; exact hcolon)
  rw [hdigits] at hdrop
  have hlen : content.length = decimal digits := by
    rw [← hcontent]
    simp only [List.length_drop, List.length_take, decimal]
    omega
  have hdigit : ∀ b ∈ digits, isAsciiDigit b := by
    rw [← hdigits]
    exact fun b hb => List.mem_takeWhile_imp hb
  refine ⟨digits, by simpa using hne, hdigit, hlen.symm, ?_, ?_,
    (bytes.drop (start + digits.length + 1)).drop content.length, ?_⟩
  · simp only [List.length_append, List.length_cons, hlen]
    rw [decimal]
    omega
  · have := (List.getElem?_eq_some_iff.mp hcolon).1
    omega
  · rw [hdrop, List.append_assoc, List.cons_append]
    congr 2
    have hbody : (bytes.drop (start + digits.length + 1)).take content.length = content := by
      rw [hlen, ← hcontent, List.drop_take, decimal]
      congr 1
      omega
    calc bytes.drop (start + digits.length + 1)
        = (bytes.drop (start + digits.length + 1)).take content.length ++
            (bytes.drop (start + digits.length + 1)).drop content.length :=
          (List.take_append_drop _ _).symm
      _ = _ := by rw [hbody]

theorem parseByteString_bounds {bytes content : List UInt8} {start stop : Nat}
    (h : parseByteString bytes start = .ok (content, stop)) :
    start < stop ∧ stop ≤ bytes.length := by
  obtain ⟨digits, -, -, -, rfl, -, rest, hdrop⟩ := parseByteString_ok h
  have hlen := congrArg List.length hdrop
  simp only [List.length_drop, List.length_append, List.length_cons] at hlen ⊢
  omega

theorem slice_byteString {bytes content : List UInt8} {start stop : Nat}
    (h : parseByteString bytes start = .ok (content, stop)) :
    ∃ digits, digits ≠ [] ∧ (∀ b ∈ digits, isAsciiDigit b) ∧ decimal digits = content.length ∧
      slice bytes start stop = digits ++ 0x3a :: content := by
  obtain ⟨digits, hne, hdigits, hlen, rfl, -, rest, hdrop⟩ := parseByteString_ok h
  exact ⟨digits, hne, hdigits, hlen, slice_of_drop hdrop⟩

theorem token_byteString {bytes content : List UInt8} {start stop : Nat}
    (h : parseByteString bytes start = .ok (content, stop)) :
    TokenText .leaf (slice bytes start stop) := by
  obtain ⟨digits, hne, hdigits, hlen, htext⟩ := slice_byteString h
  rw [htext]
  exact .string hne hdigits hlen

theorem spelled_byteString {bytes content : List UInt8} {start stop : Nat}
    (h : parseByteString bytes start = .ok (content, stop)) : Spelled bytes start stop :=
  spelled_of_slice (Nat.le_of_lt (parseByteString_bounds h).1) (parseByteString_bounds h).2
    (token_byteString h)

theorem slice_int {bytes : List UInt8} {start : Nat} (hbyte : bytes[start]? = some 0x69)
    (hlt : start + 1 + ((bytes.drop (start + 1)).takeWhile (· ≠ 0x65)).length < bytes.length) :
    ∃ body, (∀ b ∈ body, b ≠ 0x65) ∧
      slice bytes start (start + 1 + ((bytes.drop (start + 1)).takeWhile (· ≠ 0x65)).length + 1) =
        0x69 :: (body ++ [0x65]) := by
  obtain ⟨b, hb, hend⟩ := getElem?_of_takeWhile hlt
  obtain rfl : b = 0x65 := by simpa using hend
  have hdrop := drop_eq_takeWhile hb
  generalize hbody : (bytes.drop (start + 1)).takeWhile (· ≠ 0x65) = body at *
  have hne : ∀ b ∈ body, b ≠ 0x65 := by
    rw [← hbody]
    exact fun b hb => by simpa using List.mem_takeWhile_imp hb
  have hwhole : bytes.drop start = (0x69 :: (body ++ [0x65])) ++
      bytes.drop (start + 1 + body.length + 1) := by
    rw [drop_eq_cons hbyte, hdrop]
    simp
  refine ⟨body, hne, ?_⟩
  have htext := slice_of_drop hwhole
  rwa [show start + (0x69 :: (body ++ [0x65])).length = start + 1 + body.length + 1 by
    simp; omega] at htext

theorem token_int {bytes : List UInt8} {start : Nat} (hbyte : bytes[start]? = some 0x69)
    (hlt : start + 1 + ((bytes.drop (start + 1)).takeWhile (· ≠ 0x65)).length < bytes.length) :
    TokenText .leaf (slice bytes start
      (start + 1 + ((bytes.drop (start + 1)).takeWhile (· ≠ 0x65)).length + 1)) := by
  obtain ⟨body, hbody, htext⟩ := slice_int hbyte hlt
  rw [htext]
  exact .int hbody

section

variable {bytes : List UInt8} {fuel start index depth stop : Nat}

theorem skipBencodeValue_ok (h : skipBencodeValue bytes fuel start depth = .ok stop) :
    ∃ n byte, fuel = n + 1 ∧ depth ≤ MAX_BENCODE_DEPTH ∧ bytes[start]? = some byte ∧
      ((byte = 0x69 ∧
          start + 1 + ((bytes.drop (start + 1)).takeWhile (· ≠ 0x65)).length < bytes.length ∧
          stop = start + 1 + ((bytes.drop (start + 1)).takeWhile (· ≠ 0x65)).length + 1) ∨
        (byte = 0x6c ∧ skipBencodeList bytes n (start + 1) depth = .ok stop) ∨
        (byte = 0x64 ∧ skipBencodeDict bytes n (start + 1) depth = .ok stop) ∨
        (isAsciiDigit byte ∧ ∃ content, parseByteString bytes start = .ok (content, stop))) := by
  cases fuel with
  | zero =>
    rw [skipBencodeValue] at h
    cases h
  | succ n =>
    rw [skipBencodeValue] at h
    split at h
    · cases h
    case isFalse hdepth =>
    split at h
    · cases h
    case h_2 byte hbyte =>
    refine ⟨n, byte, rfl, Nat.not_lt.mp hdepth, hbyte, ?_⟩
    split at h
    case isTrue hint =>
      dsimp only at h
      split at h
      · cases h
      case isFalse hlt =>
        cases h
        exact .inl ⟨hint, Nat.not_le.mp hlt, rfl⟩
    split at h
    case isTrue hopen => exact .inr (.inl ⟨hopen, h⟩)
    split at h
    case isTrue hopen => exact .inr (.inr (.inl ⟨hopen, h⟩))
    split at h
    case isTrue hdigit =>
      cases hstring : parseByteString bytes start with
      | error err => rw [hstring] at h; cases h
      | ok found =>
        rw [hstring] at h
        cases h
        exact .inr (.inr (.inr ⟨hdigit, found.1, rfl⟩))
    · cases h

theorem skipBencodeList_ok (h : skipBencodeList bytes fuel index depth = .ok stop) :
    ∃ n byte, fuel = n + 1 ∧ bytes[index]? = some byte ∧
      ((byte = 0x65 ∧ stop = index + 1) ∨
        (byte ≠ 0x65 ∧ ∃ next, skipBencodeValue bytes n index (depth + 1) = .ok next ∧
          skipBencodeList bytes n next depth = .ok stop)) := by
  cases fuel with
  | zero =>
    rw [skipBencodeList] at h
    cases h
  | succ n =>
    rw [skipBencodeList] at h
    split at h
    · cases h
    case h_2 byte hbyte =>
    refine ⟨n, byte, rfl, hbyte, ?_⟩
    split at h
    case isTrue hend =>
      cases h
      exact .inl ⟨hend, rfl⟩
    case isFalse hend =>
    split at h
    · cases h
    case h_2 next hnext => exact .inr ⟨hend, next, hnext, h⟩

theorem skipBencodeDict_ok (h : skipBencodeDict bytes fuel index depth = .ok stop) :
    ∃ n byte, fuel = n + 1 ∧ bytes[index]? = some byte ∧
      ((byte = 0x65 ∧ stop = index + 1) ∨
        (byte ≠ 0x65 ∧ ∃ key keyEnd next, parseByteString bytes index = .ok (key, keyEnd) ∧
          skipBencodeValue bytes n keyEnd (depth + 1) = .ok next ∧
          skipBencodeDict bytes n next depth = .ok stop)) := by
  cases fuel with
  | zero =>
    rw [skipBencodeDict] at h
    cases h
  | succ n =>
    rw [skipBencodeDict] at h
    split at h
    · cases h
    case h_2 byte hbyte =>
    refine ⟨n, byte, rfl, hbyte, ?_⟩
    split at h
    case isTrue hend =>
      cases h
      exact .inl ⟨hend, rfl⟩
    case isFalse hend =>
    split at h
    · cases h
    case h_2 key keyEnd hkey =>
    split at h
    · cases h
    case h_2 next hnext => exact .inr ⟨hend, key, keyEnd, next, hkey, hnext, h⟩

end

def SkipsSpelled (bytes : List UInt8) (skip : Nat → Nat → Except TorrentParseError Nat) : Prop :=
  ∀ index depth stop, skip index depth = .ok stop → Spelled bytes index stop

section

variable {bytes : List UInt8} {fuel : Nat}

theorem spelled_value (hlist : SkipsSpelled bytes (skipBencodeList bytes fuel))
    (hdict : SkipsSpelled bytes (skipBencodeDict bytes fuel)) :
    SkipsSpelled bytes (skipBencodeValue bytes (fuel + 1)) := by
  intro start depth stop h
  obtain ⟨n, byte, hn, -, hbyte, hcases⟩ := skipBencodeValue_ok h
  obtain rfl := Nat.succ.inj hn
  rcases hcases with ⟨rfl, hlt, rfl⟩ | ⟨rfl, hrest⟩ | ⟨rfl, hrest⟩ | ⟨-, content, hstring⟩
  · exact spelled_of_slice (by omega) hlt (token_int hbyte hlt)
  · exact (spelled_byte hbyte .list).trans (hlist _ _ _ hrest)
  · exact (spelled_byte hbyte .dict).trans (hdict _ _ _ hrest)
  · exact spelled_byteString hstring

theorem spelled_list (hvalue : SkipsSpelled bytes (skipBencodeValue bytes fuel))
    (hlist : SkipsSpelled bytes (skipBencodeList bytes fuel)) :
    SkipsSpelled bytes (skipBencodeList bytes (fuel + 1)) := by
  intro index depth stop h
  obtain ⟨n, byte, hn, hbyte, hcases⟩ := skipBencodeList_ok h
  obtain rfl := Nat.succ.inj hn
  rcases hcases with ⟨rfl, rfl⟩ | ⟨-, next, hnext, hrest⟩
  · exact spelled_byte hbyte .close
  · exact (hvalue _ _ _ hnext).trans (hlist _ _ _ hrest)

theorem spelled_dict (hvalue : SkipsSpelled bytes (skipBencodeValue bytes fuel))
    (hdict : SkipsSpelled bytes (skipBencodeDict bytes fuel)) :
    SkipsSpelled bytes (skipBencodeDict bytes (fuel + 1)) := by
  intro index depth stop h
  obtain ⟨n, byte, hn, hbyte, hcases⟩ := skipBencodeDict_ok h
  obtain rfl := Nat.succ.inj hn
  rcases hcases with ⟨rfl, rfl⟩ | ⟨-, key, keyEnd, next, hkey, hnext, hrest⟩
  · exact spelled_byte hbyte .close
  · exact (spelled_byteString hkey).trans ((hvalue _ _ _ hnext).trans (hdict _ _ _ hrest))

end

theorem spelled_of_skip (bytes : List UInt8) (fuel : Nat) :
    SkipsSpelled bytes (skipBencodeValue bytes fuel) ∧
      SkipsSpelled bytes (skipBencodeList bytes fuel) ∧
      SkipsSpelled bytes (skipBencodeDict bytes fuel) := by
  induction fuel with
  | zero =>
    refine ⟨fun start depth stop h => ?_, fun index depth stop h => ?_,
      fun index depth stop h => ?_⟩
    · rw [skipBencodeValue] at h
      cases h
    · rw [skipBencodeList] at h
      cases h
    · rw [skipBencodeDict] at h
      cases h
  | succ fuel ih =>
    obtain ⟨hvalue, hlist, hdict⟩ := ih
    exact ⟨spelled_value hlist hdict, spelled_list hvalue hlist, spelled_dict hvalue hdict⟩

theorem skip_bounds {bytes : List UInt8} {fuel start depth stop : Nat}
    (h : skipBencodeValue bytes fuel start depth = .ok stop) : start < stop ∧ stop ≤ bytes.length := by
  refine ⟨?_, ((spelled_of_skip bytes fuel).1 _ _ _ h).le_length⟩
  obtain ⟨n, byte, -, -, -, hcases⟩ := skipBencodeValue_ok h
  rcases hcases with ⟨-, -, rfl⟩ | ⟨-, hrest⟩ | ⟨-, hrest⟩ | ⟨-, content, hstring⟩
  · omega
  · exact ((spelled_of_skip bytes n).2.1 _ _ _ hrest).le
  · exact ((spelled_of_skip bytes n).2.2 _ _ _ hrest).le
  · exact (parseByteString_bounds hstring).1

/-- No container is opened below the accepted depth. -/
def Shallow : Nat → List Token → Prop
  | _, [] => True
  | depth, .opening :: tokens => depth + 1 ≤ MAX_BENCODE_DEPTH ∧ Shallow (depth + 1) tokens
  | depth, .closing :: tokens => Shallow (depth - 1) tokens
  | depth, .leaf :: tokens => Shallow depth tokens

theorem Shallow.mono {less depth : Nat} {tokens : List Token} (h : Shallow depth tokens)
    (hle : less ≤ depth) : Shallow less tokens := by
  induction tokens generalizing less depth with
  | nil => trivial
  | cons token tokens ih =>
    cases token with
    | opening => exact ⟨Nat.le_trans (Nat.succ_le_succ hle) h.1, ih h.2 (Nat.succ_le_succ hle)⟩
    | closing => exact ih h (Nat.sub_le_sub_right hle 1)
    | leaf =>
      have hrest : Shallow depth tokens := h
      exact ih hrest hle

theorem Shallow.of_append {depth : Nat} {ts us : List Token} (h : Shallow depth (ts ++ us)) :
    Shallow 0 us := by
  induction ts generalizing depth with
  | nil => exact h.mono (Nat.zero_le depth)
  | cons token ts ih =>
    cases token with
    | opening => exact ih h.2
    | closing =>
      have hrest : Shallow (depth - 1) (ts ++ us) := h
      exact ih hrest
    | leaf =>
      have hrest : Shallow depth (ts ++ us) := h
      exact ih hrest

theorem foldl_saturating_decimal (digits : List UInt8) (len : Nat) :
    digits.foldl (fun len digit =>
        min (min (len * 10) (2 ^ 64 - 1) + (digit.toNat - 48)) (2 ^ 64 - 1)) (min len (2 ^ 64 - 1)) =
      min (digits.foldl (fun len digit => len * 10 + (digit.toNat - 48)) len) (2 ^ 64 - 1) := by
  induction digits generalizing len with
  | nil => rfl
  | cons digit digits ih =>
    rw [List.foldl_cons, List.foldl_cons, ← ih]
    congr 1
    omega

theorem takeWhile_append_stop {p : UInt8 → Bool} {run rest : List UInt8} {b : UInt8}
    (hrun : ∀ x ∈ run, p x) (hb : p b = false) :
    (run ++ b :: rest).takeWhile p = run := by
  rw [List.takeWhile_append_of_pos hrun, List.takeWhile_cons_of_neg (by simp [hb]),
    List.append_nil]

theorem checkDepthLoop_token {token : Token} {text : List UInt8} (htext : TokenText token text)
    (pre rest : List UInt8) (hfits : (pre ++ (text ++ rest)).length < 2 ^ 64) (fuel depth : Nat) :
    checkDepthLoop (pre ++ (text ++ rest)) (fuel + 1) pre.length depth =
      match token with
      | .opening =>
        if MAX_BENCODE_DEPTH < depth + 1 then .error (.invalidBencode "bencode nesting is too deep")
        else checkDepthLoop (pre ++ (text ++ rest)) fuel (pre ++ text).length (depth + 1)
      | .closing => checkDepthLoop (pre ++ (text ++ rest)) fuel (pre ++ text).length (depth - 1)
      | .leaf => checkDepthLoop (pre ++ (text ++ rest)) fuel (pre ++ text).length depth := by
  cases htext with
  | list | dict | close => simp [checkDepthLoop]
  | @int body hbody =>
    have hdrop : (pre ++ (0x69 :: (body ++ [0x65]) ++ rest)).drop pre.length =
        (0x69 :: body) ++ 0x65 :: rest := by simp
    have hrun : ((pre ++ (0x69 :: (body ++ [0x65]) ++ rest)).drop pre.length).takeWhile (· ≠ 0x65) =
        0x69 :: body := by
      rw [hdrop]
      exact takeWhile_append_stop (by simpa using hbody) (by simp)
    have hbyte : (pre ++ (0x69 :: (body ++ [0x65]) ++ rest))[pre.length]? = some 0x69 := by simp
    rw [checkDepthLoop, hrun, hbyte]
    simp [Nat.add_assoc]
  | @string digits content hne hdigits hlen =>
    obtain ⟨digit, digits', rfl⟩ := List.exists_cons_of_ne_nil hne
    have hdrop : (pre ++ ((digit :: digits') ++ 0x3a :: content ++ rest)).drop pre.length =
        (digit :: digits') ++ 0x3a :: (content ++ rest) := by simp
    have hrun : ((pre ++ ((digit :: digits') ++ 0x3a :: content ++ rest)).drop
        pre.length).takeWhile isAsciiDigit = digit :: digits' := by
      rw [hdrop]
      exact takeWhile_append_stop hdigits (by decide)
    have hbyte : (pre ++ ((digit :: digits') ++ 0x3a :: content ++ rest))[pre.length]? =
        some digit := by simp
    have hdigit : isAsciiDigit digit := hdigits digit List.mem_cons_self
    have hother {b : UInt8} (hb : isAsciiDigit b = false) : digit ≠ b := fun he => by
      rw [he, hb] at hdigit
      cases hdigit
    simp only [List.length_append, List.length_cons] at hfits
    have hlength := foldl_saturating_decimal (digit :: digits') 0
    rw [Nat.zero_min, show (digit :: digits').foldl
      (fun len digit => len * 10 + (digit.toNat - 48)) 0 = content.length from hlen,
      Nat.min_eq_left (by omega)] at hlength
    rw [checkDepthLoop, hrun, hbyte]
    simp only [hlength, hother (b := 0x6c) (by decide), hother (b := 0x64) (by decide),
      hother (b := 0x65) (by decide), hother (b := 0x69) (by decide), or_self, if_false, hdigit,
      if_true]
    congr 1
    simp only [List.length_append, List.length_cons]
    omega

theorem TokenText.length_pos {token : Token} {text : List UInt8} (h : TokenText token text) :
    0 < text.length := by
  cases h <;> simp only [List.length_cons, List.length_append] <;> omega

theorem Spells.length_le {tokens : List Token} {text : List UInt8} (h : Spells tokens text) :
    tokens.length ≤ text.length := by
  induction h with
  | nil => exact Nat.le_refl 0
  | cons htext _ ih =>
    have := htext.length_pos
    rw [List.length_cons, List.length_append]
    omega

/-- Bytes that pass the check are shallow as far as they are tokens. -/
theorem shallow_of_check {tokens : List Token} {text : List UInt8} (h : Spells tokens text)
    (pre rest : List UInt8) {fuel depth : Nat} (hfits : (pre ++ (text ++ rest)).length < 2 ^ 64)
    (hfuel : tokens.length ≤ fuel)
    (hcheck : checkDepthLoop (pre ++ (text ++ rest)) fuel pre.length depth = .ok ()) :
    Shallow depth tokens := by
  induction h generalizing pre fuel depth with
  | nil => trivial
  | @cons token text tokens more htext _ ih =>
    obtain ⟨fuel, rfl⟩ := Nat.exists_eq_add_one_of_ne_zero
      (Nat.ne_of_gt (Nat.lt_of_lt_of_le (Nat.succ_pos _) hfuel))
    rw [List.append_assoc] at hcheck hfits
    rw [checkDepthLoop_token htext pre (more ++ rest) hfits] at hcheck
    have hnext {depth : Nat} (hc : checkDepthLoop (pre ++ (text ++ (more ++ rest))) fuel
        (pre ++ text).length depth = .ok ()) : Shallow depth tokens := by
      rw [← List.append_assoc] at hc hfits
      exact ih (pre ++ text) hfits (Nat.le_of_succ_le_succ hfuel) hc
    cases token with
    | opening =>
      simp only at hcheck
      split at hcheck
      · cases hcheck
      case isFalse hle => exact ⟨Nat.not_lt.mp hle, hnext hcheck⟩
    | closing => exact hnext hcheck
    | leaf => exact hnext hcheck

theorem check_of_shallow {tokens : List Token} {text : List UInt8} (h : Spells tokens text)
    (pre : List UInt8) {fuel depth : Nat} (hfits : (pre ++ text).length < 2 ^ 64)
    (hshallow : Shallow depth tokens) :
    checkDepthLoop (pre ++ text) fuel pre.length depth = .ok () := by
  cases fuel with
  | zero => rfl
  | succ fuel =>
    induction h generalizing pre fuel depth with
    | nil => simp [checkDepthLoop]
    | @cons token text tokens more htext _ ih =>
      rw [checkDepthLoop_token htext pre more hfits]
      have hnext {depth : Nat} (hd : Shallow depth tokens) :
          checkDepthLoop (pre ++ (text ++ more)) fuel (pre ++ text).length depth = .ok () := by
        cases fuel with
        | zero => rfl
        | succ fuel =>
          rw [← List.append_assoc] at hfits ⊢
          exact ih (pre ++ text) hfits hd fuel
      cases token with
      | opening =>
        simp only [Nat.not_lt.mpr hshallow.1, if_false]
        exact hnext hshallow.2
      | closing => exact hnext hshallow
      | leaf => exact hnext hshallow

/-- Whatever the skipper cuts out of bytes that pass the check passes it too. -/
theorem checkBencodeDepth_slice {bytes : List UInt8} (hfits : bytes.length < 2 ^ 64)
    (hcheck : checkBencodeDepth bytes = .ok ()) {start stop : Nat} (hpre : Spelled bytes 0 start)
    (hvalue : Spelled bytes start stop) : checkBencodeDepth (slice bytes start stop) = .ok () := by
  obtain ⟨ts, hts⟩ := hpre.spells
  obtain ⟨us, hus⟩ := hvalue.spells
  have hboth := hts.append hus
  rw [← slice_append hpre.le hvalue.le hvalue.le_length] at hboth
  have hwhole : [] ++ (slice bytes 0 stop ++ bytes.drop stop) = bytes :=
    List.take_append_drop stop bytes
  have hlen : (ts ++ us).length ≤ bytes.length + 1 := by
    have := hboth.length_le
    rw [length_slice hvalue.le_length] at this
    have := hvalue.le_length
    omega
  have hshallow := shallow_of_check hboth [] (bytes.drop stop) (by rwa [hwhole]) hlen
    (by rwa [hwhole])
  refine check_of_shallow hus [] ?_ hshallow.of_append
  rw [List.nil_append, length_slice hvalue.le_length]
  have := hvalue.le_length
  omega

end Tortor.Core
