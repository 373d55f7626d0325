import Mathlib.Data.Bool.AllAny
import Mathlib.Data.String.Basic
import Tortor.Core.Torrent
import Tortor.Lib.Digits

/-! The info hash of a magnet link, in hexadecimal or in base32. -/

namespace Tortor.Net

open Tortor.Lib
open Tortor.Core (Digest)

inductive MagnetError
  | hex
  | base32
  | length (other : Nat)
  | size
  deriving DecidableEq

def MagnetError.message : MagnetError → String
  | .hex => "info hash is not valid hex"
  | .base32 => "info hash is not valid base32"
  | .length other => s!"unsupported info hash length {other}"
  | .size => "info hash must be 20 bytes"

def base32Digit (c : Char) : Option Nat :=
  if 'A' ≤ c ∧ c ≤ 'Z' then some (c.toNat - 'A'.toNat)
  else if '2' ≤ c ∧ c ≤ '7' then some (c.toNat - '2'.toNat + 26)
  else none

/-- The locals of `decode_base32`; `buffer` is a `u32`. -/
structure Base32Decoder where
  out : List UInt8
  buffer : Nat
  bits : Nat

def Base32Decoder.push (s : Base32Decoder) (value : Nat) : Base32Decoder :=
  let buffer := (s.buffer <<< 5) % 2 ^ 32 ||| value
  let bits := s.bits + 5
  if 8 ≤ bits then
    let bits := bits - 8
    ⟨s.out ++ [UInt8.ofNat (buffer >>> bits)], buffer &&& ((1 <<< bits) - 1), bits⟩
  else ⟨s.out, buffer, bits⟩

def Base32Decoder.run : Base32Decoder → List Char → Option Base32Decoder
  | s, [] => some s
  | s, c :: cs =>
    match base32Digit c.toUpper with
    | none => none
    | some value => (s.push value).run cs

def decodeBase32 (input : String) : Option (List UInt8) :=
  (Base32Decoder.run ⟨[], 0, 0⟩ input.toList).map (·.out)

/-- `hexDecode` is `hex::decode`. -/
def decodeInfoHash (hexDecode : String → Option (List UInt8)) (hash : String) :
    Except MagnetError Digest :=
  let bytes : Except MagnetError (List UInt8) :=
    match hash.utf8ByteSize with
    | 40 =>
      match hexDecode hash with
      | some bytes => .ok bytes
      | none => .error .hex
    | 32 =>
      match decodeBase32 hash with
      | some bytes => .ok bytes
      | none => .error .base32
    | other => .error (.length other)
  match bytes with
  | .error err => .error err
  | .ok bytes => if size : bytes.length = 20 then .ok ⟨bytes, size⟩ else .error .size

def base32Alphabet : List Char := "ABCDEFGHIJKLMNOPQRSTUVWXYZ234567".toList

def base32Char (value : Nat) : Char := base32Alphabet.getD value 'A'

/-- Every five bytes make eight digits of five bits.  A shorter group at the end would have to be
padded and is not encoded here. -/
def base32Digits : List UInt8 → List Nat
  | a :: b :: c :: d :: e :: rest =>
    Digits.write 32 8 (Digits.value 256 ([a, b, c, d, e].map UInt8.toNat)) ++ base32Digits rest
  | _ => []

def encodeBase32 (bytes : List UInt8) : List Char := (base32Digits bytes).map base32Char

theorem base32Digit_char : ∀ value < 32, base32Digit (base32Char value) = some value := by decide

theorem base32Char_mem : ∀ value < 32, base32Char value ∈ base32Alphabet := by decide

theorem base32Digit_alphabet : ∀ c ∈ base32Alphabet,
    ∃ value < 32, base32Digit c = some value ∧ base32Char value = c :=
  List.all_iff_forall_prop.mp (by decide)

theorem mem_alphabet_of_digit {c : Char} {value : Nat} (h : base32Digit c = some value) :
    c ∈ base32Alphabet := by
  have hletters : ∀ n < 26, Char.ofNat ('A'.toNat + n) ∈ base32Alphabet := by decide
  have hdigits : ∀ n < 6, Char.ofNat ('2'.toNat + n) ∈ base32Alphabet := by decide
  have hbetween {low high : Char} (hc : low ≤ c ∧ c ≤ high) :
      low.toNat ≤ c.toNat ∧ c.toNat ≤ high.toNat :=
    ⟨UInt32.le_iff_toNat_le.mp hc.1, UInt32.le_iff_toNat_le.mp hc.2⟩
  rw [base32Digit] at h
  split at h
  case isTrue hc =>
    obtain ⟨hlow, hhigh⟩ := hbetween hc
    have hletter := hletters (c.toNat - 'A'.toNat) (by
      have hend : 'Z'.toNat = 'A'.toNat + 25 := rfl
      omega)
    rwa [Nat.add_sub_cancel' hlow, Char.ofNat_toNat] at hletter
  case isFalse =>
    split at h
    case isTrue hc =>
      obtain ⟨hlow, hhigh⟩ := hbetween hc
      have hdigit := hdigits (c.toNat - '2'.toNat) (by
        have hend : '7'.toNat = '2'.toNat + 5 := rfl
        omega)
      rwa [Nat.add_sub_cancel' hlow, Char.ofNat_toNat] at hdigit
    case isFalse => cases h

theorem base32Digit_some {c : Char} {value : Nat} (h : base32Digit c = some value) :
    value < 32 ∧ base32Char value = c := by
  obtain ⟨other, hlt, hother, hchar⟩ := base32Digit_alphabet c (mem_alphabet_of_digit h)
  cases h.symm.trans hother
  exact ⟨hlt, hchar⟩

theorem mem_alphabet_iff (c : Char) : c ∈ base32Alphabet ↔ ∃ value, base32Digit c = some value :=
  ⟨fun h => (base32Digit_alphabet c h).imp fun _ hvalue => hvalue.2.1,
    fun ⟨_, h⟩ => mem_alphabet_of_digit h⟩

/-! The loop packs five bits after five into bytes. -/

def Base32Decoder.packer (s : Base32Decoder) : Digits.Packer :=
  ⟨s.out.map UInt8.toNat, s.buffer, s.bits⟩

namespace Base32Decoder

variable {s : Base32Decoder} {digits : List Nat}

/-- The shifts and masks on `u32` lose nothing. -/
theorem packer_push (h : Digits.Packs 5 8 digits s.packer) {value : Nat} (hvalue : value < 32) :
    (s.push value).packer = s.packer.push 5 8 value := by
  have hbits : s.bits < 8 := h.bits_lt
  have hrest : s.buffer * 2 ^ 5 + value < 2 ^ (s.bits + 5) := h.rest_lt_push hvalue
  have hword : s.buffer * 2 ^ 5 + value < 2 ^ 32 :=
    hrest.trans_le (Nat.pow_le_pow_right (by decide) (by omega))
  have hbuffer : (s.buffer <<< 5) % 2 ^ 32 ||| value = s.buffer * 2 ^ 5 + value := by
    rw [Nat.shiftLeft_eq, Nat.mod_eq_of_lt (by omega), ← Nat.shiftLeft_eq,
      ← Nat.shiftLeft_add_eq_or_of_lt hvalue, Nat.shiftLeft_eq]
  by_cases hfull : 8 ≤ s.bits + 5
  · have hbyte : (s.buffer * 2 ^ 5 + value) / 2 ^ (s.bits + 5 - 8) < 256 := by
      rw [Nat.div_lt_iff_lt_mul (Nat.two_pow_pos _), show 256 = 2 ^ 8 from rfl, ← Nat.pow_add,
        Nat.add_sub_cancel' hfull]
      exact hrest
    simp only [push, Digits.Packer.push, packer, hbuffer, if_pos hfull]
    rw [List.map_append, List.map_singleton, UInt8.toNat_ofNat', Nat.shiftRight_eq_div_pow,
      Nat.mod_eq_of_lt hbyte, Nat.shiftLeft_eq, Nat.one_mul, Nat.and_two_pow_sub_one_eq_mod]
    exact (if_pos hfull).symm
  · simp only [push, Digits.Packer.push, packer, hbuffer, if_neg hfull]
    exact (if_neg hfull).symm

theorem run_packs {t : Base32Decoder} {cs : List Char} (h : Digits.Packs 5 8 digits s.packer)
    (hrun : s.run cs = some t) : ∃ values, values.map base32Char = cs.map Char.toUpper ∧
      (∀ value ∈ values, value < 32) ∧ Digits.Packs 5 8 (digits ++ values) t.packer := by
  induction cs generalizing s digits with
  | nil =>
    cases hrun
    exact ⟨[], rfl, List.forall_mem_nil _, by rwa [List.append_nil]⟩
  | cons c cs ih =>
    rw [run] at hrun
    split at hrun
    · cases hrun
    case h_2 value hvalue =>
      obtain ⟨hlt, hchar⟩ := base32Digit_some hvalue
      have hpush := h.push (by decide) hlt
      rw [← packer_push h hlt] at hpush
      obtain ⟨values, hvalues, hall, hpacks⟩ := ih hpush hrun
      refine ⟨value :: values, ?_, List.forall_mem_cons.mpr ⟨hlt, hall⟩, ?_⟩
      · rw [List.map_cons, List.map_cons, hchar, hvalues]
      · rwa [List.append_assoc, List.singleton_append] at hpacks

theorem run_isSome_iff (s : Base32Decoder) (cs : List Char) :
    (s.run cs).isSome ↔ ∀ c ∈ cs, c.toUpper ∈ base32Alphabet := by
  induction cs generalizing s with
  | nil => exact iff_of_true rfl (List.forall_mem_nil _)
  | cons c cs ih =>
    rw [run, List.forall_mem_cons, mem_alphabet_iff]
    cases hc : base32Digit c.toUpper with
    | none => simp
    | some value =>
      rw [ih]
      exact (and_iff_right ⟨value, rfl⟩).symm

end Base32Decoder

/-! The digits of a string of whole groups are the digits of the same number. -/

theorem base32Digits_lt (bytes : List UInt8) : ∀ digit ∈ base32Digits bytes, digit < 32 := by
  induction bytes using base32Digits.induct with
  | case1 a b c d e rest ih =>
    intro digit hdigit
    rw [base32Digits, List.mem_append] at hdigit
    exact hdigit.elim (Digits.write_lt (by decide) _ _ digit) (ih digit)
  | case2 bytes hshort =>
    rw [base32Digits]
    · exact List.forall_mem_nil _
    · exact hshort

theorem byte_lt (bytes : List UInt8) : ∀ digit ∈ bytes.map UInt8.toNat, digit < 256 := by
  rw [List.forall_mem_map]
  exact fun byte _ => byte.toNat_lt

theorem eq_nil_of_short {bytes : List UInt8}
    (hshort : ∀ a b c d e rest, bytes = a :: b :: c :: d :: e :: rest → False)
    (hlen : 5 ∣ bytes.length) : bytes = [] := by
  rcases Nat.lt_or_ge bytes.length 5 with hlt | hge
  · exact List.length_eq_zero_iff.mp (Nat.eq_zero_of_dvd_of_lt hlen hlt)
  · obtain ⟨a, b, c, d, e, rest, heq⟩ : ∃ a b c d e rest,
        bytes = a :: b :: c :: d :: e :: rest := by
      match bytes, hge with
      | a :: b :: c :: d :: e :: rest, _ => exact ⟨a, b, c, d, e, rest, rfl⟩
    exact (hshort a b c d e rest heq).elim

theorem length_base32Digits {bytes : List UInt8} (hlen : 5 ∣ bytes.length) :
    5 * (base32Digits bytes).length = 8 * bytes.length := by
  induction bytes using base32Digits.induct with
  | case1 a b c d e rest ih =>
    simp only [List.length_cons] at hlen ⊢
    rw [base32Digits, List.length_append, Digits.length_write, Nat.mul_add, ih (by omega)]
    omega
  | case2 bytes hshort =>
    cases eq_nil_of_short hshort hlen
    rfl

theorem value_base32Digits {bytes : List UInt8} (hlen : 5 ∣ bytes.length) :
    Digits.value 32 (base32Digits bytes) = Digits.value 256 (bytes.map UInt8.toNat) := by
  induction bytes using base32Digits.induct with
  | case1 a b c d e rest ih =>
    have hrest : 5 ∣ rest.length := by
      simp only [List.length_cons] at hlen
      omega
    have hgroup : Digits.value 256 ([a, b, c, d, e].map UInt8.toNat) < 32 ^ 8 := by
      calc Digits.value 256 ([a, b, c, d, e].map UInt8.toNat)
          < 256 ^ ([a, b, c, d, e].map UInt8.toNat).length :=
            Digits.value_lt (by decide) (byte_lt [a, b, c, d, e])
        _ = 32 ^ 8 := by simp
    -- eight digits of the one base weigh as much as five of the other
    have hweight : 32 ^ (base32Digits rest).length = 256 ^ rest.length := by
      calc 32 ^ (base32Digits rest).length = 2 ^ (5 * (base32Digits rest).length) :=
            (Nat.pow_mul 2 5 _).symm
        _ = 2 ^ (8 * rest.length) := by rw [length_base32Digits hrest]
        _ = 256 ^ rest.length := Nat.pow_mul 2 8 _
    rw [base32Digits, Digits.value_append, Digits.value_write, Nat.mod_eq_of_lt hgroup, ih hrest,
      hweight, show a :: b :: c :: d :: e :: rest = [a, b, c, d, e] ++ rest from rfl,
      List.map_append, Digits.value_append, List.length_map]
  | case2 bytes hshort =>
    cases eq_nil_of_short hshort hlen
    rfl

theorem base32Digits_eq_iff {bytes : List UInt8} (hlen : 5 ∣ bytes.length) {digits : List Nat}
    (hdigits : ∀ digit ∈ digits, digit < 32) :
    base32Digits bytes = digits ↔ 8 * bytes.length = 5 * digits.length ∧
      Digits.value 256 (bytes.map UInt8.toNat) = Digits.value 32 digits := by
  constructor
  · rintro rfl
    exact ⟨(length_base32Digits hlen).symm, (value_base32Digits hlen).symm⟩
  · rintro ⟨hsame, hvalue⟩
    have hcount := length_base32Digits hlen
    exact Digits.eq_of_value_eq (by decide) (by omega) (base32Digits_lt bytes) hdigits
      ((value_base32Digits hlen).trans hvalue)

theorem bytes_eq_of_value_eq {bytes others : List UInt8} (hlen : bytes.length = others.length)
    (h : Digits.value 256 (bytes.map UInt8.toNat) = Digits.value 256 (others.map UInt8.toNat)) :
    bytes = others := by
  have hsame := Digits.eq_of_value_eq (by decide) (by simpa using hlen) (byte_lt bytes)
    (byte_lt others) h
  exact List.map_injective_iff.mpr (fun _ _ => UInt8.toNat.inj) hsame

theorem eq_of_map_base32Char {digits others : List Nat} (hdigits : ∀ digit ∈ digits, digit < 32)
    (hothers : ∀ digit ∈ others, digit < 32)
    (h : digits.map base32Char = others.map base32Char) : digits = others := by
  have hvalues {values : List Nat} (hlt : ∀ value ∈ values, value < 32) :
      (values.map base32Char).map base32Digit = values.map some := by
    rw [List.map_map]
    exact List.map_congr_left fun value hvalue => base32Digit_char value (hlt value hvalue)
  have hsome := congrArg (List.map base32Digit) h
  rw [hvalues hdigits, hvalues hothers] at hsome
  exact List.map_injective_iff.mpr (Option.some_injective _) hsome

variable {cs : List Char} {bytes out : List UInt8}

theorem decodeBase32_eq_some (h : decodeBase32 (String.ofList cs) = some out) :
    ∃ values, values.map base32Char = cs.map Char.toUpper ∧ (∀ value ∈ values, value < 32) ∧
      ∃ t : Base32Decoder, t.out = out ∧ Digits.Packs 5 8 values t.packer := by
  rw [decodeBase32, String.toList_ofList, Option.map_eq_some_iff] at h
  obtain ⟨t, hrun, hout⟩ := h
  obtain ⟨values, hvalues, hlt, hpacks⟩ := Base32Decoder.run_packs (.start (by decide)) hrun
  exact ⟨values, hvalues, hlt, t, hout, hpacks⟩

theorem decodeBase32_isSome_iff (cs : List Char) :
    (decodeBase32 (String.ofList cs)).isSome ↔ ∀ c ∈ cs, c.toUpper ∈ base32Alphabet := by
  rw [decodeBase32, String.toList_ofList, Option.isSome_map, Base32Decoder.run_isSome_iff]

/-- Where the groups come out even, the bytes have the digits that were read. -/
theorem encode_of_decodeBase32 (h : decodeBase32 (String.ofList cs) = some out)
    (hlen : 8 ∣ cs.length) : 8 * out.length = 5 * cs.length ∧
      encodeBase32 out = cs.map Char.toUpper := by
  obtain ⟨values, hvalues, hlt, t, rfl, hpacks⟩ := decodeBase32_eq_some h
  have hcount : values.length = cs.length := by simpa using congrArg List.length hvalues
  obtain ⟨hlength, hvalue⟩ := hpacks.even (hcount ▸ hlen.mul_left 5)
  have hout : 8 * t.out.length = 5 * values.length := by
    rw [← hlength, Base32Decoder.packer, List.length_map]
  have hdigits := (base32Digits_eq_iff (by omega) hlt).mpr ⟨hout, hvalue⟩
  refine ⟨hcount ▸ hout, ?_⟩
  rw [encodeBase32, hdigits, hvalues]

theorem decode_of_encodeBase32 (hlen : 5 ∣ bytes.length)
    (h : cs.map Char.toUpper = encodeBase32 bytes) :
    decodeBase32 (String.ofList cs) = some bytes := by
  have halphabet : ∀ c ∈ cs, c.toUpper ∈ base32Alphabet := by
    rw [← List.forall_mem_map (P := (· ∈ base32Alphabet)), h, encodeBase32, List.forall_mem_map]
    exact fun digit hdigit => base32Char_mem digit (base32Digits_lt bytes digit hdigit)
  obtain ⟨out, hout⟩ := Option.isSome_iff_exists.mp ((decodeBase32_isSome_iff cs).mpr halphabet)
  have hcount : cs.length = (base32Digits bytes).length := by
    simpa [encodeBase32] using congrArg List.length h
  have hbytes := length_base32Digits hlen
  obtain ⟨hlength, hsame⟩ := encode_of_decodeBase32 hout (by omega)
  have hdigits : base32Digits out = base32Digits bytes :=
    eq_of_map_base32Char (base32Digits_lt out) (base32Digits_lt bytes) (hsame.trans h)
  have hvalue : Digits.value 256 (out.map UInt8.toNat) =
      Digits.value 256 (bytes.map UInt8.toNat) := by
    rw [← value_base32Digits (by omega), hdigits, value_base32Digits hlen]
  rw [hout, bytes_eq_of_value_eq (by omega) hvalue]

def hexChar (value : Nat) : Char := "0123456789abcdef".toList.getD value '0'

def encodeHex (bytes : List UInt8) : List Char :=
  bytes.flatMap fun byte => [hexChar (byte.toNat / 16), hexChar (byte.toNat % 16)]

/-- `hex::decode` takes letters of either case. -/
def HexDecodes (hexDecode : String → Option (List UInt8)) : Prop :=
  ∀ bytes (text : String), text.toList.map Char.toLower = encodeHex bytes →
    hexDecode text = some bytes

theorem length_encodeHex (bytes : List UInt8) : (encodeHex bytes).length = 2 * bytes.length := by
  induction bytes with
  | nil => rfl
  | cons byte bytes ih =>
    rw [encodeHex, List.flatMap_cons, List.length_append, ← encodeHex, ih, List.length_cons]
    exact (Nat.add_comm _ _)

theorem ascii_of_toUpper {c : Char} (h : c.toUpper.utf8Size = 1) : c.utf8Size = 1 := by
  by_cases hletter : 'a'.val ≤ c.val ∧ c.val ≤ 'z'.val
  case pos => exact Char.utf8Size_eq_one_iff.mpr (UInt32.le_trans hletter.2 (by decide))
  case neg =>
    have hsame : c.toUpper = c := dif_neg hletter
    rwa [hsame] at h

theorem ascii_of_toLower {c : Char} (h : c.toLower.utf8Size = 1) : c.utf8Size = 1 := by
  by_cases hletter : 'A'.val ≤ c.val ∧ c.val ≤ 'Z'.val
  case pos => exact Char.utf8Size_eq_one_iff.mpr (UInt32.le_trans hletter.2 (by decide))
  case neg =>
    have hsame : c.toLower = c := dif_neg hletter
    rwa [hsame] at h

theorem utf8ByteSize_of_ascii {s : String} (h : ∀ c ∈ s.toList, c.utf8Size = 1) :
    s.utf8ByteSize = s.toList.length := by
  rw [← String.ofList_toList (s := s), String.utf8ByteSize_ofList, String.toList_ofList]
  generalize s.toList = cs at h
  induction cs with
  | nil => rfl
  | cons c cs ih =>
    obtain ⟨hc, hcs⟩ := List.forall_mem_cons.mp h
    rw [String.utf8Len_cons, ih hcs, hc, List.length_cons]

theorem ascii_alphabet : ∀ c ∈ base32Alphabet, c.utf8Size = 1 :=
  List.all_iff_forall_prop.mp (by decide)

theorem ascii_hexChar (value : Nat) : (hexChar value).utf8Size = 1 := by
  have hdigits : ∀ c ∈ "0123456789abcdef".toList, c.utf8Size = 1 :=
    List.all_iff_forall_prop.mp (by decide)
  rw [hexChar, List.getD_eq_getElem?_getD]
  cases hget : "0123456789abcdef".toList[value]? with
  | none => rfl
  | some c => exact hdigits c (List.mem_of_getElem? hget)

theorem decodeInfoHash_base32 (hexDecode : String → Option (List UInt8)) {hash : String}
    (hlen : hash.utf8ByteSize = 32) {digest : Digest}
    (h : decodeBase32 hash = some digest.bytes) : decodeInfoHash hexDecode hash = .ok digest := by
  rw [decodeInfoHash, hlen]
  simp only [h, digest.size, dite_true]

theorem decodeInfoHash_hex {hexDecode : String → Option (List UInt8)} (hhex : HexDecodes hexDecode)
    {text : String} {digest : Digest}
    (h : text.toList.map Char.toLower = encodeHex digest.bytes) :
    decodeInfoHash hexDecode text = .ok digest := by
  have hascii : ∀ c ∈ text.toList, c.utf8Size = 1 := by
    refine fun c hc => ascii_of_toLower ?_
    have hmem : c.toLower ∈ encodeHex digest.bytes := h ▸ List.mem_map_of_mem hc
    obtain ⟨byte, -, hpair⟩ := List.mem_flatMap.mp hmem
    rw [List.mem_cons, List.mem_singleton] at hpair
    rcases hpair with heq | heq <;> exact heq ▸ ascii_hexChar _
  have hlen : text.utf8ByteSize = 40 := by
    have hcount := congrArg List.length h
    rw [List.length_map, length_encodeHex, digest.size] at hcount
    exact (utf8ByteSize_of_ascii hascii).trans hcount
  rw [decodeInfoHash, hlen]
  simp only [hhex _ text h, digest.size, dite_true]

/-- A hash of 32 characters of the alphabet is that of the 20 bytes it encodes, and so is their
hexadecimal form. -/
theorem decodeInfoHash_agree {hexDecode : String → Option (List UInt8)}
    (hhex : HexDecodes hexDecode) {hash : String} (hlen : hash.toList.length = 32)
    (halphabet : ∀ c ∈ hash.toList, c.toUpper ∈ base32Alphabet) :
    ∃ digest : Digest, encodeBase32 digest.bytes = hash.toList.map Char.toUpper ∧
      decodeInfoHash hexDecode hash = .ok digest ∧
      ∀ text : String, text.toList.map Char.toLower = encodeHex digest.bytes →
        decodeInfoHash hexDecode text = .ok digest := by
  have hsize : hash.utf8ByteSize = 32 :=
    (utf8ByteSize_of_ascii fun c hc =>
      ascii_of_toUpper (ascii_alphabet _ (halphabet c hc))).trans hlen
  obtain ⟨bytes, hbytes⟩ :=
    Option.isSome_iff_exists.mp ((decodeBase32_isSome_iff hash.toList).mpr halphabet)
  obtain ⟨hcount, hencode⟩ := encode_of_decodeBase32 hbytes (by omega)
  rw [String.ofList_toList] at hbytes
  exact ⟨⟨bytes, by omega⟩, hencode, decodeInfoHash_base32 hexDecode hsize hbytes,
    fun text => decodeInfoHash_hex hhex⟩

theorem Base32Decoder.run_bounded {cs : List Char} {t : Base32Decoder}
    (h : run ⟨[], 0, 0⟩ cs = some t) :
    t.bits < 8 ∧ t.buffer < 2 ^ t.bits ∧ t.buffer * 2 ^ 5 + 31 < 2 ^ 32 := by
  obtain ⟨values, -, -, hpacks⟩ := run_packs (.start (by decide)) h
  have hbits : t.bits < 8 := hpacks.bits_lt
  have hbuffer : t.buffer < 2 ^ t.bits := hpacks.rest_lt
  have hbyte : 2 ^ t.bits ≤ 2 ^ 8 := Nat.pow_le_pow_right (by decide) hbits.le
  exact ⟨hbits, hbuffer, by omega⟩

/-- Base32 is decoded to what was encoded, and nothing else is decoded. -/
theorem base32_correct (hexDecode : String → Option (List UInt8)) (hhex : HexDecodes hexDecode) :
    (∀ (bytes : List UInt8) (cs : List Char), 5 ∣ bytes.length →
      cs.map Char.toUpper = encodeBase32 bytes →
        decodeBase32 (String.ofList cs) = some bytes) ∧
    (∀ cs : List Char, 8 ∣ cs.length →
      ((decodeBase32 (String.ofList cs)).isSome ↔ ∀ c ∈ cs, c.toUpper ∈ base32Alphabet) ∧
      ∀ out, decodeBase32 (String.ofList cs) = some out →
        encodeBase32 out = cs.map Char.toUpper) ∧
    (∀ (read : List Char) (t : Base32Decoder), Base32Decoder.run ⟨[], 0, 0⟩ read = some t →
      t.bits < 8 ∧ t.buffer < 2 ^ t.bits ∧ t.buffer * 2 ^ 5 + 31 < 2 ^ 32) ∧
    (∀ hash : String, hash.toList.length = 32 →
      (∀ c ∈ hash.toList, c.toUpper ∈ base32Alphabet) →
      ∃ digest : Digest, encodeBase32 digest.bytes = hash.toList.map Char.toUpper ∧
        decodeInfoHash hexDecode hash = .ok digest ∧
        ∀ text : String, text.toList.map Char.toLower = encodeHex digest.bytes →
          decodeInfoHash hexDecode text = .ok digest) :=
  ⟨fun _ _ => decode_of_encodeBase32,
    fun cs hlen => ⟨decodeBase32_isSome_iff cs, fun _ h => (encode_of_decodeBase32 h hlen).2⟩,
    fun _ _ => Base32Decoder.run_bounded,
    fun _ => decodeInfoHash_agree hhex⟩

def hexDigit (c : Char) : Option Nat :=
  if '0' ≤ c ∧ c ≤ '9' then some (c.toNat - '0'.toNat)
  else if 'a' ≤ c ∧ c ≤ 'f' then some (c.toNat - 'a'.toNat + 10)
  else none

def decodeHexPairs : List Char → Option (List UInt8)
  | [] => some []
  | [_] => none
  | high :: low :: rest => do
    let high ← hexDigit high.toLower
    let low ← hexDigit low.toLower
    return UInt8.ofNat (16 * high + low) :: (← decodeHexPairs rest)

theorem hexDecodes_pairs : HexDecodes fun text => decodeHexPairs text.toList := by
  have hdigit : ∀ value < 16, hexDigit (hexChar value) = some value := by decide
  intro bytes text h
  dsimp only
  generalize text.toList = cs at h
  induction bytes generalizing cs with
  | nil =>
    cases List.map_eq_nil_iff.mp h
    rfl
  | cons byte bytes ih =>
    rw [encodeHex, List.flatMap_cons, ← encodeHex] at h
    obtain ⟨high, cs, rfl, hhigh, h⟩ := List.map_eq_cons_iff.mp h
    obtain ⟨low, cs, rfl, hlow, h⟩ := List.map_eq_cons_iff.mp h
    have hbyte := byte.toNat_lt
    have hjoin : UInt8.ofNat (16 * (byte.toNat / 16) + byte.toNat % 16) = byte := by
      rw [Nat.div_add_mod, UInt8.ofNat_toNat]
    rw [decodeHexPairs, hhigh, hlow, hdigit _ (by omega), hdigit _ (by omega), ih cs h]
    exact congrArg (fun b => some (b :: bytes)) hjoin

theorem base32_correct_agree :
    decodeInfoHash (fun text => decodeHexPairs text.toList) "BcW2Lj5gDa5k4hQj3aY56z2i2vTaSwQq" =
      decodeInfoHash (fun text => decodeHexPairs text.toList)
        "08aDa5a7a6183AaE1E09d831dF6748d566095A10" := by
  obtain ⟨hround, -, -, hhash⟩ := base32_correct (fun text => decodeHexPairs text.toList)
    hexDecodes_pairs
  obtain ⟨digest, hencode, hbase32, hhex⟩ :=
    hhash "BcW2Lj5gDa5k4hQj3aY56z2i2vTaSwQq" (by decide)
      (List.all_iff_forall_prop.mp (by decide +kernel))
  have hbytes : decodeBase32 "BcW2Lj5gDa5k4hQj3aY56z2i2vTaSwQq" =
      some [8, 173, 165, 167, 166, 24, 58, 174, 30, 9, 216, 49, 223, 103, 72, 213, 102, 9, 90,
        16] := by
    decide +kernel
  have hdigest := hround digest.bytes _ (by rw [digest.size]; decide) hencode.symm
  rw [String.ofList_toList, hbytes, Option.some.injEq] at hdigest
  rw [hbase32, hhex]
  rw [← hdigest]
  decide

structure Magnet where
  infoHash : Digest
  name : Option String
  trackers : List String
  deriving DecidableEq

inductive LinkError
  | uri
  | scheme
  | hash (err : MagnetError)
  | noHash
  deriving DecidableEq

def LinkError.message : LinkError → String
  | .uri => "not a valid magnet URI"
  | .scheme => "not a magnet link"
  | .hash err => err.message
  | .noHash => "magnet link has no urn:btih info hash"

namespace Magnet

def stripBtih (value : String) : Option String :=
  if "urn:btih:".toList.isPrefixOf value.toList then some (String.ofList (value.toList.drop 9))
  else none

/-- The loop of `parse`; of several hashes or names the last one counts. -/
def parsePairs (hexDecode : String → Option (List UInt8)) : List (String × String) →
    Option Digest → Option String → List String →
    Except LinkError (Option Digest × Option String × List String)
  | [], infoHash, name, trackers => .ok (infoHash, name, trackers)
  | ("xt", value) :: pairs, infoHash, name, trackers =>
    match stripBtih value with
    | none => parsePairs hexDecode pairs infoHash name trackers
    | some hash =>
      match decodeInfoHash hexDecode hash with
      | .error err => .error (.hash err)
      | .ok digest => parsePairs hexDecode pairs (some digest) name trackers
  | ("dn", value) :: pairs, infoHash, _, trackers =>
    parsePairs hexDecode pairs infoHash (some value) trackers
  | ("tr", value) :: pairs, infoHash, name, trackers =>
    parsePairs hexDecode pairs infoHash name (trackers ++ [value])
  | _ :: pairs, infoHash, name, trackers => parsePairs hexDecode pairs infoHash name trackers

/-- `url` is `Url::parse` of the trimmed link: the scheme and the pairs of the query. -/
def parse (url : String → Option (String × List (String × String)))
    (hexDecode : String → Option (List UInt8)) (uri : String) : Except LinkError Magnet :=
  match url uri with
  | none => .error .uri
  | some (scheme, pairs) =>
    if scheme ≠ "magnet" then .error .scheme
    else match parsePairs hexDecode pairs none none [] with
      | .error err => .error err
      | .ok (none, _, _) => .error .noHash
      | .ok (some infoHash, name, trackers) => .ok ⟨infoHash, name, trackers⟩

end Magnet

end Tortor.Net
