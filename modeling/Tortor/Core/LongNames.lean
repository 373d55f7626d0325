import Mathlib.Data.Bool.AllAny
import Mathlib.Data.String.Basic
import Tortor.Core.SafePaths

/-! Sanitising what has been sanitised already.  The length is measured before an underscore is put
in front of the name of a device, and again when the name is sanitised once more. -/

namespace Tortor.Core

/-- The name of a device, as long as a component may be, of which nothing is trimmed and
nothing replaced by fewer bytes. -/
structure LongDevice (component : String) : Prop where
  size : component.utf8ByteSize = MAX_COMPONENT_LEN
  separates : ∀ c ∈ component.toList, c ≠ '/' ∧ c ≠ '\\' ∧ c ≠ '\x00'
  narrow : ∀ c ∈ component.toList, ¬ (0x80 ≤ c.toNat ∧ c.toNat < 0xa0)
  last : component.toList.getLast? ≠ some '.' ∧ component.toList.getLast? ≠ some ' '
  stem : ∃ device ∈ WINDOWS_RESERVED_NAMES,
    SameLetters (component.toList.takeWhile (· != '.')) device.toList

def windowsReplace (c : Char) : Char := if windowsReplaces c then '_' else c

theorem windowsReplace_of_replaces {c : Char} (h : windowsReplaces c = true) :
    windowsReplace c = '_' := if_pos h

theorem windowsReplace_of_not {c : Char} (h : windowsReplaces c = false) :
    windowsReplace c = c := if_neg (Bool.eq_false_iff.mp h)

theorem windowsCleaned_eq (component : String) :
    windowsCleaned component = (component.toList.map windowsReplace).rdropWhile windowsTrims := rfl

theorem toNat_of_replaces {c : Char} (h : windowsReplaces c = true) :
    (c.toNat < 0x20 ∨ 0x7f ≤ c.toNat ∧ c.toNat < 0xa0) ∨
      (c.toNat < 0x80 ∧ ¬ (97 ≤ c.toNat ∧ c.toNat ≤ 122)) := by
  have hspecial : ∀ d ∈ "<>:\"|?*".toList, d.toNat < 0x80 ∧ ¬ (97 ≤ d.toNat ∧ d.toNat ≤ 122) :=
    List.all_iff_forall_prop.mp (by decide)
  rw [windowsReplaces, Bool.or_eq_true, List.contains_iff_mem] at h
  rcases h with hcontrol | hmem
  · simp only [isControl, Bool.or_eq_true, Bool.and_eq_true, decide_eq_true_eq] at hcontrol
    exact .inl hcontrol
  · exact .inr (hspecial c hmem)

/-- Of the characters that are replaced only the second block of controls takes two bytes. -/
theorem utf8Size_eq_one_iff_of_replaces {c : Char} (h : windowsReplaces c = true) :
    c.utf8Size = 1 ↔ ¬ (0x80 ≤ c.toNat ∧ c.toNat < 0xa0) := by
  have hval : c.utf8Size = 1 ↔ c.toNat < 0x80 := by
    rw [Char.utf8Size_eq_one_iff, UInt32.le_iff_toNat_le]
    exact Nat.lt_succ_iff.symm
  have hcases := toNat_of_replaces h
  omega

theorem utf8Size_windowsReplace_le (c : Char) : (windowsReplace c).utf8Size ≤ c.utf8Size := by
  unfold windowsReplace
  split
  · exact c.utf8Size_pos
  · exact le_rfl

theorem utf8Len_replaced_le (name : List Char) :
    String.utf8Len (name.map windowsReplace) ≤ String.utf8Len name := by
  induction name with
  | nil => exact le_rfl
  | cons c name ih => exact Nat.add_le_add ih (utf8Size_windowsReplace_le c)

theorem utf8Len_replaced_eq_iff (name : List Char) :
    String.utf8Len (name.map windowsReplace) = String.utf8Len name ↔
      ∀ c ∈ name, ¬ (0x80 ≤ c.toNat ∧ c.toNat < 0xa0) := by
  induction name with
  | nil => exact iff_of_true rfl (List.forall_mem_nil _)
  | cons c name ih =>
    have hrest := utf8Len_replaced_le name
    have hhead := utf8Size_windowsReplace_le c
    have hone : (windowsReplace c).utf8Size = c.utf8Size ↔
        ¬ (0x80 ≤ c.toNat ∧ c.toNat < 0xa0) := by
      cases hc : windowsReplaces c with
      | true =>
        rw [windowsReplace_of_replaces hc, ← utf8Size_eq_one_iff_of_replaces hc]
        exact eq_comm
      | false =>
        have hnot : ¬ (0x80 ≤ c.toNat ∧ c.toNat < 0xa0) := by
          intro hblock
          rw [windowsReplaces, Bool.or_eq_false_iff, isControl] at hc
          simp only [Bool.or_eq_false_iff, Bool.and_eq_false_iff, decide_eq_false_iff_not] at hc
          omega
        rw [windowsReplace_of_not hc]
        exact iff_of_true rfl hnot
    rw [List.map_cons, String.utf8Len_cons, String.utf8Len_cons, List.forall_mem_cons, ← hone, ← ih]
    omega

theorem utf8Len_trimmed_le (name : List Char) :
    String.utf8Len (name.rdropWhile windowsTrims) ≤ String.utf8Len name :=
  String.utf8Len_le_of_prefix (List.rdropWhile_prefix _ _)

theorem utf8Len_trimmed_eq_iff (name : List Char) :
    String.utf8Len (name.rdropWhile windowsTrims) = String.utf8Len name ↔
      name.rdropWhile windowsTrims = name := by
  refine ⟨fun h => ?_, fun h => by rw [h]⟩
  obtain ⟨trimmed, htrimmed⟩ := List.rdropWhile_prefix windowsTrims name
  have hlen := congrArg String.utf8Len htrimmed
  rw [String.utf8Len_append, h, Nat.add_eq_left, String.utf8Len_eq_zero] at hlen
  rw [hlen, List.append_nil] at htrimmed
  exact htrimmed

theorem windowsReplaces_device : ∀ device ∈ WINDOWS_RESERVED_NAMES, ∀ c ∈ device.toList,
    windowsReplaces c = false ∧ c ≠ '_' := by
  have hall : ∀ device ∈ WINDOWS_RESERVED_NAMES,
      device.toList.all fun c => windowsReplaces c = false ∧ c ≠ '_' := by decide
  exact fun device hdevice => List.all_iff_forall_prop.mp (hall device hdevice)

theorem toUpper_of_replaces {c : Char} (h : windowsReplaces c = true) : c.toUpper = c := by
  have hcases := toNat_of_replaces h
  have hletter : ¬ (97 ≤ c.toNat ∧ c.toNat ≤ 122) := by omega
  exact dif_neg hletter

theorem takeWhile_replaced (name : List Char) :
    (name.map windowsReplace).takeWhile (· != '.') =
      (name.takeWhile (· != '.')).map windowsReplace := by
  have hdot (c : Char) : (windowsReplace c != '.') = (c != '.') := by
    cases hc : windowsReplaces c with
    | true =>
      have hne : c ≠ '.' := by
        rintro rfl
        exact absurd hc (by decide)
      rw [windowsReplace_of_replaces hc, bne_iff_ne.mpr hne]
      rfl
    | false => rw [windowsReplace_of_not hc]
  rw [List.takeWhile_map]
  exact congrArg _ (congrArg (List.takeWhile · name) (funext hdot))

theorem sameLetters_replaced_iff {stem : List Char} {device : String}
    (hdevice : device ∈ WINDOWS_RESERVED_NAMES) :
    (stem.map windowsReplace).map Char.toUpper = device.toList ↔
      stem.map Char.toUpper = device.toList := by
  have hkept (hstem : ∀ c ∈ stem, windowsReplaces c = false) :
      stem.map windowsReplace = stem :=
    (List.map_congr_left fun c hc => windowsReplace_of_not (hstem c hc)).trans (List.map_id' _)
  constructor
  · intro h
    have hstem : ∀ c ∈ stem, windowsReplaces c = false := by
      refine fun c hc => Bool.eq_false_iff.mpr fun hreplaced => ?_
      have hmem : '_' ∈ device.toList := by
        rw [← h, List.map_map]
        refine List.mem_map.mpr ⟨c, hc, ?_⟩
        rw [Function.comp_apply, windowsReplace_of_replaces hreplaced]
        rfl
      exact (windowsReplaces_device device hdevice '_' hmem).2 rfl
    rwa [hkept hstem] at h
  · intro h
    have hstem : ∀ c ∈ stem, windowsReplaces c = false := by
      refine fun c hc => Bool.eq_false_iff.mpr fun hreplaced => ?_
      have hmem : c ∈ device.toList := by
        rw [← h]
        exact List.mem_map.mpr ⟨c, hc, toUpper_of_replaces hreplaced⟩
      exact absurd hreplaced
        (Bool.eq_false_iff.mp (windowsReplaces_device device hdevice c hmem).1)
    rwa [hkept hstem]

theorem reserved_iff (name : List Char) :
    WINDOWS_RESERVED_NAMES.contains (deviceStem (name.map windowsReplace)) = true ↔
      ∃ device ∈ WINDOWS_RESERVED_NAMES,
        SameLetters (name.takeWhile (· != '.')) device.toList := by
  have hcapital : ∀ device ∈ WINDOWS_RESERVED_NAMES,
      device.toList.map Char.toUpper = device.toList := by decide
  rw [List.contains_iff_mem, deviceStem, takeWhile_replaced]
  constructor
  · intro hmem
    refine ⟨_, hmem, ?_⟩
    have hsame := (sameLetters_replaced_iff hmem).mp String.toList_ofList.symm
    rw [SameLetters, hcapital _ hmem]
    exact hsame
  · rintro ⟨device, hdevice, hsame⟩
    rw [SameLetters, hcapital device hdevice] at hsame
    rw [(sameLetters_replaced_iff hdevice).mpr hsame, String.ofList_toList]
    exact hdevice

theorem windowsTrims_replace (c : Char) : windowsTrims (windowsReplace c) = windowsTrims c := by
  cases hc : windowsReplaces c with
  | true =>
    have hnot : windowsTrims c = false := by
      refine Bool.eq_false_iff.mpr fun htrims => ?_
      rw [windowsTrims, Bool.or_eq_true, beq_iff_eq, beq_iff_eq] at htrims
      rcases htrims with rfl | rfl <;> exact absurd hc (by decide)
    rw [windowsReplace_of_replaces hc, hnot]
    rfl
  | false => rw [windowsReplace_of_not hc]

theorem trimmed_eq_iff (name : List Char) :
    (name.map windowsReplace).rdropWhile windowsTrims = name.map windowsReplace ↔
      name.getLast? ≠ some '.' ∧ name.getLast? ≠ some ' ' := by
  rw [List.rdropWhile_eq_self_iff]
  rcases List.eq_nil_or_concat name with rfl | ⟨front, c, rfl⟩
  · exact iff_of_true (fun hne => absurd rfl hne) ⟨nofun, nofun⟩
  · have htrims : windowsTrims (windowsReplace c) = true ↔ c = '.' ∨ c = ' ' := by
      rw [windowsTrims_replace, windowsTrims, Bool.or_eq_true, beq_iff_eq, beq_iff_eq]
    rw [List.concat_eq_append, List.getLast?_concat]
    simp [htrims]

theorem utf8Len_cleaned_eq_iff (component : String) :
    String.utf8Len (windowsCleaned component) = component.utf8ByteSize ↔
      (∀ c ∈ component.toList, ¬ (0x80 ≤ c.toNat ∧ c.toNat < 0xa0)) ∧
        component.toList.getLast? ≠ some '.' ∧ component.toList.getLast? ≠ some ' ' := by
  have hsize : component.utf8ByteSize = String.utf8Len component.toList := by
    rw [← String.utf8ByteSize_ofList, String.ofList_toList]
  have htrimmed := utf8Len_trimmed_le (component.toList.map windowsReplace)
  have hreplaced := utf8Len_replaced_le component.toList
  rw [hsize, windowsCleaned_eq, ← utf8Len_replaced_eq_iff, ← trimmed_eq_iff,
    ← utf8Len_trimmed_eq_iff]
  omega

theorem utf8ByteSize_underscore (name : List Char) :
    (String.ofList ('_' :: name)).utf8ByteSize = String.utf8Len name + 1 := by
  rw [String.utf8ByteSize_ofList, String.utf8Len_cons]
  rfl

theorem longDevice_of_long {component name : String}
    (h : sanitizePathComponent true component = .ok name)
    (hlong : MAX_COMPONENT_LEN < name.utf8ByteSize) : LongDevice component := by
  have hlen := length_of_sanitizePathComponent h
  have hle : String.utf8Len (windowsCleaned component) ≤ component.utf8ByteSize := by
    rw [windowsCleaned_eq, ← String.ofList_toList (s := component), String.utf8ByteSize_ofList,
      String.toList_ofList]
    exact (utf8Len_trimmed_le _).trans (utf8Len_replaced_le _)
  obtain ⟨hseparates, ⟨hwindows, -⟩ | ⟨-, hwindows⟩⟩ := plain_of_sanitizePathComponent h
  · cases hwindows
  rw [sanitizeWindows_eq] at hwindows
  split at hwindows
  · cases hwindows
  split at hwindows
  case isTrue hstem =>
    cases hwindows
    rw [utf8ByteSize_underscore] at hlong
    obtain ⟨hnarrow, hlast⟩ := (utf8Len_cleaned_eq_iff component).mp (by omega)
    rw [windowsCleaned_eq, (trimmed_eq_iff _).mpr hlast] at hstem
    exact ⟨by omega, fun c hc => (separates_eq_false_iff c).mp (hseparates c hc), hnarrow, hlast,
      (reserved_iff _).mp hstem⟩
  case isFalse =>
    cases hwindows
    rw [String.utf8ByteSize_ofList] at hlong
    omega

theorem LongDevice.sanitize {component : String} (h : LongDevice component) :
    ∃ name, sanitizePathComponent true component = .ok name ∧
      MAX_COMPONENT_LEN < name.utf8ByteSize := by
  have hcleaned : String.utf8Len (windowsCleaned component) = MAX_COMPONENT_LEN :=
    ((utf8Len_cleaned_eq_iff component).mpr ⟨h.narrow, h.last⟩).trans h.size
  have hplain : ¬ (component = "" ∨ component = "." ∨ component = "..") := by
    have hsize := h.size
    rintro (rfl | rfl | rfl) <;> exact absurd hsize (by decide)
  have hnone : ¬ (component.toList.any fun c => c == '/' || c == '\\' || c == '\x00') = true := by
    intro hany
    obtain ⟨c, hc, hbad⟩ := List.any_eq_true.mp hany
    exact Bool.eq_false_iff.mp ((separates_eq_false_iff c).mpr (h.separates c hc)) hbad
  have hempty : ¬ (windowsCleaned component).isEmpty = true := by
    intro hnil
    rw [List.isEmpty_iff.mp hnil] at hcleaned
    exact absurd hcleaned (by decide)
  have hstem : WINDOWS_RESERVED_NAMES.contains (deviceStem (windowsCleaned component)) = true := by
    rw [windowsCleaned_eq, (trimmed_eq_iff _).mpr h.last]
    exact (reserved_iff _).mpr h.stem
  refine ⟨String.ofList ('_' :: windowsCleaned component), ?_, ?_⟩
  · rw [sanitizePathComponent, if_neg hplain, if_neg h.size.not_gt, if_neg hnone, if_pos rfl,
      sanitizeWindows_eq, if_neg hempty, if_pos hstem]
  · rw [utf8ByteSize_underscore, hcleaned]
    exact Nat.lt_succ_self _

/-- What was sanitised stays as it is when it is sanitised again, unless it was the name of a
device and as long as a component may be. -/
theorem sanitize_again_iff (windows : Bool) (component : String) :
    (∀ name, sanitizePathComponent windows component = .ok name →
      sanitizePathComponent windows name = .ok name) ↔
      ¬ (windows = true ∧ LongDevice component) := by
  constructor
  · rintro hagain ⟨rfl, hdevice⟩
    obtain ⟨name, hname, hlong⟩ := hdevice.sanitize
    exact absurd (length_of_sanitizePathComponent (hagain name hname)) (Nat.not_le.mpr hlong)
  · intro hnot name hname
    apply sanitizePathComponent_again hname
    cases windows with
    | true =>
      by_contra hlong
      exact hnot ⟨rfl, longDevice_of_long hname (Nat.not_le.mp hlong)⟩
    | false =>
      obtain ⟨-, ⟨-, rfl, -⟩ | ⟨hwindows, -⟩⟩ := plain_of_sanitizePathComponent hname
      · exact length_of_sanitizePathComponent hname
      · cases hwindows

def longName : List Char := "CON.".toList ++ List.replicate 251 'a'

theorem sanitize_longName : sanitizePathComponent true (String.ofList longName) =
    .ok (String.ofList ('_' :: longName)) := by
  rw [sanitizePathComponent, sanitizeWindows_eq, windowsCleaned, String.toList_ofList]
  decide +kernel

/-- With the underscore in front it is a byte too long. -/
theorem not_again_longName :
    ¬ ∀ (windows : Bool) (component name : String),
      sanitizePathComponent windows component = .ok name →
        sanitizePathComponent windows name = .ok name := by
  intro hagain
  have hsame := hagain true _ _ sanitize_longName
  have hfails : sanitizePathComponent true (String.ofList ('_' :: longName)) = .error .tooLong := by
    rw [sanitizePathComponent, if_neg, if_pos] <;> decide +kernel
  cases hfails.symm.trans hsame

end Tortor.Core
