import Mathlib.Data.List.DropRight
import Tortor.Core.Torrent

/-! Path components that have been sanitised.  `build_meta` keeps the sanitised name of a torrent,
and it is sanitised once more when the files are laid out. -/

namespace Tortor.Core

def windowsReplaces (c : Char) : Bool := isControl c || "<>:\"|?*".toList.contains c

def windowsTrims (c : Char) : Bool := c == '.' || c == ' '

def separates (c : Char) : Bool := c == '/' || c == '\\' || c == '\x00'

/-- The device a file of this name would stand for. -/
def deviceStem (name : List Char) : String :=
  String.ofList ((name.takeWhile (· != '.')).map Char.toUpper)

structure WindowsName (name : List Char) : Prop where
  ne_nil : name ≠ []
  last : ∀ h : name ≠ [], ¬ windowsTrims (name.getLast h) = true
  kept : ∀ c ∈ name, windowsReplaces c = false
  separates : ∀ c ∈ name, separates c = false
  stem : WINDOWS_RESERVED_NAMES.contains (deviceStem name) = false

theorem not_reserved_underscore (rest : List Char) :
    WINDOWS_RESERVED_NAMES.contains (deviceStem ('_' :: rest)) = false := by
  have hfirst : ∀ device ∈ WINDOWS_RESERVED_NAMES, device.toList.head? ≠ some '_' := by decide
  rw [Bool.eq_false_iff, ne_eq, List.contains_iff_mem]
  intro hmem
  exact hfirst _ hmem (by rw [deviceStem, String.toList_ofList]; rfl)

def windowsCleaned (component : String) : List Char :=
  (component.toList.map fun c => if windowsReplaces c then '_' else c).rdropWhile windowsTrims

theorem sanitizeWindows_eq (component : String) : sanitizeWindows component =
    if (windowsCleaned component).isEmpty then .error (.invalidComponent component)
    else if WINDOWS_RESERVED_NAMES.contains (deviceStem (windowsCleaned component)) then
      .ok (String.ofList ('_' :: windowsCleaned component))
    else .ok (String.ofList (windowsCleaned component)) := rfl

theorem windowsCleaned_last (component : String) (h : windowsCleaned component ≠ []) :
    ¬ windowsTrims ((windowsCleaned component).getLast h) = true :=
  List.rdropWhile_last_not _ _ h

theorem mem_windowsCleaned {component : String} {c : Char} (h : c ∈ windowsCleaned component) :
    windowsReplaces c = false ∧ (c = '_' ∨ c ∈ component.toList) := by
  obtain ⟨original, horiginal, rfl⟩ := List.mem_map.mp ((List.rdropWhile_prefix _ _).subset h)
  split
  case isTrue => exact ⟨by decide, .inl rfl⟩
  case isFalse hkept => exact ⟨Bool.eq_false_iff.mpr hkept, .inr horiginal⟩

theorem windowsName_of_sanitizeWindows {component name : String}
    (h : sanitizeWindows component = .ok name)
    (hseparates : ∀ c ∈ component.toList, separates c = false) : WindowsName name.toList := by
  have hseparates' (c : Char) (hc : c ∈ windowsCleaned component) : separates c = false := by
    rcases (mem_windowsCleaned hc).2 with rfl | horiginal
    · rfl
    · exact hseparates c horiginal
  rw [sanitizeWindows_eq] at h
  split at h
  · cases h
  case isFalse hempty =>
    have hne : windowsCleaned component ≠ [] := fun hnil => hempty (by rw [hnil]; rfl)
    split at h
    case isTrue =>
      cases h
      rw [String.toList_ofList]
      refine ⟨List.cons_ne_nil _ _, fun _ => ?_, ?_, ?_, not_reserved_underscore _⟩
      · rw [List.getLast_cons hne]
        exact windowsCleaned_last component hne
      · exact List.forall_mem_cons.mpr ⟨by decide, fun c hc => (mem_windowsCleaned hc).1⟩
      · exact List.forall_mem_cons.mpr ⟨by decide, hseparates'⟩
    case isFalse hstem =>
      cases h
      rw [String.toList_ofList]
      exact ⟨hne, windowsCleaned_last component, fun c hc => (mem_windowsCleaned hc).1,
        hseparates', Bool.eq_false_iff.mpr hstem⟩

theorem WindowsName.sanitizeWindows {name : String} (h : WindowsName name.toList) :
    sanitizeWindows name = .ok name := by
  have hkept : (name.toList.map fun c => if windowsReplaces c then '_' else c) = name.toList :=
    (List.map_congr_left fun c hc => if_neg (Bool.eq_false_iff.mp (h.kept c hc))).trans
      (List.map_id' _)
  have hcleaned : windowsCleaned name = name.toList := by
    rw [windowsCleaned, hkept]
    exact List.rdropWhile_eq_self_iff.mpr h.last
  have hempty : ¬ name.toList.isEmpty = true := fun hnil => h.ne_nil (List.isEmpty_iff.mp hnil)
  rw [sanitizeWindows_eq, hcleaned, if_neg hempty, h.stem, if_neg Bool.false_ne_true,
    String.ofList_toList]

theorem WindowsName.sanitizePathComponent {name : String} (h : WindowsName name.toList)
    (hlen : name.utf8ByteSize ≤ MAX_COMPONENT_LEN) :
    sanitizePathComponent true name = .ok name := by
  have hplain : ¬ (name = "" ∨ name = "." ∨ name = "..") := by
    rintro (rfl | rfl | rfl)
    · exact h.ne_nil rfl
    · exact h.last h.ne_nil rfl
    · exact h.last h.ne_nil rfl
  have hseparates : ¬ (name.toList.any fun c => c == '/' || c == '\\' || c == '\x00') = true := by
    intro hany
    obtain ⟨c, hc, hbad⟩ := List.any_eq_true.mp hany
    exact absurd ((h.separates c hc).symm.trans hbad) nofun
  rw [Core.sanitizePathComponent, if_neg hplain, if_neg (Nat.not_lt.mpr hlen),
    if_neg hseparates, if_pos rfl, h.sanitizeWindows]

theorem sanitizePathComponent_again {windows : Bool} {component name : String}
    (h : sanitizePathComponent windows component = .ok name)
    (hlen : name.utf8ByteSize ≤ MAX_COMPONENT_LEN) :
    sanitizePathComponent windows name = .ok name := by
  have hinput := h
  rw [sanitizePathComponent] at h
  split at h
  · cases h
  · split at h
    · cases h
    · split at h
      · cases h
      case isFalse hnone =>
        cases windows with
        | false =>
          cases h
          exact hinput
        | true =>
          refine (windowsName_of_sanitizeWindows h fun c hc => ?_).sanitizePathComponent hlen
          exact Bool.eq_false_iff.mpr fun hbad => hnone (List.any_eq_true.mpr ⟨c, hc, hbad⟩)

theorem length_of_sanitizePathComponent {windows : Bool} {component name : String}
    (h : sanitizePathComponent windows component = .ok name) :
    component.utf8ByteSize ≤ MAX_COMPONENT_LEN := by
  rw [sanitizePathComponent] at h
  split at h
  · cases h
  · split at h
    · cases h
    case isFalse hlen => exact Nat.not_lt.mp hlen

end Tortor.Core
