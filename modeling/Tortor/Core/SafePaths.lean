import Tortor.Core.Disk
import Tortor.Core.PathNames

/-! The files of a torrent stay below the directory they are to be written to.  `build_file_path`
pushes one component after the other, and `PathBuf::push` puts a component that has a root or, on
Windows, a drive in the place of what was there before. -/

namespace Tortor.Core

def hasRootOrDrive (windows : Bool) (component : String) : Bool :=
  match component.toList with
  | '/' :: _ => true
  | '\\' :: _ => windows
  | letter :: ':' :: _ => windows && letter.isAlpha
  | _ => false

/-- `PathBuf::push`.  Nothing is left of a path whose place is taken. -/
def pushComponent (windows : Bool) (path : Path) (component : String) : Option Path :=
  if hasRootOrDrive windows component then none else some (path ++ [component])

def pushParts (windows : Bool) : List String → Path → Option (Except PathError Path)
  | [], path => some (.ok path)
  | part :: parts, path =>
    match sanitizePathComponent windows part with
    | .error err => some (.error err)
    | .ok component => (pushComponent windows path component).bind (pushParts windows parts)

def pushFilePath (windows : Bool) (base : Path) (name : String) (isMulti : Bool)
    (parts : List String) : Option (Except PathError Path) :=
  if parts.isEmpty then some (.error .emptyPath)
  else if isMulti then
    match sanitizePathComponent windows name with
    | .error err => some (.error err)
    | .ok component => (pushComponent windows base component).bind (pushParts windows parts)
  else pushParts windows parts base

def SameLetters (a b : List Char) : Prop := a.map Char.toUpper = b.map Char.toUpper

/-- A name that stands for nothing but a file or a directory in the one before it. -/
structure SafeComponent (windows : Bool) (name : String) : Prop where
  ne_empty : name ≠ ""
  ne_dot : name ≠ "."
  ne_dotdot : name ≠ ".."
  separates : ∀ c ∈ name.toList, c ≠ '/' ∧ c ≠ '\\' ∧ c ≠ '\x00'
  kept : windows = true → ∀ c ∈ name.toList, isControl c = false ∧ c ∉ "<>:\"|?*".toList
  last : windows = true → name.toList.getLast? ≠ some '.' ∧ name.toList.getLast? ≠ some ' '
  stem : windows = true → ∀ device ∈ WINDOWS_RESERVED_NAMES,
    ¬ SameLetters (name.toList.takeWhile (· != '.')) device.toList

theorem separates_eq_false_iff (c : Char) :
    separates c = false ↔ c ≠ '/' ∧ c ≠ '\\' ∧ c ≠ '\x00' := by
  simp [separates, and_assoc]

theorem plain_of_sanitizePathComponent {windows : Bool} {component name : String}
    (h : sanitizePathComponent windows component = .ok name) :
    (∀ c ∈ component.toList, separates c = false) ∧
      ((windows = false ∧ name = component ∧ component ≠ "" ∧ component ≠ "." ∧ component ≠ "..") ∨
        (windows = true ∧ sanitizeWindows component = .ok name)) := by
  rw [sanitizePathComponent] at h
  split at h
  · cases h
  case isFalse hplain =>
  split at h
  · cases h
  split at h
  · cases h
  case isFalse hnone =>
  refine ⟨fun c hc => Bool.eq_false_iff.mpr fun hbad => hnone (List.any_eq_true.mpr ⟨c, hc, hbad⟩), ?_⟩
  rw [not_or, not_or] at hplain
  cases windows with
  | false =>
    cases h
    exact .inl ⟨rfl, rfl, hplain⟩
  | true => exact .inr ⟨rfl, h⟩

theorem deviceStem_of_sameLetters {name : List Char} {device : String}
    (hdevice : device ∈ WINDOWS_RESERVED_NAMES)
    (h : SameLetters (name.takeWhile (· != '.')) device.toList) : deviceStem name = device := by
  have hcapital : ∀ device ∈ WINDOWS_RESERVED_NAMES,
      device.toList.map Char.toUpper = device.toList := by decide
  rw [deviceStem, h, hcapital device hdevice, String.ofList_toList]

theorem WindowsName.safe {name : String} (h : WindowsName name.toList) : SafeComponent true name where
  ne_empty := by
    rintro rfl
    exact h.ne_nil rfl
  ne_dot := by
    rintro rfl
    exact h.last h.ne_nil rfl
  ne_dotdot := by
    rintro rfl
    exact h.last h.ne_nil rfl
  separates c hc := (separates_eq_false_iff c).mp (h.separates c hc)
  kept _ c hc := by
    have hkept := h.kept c hc
    rw [windowsReplaces, Bool.or_eq_false_iff] at hkept
    exact ⟨hkept.1, fun hmem => Bool.eq_false_iff.mp hkept.2 (List.contains_iff_mem.mpr hmem)⟩
  last _ := by
    have hlast := h.last h.ne_nil
    rw [List.getLast?_eq_some_getLast h.ne_nil]
    constructor
    · intro he
      rw [Option.some.inj he] at hlast
      exact hlast rfl
    · intro he
      rw [Option.some.inj he] at hlast
      exact hlast rfl
  stem _ device hdevice hsame := by
    have hstem := h.stem
    rw [deviceStem_of_sameLetters hdevice hsame, Bool.eq_false_iff, ne_eq,
      List.contains_iff_mem] at hstem
    exact hstem hdevice

theorem safeComponent_of_sanitize {windows : Bool} {component name : String}
    (h : sanitizePathComponent windows component = .ok name) : SafeComponent windows name := by
  obtain ⟨hseparates, ⟨rfl, rfl, hempty, hdot, hdotdot⟩ | ⟨rfl, hwindows⟩⟩ :=
    plain_of_sanitizePathComponent h
  · exact ⟨hempty, hdot, hdotdot, fun c hc => (separates_eq_false_iff c).mp (hseparates c hc),
      nofun, nofun, nofun⟩
  · exact (windowsName_of_sanitizeWindows hwindows hseparates).safe

theorem SafeComponent.push {windows : Bool} {name : String} (h : SafeComponent windows name)
    (path : Path) : pushComponent windows path name = some (path ++ [name]) := by
  rw [pushComponent, if_neg]
  rw [hasRootOrDrive]
  split
  case h_1 rest hname => exact absurd rfl (h.separates '/' (by simp [hname])).1
  case h_2 rest hname => exact absurd rfl (h.separates '\\' (by simp [hname])).2.1
  case h_3 letter rest _ _ hname =>
    cases windows with
    | false => simp
    | true => exact absurd (by decide) (h.kept rfl ':' (by simp [hname])).2
  case h_4 => exact Bool.false_ne_true

/-! The pushes make the path that the list of its components is. -/

theorem pushParts_eq (windows : Bool) (parts : List String) (path : Path) :
    pushParts windows parts path =
      some ((parts.mapM (sanitizePathComponent windows)).map (path ++ ·)) := by
  induction parts generalizing path with
  | nil => simp [pushParts, Except.map, pure, Except.pure]
  | cons part parts ih =>
    rw [pushParts, List.mapM_cons]
    cases hpart : sanitizePathComponent windows part with
    | error err => rfl
    | ok component =>
      simp only [(safeComponent_of_sanitize hpart).push, Option.bind_some, ih]
      cases parts.mapM (sanitizePathComponent windows) with
      | error err => rfl
      | ok cleaned => simp [Except.map, bind, Except.bind, pure, Except.pure]

theorem pushFilePath_eq (windows : Bool) (base : Path) (name : String) (isMulti : Bool)
    (parts : List String) :
    pushFilePath windows base name isMulti parts =
      some (buildFilePath windows base name isMulti parts) := by
  rw [pushFilePath, buildFilePath]
  split
  · rfl
  case isFalse =>
  cases isMulti with
  | false =>
    simp only [Bool.false_eq_true, if_false, pushParts_eq]
    cases parts.mapM (sanitizePathComponent windows) <;> rfl
  | true =>
    simp only [if_true]
    cases hname : sanitizePathComponent windows name with
    | error err => rfl
    | ok root =>
      simp only [(safeComponent_of_sanitize hname).push, Option.bind_some, pushParts_eq]
      cases parts.mapM (sanitizePathComponent windows) <;> rfl

theorem safe_of_mapM {windows : Bool} {parts cleaned : List String}
    (h : parts.mapM (sanitizePathComponent windows) = .ok cleaned) :
    cleaned.length = parts.length ∧ ∀ name ∈ cleaned, SafeComponent windows name := by
  induction parts generalizing cleaned with
  | nil =>
    cases h
    exact ⟨rfl, List.forall_mem_nil _⟩
  | cons part parts ih =>
    rw [List.mapM_cons] at h
    cases hpart : sanitizePathComponent windows part with
    | error err => rw [hpart] at h; cases h
    | ok component =>
      cases hparts : parts.mapM (sanitizePathComponent windows) with
      | error err => rw [hpart, hparts] at h; cases h
      | ok rest =>
        rw [hpart, hparts] at h
        cases h
        obtain ⟨hlen, hrest⟩ := ih hparts
        exact ⟨by rw [List.length_cons, List.length_cons, hlen],
          List.forall_mem_cons.mpr ⟨safeComponent_of_sanitize hpart, hrest⟩⟩

def Below (windows : Bool) (base path : Path) : Prop :=
  ∃ rest, rest ≠ [] ∧ path = base ++ rest ∧ ∀ name ∈ rest, SafeComponent windows name

theorem below_of_buildFilePath {windows isMulti : Bool} {base path : Path} {name : String}
    {parts : List String} (h : buildFilePath windows base name isMulti parts = .ok path) :
    Below windows base path := by
  have hpushed : pushFilePath windows base name isMulti parts = some (.ok path) := by
    rw [pushFilePath_eq, h]
  rw [pushFilePath] at hpushed
  split at hpushed
  · cases hpushed
  case isFalse hne =>
  have hall : pushParts windows (if isMulti then name :: parts else parts) base =
      some (.ok path) := by
    cases isMulti <;> exact hpushed
  have hallNe : (if isMulti then name :: parts else parts) ≠ [] := by
    cases isMulti
    · exact fun hnil => hne (List.isEmpty_iff.mpr hnil)
    · exact List.cons_ne_nil _ _
  generalize (if isMulti then name :: parts else parts) = all at hall hallNe
  rw [pushParts_eq] at hall
  cases hcleaned : all.mapM (sanitizePathComponent windows) with
  | error err => rw [hcleaned] at hall; cases hall
  | ok cleaned =>
    rw [hcleaned] at hall
    cases hall
    obtain ⟨hlen, hsafe⟩ := safe_of_mapM hcleaned
    refine ⟨cleaned, fun hnil => hallNe ?_, rfl, hsafe⟩
    rw [hnil, List.length_nil] at hlen
    exact List.length_eq_zero_iff.mp hlen.symm

theorem below_of_planFiles {windows isMulti : Bool} {base : Path} {name : String}
    {files : List TorrentFile} {offset : Nat} {plans : List FilePlan}
    (h : planFiles windows base name isMulti files offset = .ok plans) :
    ∀ plan ∈ plans, Below windows base plan.path := by
  induction files generalizing offset plans with
  | nil =>
    cases h
    exact List.forall_mem_nil _
  | cons file files ih =>
    obtain ⟨path, rest, hpath, hrest, rfl⟩ := planFiles_cons_ok h
    exact List.forall_mem_cons.mpr ⟨below_of_buildFilePath hpath, ih hrest⟩

/-- No push takes the place of the base, and whatever is laid out lies below it. -/
theorem files_below_base (windows : Bool) (base : Path) (name : String) (isMulti : Bool) :
    (∀ parts, ∃ result, pushFilePath windows base name isMulti parts = some result ∧
      ∀ path, result = .ok path → Below windows base path) ∧
    ∀ files offset plans, planFiles windows base name isMulti files offset = .ok plans →
      ∀ plan ∈ plans, Below windows base plan.path :=
  ⟨fun parts => ⟨_, pushFilePath_eq windows base name isMulti parts,
      fun _ => below_of_buildFilePath⟩,
    fun _ _ _ => below_of_planFiles⟩

theorem files_below_base_device :
    ∀ plan ∈ [FilePlan.mk ["C:", "downloads", "c_", "_nul.txt"] 0 7],
      Below true ["C:", "downloads"] plan.path :=
  (files_below_base true ["C:", "downloads"] "c:" true).2 [⟨7, ["nul.txt."]⟩] 0 _
    (by decide +kernel)

end Tortor.Core
