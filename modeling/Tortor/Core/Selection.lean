import Tortor.Core.Bitfield
import Tortor.Core.Torrent

namespace Tortor.Core

/-- Which pieces are needed for the chosen files, and which finished pieces cannot be
served because part of them was never stored. -/
structure Selection where
  wanted : Bitfield
  unservable : Bitfield
  deriving DecidableEq

namespace Selection

def all (totalPieces : Nat) : Selection := ⟨.full totalPieces, .new totalPieces⟩

def filePieces (pieceLength totalPieces offset : Nat) (file : TorrentFile) : List Nat :=
  if 0 < file.length then
    let first := offset / pieceLength
    let last := (offset + file.length - 1) / pieceLength
    List.range' first (min last (totalPieces - 1) + 1 - first)
  else []

def setAll (field : Bitfield) (pieces : List Nat) : Bitfield :=
  pieces.foldl (fun field piece => (field.set piece).2) field

def fromFilesLoop (pieceLength totalPieces : Nat) :
    Nat → List (TorrentFile × Bool) → Selection → Selection
  | _, [], sel => sel
  | offset, (file, keep) :: rest, sel =>
    let pieces := filePieces pieceLength totalPieces offset file
    let sel := if keep then { sel with wanted := setAll sel.wanted pieces }
      else { sel with unservable := setAll sel.unservable pieces }
    fromFilesLoop pieceLength totalPieces (offset + file.length) rest sel

/-- `selected[i]` tells whether `files[i]` is downloaded. -/
def fromFiles (files : List TorrentFile) (selected : List Bool) (pieceLength totalPieces : Nat) :
    Selection :=
  fromFilesLoop (max pieceLength 1) totalPieces 0 (files.zip selected)
    ⟨.new totalPieces, .new totalPieces⟩

def piecesOfFilesLoop (pieceLength totalPieces : Nat) :
    Nat → List (TorrentFile × Bool) → Bitfield → Bitfield
  | _, [], pieces => pieces
  | offset, (file, flag) :: rest, pieces =>
    let pieces := if flag then setAll pieces (filePieces pieceLength totalPieces offset file)
      else pieces
    piecesOfFilesLoop pieceLength totalPieces (offset + file.length) rest pieces

def piecesOfFiles (files : List TorrentFile) (flags : List Bool) (pieceLength totalPieces : Nat) :
    Bitfield :=
  piecesOfFilesLoop (max pieceLength 1) totalPieces 0 (files.zip flags) (.new totalPieces)

/-- Pieces that must be downloaded again when `after` replaces `before`: every piece
that overlaps a file that was skipped and is now selected. -/
def piecesToRefetch (files : List TorrentFile) (before after : List Bool)
    (pieceLength totalPieces : Nat) : Bitfield :=
  piecesOfFiles files (List.zipWith (fun was now => !was && now) before after)
    pieceLength totalPieces

def isAll (self : Selection) : Bool :=
  self.wanted.count == self.wanted.len && self.unservable.count == 0

/-- Bytes still to be fetched if no piece were complete. -/
def wantedBytes (self : Selection) (pieceLength totalLength : Nat) : Nat :=
  (self.wanted.iterOnes.map fun piece =>
    let start := piece * pieceLength
    min (totalLength - start) pieceLength).sum

end Selection

/-! Files are laid out back to back, so a byte of the torrent is one number: it lies in
the file whose extent contains it and in the piece that its quotient names. -/

def fileStart (files : List TorrentFile) (i : Nat) : Nat := ((files.take i).map (·.length)).sum

def InFile (files : List TorrentFile) (i x : Nat) : Prop :=
  fileStart files i ≤ x ∧ x < fileStart files (i + 1)

/-- Some byte of the torrent lies both in piece `p` and in file `i`. -/
def Overlaps (files : List TorrentFile) (pieceLength p i : Nat) : Prop :=
  ∃ x, InFile files i x ∧ x / pieceLength = p

@[simp] theorem fileStart_zero (files : List TorrentFile) : fileStart files 0 = 0 := rfl

@[simp] theorem fileStart_cons_succ (file : TorrentFile) (files : List TorrentFile) (i : Nat) :
    fileStart (file :: files) (i + 1) = file.length + fileStart files i := by
  simp [fileStart]

theorem fileStart_succ {files : List TorrentFile} {i : Nat} {file : TorrentFile}
    (h : files[i]? = some file) : fileStart files (i + 1) = fileStart files i + file.length := by
  simp [fileStart, List.take_add_one, h]

theorem fileStart_succ_of_none {files : List TorrentFile} {i : Nat} (h : files[i]? = none) :
    fileStart files (i + 1) = fileStart files i := by
  simp [fileStart, List.take_add_one, h]

theorem fileStart_le_succ (files : List TorrentFile) (i : Nat) :
    fileStart files i ≤ fileStart files (i + 1) := by
  cases h : files[i]? with
  | none => rw [fileStart_succ_of_none h]
  | some file => rw [fileStart_succ h]; omega

theorem fileStart_mono (files : List TorrentFile) {i j : Nat} (h : i ≤ j) :
    fileStart files i ≤ fileStart files j := by
  induction h with
  | refl => exact Nat.le_refl _
  | step _ ih => exact ih.trans (fileStart_le_succ files _)

theorem fileStart_eq_total {files : List TorrentFile} {i : Nat} (h : files.length ≤ i) :
    fileStart files i = (files.map (·.length)).sum := by
  rw [fileStart, List.take_of_length_le h]

theorem InFile.unique {files : List TorrentFile} {i j x : Nat} (hi : InFile files i x)
    (hj : InFile files j x) : i = j := by
  obtain ⟨hi, hi'⟩ := hi
  obtain ⟨hj, hj'⟩ := hj
  rcases Nat.lt_trichotomy i j with h | h | h
  · have := fileStart_mono files (show i + 1 ≤ j from h); omega
  · exact h
  · have := fileStart_mono files (show j + 1 ≤ i from h); omega

theorem InFile.lt_length {files : List TorrentFile} {i x : Nat} (h : InFile files i x) :
    i < files.length := by
  by_contra hge
  have : fileStart files (i + 1) = fileStart files i := fileStart_succ_of_none (by simp; omega)
  obtain ⟨h₁, h₂⟩ := h
  omega

theorem exists_inFile {files : List TorrentFile} {x : Nat}
    (h : x < (files.map (·.length)).sum) : ∃ i, InFile files i x := by
  induction files generalizing x with
  | nil => simp at h
  | cons file files ih =>
    rcases Nat.lt_or_ge x file.length with hx | hx
    · exact ⟨0, by simp, by simpa using hx⟩
    · obtain ⟨i, h₁, h₂⟩ := ih (x := x - file.length) (by simp at h; omega)
      exact ⟨i + 1, by simp; omega, by simp; omega⟩

namespace Selection

@[simp] theorem len_setAll (field : Bitfield) (pieces : List Nat) :
    (setAll field pieces).len = field.len := Bitfield.len_foldl_set pieces field

theorem has_setAll (field : Bitfield) (pieces : List Nat) (p : Nat) :
    (setAll field pieces).has p ↔ field.has p ∨ p ∈ pieces ∧ p < field.len :=
  Bitfield.has_foldl_set pieces field p

theorem mem_filePieces {pieceLength totalPieces p : Nat} (hL : 0 < pieceLength)
    (hp : p < totalPieces) (offset : Nat) (file : TorrentFile) :
    p ∈ filePieces pieceLength totalPieces offset file ↔
      ∃ x, (offset ≤ x ∧ x < offset + file.length) ∧ x / pieceLength = p := by
  unfold filePieces
  split
  case isFalse h =>
    constructor
    · simp
    · rintro ⟨x, ⟨h₁, h₂⟩, -⟩; omega
  case isTrue h =>
    simp only [List.mem_range'_1]
    constructor
    · rintro ⟨hfirst, hlast⟩
      have hle : p ≤ (offset + file.length - 1) / pieceLength := by omega
      rw [Nat.le_div_iff_mul_le hL] at hle
      rcases Nat.le_total offset (p * pieceLength) with ho | ho
      · exact ⟨p * pieceLength, ⟨ho, by omega⟩, Nat.mul_div_cancel p hL⟩
      · refine ⟨offset, ⟨Nat.le_refl _, by omega⟩, ?_⟩
        have := (Nat.le_div_iff_mul_le hL).mpr ho
        omega
    · rintro ⟨x, ⟨h₁, h₂⟩, rfl⟩
      have := Nat.div_le_div_right (c := pieceLength) h₁
      have := Nat.div_le_div_right (c := pieceLength) (show x ≤ offset + file.length - 1 by omega)
      omega

def Marked (pieceLength offset : Nat) (files : List (TorrentFile × Bool)) (flag : Bool)
    (p : Nat) : Prop :=
  ∃ i file, files[i]? = some (file, flag) ∧
    ∃ x, (offset + fileStart (files.map Prod.fst) i ≤ x ∧
      x < offset + fileStart (files.map Prod.fst) i + file.length) ∧ x / pieceLength = p

theorem marked_nil (pieceLength offset : Nat) (flag : Bool) (p : Nat) :
    ¬ Marked pieceLength offset [] flag p := by
  rintro ⟨i, file, h, -⟩; simp at h

theorem marked_cons {pieceLength offset : Nat} {file : TorrentFile} {keep : Bool}
    {rest : List (TorrentFile × Bool)} {flag : Bool} {p : Nat} :
    Marked pieceLength offset ((file, keep) :: rest) flag p ↔
      (keep = flag ∧ ∃ x, (offset ≤ x ∧ x < offset + file.length) ∧ x / pieceLength = p) ∨
        Marked pieceLength (offset + file.length) rest flag p := by
  constructor
  · rintro ⟨i, f, hi, hx⟩
    cases i with
    | zero =>
      simp only [List.getElem?_cons_zero, Option.some.injEq, Prod.mk.injEq] at hi
      obtain ⟨rfl, rfl⟩ := hi
      exact .inl ⟨rfl, by simpa using hx⟩
    | succ i => exact .inr ⟨i, f, by simpa using hi, by simpa [Nat.add_assoc] using hx⟩
  · rintro (⟨rfl, hx⟩ | ⟨i, f, hi, hx⟩)
    · exact ⟨0, file, rfl, by simpa using hx⟩
    · exact ⟨i + 1, f, by simpa using hi, by simpa [Nat.add_assoc] using hx⟩

theorem take_map_fst_zip (files : List TorrentFile) (flags : List Bool) (i : Nat)
    (h : i ≤ (files.zip flags).length) :
    ((files.zip flags).map Prod.fst).take i = files.take i := by
  induction files generalizing flags i with
  | nil => simp
  | cons file files ih =>
    cases flags with
    | nil => simp at h; simp [h]
    | cons flag flags =>
      cases i with
      | zero => rfl
      | succ i => simpa using ih flags i (by simpa using h)

theorem marked_zip {files : List TorrentFile} {flags : List Bool} {pieceLength p : Nat}
    {flag : Bool} :
    Marked pieceLength 0 (files.zip flags) flag p ↔
      ∃ i, flags[i]? = some flag ∧ Overlaps files pieceLength p i := by
  have hstart : ∀ i ≤ (files.zip flags).length,
      fileStart ((files.zip flags).map Prod.fst) i = fileStart files i := by
    intro i hi
    rw [fileStart, fileStart, take_map_fst_zip files flags i hi]
  constructor
  · rintro ⟨i, file, hi, x, hx, hp⟩
    obtain ⟨hf, hs⟩ := List.getElem?_zip_eq_some.mp hi
    have hlt := (List.getElem?_eq_some_iff.mp hi).1
    rw [hstart i (by omega), Nat.zero_add] at hx
    exact ⟨i, hs, x, ⟨hx.1, by rw [fileStart_succ hf]; exact hx.2⟩, hp⟩
  · rintro ⟨i, hs, x, hx, hp⟩
    have hlt := hx.lt_length
    have hf : files[i]? = some files[i] := by simp [hlt]
    have hfl := (List.getElem?_eq_some_iff.mp hs).1
    refine ⟨i, files[i], List.getElem?_zip_eq_some.mpr ⟨hf, hs⟩, x, ?_, hp⟩
    rw [hstart i (by simp; omega)]
    obtain ⟨h₁, h₂⟩ := hx
    rw [fileStart_succ hf] at h₂
    omega

variable {pieceLength totalPieces : Nat}

theorem fromFilesLoop_spec (hL : 0 < pieceLength) (files : List (TorrentFile × Bool))
    (offset : Nat) (sel : Selection) (hw : sel.wanted.len = totalPieces)
    (hu : sel.unservable.len = totalPieces) (p : Nat) :
    ((fromFilesLoop pieceLength totalPieces offset files sel).wanted.has p ↔
      sel.wanted.has p ∨ p < totalPieces ∧ Marked pieceLength offset files true p) ∧
    ((fromFilesLoop pieceLength totalPieces offset files sel).unservable.has p ↔
      sel.unservable.has p ∨ p < totalPieces ∧ Marked pieceLength offset files false p) := by
  induction files generalizing offset sel with
  | nil => simp [fromFilesLoop, marked_nil]
  | cons entry rest ih =>
    obtain ⟨file, keep⟩ := entry
    have hmem (hp : p < totalPieces) := mem_filePieces hL hp offset file
    cases keep with
    | true =>
      obtain ⟨ihw, ihu⟩ := ih (offset + file.length)
        { sel with wanted := setAll sel.wanted (filePieces pieceLength totalPieces offset file) }
        (by simpa using hw) hu
      simp only [fromFilesLoop, if_pos]
      rw [ihw, ihu, has_setAll, hw, marked_cons, marked_cons]
      by_cases hp : p < totalPieces <;> simp [hp, hmem, or_assoc]
    | false =>
      obtain ⟨ihw, ihu⟩ := ih (offset + file.length)
        { sel with
          unservable := setAll sel.unservable (filePieces pieceLength totalPieces offset file) }
        hw (by simpa using hu)
      simp only [fromFilesLoop, Bool.false_eq_true, if_false]
      rw [ihw, ihu, has_setAll, hu, marked_cons, marked_cons]
      by_cases hp : p < totalPieces <;> simp [hp, hmem, or_assoc]

theorem len_fromFilesLoop (pieceLength totalPieces : Nat) (files : List (TorrentFile × Bool))
    (offset : Nat) (sel : Selection) :
    (fromFilesLoop pieceLength totalPieces offset files sel).wanted.len = sel.wanted.len ∧
      (fromFilesLoop pieceLength totalPieces offset files sel).unservable.len =
        sel.unservable.len := by
  induction files generalizing offset sel with
  | nil => exact ⟨rfl, rfl⟩
  | cons entry rest ih =>
    obtain ⟨file, keep⟩ := entry
    rw [fromFilesLoop, (ih _ _).1, (ih _ _).2]
    cases keep <;> simp

theorem len_fromFiles (files : List TorrentFile) (selected : List Bool)
    (pieceLength totalPieces : Nat) :
    (fromFiles files selected pieceLength totalPieces).wanted.len = totalPieces ∧
      (fromFiles files selected pieceLength totalPieces).unservable.len = totalPieces :=
  len_fromFilesLoop _ _ _ _ _

theorem wanted_fromFiles (hL : 0 < pieceLength) (files : List TorrentFile) (selected : List Bool)
    (p : Nat) : (fromFiles files selected pieceLength totalPieces).wanted.has p ↔
      p < totalPieces ∧ ∃ i, selected[i]? = some true ∧ Overlaps files pieceLength p i := by
  rw [fromFiles, Nat.max_eq_left hL, (fromFilesLoop_spec hL _ _ _ (by simp) (by simp) p).1, marked_zip]
  simp

theorem unservable_fromFiles (hL : 0 < pieceLength) (files : List TorrentFile)
    (selected : List Bool) (p : Nat) :
    (fromFiles files selected pieceLength totalPieces).unservable.has p ↔
      p < totalPieces ∧ ∃ i, selected[i]? = some false ∧ Overlaps files pieceLength p i := by
  rw [fromFiles, Nat.max_eq_left hL, (fromFilesLoop_spec hL _ _ _ (by simp) (by simp) p).2, marked_zip]
  simp

theorem piecesOfFilesLoop_spec (hL : 0 < pieceLength) (files : List (TorrentFile × Bool))
    (offset : Nat) (pieces : Bitfield) (hl : pieces.len = totalPieces) (p : Nat) :
    (piecesOfFilesLoop pieceLength totalPieces offset files pieces).has p ↔
      pieces.has p ∨ p < totalPieces ∧ Marked pieceLength offset files true p := by
  induction files generalizing offset pieces with
  | nil => simp [piecesOfFilesLoop, marked_nil]
  | cons entry rest ih =>
    obtain ⟨file, flag⟩ := entry
    have hmem (hp : p < totalPieces) := mem_filePieces hL hp offset file
    cases flag with
    | true =>
      simp only [piecesOfFilesLoop, if_pos]
      rw [ih _ _ (by simpa using hl), has_setAll, hl, marked_cons]
      by_cases hp : p < totalPieces <;> simp [hp, hmem, or_assoc]
    | false =>
      simp only [piecesOfFilesLoop, Bool.false_eq_true, if_false]
      rw [ih _ _ hl, marked_cons]
      simp

theorem has_piecesOfFiles (hL : 0 < pieceLength) (files : List TorrentFile) (flags : List Bool)
    (p : Nat) : (piecesOfFiles files flags pieceLength totalPieces).has p ↔
      p < totalPieces ∧ ∃ i, flags[i]? = some true ∧ Overlaps files pieceLength p i := by
  rw [piecesOfFiles, Nat.max_eq_left hL, piecesOfFilesLoop_spec hL _ _ _ (by simp) p, marked_zip]
  simp

theorem has_piecesToRefetch (hL : 0 < pieceLength) (files : List TorrentFile)
    (before after : List Bool) (p : Nat) :
    (piecesToRefetch files before after pieceLength totalPieces).has p ↔
      p < totalPieces ∧ ∃ i, before[i]? = some false ∧ after[i]? = some true ∧
        Overlaps files pieceLength p i := by
  have hz : ∀ i : Nat, (List.zipWith (fun was now => !was && now) before after)[i]? = some true ↔
      before[i]? = some false ∧ after[i]? = some true := by
    intro i
    rw [List.getElem?_zipWith]
    cases hb : before[i]? <;> cases ha : after[i]? <;> simp
  simp only [piecesToRefetch, has_piecesOfFiles hL, hz, and_assoc]

end Selection
end Tortor.Core
