import Tortor.Core.Bencode
import Tortor.Core.DiskLaws

/-! When no two files of a torrent share storage, and what is then read back. -/

namespace Tortor.Core

open Tortor.Lib (Inode FileStore)

theorem buildFilePath_ok {windows : Bool} {base path : Path} {name : String} {parts : List String}
    (h : buildFilePath windows base name true parts = .ok path) :
    parts.isEmpty = false ∧ ∃ root cleaned, sanitizePathComponent windows name = .ok root ∧
      parts.mapM (sanitizePathComponent windows) = .ok cleaned ∧ path = base ++ [root] ++ cleaned := by
  unfold buildFilePath at h
  simp only [bind, Except.bind, pure, Except.pure, throw, throwThe, MonadExceptOf.throw,
    if_true] at h
  split at h
  · cases h
  case isFalse hne =>
  cases hroot : sanitizePathComponent windows name with
  | error err => rw [hroot] at h; cases h
  | ok root =>
    cases hparts : parts.mapM (sanitizePathComponent windows) with
    | error err => rw [hroot, hparts] at h; cases h
    | ok cleaned =>
      rw [hroot, hparts] at h
      cases h
      exact ⟨by simpa using hne, root, cleaned, rfl, rfl, rfl⟩

theorem buildFilePath_eq {windows : Bool} {name root : String} {parts cleaned : List String}
    (hne : parts.isEmpty = false) (hroot : sanitizePathComponent windows name = .ok root)
    (hparts : parts.mapM (sanitizePathComponent windows) = .ok cleaned) (base : Path) :
    buildFilePath windows base name true parts = .ok (base ++ [root] ++ cleaned) := by
  simp [buildFilePath, hne, hroot, hparts, bind, Except.bind, pure, Except.pure]

theorem totalOfFiles_path {windows : Bool} {name : String} {files : List RawFile}
    {start total : Nat} (h : totalOfFiles windows name files start = .ok total) :
    ∀ file ∈ files, ∃ path, buildFilePath windows [] name true file.path = .ok path := by
  induction files generalizing start with
  | nil => exact List.forall_mem_nil _
  | cons file files ih =>
    rw [totalOfFiles] at h
    split at h
    · cases h
    case h_2 path hpath =>
      split at h
      · cases h
      · exact List.forall_mem_cons.mpr ⟨⟨path, hpath⟩, ih h⟩

theorem planFiles_paths {windows : Bool} {name root : String} {files : List RawFile}
    (h : ∀ file ∈ files, ∃ path, buildFilePath windows [] name true file.path = .ok path)
    (hroot : sanitizePathComponent windows name = .ok root) (base : Path) (offset : Nat) :
    ∃ plans, planFiles windows base name true (files.map fun f => ⟨f.length, f.path⟩) offset =
        .ok plans ∧
      plans.map (fun plan => Except.ok plan.path) = files.map fun f =>
        (f.path.mapM (sanitizePathComponent windows)).map (base ++ [root] ++ ·) := by
  induction files generalizing offset with
  | nil => exact ⟨[], rfl, rfl⟩
  | cons file files ih =>
    obtain ⟨⟨path, hpath⟩, hfiles⟩ := List.forall_mem_cons.mp h
    obtain ⟨hne, root', cleaned, hroot', hparts, -⟩ := buildFilePath_ok hpath
    obtain rfl : root' = root := Except.ok.inj (hroot'.symm.trans hroot)
    obtain ⟨rest, hrest, hpaths⟩ := ih hfiles (offset + file.length)
    have hbuilt := buildFilePath_eq hne hroot hparts base
    refine ⟨⟨base ++ [root'] ++ cleaned, offset, offset + file.length⟩ :: rest, ?_, ?_⟩
    · rw [List.map_cons, planFiles, hbuilt, hrest]
      rfl
    · rw [List.map_cons, List.map_cons, hpaths, hparts]
      rfl

/-- The paths of the layout are as different as the entries are once they have been sanitised. -/
theorem nodup_paths_iff {windows : Bool} {base : Path} {root : String} {files : List RawFile}
    {plans : List FilePlan}
    (h : plans.map (fun plan => Except.ok plan.path) = files.map fun f =>
      (f.path.mapM (sanitizePathComponent windows)).map (base ++ [root] ++ ·)) :
    (plans.map (·.path)).Nodup ↔
      (files.map fun f => f.path.mapM (sanitizePathComponent windows)).Nodup := by
  have hok : Function.Injective (Except.ok : Path → Except PathError Path) :=
    fun _ _ => Except.ok.inj
  have hmap : Function.Injective
      (Except.map (ε := PathError) fun cleaned : List String => base ++ [root] ++ cleaned) := by
    intro x y hxy
    cases x with
    | error => cases y with
      | error => simpa [Except.map] using hxy
      | ok => cases hxy
    | ok => cases y with
      | error => cases hxy
      | ok => simpa [Except.map] using hxy
  have hpaths := List.nodup_map_iff hok (l := plans.map (·.path))
  have hparts := List.nodup_map_iff hmap
    (l := files.map fun f => f.path.mapM (sanitizePathComponent windows))
  rw [List.map_map] at hpaths hparts
  exact hpaths.symm.trans ((iff_of_eq (congrArg List.Nodup h)).trans hparts)

namespace Disk

/-- The pieces are written one after the other, and every write succeeds, also where nothing
would report that it did not. -/
def writePieces (content : Nat → List UInt8) :
    List (Io × Nat) → Disk → FileStore Path → Option (Disk × FileStore Path)
  | [], d, fs => some (d, fs)
  | (io, index) :: rest, d, fs =>
    if d.Arrives io index (content index) then
      match d.writePiece io index (content index) fs with
      | (true, d, fs) => writePieces content rest d fs
      | (false, _, _) => none
    else none

structure Stored (torrent : List TorrentFile) (pieceLength : Nat) (content : Nat → List UInt8)
    (written : Nat → Prop) (d : Disk) (fs : FileStore Path) : Prop where
  laid : Laid torrent (d.files.map FileMapping.plan)
  pieceLength_eq : d.pieceLength = pieceLength
  opened : ∀ i x, InFile torrent i x → (cell d.files fs x).opened = true
  ready : Ready (cell d.files fs)
  kept : ∀ index, written index → ∀ j < (content index).length,
    (cell d.files fs (index * pieceLength + j)).content = (content index).getD j 0

variable {torrent : List TorrentFile} {pieceLength total : Nat} {content : Nat → List UInt8}
  {written : Nat → Prop} {d : Disk} {fs : FileStore Path}

structure Fits (pieceLength total : Nat) (data : List UInt8) (index : Nat) : Prop where
  le : data.length ≤ pieceLength
  within : index * pieceLength + data.length ≤ total

theorem Stored.writePiece (h : Stored torrent pieceLength content written d fs)
    (htotal : (torrent.map (·.length)).sum = total)
    (hfits : ∀ index, written index → Fits pieceLength total (content index) index) (io : Io)
    {index : Nat} (hindex : Fits pieceLength total (content index) index)
    (harrives : d.Arrives io index (content index)) {d' : Disk} {fs' : FileStore Path}
    (hw : d.writePiece io index (content index) fs = (true, d', fs')) :
    Stored torrent pieceLength content (fun i => i = index ∨ written i) d' fs' := by
  have hspec := writePiece_spec h.laid h.ready io index (content index)
  rw [hw] at hspec
  obtain ⟨hstill, -, hlength, k, -, hwrote, hall⟩ := hspec
  obtain ⟨rfl, -⟩ := hall rfl
  have hplan := map_plan_of_still hstill
  refine ⟨hplan ▸ h.laid, hlength.trans h.pieceLength_eq, fun i x hx => ?_, hwrote.ready h.ready,
    fun i hi j hj => ?_⟩
  · rw [(hwrote x).1]
    exact h.opened i x hx
  · have hi' : Fits pieceLength total (content i) i := by
      rcases hi with rfl | hi
      exacts [hindex, hfits i hi]
    have hle := hi'.le
    have hwithin := hi'.within
    obtain ⟨f, hf⟩ : ∃ f, InFile torrent f (i * pieceLength + j) :=
      exists_inFile (by rw [htotal]; omega)
    have hopened := h.opened f _ hf
    obtain ⟨-, -, -, -, -, -, hcontent⟩ := hwrote (i * pieceLength + j)
    rw [h.pieceLength_eq] at hcontent
    by_cases hsame : i = index
    · subst hsame
      rw [if_pos ⟨Nat.le_add_right _ _, by omega, hopened⟩, Nat.add_sub_cancel_left] at hcontent
      exact (hcontent.resolve_right fun hlost => hlost.1 harrives).1
    · -- another piece's bytes stay
      have hout : ¬ (index * pieceLength ≤ i * pieceLength + j ∧
          i * pieceLength + j < index * pieceLength + (content index).length ∧
          (cell d.files fs (i * pieceLength + j)).opened = true) := by
        rintro ⟨h₁, h₂, -⟩
        have hlen := hindex.le
        rcases Nat.lt_or_gt_of_ne hsame with hlt | hgt
        · have := Nat.mul_le_mul_right pieceLength (Nat.succ_le_of_lt hlt)
          rw [Nat.succ_mul] at this
          omega
        · have := Nat.mul_le_mul_right pieceLength (Nat.succ_le_of_lt hgt)
          rw [Nat.succ_mul] at this
          omega
      rw [if_neg hout] at hcontent
      rw [hcontent.1]
      exact h.kept i (hi.resolve_left hsame) j hj

theorem Stored.writePieces (htotal : (torrent.map (·.length)).sum = total)
    {writes : List (Io × Nat)} (hwrites : ∀ w ∈ writes, Fits pieceLength total (content w.2) w.2)
    (h : Stored torrent pieceLength content written d fs)
    (hfits : ∀ index, written index → Fits pieceLength total (content index) index) {d' : Disk}
    {fs' : FileStore Path} (hw : writePieces content writes d fs = some (d', fs')) :
    Stored torrent pieceLength content (fun i => written i ∨ i ∈ writes.map Prod.snd) d' fs' := by
  induction writes generalizing d fs written with
  | nil =>
    cases hw
    simpa using h
  | cons w rest ih =>
    obtain ⟨io, index⟩ := w
    obtain ⟨hindex, hrest⟩ := List.forall_mem_cons.mp hwrites
    rw [Disk.writePieces] at hw
    split at hw
    case isFalse => cases hw
    case isTrue harrives =>
    split at hw
    case h_2 => cases hw
    case h_1 d₁ fs₁ hfirst =>
      have hnext := ih hrest (h.writePiece htotal hfits io hindex harrives hfirst)
        (fun i hi => by
          rcases hi with rfl | hi
          exacts [hindex, hfits i hi]) hw
      refine ⟨hnext.laid, hnext.pieceLength_eq, hnext.opened, hnext.ready, fun i hi => ?_⟩
      refine hnext.kept i ?_
      rcases hi with hi | hi
      · exact .inl (.inr hi)
      · rcases List.mem_cons.mp hi with rfl | hi
        exacts [.inl (.inl rfl), .inr hi]

theorem readLoop_some {files : List FileMapping} (hl : Laid torrent (files.map FileMapping.plan))
    (hready : Ready (cell files fs)) {io : Io} (hio : ∀ i, io.readFails i = false)
    {absoluteOffset len : Nat}
    (hopened : ∀ j < len, (cell files fs (absoluteOffset + j)).opened = true) (fuel : Nat)
    (buffer : List UInt8) :
    ∃ data, readLoop io files fs absoluteOffset len fuel buffer = some data := by
  induction fuel generalizing buffer with
  | zero => exact ⟨buffer, rfl⟩
  | succ fuel ih =>
    by_cases hdone : len ≤ buffer.length
    · exact ⟨buffer, by rw [readLoop, if_pos hdone]⟩
    · have ho := hopened buffer.length (Nat.not_le.mp hdone)
      have hsized := hready _ ho
      cases hloc : locate files (absoluteOffset + buffer.length) with
      | none =>
        rw [cell, hloc] at ho
        cases ho
      | some found =>
        obtain ⟨idx, m⟩ := found
        obtain ⟨hm, hin⟩ := hl.of_locate hloc
        have hrange := (hl.inFile_iff hm _).mp hin
        rw [hl.cell_eq hm hin] at ho hsized
        simp only [cellOf, decide_eq_true_eq] at ho hsized
        obtain ⟨inode, hfs, hlen⟩ := Option.map_eq_some_iff.mp hsized
        have hread : inode.readAt (absoluteOffset + buffer.length - m.startOffset)
            (min (len - buffer.length) (m.endOffset - (absoluteOffset + buffer.length))) =
              some ((List.range (min (len - buffer.length)
                (m.endOffset - (absoluteOffset + buffer.length)))).map fun j =>
                  inode.content (absoluteOffset + buffer.length - m.startOffset + j)) :=
          if_pos (by omega)
        simp only [readLoop, hdone, if_false, hloc, ho, if_true, hio, Bool.false_eq_true, hfs,
          Option.bind_some, hread]
        exact ih _

theorem Stored.readPiece (h : Stored torrent pieceLength content written d fs)
    (htotal : (torrent.map (·.length)).sum = total) {index : Nat} (hwritten : written index)
    (hfits : Fits pieceLength total (content index) index) {offset len : Nat}
    (hle : offset + len ≤ (content index).length) {io : Io} (hio : ∀ i, io.readFails i = false) :
    d.readPiece io index offset len fs = some (((content index).drop offset).take len) := by
  have hwithin := hfits.within
  have hopened : ∀ j < len,
      (cell d.files fs (index * d.pieceLength + offset + j)).opened = true := by
    intro j hj
    rw [h.pieceLength_eq]
    obtain ⟨f, hf⟩ : ∃ f, InFile torrent f (index * pieceLength + offset + j) :=
      exists_inFile (by rw [htotal]; omega)
    exact h.opened f _ hf
  obtain ⟨data, hdata⟩ : ∃ data, d.readPiece io index offset len fs = some data :=
    readLoop_some h.laid h.ready hio hopened (len + 1) []
  obtain ⟨hlen, hbytes⟩ := readPiece_spec h.laid hdata
  rw [hdata]
  congr 1
  refine List.ext_getElem (by simp [hlen]; omega) fun j hj hj' => ?_
  have hj : j < len := hlen ▸ hj
  have hbyte := hbytes j hj
  rw [shown, if_pos (hopened j hj), h.pieceLength_eq, Nat.add_assoc,
    h.kept index hwritten (offset + j) (by omega)] at hbyte
  simpa [List.getD_eq_getElem?_getD, hlen, hj, show offset + j < (content index).length by omega]
    using hbyte

def ReadsBack (windows : Bool) (base : Path) (info : TorrentMeta) : Prop :=
  ∀ backend totalSize io fs d fs', initWithSelection backend windows base totalSize
      info.pieceLength info.files info.name none io fs = (some d, fs') →
    ∀ content : Nat → List UInt8,
      (∀ index < info.pieces.length, info.pieceLenAt index = some (content index).length) →
    ∀ writes : List (Io × Nat), (∀ w ∈ writes, w.2 < info.pieces.length) →
    ∀ d' fs'', writePieces content writes d fs' = some (d', fs'') →
    ∀ index ∈ writes.map Prod.snd, ∀ offset len, offset + len ≤ (content index).length →
    ∀ io : Io, (∀ i, io.readFails i = false) →
      d'.readPiece io index offset len fs'' = some (((content index).drop offset).take len)

theorem fits_of_pieceLenAt {info : TorrentMeta} (htotal : info.totalLength = some total)
    {data : List UInt8} {index : Nat} (h : info.pieceLenAt index = some data.length) :
    Fits info.pieceLength total data index := by
  unfold TorrentMeta.pieceLenAt at h
  rw [htotal] at h
  split at h
  · cases h
  · simp only at h
    split at h
    · cases h
    split at h
    · cases h
    · rw [Option.some.injEq] at h
      exact ⟨by omega, by omega⟩

theorem readsBack_of_nodup {windows : Bool} {base : Path} {info : TorrentMeta}
    {files : List TorrentFile} (hwell : info.WellFormed total) (hfiles : info.files = some files)
    {plans : List FilePlan} (hplans : planFiles windows base info.name true files 0 = .ok plans)
    (hpaths : (plans.map (·.path)).Nodup) : ReadsBack windows base info := by
  intro backend totalSize io fs d fs' hinit content hcontent writes hwrites d' fs'' hw index hindex
    offset len hle io' hio
  have hsum := (hwell.files files hfiles).2
  have hfits {i : Nat} (hi : i < info.pieces.length) :
      Fits info.pieceLength total (content i) i :=
    fits_of_pieceLenAt hwell.totalLength (hcontent i hi)
  rw [hfiles] at hinit
  obtain ⟨hfresh, -, hlength⟩ := initWithSelection_spec hinit hplans hpaths
  have hlaid : Laid files (d.files.map FileMapping.plan) := hfresh.plan_eq ▸ hfresh.laid
  have hstart : Stored files info.pieceLength content (fun _ => False) d fs' := by
    refine ⟨hlaid, hlength, fun i x hx => ?_, hfresh.ready, fun i hi => hi.elim⟩
    obtain ⟨m, hm⟩ := hlaid.exists_mapping hx
    rw [hlaid.cell_eq hm hx]
    exact hfresh.opened i m hm
  have hstored := Stored.writePieces hsum (fun w hw => hfits (hwrites w hw)) hstart
    (fun _ hi => hi.elim) hw
  obtain ⟨w, hmem, rfl⟩ := List.mem_map.mp hindex
  exact hstored.readPiece hsum (.inr hindex) (hfits (hwrites w hmem)) hle hio

end Disk

/-- The files of an accepted torrent are kept apart, and its pieces are read back, exactly when no
two entries name the same path once it has been sanitised. -/
theorem storage_apart_iff {windows : Bool} {raw : RawInfo} {infoHash : Digest} {info : TorrentMeta}
    (h : buildMeta windows raw infoHash = .ok info) {files : List TorrentFile}
    (hfiles : info.files = some files) (base : Path) :
    (∃ plans, planFiles windows base info.name true files 0 = .ok plans ∧
        (plans.map (·.path)).Nodup) ∧ Disk.ReadsBack windows base info ↔
      (files.map fun f => f.path.mapM (sanitizePathComponent windows)).Nodup := by
  obtain ⟨total, hwell⟩ := wellFormed_of_buildMeta h
  obtain ⟨name, total', -, hraw, -, -, -, -, -, he⟩ := buildMeta_ok h
  have hname : info.name = name := by rw [he]; rfl
  have hmapped : (raw.files.map fun files => files.map fun f => (⟨f.length, f.path⟩ : TorrentFile)) =
      some files := by
    rw [he] at hfiles
    exact hfiles
  obtain ⟨rawFiles, hrawFiles, rfl⟩ := Option.map_eq_some_iff.mp hmapped
  obtain ⟨-, hne, htotal⟩ := hraw rawFiles hrawFiles
  have hbuilt := totalOfFiles_path htotal
  obtain ⟨first, rest, rfl⟩ := List.exists_cons_of_ne_nil hne
  obtain ⟨path, hpath⟩ := hbuilt first List.mem_cons_self
  obtain ⟨-, root, -, hroot, -, -⟩ := buildFilePath_ok hpath
  obtain ⟨plans, hplans, hpaths⟩ := planFiles_paths hbuilt hroot base 0
  have hiff := nodup_paths_iff hpaths
  rw [← hname] at hplans
  have hsanitised : ((first :: rest).map fun f => (⟨f.length, f.path⟩ : TorrentFile)).map
      (fun f => f.path.mapM (sanitizePathComponent windows)) =
        (first :: rest).map fun f => f.path.mapM (sanitizePathComponent windows) := by
    rw [List.map_map]
    rfl
  rw [hsanitised, ← hiff]
  constructor
  · rintro ⟨⟨plans', hplans', hnodup⟩, -⟩
    rw [hplans] at hplans'
    cases hplans'
    exact hnodup
  · exact fun hnodup => ⟨⟨plans, hplans, hnodup⟩, Disk.readsBack_of_nodup hwell hfiles hplans hnodup⟩

def twoFiles (first second : String) : RawInfo where
  name := "t"
  pieceLength := 1
  pieces := List.replicate 40 0
  length := none
  files := some [⟨1, [first]⟩, ⟨1, [second]⟩]

def twoFilesMeta (first second : String) (infoHash : Digest) : TorrentMeta :=
  .new "t" 1 2 (digests (List.replicate 40 0)) none (some [⟨1, [first]⟩, ⟨1, [second]⟩]) infoHash

def zeroHash : Digest := ⟨List.replicate 20 0, List.length_replicate⟩

theorem buildMeta_apart :
    buildMeta false (twoFiles "a" "b") zeroHash = .ok (twoFilesMeta "a" "b" zeroHash) := by
  decide +kernel

theorem buildMeta_same :
    buildMeta false (twoFiles "a" "a") zeroHash = .ok (twoFilesMeta "a" "a" zeroHash) := by
  decide +kernel

theorem storage_apart_twoFiles : Disk.ReadsBack false [] (twoFilesMeta "a" "b" zeroHash) :=
  ((storage_apart_iff buildMeta_apart rfl []).mpr (by decide +kernel)).2

/-- Both entries are stored in one file. -/
theorem storage_shared : ¬ ∀ windows raw infoHash info, buildMeta windows raw infoHash = .ok info →
    ∀ files, info.files = some files → ∀ base,
      (∃ plans, planFiles windows base info.name true files 0 = .ok plans ∧
        (plans.map (·.path)).Nodup) ∧ Disk.ReadsBack windows base info := by
  intro hall
  obtain ⟨⟨plans, hplans, hnodup⟩, -⟩ := hall false _ _ _ buildMeta_same _ rfl []
  have hsame : planFiles false [] "t" true [⟨1, ["a"]⟩, ⟨1, ["a"]⟩] 0 =
      .ok [⟨["t", "a"], 0, 1⟩, ⟨["t", "a"], 1, 2⟩] := by
    decide +kernel
  rw [show (twoFilesMeta "a" "a" zeroHash).name = "t" from rfl, hsame] at hplans
  cases hplans
  exact absurd hnodup (by decide)

end Tortor.Core
