import Mathlib.Data.List.GetD
import Mathlib.Data.List.Nodup
import Tortor.Core.Disk

namespace Tortor.Core

open Tortor.Lib (Inode FileStore)

/-! The layout of a disk never changes, and it is that of the torrent's files. -/

def FileMapping.plan (m : FileMapping) : FilePlan := ⟨m.path, m.startOffset, m.endOffset⟩

def FileMapping.still (m : FileMapping) : FileMapping := { m with dirty := false }

structure Laid (torrent : List TorrentFile) (plans : List FilePlan) : Prop where
  length_eq : plans.length = torrent.length
  start_eq : ∀ i plan, plans[i]? = some plan → plan.start = fileStart torrent i
  stop_eq : ∀ i plan, plans[i]? = some plan → plan.stop = fileStart torrent (i + 1)
  paths : (plans.map (·.path)).Nodup

theorem planFiles_spec {windows : Bool} {base : Path} {name : String} {isMulti : Bool}
    {files : List TorrentFile} {offset : Nat} {plans : List FilePlan}
    (h : planFiles windows base name isMulti files offset = .ok plans) :
    plans.length = files.length ∧ ∀ i plan, plans[i]? = some plan →
      plan.start = offset + fileStart files i ∧ plan.stop = offset + fileStart files (i + 1) := by
  induction files generalizing offset plans with
  | nil =>
    rw [planFiles] at h
    cases h
    simp
  | cons file files ih =>
    obtain ⟨path, rest, hpath, hrest, rfl⟩ := planFiles_cons_ok h
    obtain ⟨hlen, hat⟩ := ih hrest
    refine ⟨by simp [hlen], fun i plan hi => ?_⟩
    cases i with
    | zero =>
      simp only [List.getElem?_cons_zero, Option.some.injEq] at hi
      simp [← hi, fileStart]
    | succ i =>
      have := hat i plan (by simpa using hi)
      simp only [fileStart_cons_succ]
      omega

theorem laid_of_planFiles {windows : Bool} {base : Path} {name : String} {isMulti : Bool}
    {files : List TorrentFile} {plans : List FilePlan}
    (h : planFiles windows base name isMulti files 0 = .ok plans)
    (hpaths : (plans.map (·.path)).Nodup) : Laid files plans where
  length_eq := (planFiles_spec h).1
  start_eq i plan hi := by simpa using ((planFiles_spec h).2 i plan hi).1
  stop_eq i plan hi := by simpa using ((planFiles_spec h).2 i plan hi).2
  paths := hpaths

section Layout

variable {torrent : List TorrentFile} {files : List FileMapping}

theorem Laid.inFile_iff (h : Laid torrent (files.map FileMapping.plan)) {i : Nat}
    {m : FileMapping} (hm : files[i]? = some m) (x : Nat) :
    InFile torrent i x ↔ m.startOffset ≤ x ∧ x < m.endOffset := by
  have hplan : (files.map FileMapping.plan)[i]? = some m.plan := by simp [hm]
  rw [show m.startOffset = fileStart torrent i from h.start_eq i _ hplan,
    show m.endOffset = fileStart torrent (i + 1) from h.stop_eq i _ hplan]
  rfl

theorem Laid.exists_mapping (h : Laid torrent (files.map FileMapping.plan)) {i x : Nat}
    (hx : InFile torrent i x) : ∃ m, files[i]? = some m := by
  have hlt := hx.lt_length
  have hlen := h.length_eq
  rw [List.length_map] at hlen
  exact ⟨_, List.getElem?_eq_getElem (by omega)⟩

theorem Laid.locate_eq (h : Laid torrent (files.map FileMapping.plan)) {i x : Nat}
    {m : FileMapping} (hm : files[i]? = some m) (hx : InFile torrent i x) :
    locate files x = some (i, m) := by
  have hidx : files.findIdx (fun m => decide (x < m.endOffset)) = i := by
    obtain ⟨hlt, rfl⟩ := List.getElem?_eq_some_iff.mp hm
    refine (List.findIdx_eq hlt).mpr ⟨?_, fun j hj => ?_⟩
    · simpa using ((h.inFile_iff hm x).mp hx).2
    · -- An earlier file ends before file `i` starts.
      have hjlt : j < files.length := Nat.lt_trans hj hlt
      have hstop : files[j].endOffset = fileStart torrent (j + 1) :=
        h.stop_eq j files[j].plan (by rw [List.getElem?_map, List.getElem?_eq_getElem hjlt]; rfl)
      have := fileStart_mono torrent (show j + 1 ≤ i from hj)
      have := hx.1
      simp only [decide_eq_false_iff_not]
      omega
  simp only [locate, hidx, hm, ((h.inFile_iff hm x).mp hx).1, if_true]

theorem Laid.of_locate (h : Laid torrent (files.map FileMapping.plan)) {i x : Nat}
    {m : FileMapping} (hl : locate files x = some (i, m)) :
    files[i]? = some m ∧ InFile torrent i x := by
  unfold locate at hl
  cases hm : files[files.findIdx fun m => decide (x < m.endOffset)]? with
  | none => simp [hm] at hl
  | some found =>
    simp only [hm] at hl
    split at hl
    case isFalse => cases hl
    case isTrue hstart =>
      obtain ⟨rfl, rfl⟩ := Prod.mk.inj (Option.some.inj hl)
      obtain ⟨hlt, hfound⟩ := List.getElem?_eq_some_iff.mp hm
      have hend := List.findIdx_getElem (w := hlt)
      rw [hfound, decide_eq_true_eq] at hend
      exact ⟨hm, (h.inFile_iff hm x).mpr ⟨hstart, hend⟩⟩

theorem Laid.locate_none (h : Laid torrent (files.map FileMapping.plan)) {x : Nat}
    (hx : ∀ i, ¬ InFile torrent i x) : locate files x = none := by
  cases hl : locate files x with
  | none => rfl
  | some found => exact absurd (h.of_locate hl).2 (hx _)

theorem Laid.path_ne (h : Laid torrent (files.map FileMapping.plan)) {i j : Nat}
    {m n : FileMapping} (hm : files[i]? = some m) (hn : files[j]? = some n) (hij : i ≠ j) :
    m.path ≠ n.path := by
  intro he
  have hp := h.paths
  rw [List.map_map] at hp
  obtain ⟨hi, rfl⟩ := List.getElem?_eq_some_iff.mp hm
  obtain ⟨hj, rfl⟩ := List.getElem?_eq_some_iff.mp hn
  have hsame : (files.map ((·.path) ∘ FileMapping.plan))[i]? =
      (files.map ((·.path) ∘ FileMapping.plan))[j]? := by
    simpa [hi, hj, FileMapping.plan] using he
  exact hij ((List.getElem?_inj (by simpa using hi) hp).mp hsame)

end Layout

/-! A disk seen as one array of bytes: what is known about the byte at `x`. -/

structure Cell where
  opened : Bool
  dirty : Bool
  sized : Bool
  present : Bool
  content : UInt8
  durable : UInt8
  written : Bool

def Cell.void : Cell := ⟨false, false, false, false, 0, 0, false⟩

def cellOf (m : FileMapping) (inode : Option Inode) (x : Nat) : Cell where
  opened := m.opened
  dirty := m.dirty
  sized := decide (inode.map (·.len) = some (m.endOffset - m.startOffset))
  present := decide (x - m.startOffset < (inode.getD .empty).len)
  content := (inode.getD .empty).content (x - m.startOffset)
  durable := (inode.getD .empty).durable (x - m.startOffset)
  written := (inode.getD .empty).written (x - m.startOffset)

def cell (files : List FileMapping) (fs : FileStore Path) (x : Nat) : Cell :=
  match locate files x with
  | some (_, m) => cellOf m (fs m.path) x
  | none => .void

section Cells

variable {torrent : List TorrentFile} {files : List FileMapping} {fs : FileStore Path}

theorem Laid.cell_eq (h : Laid torrent (files.map FileMapping.plan)) {i x : Nat}
    {m : FileMapping} (hm : files[i]? = some m) (hx : InFile torrent i x) :
    cell files fs x = cellOf m (fs m.path) x := by
  rw [cell, h.locate_eq hm hx]

theorem Laid.cell_void (h : Laid torrent (files.map FileMapping.plan)) {x : Nat}
    (hx : ∀ i, ¬ InFile torrent i x) : cell files fs x = .void := by
  rw [cell, h.locate_none hx]

theorem map_plan_set {i : Nat} {m m' : FileMapping} (hm : files[i]? = some m)
    (hp : m'.plan = m.plan) :
    (files.set i m').map FileMapping.plan = files.map FileMapping.plan := by
  refine List.ext_getElem? fun j => ?_
  rw [List.getElem?_map, List.getElem?_map, List.getElem?_set]
  split
  case isTrue he =>
    subst he
    obtain ⟨hlt, rfl⟩ := List.getElem?_eq_some_iff.mp hm
    simp [hlt, hp]
  case isFalse => rfl

theorem Laid.cell_set (h : Laid torrent (files.map FileMapping.plan)) {i : Nat}
    {m m' : FileMapping} (hm : files[i]? = some m) (hp : m'.plan = m.plan)
    (inode : Option Inode) (x : Nat) : cell (files.set i m') (fs.set m.path inode) x =
      if m.startOffset ≤ x ∧ x < m.endOffset then cellOf m' inode x else cell files fs x := by
  have h' : Laid torrent ((files.set i m').map FileMapping.plan) := by rwa [map_plan_set hm hp]
  have hpath : m'.path = m.path := congrArg FilePlan.path hp
  have hlt := (List.getElem?_eq_some_iff.mp hm).1
  split
  case isTrue hx =>
    rw [h'.cell_eq (List.getElem?_set_self hlt) ((h.inFile_iff hm x).mpr hx), hpath,
      FileStore.set_self]
  case isFalse hx =>
    by_cases hin : ∃ j, InFile torrent j x
    · obtain ⟨j, hj⟩ := hin
      obtain ⟨n, hn⟩ := h.exists_mapping hj
      have hij : i ≠ j := by rintro rfl; exact hx ((h.inFile_iff hm x).mp hj)
      rw [h'.cell_eq (by rw [List.getElem?_set_ne hij]; exact hn) hj, h.cell_eq hn hj,
        FileStore.set_of_ne (h.path_ne hn hm (Ne.symm hij))]
    · have hnot : ∀ j, ¬ InFile torrent j x := fun j hj => hin ⟨j, hj⟩
      rw [h'.cell_void hnot, h.cell_void hnot]

end Cells

namespace Disk

/-- Nothing of what goes into an open file is lost without a report. -/
def Arrives (self : Disk) (io : Io) (pieceIndex : Nat) (data : List UInt8) : Prop :=
  ∀ k < data.length, ∀ found ∈ locate self.files (pieceIndex * self.pieceLength + k),
    found.2.opened = true → io.lostBy self.backend found.1 = 0

instance (self : Disk) (io : Io) (pieceIndex : Nat) (data : List UInt8) :
    Decidable (self.Arrives io pieceIndex data) :=
  inferInstanceAs (Decidable (∀ k < data.length,
    ∀ found ∈ locate self.files (pieceIndex * self.pieceLength + k),
      found.2.opened = true → io.lostBy self.backend found.1 = 0))

/-- What a write leaves in the cell at `x` once the bytes up to `pieceOffset + k` have been
passed: bytes of closed files are dropped, and unless everything arrives a byte may be the old
one. -/
def Wrote (arrives : Prop) (pieceOffset : Nat) (data : List UInt8) (k : Nat)
    (before after : Nat → Cell) : Prop :=
  ∀ x, (after x).opened = (before x).opened ∧ (after x).durable = (before x).durable ∧
    (after x).sized = (before x).sized ∧ (after x).present = (before x).present ∧
    ((before x).dirty = true → (after x).dirty = true) ∧
    ((before x).opened = false → after x = before x) ∧
    if pieceOffset ≤ x ∧ x < pieceOffset + k ∧ (before x).opened = true then
      (after x).content = data.getD (x - pieceOffset) 0 ∧ (after x).written = true ∨
        ¬ arrives ∧ (after x).content = (before x).content ∧ (after x).written = (before x).written
    else (after x).content = (before x).content ∧ (after x).written = (before x).written

theorem Wrote.refl (arrives : Prop) (pieceOffset : Nat) (data : List UInt8)
    (before : Nat → Cell) : Wrote arrives pieceOffset data 0 before before := by
  intro x
  refine ⟨rfl, rfl, rfl, rfl, id, fun _ => rfl, ?_⟩
  rw [if_neg (by omega)]
  exact ⟨rfl, rfl⟩

theorem Wrote.mono {arrives arrives' : Prop} {pieceOffset k : Nat} {data : List UInt8}
    {before after : Nat → Cell} (hw : Wrote arrives pieceOffset data k before after)
    (h : arrives' → arrives) : Wrote arrives' pieceOffset data k before after := by
  intro x
  obtain ⟨ho, hd, hs, hpr, hm, hc, hb⟩ := hw x
  refine ⟨ho, hd, hs, hpr, hm, hc, ?_⟩
  split at hb
  case isTrue hin =>
    rw [if_pos hin]
    exact hb.imp_right fun hb => ⟨fun h' => hb.1 (h h'), hb.2⟩
  case isFalse hin => rwa [if_neg hin]

theorem Wrote.extend {arrives : Prop} {pieceOffset k n r : Nat} {data : List UInt8}
    {before mid : Nat → Cell} (hw : Wrote arrives pieceOffset data k before mid) (hr : r ≤ n)
    (hall : arrives → r = n) {after : Nat → Cell} {dirty : Nat → Bool}
    (hafter : ∀ x, after x = { mid x with
      dirty := dirty x
      content := if pieceOffset + k ≤ x ∧ x < pieceOffset + k + r then
        ((data.drop k).take r).getD (x - (pieceOffset + k)) 0 else (mid x).content
      written := decide (pieceOffset + k ≤ x ∧ x < pieceOffset + k + r) || (mid x).written })
    (hopen : ∀ x, pieceOffset + k ≤ x → x < pieceOffset + k + n → (mid x).opened = true)
    (hdirty : ∀ x, (mid x).dirty = true → dirty x = true)
    (hclosed : ∀ x, (mid x).opened = false → dirty x = (mid x).dirty) :
    Wrote arrives pieceOffset data (k + n) before after := by
  intro x
  obtain ⟨ho, hd, hs, hpr, hm, hc, hb⟩ := hw x
  rw [hafter x]
  refine ⟨ho, hd, hs, hpr, fun h => hdirty x (hm h), fun h => ?_, ?_⟩
  · have hcl : (mid x).opened = false := ho.trans h
    have hout : ¬ (pieceOffset + k ≤ x ∧ x < pieceOffset + k + r) := fun hx => by
      rw [hopen x hx.1 (by omega)] at hcl; cases hcl
    simp only [hout, if_false, decide_false, Bool.false_or, hclosed x hcl]
    exact hc h
  · by_cases hin : pieceOffset + k ≤ x ∧ x < pieceOffset + k + r
    · rw [if_pos ⟨by omega, by omega, ho.symm.trans (hopen x hin.1 (by omega))⟩]
      refine .inl ?_
      simp only [hin, and_self, if_true, decide_true, Bool.true_or, and_true]
      rw [List.getD_eq_getElem?_getD, List.getD_eq_getElem?_getD, List.getElem?_take,
        if_pos (by omega), List.getElem?_drop, show k + (x - (pieceOffset + k)) = x - pieceOffset by omega]
    · simp only [hin, if_false, decide_false, Bool.false_or]
      by_cases hold : pieceOffset ≤ x ∧ x < pieceOffset + k ∧ (before x).opened = true
      · rw [if_pos hold] at hb
        rwa [if_pos ⟨hold.1, by omega, hold.2.2⟩]
      · rw [if_neg hold] at hb
        by_cases hlost : pieceOffset + k ≤ x ∧ x < pieceOffset + k + n
        · -- A byte of the slice that did not arrive.
          rw [if_pos ⟨by omega, by omega, ho.symm.trans (hopen x hlost.1 hlost.2)⟩]
          exact .inr ⟨fun h => hin (by rw [hall h]; exact hlost), hb⟩
        · rwa [if_neg fun h => hlost ⟨Nat.not_lt.mp fun hk => hold ⟨h.1, hk, h.2.2⟩, by omega⟩]

theorem Wrote.skip {arrives : Prop} {pieceOffset k n : Nat} {data : List UInt8}
    {before mid : Nat → Cell} (hw : Wrote arrives pieceOffset data k before mid)
    (hclosed : ∀ x, pieceOffset + k ≤ x → x < pieceOffset + k + n → (mid x).opened = false) :
    Wrote arrives pieceOffset data (k + n) before mid := by
  intro x
  obtain ⟨ho, hd, hs, hpr, hm, hc, hb⟩ := hw x
  refine ⟨ho, hd, hs, hpr, hm, hc, ?_⟩
  by_cases hold : pieceOffset ≤ x ∧ x < pieceOffset + k ∧ (before x).opened = true
  · rw [if_pos hold] at hb
    rwa [if_pos ⟨hold.1, by omega, hold.2.2⟩]
  · rw [if_neg hold] at hb
    rw [if_neg fun h => ?_]
    · exact hb
    · by_cases hk : x < pieceOffset + k
      · exact hold ⟨h.1, hk, h.2.2⟩
      · have := hclosed x (by omega) (by omega)
        rw [ho, h.2.2] at this
        cases this

def Marked (pieceOffset k : Nat) (cells : Nat → Cell) : Prop :=
  ∀ x, pieceOffset ≤ x → x < pieceOffset + k → (cells x).opened = true → (cells x).dirty = true

def Ready (cells : Nat → Cell) : Prop := ∀ x, (cells x).opened = true → (cells x).sized = true

theorem Wrote.ready {arrives : Prop} {pieceOffset k : Nat} {data : List UInt8}
    {before after : Nat → Cell} (hw : Wrote arrives pieceOffset data k before after)
    (h : Ready before) : Ready after := fun x ho => by
  rw [(hw x).2.2.1]
  exact h x ((hw x).1.symm.trans ho)

section Write

variable {torrent : List TorrentFile} {files : List FileMapping} {fs : FileStore Path}

theorem cell_writeAt (h : Laid torrent (files.map FileMapping.plan))
    (hready : Ready (cell files fs)) {idx current : Nat} {m : FileMapping}
    (hm : files[idx]? = some m) (hin : InFile torrent idx current) (ho : m.opened = true)
    {slice : List UInt8} (hend : current + slice.length ≤ m.endOffset) (dirty : Bool) (x : Nat) :
    cell (files.set idx { m with dirty := dirty }) (fs.set m.path ((fs m.path).map fun inode =>
        inode.writeAt (current - m.startOffset) slice)) x =
      { cell files fs x with
        dirty := if m.startOffset ≤ x ∧ x < m.endOffset then dirty else (cell files fs x).dirty
        content := if current ≤ x ∧ x < current + slice.length then slice.getD (x - current) 0
          else (cell files fs x).content
        written := decide (current ≤ x ∧ x < current + slice.length) ||
          (cell files fs x).written } := by
  have hrange := (h.inFile_iff hm _).mp hin
  have hsized := hready _ (by rw [h.cell_eq hm hin]; exact ho)
  rw [h.cell_eq hm hin] at hsized
  cases hfs : fs m.path with
  | none => simp [cellOf, hfs] at hsized
  | some inode =>
    have hlen : inode.len = m.endOffset - m.startOffset := by simpa [cellOf, hfs] using hsized
    have hplan : ({ m with dirty := dirty } : FileMapping).plan = m.plan := rfl
    rw [h.cell_set hm hplan]
    by_cases hx : m.startOffset ≤ x ∧ x < m.endOffset
    · have hmax : max (m.endOffset - m.startOffset) (current - m.startOffset + slice.length) =
          m.endOffset - m.startOffset := by omega
      have hat : (current - m.startOffset ≤ x - m.startOffset ∧
          x - m.startOffset < current - m.startOffset + slice.length) ↔
          (current ≤ x ∧ x < current + slice.length) := by omega
      rw [if_pos hx, if_pos hx, h.cell_eq hm ((h.inFile_iff hm x).mpr hx), hfs]
      simp only [cellOf, Option.map_some, Inode.writeAt, hlen, hmax, Option.getD_some, hat,
        show x - m.startOffset - (current - m.startOffset) = x - current by omega]
    · have hout : ¬ (current ≤ x ∧ x < current + slice.length) := by omega
      simp only [hx, hout, if_false, decide_false, Bool.false_or]

theorem map_still_set {i : Nat} {m : FileMapping} (hm : files[i]? = some m) (dirty : Bool) :
    (files.set i { m with dirty := dirty }).map FileMapping.still = files.map FileMapping.still := by
  refine List.ext_getElem? fun j => ?_
  rw [List.getElem?_map, List.getElem?_map, List.getElem?_set]
  split
  case isTrue he =>
    subst he
    obtain ⟨hlt, rfl⟩ := List.getElem?_eq_some_iff.mp hm
    simp [hlt, FileMapping.still]
  case isFalse => rfl

theorem map_plan_of_still {files files' : List FileMapping}
    (h : files'.map FileMapping.still = files.map FileMapping.still) :
    files'.map FileMapping.plan = files.map FileMapping.plan := by
  have := congrArg (List.map FileMapping.plan) h
  rwa [List.map_map, List.map_map] at this

theorem opened_of_still {files start : List FileMapping}
    (h : files.map FileMapping.still = start.map FileMapping.still) {i : Nat} {m : FileMapping}
    (hm : files[i]? = some m) : ∃ m₀, start[i]? = some m₀ ∧ m₀.opened = m.opened := by
  have hi := congrArg (fun l => l[i]?) h
  simp only [List.getElem?_map, hm, Option.map_some] at hi
  obtain ⟨m₀, hm₀, he⟩ := Option.map_eq_some_iff.mp hi.symm
  exact ⟨m₀, hm₀, show m₀.still.opened = m.still.opened by rw [he]⟩

/-- Where the pass over a piece stands after `k` of its bytes. -/
structure Pass (arrives : Prop) (pieceOffset : Nat) (data : List UInt8)
    (start : List FileMapping) (before : Nat → Cell) (k : Nat) (files : List FileMapping)
    (fs : FileStore Path) : Prop where
  still : files.map FileMapping.still = start.map FileMapping.still
  le : k ≤ data.length
  wrote : Wrote arrives pieceOffset data k before (cell files fs)
  marked : Marked pieceOffset k (cell files fs)

variable {start : List FileMapping} {before : Nat → Cell} {arrives : Prop}
  {pieceOffset k n r idx : Nat} {data : List UInt8} {m : FileMapping} {lost : Nat → Nat}

theorem Pass.write (hl : Laid torrent (start.map FileMapping.plan)) (hready : Ready before)
    (h : Pass arrives pieceOffset data start before k files fs) (hm : files[idx]? = some m)
    (hin : InFile torrent idx (pieceOffset + k)) (ho : m.opened = true)
    (hn : k + n ≤ data.length) (hend : pieceOffset + k + n ≤ m.endOffset) (hr : r ≤ n)
    (hall : arrives → r = n) (dirty : Bool) (hd : m.dirty = true → dirty = true) :
    let files' := files.set idx { m with dirty := dirty }
    let fs' := fs.set m.path ((fs m.path).map fun inode =>
      inode.writeAt (pieceOffset + k - m.startOffset) ((data.drop k).take r))
    files'.map FileMapping.still = start.map FileMapping.still ∧
      Wrote arrives pieceOffset data (k + n) before (cell files' fs') ∧
      (dirty = true → Marked pieceOffset (k + n) (cell files' fs')) := by
  have hl' : Laid torrent (files.map FileMapping.plan) := by rwa [map_plan_of_still h.still]
  have hrange := (hl'.inFile_iff hm _).mp hin
  have hfile {x : Nat} (hx : m.startOffset ≤ x ∧ x < m.endOffset) :
      cell files fs x = cellOf m (fs m.path) x := hl'.cell_eq hm ((hl'.inFile_iff hm x).mpr hx)
  have hlen : ((data.drop k).take r).length = r := by
    rw [List.length_take, List.length_drop]; omega
  have hcell := cell_writeAt hl' (h.wrote.ready hready) hm hin ho
    (show pieceOffset + k + ((data.drop k).take r).length ≤ m.endOffset by omega) dirty
  rw [hlen] at hcell
  refine ⟨(map_still_set hm dirty).trans h.still,
    h.wrote.extend hr hall hcell (fun x h₁ h₂ => ?_) (fun x hx => ?_) (fun x hx => ?_),
    fun hdirty x h₁ h₂ hx => ?_⟩
  · rw [hfile ⟨by omega, by omega⟩]
    exact ho
  · split
    case isTrue hx' => rw [hfile hx'] at hx; exact hd hx
    case isFalse => exact hx
  · split
    case isTrue hx' => rw [hfile hx'] at hx; exact absurd (ho.symm.trans hx) nofun
    case isFalse => rfl
  · rw [hcell] at hx ⊢
    by_cases hx' : m.startOffset ≤ x ∧ x < m.endOffset
    · simp only [hx', and_self, if_true, hdirty]
    · simp only [hx', if_false]
      exact h.marked x h₁ (by omega) hx

theorem Pass.skip (hl : Laid torrent (start.map FileMapping.plan))
    (h : Pass arrives pieceOffset data start before k files fs) (hm : files[idx]? = some m)
    (hin : InFile torrent idx (pieceOffset + k)) (ho : m.opened = false)
    (hn : k + n ≤ data.length) (hend : pieceOffset + k + n ≤ m.endOffset) :
    Pass arrives pieceOffset data start before (k + n) files fs := by
  have hl' : Laid torrent (files.map FileMapping.plan) := by rwa [map_plan_of_still h.still]
  have hrange := (hl'.inFile_iff hm _).mp hin
  have hclosed (x : Nat) (h₁ : pieceOffset + k ≤ x) (h₂ : x < pieceOffset + k + n) :
      (cell files fs x).opened = false := by
    rw [hl'.cell_eq hm ((hl'.inFile_iff hm x).mpr ⟨by omega, by omega⟩)]
    exact ho
  refine { h with le := hn, wrote := h.wrote.skip hclosed, marked := fun x h₁ h₂ hx => ?_ }
  by_cases hk : x < pieceOffset + k
  · exact h.marked x h₁ hk hx
  · rw [hclosed x (by omega) (by omega)] at hx
    cases hx

theorem Pass.round (hl : Laid torrent (start.map FileMapping.plan)) (hready : Ready before)
    (h : Pass arrives pieceOffset data start before k files fs) (hk : k < data.length)
    (hall : arrives → ∀ found ∈ locate start (pieceOffset + k),
      found.2.opened = true → lost found.1 = 0) (fuel : Nat) (budget : Option Nat) :
    (∃ k' files' fs', writeLoop lost pieceOffset data (fuel + 1) budget k files fs =
        (false, files', fs') ∧ files'.map FileMapping.still = start.map FileMapping.still ∧
        k' ≤ data.length ∧ Wrote arrives pieceOffset data k' before (cell files' fs')) ∨
    ∃ n budget' files' fs', 0 < n ∧ writeLoop lost pieceOffset data (fuel + 1) budget k files fs =
        writeLoop lost pieceOffset data fuel budget' (k + n) files' fs' ∧
        Pass arrives pieceOffset data start before (k + n) files' fs' := by
  have hl' : Laid torrent (files.map FileMapping.plan) := by rwa [map_plan_of_still h.still]
  have hmore : ¬ data.length ≤ k := Nat.not_le.mpr hk
  cases hloc : locate files (pieceOffset + k) with
  | none =>
    exact .inl ⟨k, files, fs, by simp only [writeLoop, hmore, if_false, hloc], h.still, h.le,
      h.wrote⟩
  | some found =>
    obtain ⟨idx, m⟩ := found
    obtain ⟨hm, hin⟩ := hl'.of_locate hloc
    have hrange := (hl'.inFile_iff hm _).mp hin
    generalize hn : min (data.length - k) (m.endOffset - (pieceOffset + k)) = n
    cases ho : m.opened with
    | false =>
      refine .inr ⟨n, budget, files, fs, by omega, ?_, h.skip hl hm hin ho (by omega) (by omega)⟩
      simp only [writeLoop, hmore, if_false, hloc, ho, hn, Bool.false_eq_true]
    | true =>
      have hwhole (ha : arrives) : n - lost idx = n := by
        obtain ⟨m₀, hm₀, hsame⟩ := opened_of_still h.still hm
        rw [hall ha (idx, m₀) (hl.locate_eq hm₀ hin) (hsame.trans ho), Nat.sub_zero]
      have hfull := h.write hl hready hm hin ho (n := n) (r := n - lost idx) (by omega) (by omega)
        (Nat.sub_le ..) hwhole true fun _ => rfl
      have hpass : Pass arrives pieceOffset data start before (k + n)
          (files.set idx { m with dirty := true }) (fs.set m.path ((fs m.path).map fun inode =>
            inode.writeAt (pieceOffset + k - m.startOffset) ((data.drop k).take (n - lost idx)))) :=
        ⟨hfull.1, by omega, hfull.2.1, hfull.2.2 rfl⟩
      cases budget with
      | none =>
        refine .inr ⟨n, none, _, _, by omega, ?_, hpass⟩
        simp only [writeLoop, hmore, if_false, hloc, ho, hn, if_true, List.take_take,
          Nat.min_eq_left (Nat.sub_le ..)]
      | some bytes =>
        by_cases hb : bytes < n
        · -- Only the first `bytes` bytes of the slice arrive, and no mark is set.
          have hpart := h.write hl hready hm hin ho (n := bytes) (r := bytes) (by omega) (by omega)
            (Nat.le_refl _) (fun _ => rfl) m.dirty id
          have hsame : files.set idx { m with dirty := m.dirty } = files := by
            obtain ⟨hlt, rfl⟩ := List.getElem?_eq_some_iff.mp hm
            exact List.set_getElem_self hlt
          rw [hsame] at hpart
          refine .inl ⟨k + bytes, _, _, ?_, hpart.1, by omega, hpart.2.1⟩
          simp only [writeLoop, hmore, if_false, hloc, ho, hn, if_true, hb, List.take_take,
            Nat.min_eq_left (Nat.le_of_lt hb)]
        · refine .inr ⟨n, some (bytes - n), _, _, by omega, ?_, hpass⟩
          simp only [writeLoop, hmore, if_false, hloc, ho, hn, if_true, hb, List.take_take,
            Nat.min_eq_left (Nat.sub_le ..)]

/-- The pass over a piece stops after some `k` bytes, and only when it fails before the end. -/
theorem writeLoop_spec (fuel : Nat) (budget : Option Nat)
    (hl : Laid torrent (start.map FileMapping.plan)) (hready : Ready before)
    (hall : arrives → ∀ k < data.length, ∀ found ∈ locate start (pieceOffset + k),
      found.2.opened = true → lost found.1 = 0)
    (h : Pass arrives pieceOffset data start before k files fs) (hfuel : data.length < fuel + k) :
    let r := writeLoop lost pieceOffset data fuel budget k files fs
    r.2.1.map FileMapping.still = start.map FileMapping.still ∧
      ∃ k', k' ≤ data.length ∧ Wrote arrives pieceOffset data k' before (cell r.2.1 r.2.2) ∧
        (r.1 = true → k' = data.length ∧ Marked pieceOffset k' (cell r.2.1 r.2.2)) := by
  induction fuel generalizing k budget files fs with
  | zero => have := h.le; omega
  | succ fuel ih =>
    rcases Nat.lt_or_ge k data.length with hk | hk
    · rcases h.round hl hready hk (fun ha => hall ha k hk) fuel budget with
        ⟨k', files', fs', he, hs, hle, hw⟩ |
        ⟨n, budget', files', fs', hn, he, hpass⟩
      · rw [he]
        exact ⟨hs, k', hle, hw, nofun⟩
      · rw [he]
        exact ih budget' hpass (by omega)
    · rw [writeLoop, if_pos hk]
      exact ⟨h.still, k, h.le, h.wrote, fun _ => ⟨Nat.le_antisymm h.le hk, h.marked⟩⟩

end Write

theorem writePiece_spec {torrent : List TorrentFile} {d : Disk} {fs : FileStore Path}
    (hl : Laid torrent (d.files.map FileMapping.plan)) (hready : Ready (cell d.files fs)) (io : Io)
    (pieceIndex : Nat) (data : List UInt8) :
    let r := d.writePiece io pieceIndex data fs
    r.2.1.files.map FileMapping.still = d.files.map FileMapping.still ∧
      r.2.1.backend = d.backend ∧ r.2.1.pieceLength = d.pieceLength ∧
      ∃ k, k ≤ data.length ∧ Wrote (d.Arrives io pieceIndex data) (pieceIndex * d.pieceLength) data
          k (cell d.files fs) (cell r.2.1.files r.2.2) ∧
        (r.1 = true → k = data.length ∧
          Marked (pieceIndex * d.pieceLength) k (cell r.2.1.files r.2.2)) := by
  have hpass : Pass (d.Arrives io pieceIndex data) (pieceIndex * d.pieceLength) data d.files
      (cell d.files fs) 0 d.files fs :=
    ⟨rfl, Nat.zero_le _, Wrote.refl _ _ _ _, fun x h₁ h₂ => by omega⟩
  obtain ⟨hstill, hspec⟩ := writeLoop_spec (data.length + 1) io.writeBudget hl hready
    (fun h => h) hpass (by omega)
  exact ⟨hstill, rfl, rfl, hspec⟩

def shown (c : Cell) : UInt8 := if c.opened then c.content else 0

theorem shown_append {files : List FileMapping} {fs : FileStore Path} {absoluteOffset n : Nat}
    {buffer bytes : List UInt8} (hbytes : bytes.length = n)
    (hbuffer : ∀ j, j < buffer.length →
      buffer.getD j 0 = shown (cell files fs (absoluteOffset + j)))
    (hshown : ∀ j, j < n →
      bytes.getD j 0 = shown (cell files fs (absoluteOffset + buffer.length + j)))
    (j : Nat) (hj : j < (buffer ++ bytes).length) :
    (buffer ++ bytes).getD j 0 = shown (cell files fs (absoluteOffset + j)) := by
  rw [List.length_append] at hj
  rcases Nat.lt_or_ge j buffer.length with hlt | hge
  · rw [List.getD_append _ _ _ _ hlt]
    exact hbuffer j hlt
  · rw [List.getD_append_right _ _ _ _ hge, hshown (j - buffer.length) (by omega)]
    congr 2
    omega

theorem readLoop_spec {torrent : List TorrentFile} {files : List FileMapping}
    {fs : FileStore Path} (hl : Laid torrent (files.map FileMapping.plan)) {io : Io}
    {absoluteOffset len fuel : Nat} {buffer data : List UInt8} (hlen : buffer.length ≤ len)
    (hfuel : len < fuel + buffer.length)
    (hbuffer : ∀ j, j < buffer.length →
      buffer.getD j 0 = shown (cell files fs (absoluteOffset + j)))
    (h : readLoop io files fs absoluteOffset len fuel buffer = some data) :
    data.length = len ∧
      ∀ j, j < len → data.getD j 0 = shown (cell files fs (absoluteOffset + j)) := by
  induction fuel generalizing buffer with
  | zero => omega
  | succ fuel ih =>
    by_cases hdone : len ≤ buffer.length
    · rw [readLoop, if_pos hdone] at h
      obtain rfl : buffer = data := Option.some.inj h
      have hall : buffer.length = len := Nat.le_antisymm hlen hdone
      exact ⟨hall, hall ▸ hbuffer⟩
    · -- The next file's part of the range is appended.
      have hnext (bytes : List UInt8) (n : Nat) (hn : 0 < n) (hle : buffer.length + n ≤ len)
          (hbytes : bytes.length = n) (hshown : ∀ j, j < n →
            bytes.getD j 0 = shown (cell files fs (absoluteOffset + buffer.length + j)))
          (h : readLoop io files fs absoluteOffset len fuel (buffer ++ bytes) = some data) :
          data.length = len ∧
            ∀ j, j < len → data.getD j 0 = shown (cell files fs (absoluteOffset + j)) :=
        ih (by rw [List.length_append]; omega) (by rw [List.length_append]; omega)
          (shown_append hbytes hbuffer hshown) h
      cases hloc : locate files (absoluteOffset + buffer.length) with
      | none => simp [readLoop, hdone, hloc] at h
      | some found =>
        obtain ⟨idx, m⟩ := found
        obtain ⟨hm, hin⟩ := hl.of_locate hloc
        have hrange := (hl.inFile_iff hm _).mp hin
        generalize hn : min (len - buffer.length)
          (m.endOffset - (absoluteOffset + buffer.length)) = n
        have hcell {j : Nat} (hj : j < n) :
            cell files fs (absoluteOffset + buffer.length + j) =
              cellOf m (fs m.path) (absoluteOffset + buffer.length + j) :=
          hl.cell_eq hm ((hl.inFile_iff hm _).mpr ⟨by omega, by omega⟩)
        cases ho : m.opened with
        | false =>
          simp only [readLoop, hdone, if_false, hloc, ho, hn, Bool.false_eq_true] at h
          refine hnext _ n (by omega) (by omega) (by simp) (fun j hj => ?_) h
          rw [hcell hj, shown, if_neg (by simp [cellOf, ho])]
          simp [List.getD_eq_getElem?_getD, hj]
        | true =>
          simp only [readLoop, hdone, if_false, hloc, ho, hn, if_true] at h
          split at h
          · cases h
          · cases hread : (fs m.path).bind fun inode =>
                inode.readAt (absoluteOffset + buffer.length - m.startOffset) n with
            | none => rw [hread] at h; cases h
            | some bytes =>
              rw [hread] at h
              obtain ⟨inode, hfs, hat⟩ := Option.bind_eq_some_iff.mp hread
              refine hnext bytes n (by omega) (by omega) (Inode.length_readAt hat)
                (fun j hj => ?_) h
              rw [hcell hj, shown, if_pos (show (cellOf m (fs m.path) _).opened = true from ho),
                Inode.getD_readAt hat hj]
              simp only [cellOf, hfs, Option.getD_some]
              congr 1
              omega

theorem readPiece_spec {torrent : List TorrentFile} {d : Disk} {fs : FileStore Path}
    (hl : Laid torrent (d.files.map FileMapping.plan)) {io : Io} {pieceIndex offset len : Nat}
    {data : List UInt8} (h : d.readPiece io pieceIndex offset len fs = some data) :
    data.length = len ∧ ∀ j, j < len →
      data.getD j 0 = shown (cell d.files fs (pieceIndex * d.pieceLength + offset + j)) :=
  readLoop_spec hl (Nat.zero_le _) (by simp) (fun j hj => by simp at hj) h

/-- A walk visits the files up to the one that fails.  A file of its own is visited as it was before
the walk. -/
theorem walkFiles_spec
    {visit : Nat → FileMapping → Option Inode → Bool × FileMapping × Option Inode}
    {files : List FileMapping} (index : Nat) (fs : FileStore Path) :
    let r := walkFiles visit index files fs
    (∀ q, q ∉ files.map (·.path) → r.2.2 q = fs q) ∧
      ∃ stop, stop ≤ files.length ∧ (r.1 = true ↔ stop = files.length) ∧
        ∀ j m, files[j]? = some m → ∃ m' o o', r.2.1[j]? = some m' ∧
          (j < stop ∧ visit (index + j) m o = (true, m', o') ∨
            j = stop ∧ visit (index + j) m o = (false, m', o') ∨ stop < j ∧ m' = m ∧ o' = o) ∧
          ((files.map (·.path)).Nodup → o = fs m.path ∧ o' = r.2.2 m.path) := by
  induction files generalizing index fs with
  | nil => exact ⟨fun _ _ => rfl, 0, Nat.le_refl 0, by simp [walkFiles], by simp⟩
  | cons m rest ih =>
    have hother {j : Nat} {n : FileMapping} (hn : rest[j]? = some n)
        (hpaths : ((m :: rest).map (·.path)).Nodup) : n.path ≠ m.path := by
      intro he
      rw [List.map_cons, List.nodup_cons] at hpaths
      exact hpaths.1 (he ▸ List.mem_map_of_mem (List.mem_of_getElem? hn))
    rcases hv : visit index m (fs m.path) with ⟨_ | _, m', inode⟩
    · -- The walk ends here.
      simp only [walkFiles, hv]
      refine ⟨fun q hq => ?_, 0, Nat.zero_le _, by simp, fun j n hn => ?_⟩
      · rw [List.map_cons, List.mem_cons, not_or] at hq
        exact FileStore.set_of_ne hq.1 fs inode
      · cases j with
        | zero =>
          cases hn
          exact ⟨m', _, inode, rfl, .inr (.inl ⟨rfl, hv⟩), fun _ =>
            ⟨rfl, (FileStore.set_self ..).symm⟩⟩
        | succ j =>
          rw [List.getElem?_cons_succ] at hn
          exact ⟨n, fs n.path, fs n.path, by simpa using hn,
            .inr (.inr ⟨Nat.succ_pos j, rfl, rfl⟩), fun hpaths =>
            ⟨rfl, (FileStore.set_of_ne (hother hn hpaths) fs inode).symm⟩⟩
    · obtain ⟨hframe, stop, hstop, hok, hat⟩ := ih (index + 1) (fs.set m.path inode)
      simp only [walkFiles, hv]
      refine ⟨fun q hq => ?_, stop + 1, Nat.succ_le_succ hstop,
        by rw [hok, List.length_cons]; omega, fun j n hn => ?_⟩
      · rw [List.map_cons, List.mem_cons, not_or] at hq
        rw [hframe q hq.2, FileStore.set_of_ne hq.1]
      · cases j with
        | zero =>
          cases hn
          refine ⟨m', _, inode, rfl, .inl ⟨Nat.succ_pos stop, hv⟩, fun hpaths => ⟨rfl, ?_⟩⟩
          rw [hframe m.path (List.nodup_cons.mp hpaths).1, FileStore.set_self]
        | succ j =>
          rw [List.getElem?_cons_succ] at hn
          obtain ⟨n', o, o', hn', hcase, hinode⟩ := hat j n hn
          rw [show index + 1 + j = index + (j + 1) by omega] at hcase
          refine ⟨n', o, o', by simpa using hn', hcase.imp ?_ (Or.imp ?_ ?_), fun hpaths => ?_⟩
          · exact fun h => ⟨Nat.succ_lt_succ h.1, h.2⟩
          · exact fun h => ⟨congrArg Nat.succ h.1, h.2⟩
          · exact fun h => ⟨Nat.succ_lt_succ h.1, h.2⟩
          · obtain ⟨ho, ho'⟩ := hinode (List.nodup_cons.mp hpaths).2
            exact ⟨ho.trans (FileStore.set_of_ne (hother hn hpaths) ..), ho'⟩

theorem map_walkFiles {β : Type} {g : FileMapping → β}
    {visit : Nat → FileMapping → Option Inode → Bool × FileMapping × Option Inode}
    (hvisit : ∀ i m o, g (visit i m o).2.1 = g m) (index : Nat) (files : List FileMapping)
    (fs : FileStore Path) : (walkFiles visit index files fs).2.1.map g = files.map g := by
  induction files generalizing index fs with
  | nil => rfl
  | cons m rest ih =>
    have hkeep := hvisit index m (fs m.path)
    rw [walkFiles]
    split
    case h_1 mapping inode hv =>
      rw [hv] at hkeep
      rw [List.map_cons, List.map_cons, hkeep]
    case h_2 mapping inode hv =>
      rw [hv] at hkeep
      rw [List.map_cons, List.map_cons, hkeep, ih]

theorem cell_walkFiles
    {visit : Nat → FileMapping → Option Inode → Bool × FileMapping × Option Inode}
    (hplan : ∀ i m o, (visit i m o).2.1.plan = m.plan) {torrent : List TorrentFile}
    {files : List FileMapping} (hl : Laid torrent (files.map FileMapping.plan))
    (fs : FileStore Path) :
    let r := walkFiles visit 0 files fs
    r.2.1.map FileMapping.plan = files.map FileMapping.plan ∧
      ∀ i m, files[i]? = some m → ∃ m' inode, r.2.1[i]? = some m' ∧
        ((∃ ok, visit i m (fs m.path) = (ok, m', inode) ∧ (r.1 = true → ok = true)) ∨
          r.1 = false ∧ m' = m ∧ inode = fs m.path) ∧
        ∀ x, InFile torrent i x → cell r.2.1 r.2.2 x = cellOf m' inode x := by
  have hpaths : (files.map (·.path)).Nodup := by
    have := hl.paths
    rwa [List.map_map] at this
  have hp := map_walkFiles hplan 0 files fs
  obtain ⟨-, stop, hstop, hok, hat⟩ := @walkFiles_spec visit files 0 fs
  refine ⟨hp, fun i m hm => ?_⟩
  obtain ⟨m', o, o', hm', hcase, hinode⟩ := hat i m hm
  obtain ⟨rfl, rfl⟩ := hinode hpaths
  have hl' : Laid torrent ((walkFiles visit 0 files fs).2.1.map FileMapping.plan) := by rwa [hp]
  have hlt := (List.getElem?_eq_some_iff.mp hm).1
  have hpath : m'.path = m.path := by
    have := congrArg (fun l => l[i]?) hp
    simp only [List.getElem?_map, hm, hm', Option.map_some, Option.some.injEq] at this
    exact congrArg FilePlan.path this
  refine ⟨m', (walkFiles visit 0 files fs).2.2 m.path, hm', ?_, fun x hx => ?_⟩
  · rw [Nat.zero_add] at hcase
    rcases hcase with ⟨-, hv⟩ | ⟨he, hv⟩ | ⟨hgt, he, hfs⟩
    · exact .inl ⟨true, hv, fun _ => rfl⟩
    · exact .inl ⟨false, hv, fun h => by have := hok.mp h; omega⟩
    · refine .inr ⟨?_, he, hfs⟩
      cases hr : (walkFiles visit 0 files fs).1 with
      | false => rfl
      | true => have := hok.mp hr; omega
  · rw [hl'.cell_eq hm' hx, hpath]

def flushed (c : Cell) : Cell :=
  if c.opened then { c with dirty := false, durable := c.content } else { c with dirty := false }

@[simp] theorem written_flushed (c : Cell) : (flushed c).written = c.written := by
  unfold flushed
  split <;> rfl

theorem plan_flushVisit (io : Io) (i : Nat) (m : FileMapping) (o : Option Inode) :
    (flushVisit io i m o).2.1.plan = m.plan := by
  unfold flushVisit
  split
  · rfl
  · split
    · split <;> rfl
    · rfl

theorem cellOf_sync (m : FileMapping) (o : Option Inode) (x : Nat) :
    cellOf m (o.map Inode.sync) x =
      { cellOf m o x with durable := (cellOf m o x).content } := by
  cases o <;> rfl

theorem flushVisit_cases (io : Io) (i : Nat) (m : FileMapping) (o : Option Inode) :
    ∃ ok m' o', flushVisit io i m o = (ok, m', o') ∧ m'.still = m.still ∧
      ((m'.dirty = m.dirty ∧ ∀ x, cellOf m' o' x = cellOf m o x) ∧ (ok = true → m.dirty = false) ∨
        m.dirty = true ∧ m'.dirty = false ∧ ∀ x, cellOf m' o' x = flushed (cellOf m o x)) := by
  cases hd : m.dirty with
  | false =>
    exact ⟨true, m, o, by simp [flushVisit, hd], rfl, .inl ⟨⟨hd, fun _ => rfl⟩, fun _ => rfl⟩⟩
  | true =>
    cases ho : m.opened with
    | false =>
      refine ⟨true, { m with dirty := false }, o, by simp [flushVisit, hd, ho], rfl,
        .inr ⟨rfl, rfl, fun x => ?_⟩⟩
      simp [cellOf, flushed, ho]
    | true =>
      cases hs : io.syncFails i with
      | true =>
        exact ⟨false, m, o, by simp [flushVisit, hd, ho, hs], rfl,
          .inl ⟨⟨hd, fun _ => rfl⟩, nofun⟩⟩
      | false =>
        refine ⟨true, { m with dirty := false }, o.map Inode.sync,
          by simp [flushVisit, hd, ho, hs], rfl, .inr ⟨rfl, rfl, fun x => ?_⟩⟩
        rw [cellOf_sync]
        simp [cellOf, flushed, ho]

theorem flush_spec {torrent : List TorrentFile} {d : Disk}
    (hl : Laid torrent (d.files.map FileMapping.plan)) (io : Io) (fs : FileStore Path) :
    let r := d.flush io fs
    r.2.1.files.map FileMapping.still = d.files.map FileMapping.still ∧
      r.2.1.backend = d.backend ∧ r.2.1.pieceLength = d.pieceLength ∧
      (∀ x, cell r.2.1.files r.2.2 x = cell d.files fs x ∨ (cell d.files fs x).dirty = true ∧
        cell r.2.1.files r.2.2 x = flushed (cell d.files fs x)) ∧
      (r.1 = true → ∀ x, (cell r.2.1.files r.2.2 x).dirty = false) := by
  obtain ⟨hp, hat⟩ := cell_walkFiles (plan_flushVisit io) hl fs
  have hl' : Laid torrent ((d.flush io fs).2.1.files.map FileMapping.plan) := by rwa [← hp] at hl
  refine ⟨?_, rfl, rfl, fun x => ?_, fun hok x => ?_⟩
  · refine List.ext_getElem? fun i => ?_
    rw [List.getElem?_map, List.getElem?_map]
    cases hm : d.files[i]? with
    | none =>
      have := congrArg (fun l => l[i]?) hp
      simp only [List.getElem?_map, hm, Option.map_none, Option.map_eq_none_iff] at this
      exact congrArg (Option.map FileMapping.still) this
    | some m =>
      obtain ⟨m', inode, hm', hcase, -⟩ := hat i m hm
      refine (congrArg (Option.map FileMapping.still) hm').trans (congrArg some ?_)
      rcases hcase with ⟨ok, hv, -⟩ | ⟨-, rfl, -⟩
      · obtain ⟨ok', n, o, hv', hs, -⟩ := flushVisit_cases io i m (fs m.path)
        cases hv.symm.trans hv'
        exact hs
      · rfl
  · by_cases hx : ∃ i, InFile torrent i x
    · obtain ⟨i, hi⟩ := hx
      obtain ⟨m, hm⟩ := hl.exists_mapping hi
      obtain ⟨m', inode, hm', hcase, hcell⟩ := hat i m hm
      have hafter : cell (d.flush io fs).2.1.files (d.flush io fs).2.2 x = cellOf m' inode x :=
        hcell x hi
      rw [hl.cell_eq hm hi, hafter]
      rcases hcase with ⟨ok, hv, -⟩ | ⟨-, rfl, rfl⟩
      · obtain ⟨ok', n, o, hv', -, ⟨⟨-, hsame⟩, -⟩ | ⟨hd, -, hf⟩⟩ :=
          flushVisit_cases io i m (fs m.path)
        · cases hv.symm.trans hv'
          exact .inl (hsame x)
        · cases hv.symm.trans hv'
          exact .inr ⟨hd, hf x⟩
      · exact .inl rfl
    · have hnot : ∀ i, ¬ InFile torrent i x := fun i hi => hx ⟨i, hi⟩
      exact .inl ((hl'.cell_void hnot).trans (hl.cell_void hnot).symm)
  · by_cases hx : ∃ i, InFile torrent i x
    · obtain ⟨i, hi⟩ := hx
      obtain ⟨m, hm⟩ := hl.exists_mapping hi
      obtain ⟨m', inode, hm', hcase, hcell⟩ := hat i m hm
      refine (congrArg Cell.dirty (hcell x hi)).trans ?_
      rcases hcase with ⟨ok, hv, hall⟩ | ⟨hbad, -⟩
      · obtain ⟨ok', n, o, hv', -, ⟨⟨hd, -⟩, hclean⟩ | ⟨-, hd, -⟩⟩ :=
          flushVisit_cases io i m (fs m.path)
        · cases hv.symm.trans hv'
          exact hd.trans (hclean (hall hok))
        · cases hv.symm.trans hv'
          exact hd
      · exact absurd (hbad.symm.trans hok) nofun
    · exact congrArg Cell.dirty (hl'.cell_void fun i hi => hx ⟨i, hi⟩)

structure Sized (length : Nat) (o o' : Option Inode) : Prop where
  len : o'.map (·.len) = some length
  same : o.map (·.len) = some length → o' = o
  kept : ∀ y < length, y < (o.getD .empty).len →
    (o'.getD .empty).content y = (o.getD .empty).content y
  durable : (o'.getD .empty).durable = (o.getD .empty).durable
  written : ∀ y, (o'.getD .empty).written y = true →
    (o.getD .empty).written y = true ∧
      (o'.getD .empty).content y = (o.getD .empty).content y

theorem openPreallocated_ok {io : Io} {i length : Nat} {o o' : Option Inode}
    (h : openPreallocated io i length o = (true, o')) : Sized length o o' := by
  unfold openPreallocated at h
  split at h
  · cases h
  · simp only at h
    split at h
    · cases h
    · split at h
      case isTrue hlen =>
        cases h
        refine ⟨rfl, fun ho => ?_, fun y h₁ h₂ => ?_, rfl, fun y hy => ?_⟩
        · cases o with
          | none => cases ho
          | some inode => exact absurd (Option.some.inj ho) hlen
        · simp [Inode.setLen, h₁, h₂]
        · simp only [Option.getD_some, Inode.setLen, Bool.and_eq_true, decide_eq_true_eq] at hy
          exact ⟨hy.2, by simp [Inode.setLen, hy.1]⟩
      case isFalse hlen =>
        cases h
        refine ⟨congrArg some (by simpa using hlen), fun ho => ?_, fun _ _ _ => rfl, rfl,
          fun _ hy => ⟨hy, rfl⟩⟩
        cases o with
        | none => cases ho
        | some inode => rfl

theorem openFile_ok {backend : Backend} {io : Io} {i : Nat} {m m' : FileMapping}
    {o o' : Option Inode} (h : openFile backend io i m o = (true, m', o')) :
    m' = { m with opened := true } ∧ Sized (m.endOffset - m.startOffset) o o' := by
  unfold openFile at h
  split at h
  · cases h
  · rename_i inode hopen
    split at h
    · cases h
    · cases h
      exact ⟨rfl, openPreallocated_ok hopen⟩

theorem openFile_err {backend : Backend} {io : Io} {i : Nat} {m m' : FileMapping}
    {o o' : Option Inode} (h : openFile backend io i m o = (false, m', o')) : m' = m := by
  unfold openFile at h
  split at h
  · cases h; rfl
  · split at h <;> cases h
    rfl

theorem releaseFile_ok {backend : Backend} {io : Io} {i : Nat} {m m' : FileMapping}
    {o o' : Option Inode} (h : releaseFile backend io i m o = (true, m', o')) :
    m' = { m with opened := false, dirty := false } ∧ o' = o.map Inode.sync := by
  simp only [releaseFile] at h
  split at h
  · cases h
  · split at h <;> cases h
    exact ⟨rfl, rfl⟩

theorem releaseFile_err {backend : Backend} {io : Io} {i : Nat} {m m' : FileMapping}
    {o o' : Option Inode} (h : releaseFile backend io i m o = (false, m', o')) :
    m' = { m with opened := false } := by
  simp only [releaseFile] at h
  split at h
  · cases h; rfl
  · split at h <;> cases h
    rfl

theorem plan_openFile (backend : Backend) (io : Io) (i : Nat) (m : FileMapping)
    (o : Option Inode) : (openFile backend io i m o).2.1.plan = m.plan := by
  rcases h : openFile backend io i m o with ⟨_ | _, m', o'⟩
  · rw [openFile_err h]
  · rw [(openFile_ok h).1]; rfl

theorem plan_releaseFile (backend : Backend) (io : Io) (i : Nat) (m : FileMapping)
    (o : Option Inode) : (releaseFile backend io i m o).2.1.plan = m.plan := by
  rcases h : releaseFile backend io i m o with ⟨_ | _, m', o'⟩
  · rw [releaseFile_err h]; rfl
  · rw [(releaseFile_ok h).1]; rfl

theorem plan_selectionVisit (backend : Backend) (io : Io) (selected : List Bool) (i : Nat)
    (m : FileMapping) (o : Option Inode) :
    (selectionVisit backend io selected i m o).2.1.plan = m.plan := by
  unfold selectionVisit
  split
  · exact plan_openFile ..
  · exact plan_releaseFile ..
  · rfl

theorem plan_initVisit (backend : Backend) (io : Io) (selected : Option (List Bool)) (i : Nat)
    (m : FileMapping) (o : Option Inode) :
    (initVisit backend io selected i m o).2.1.plan = m.plan := by
  unfold initVisit
  split
  · exact plan_openFile ..
  · rfl

structure Opens (before after : Cell) : Prop where
  opened : after.opened = true
  sized : after.sized = true
  dirty : after.dirty = before.dirty
  durable : after.durable = before.durable
  same : before.sized = true → after = { before with opened := true }
  present : before.present = true → after.present = true ∧ after.content = before.content
  written : after.written = true → before.written = true ∧ after.content = before.content

structure Switched (before after : Cell) : Prop where
  kept : after.opened = before.opened → after = before
  opens : before.opened = false → after.opened = true → Opens before after
  releases : before.opened = true → after.opened = false →
    after = { before with opened := false, dirty := false, durable := before.content }

theorem Switched.refl (c : Cell) : Switched c c where
  kept _ := rfl
  opens h h' := by rw [h] at h'; cases h'
  releases h h' := by rw [h] at h'; cases h'

theorem opens_openFile {backend : Backend} {io : Io} {i : Nat} {m m' : FileMapping}
    {o o' : Option Inode} (h : openFile backend io i m o = (true, m', o')) {x : Nat}
    (hx : m.startOffset ≤ x ∧ x < m.endOffset) : Opens (cellOf m o x) (cellOf m' o' x) := by
  obtain ⟨rfl, hsized⟩ := openFile_ok h
  refine ⟨rfl, by simp [cellOf, hsized.len], rfl, ?_, fun hs => ?_, fun hp => ⟨?_, ?_⟩,
    hsized.written _⟩
  · simp only [cellOf, hsized.durable]
  · rw [hsized.same (by simpa [cellOf] using hs)]
    rfl
  · have hlen := hsized.len
    cases o' with
    | none => cases hlen
    | some inode =>
      simp only [Option.map_some, Option.some.injEq] at hlen
      simp only [cellOf, Option.getD_some, hlen, decide_eq_true_eq]
      show x - m.startOffset < m.endOffset - m.startOffset
      omega
  · exact hsized.kept (x - m.startOffset) (by omega) (by simpa [cellOf] using hp)

theorem switched_releaseFile {backend : Backend} {io : Io} {i : Nat} {m m' : FileMapping}
    {o o' : Option Inode} (h : releaseFile backend io i m o = (true, m', o')) (x : Nat)
    (hm : m.opened = true) : Switched (cellOf m o x) (cellOf m' o' x) := by
  obtain ⟨rfl, rfl⟩ := releaseFile_ok h
  rw [cellOf_sync]
  refine ⟨fun he => ?_, fun ho => ?_, fun _ _ => rfl⟩
  · simp [cellOf, hm] at he
  · simp [cellOf, hm] at ho

theorem selectionVisit_ok {backend : Backend} {io : Io} {selected : List Bool} {i : Nat}
    {m m' : FileMapping} {o o' : Option Inode}
    (h : selectionVisit backend io selected i m o = (true, m', o')) :
    m'.opened = isSelected (some selected) i ∧
      ∀ x, m.startOffset ≤ x ∧ x < m.endOffset → Switched (cellOf m o x) (cellOf m' o' x) := by
  unfold selectionVisit at h
  cases hs : isSelected (some selected) i <;> cases hm : m.opened <;> simp only [hs, hm] at h
  · cases h; exact ⟨hm, fun x _ => Switched.refl _⟩
  · exact ⟨by rw [(releaseFile_ok h).1], fun x _ => switched_releaseFile h x hm⟩
  · refine ⟨by rw [(openFile_ok h).1], fun x hx => ⟨fun he => ?_, fun _ _ => opens_openFile h hx,
      fun ho => ?_⟩⟩
    · rw [(opens_openFile h hx).opened] at he
      exact absurd (he.trans hm) nofun
    · exact absurd (hm.symm.trans ho) nofun
  · cases h; exact ⟨hm, fun x _ => Switched.refl _⟩

theorem setSelection_spec {torrent : List TorrentFile} {d : Disk}
    (hl : Laid torrent (d.files.map FileMapping.plan)) {io : Io} {selected : List Bool}
    {fs : FileStore Path} (hok : (d.setSelection io selected fs).1 = true) :
    let r := d.setSelection io selected fs
    (∀ i m', r.2.1.files[i]? = some m' → m'.opened = isSelected (some selected) i) ∧
      ∀ x, Switched (cell d.files fs x) (cell r.2.1.files r.2.2 x) ∧
        ∀ i, InFile torrent i x →
          (cell r.2.1.files r.2.2 x).opened = isSelected (some selected) i := by
  obtain ⟨hp, hat⟩ := cell_walkFiles (plan_selectionVisit d.backend io selected) hl fs
  have hl' : Laid torrent ((d.setSelection io selected fs).2.1.files.map FileMapping.plan) := by
    rwa [← hp] at hl
  have hvisit {i : Nat} {m : FileMapping} (hm : d.files[i]? = some m) :
      ∃ m' inode, (d.setSelection io selected fs).2.1.files[i]? = some m' ∧
        selectionVisit d.backend io selected i m (fs m.path) = (true, m', inode) ∧
        ∀ x, InFile torrent i x →
          cell (d.setSelection io selected fs).2.1.files (d.setSelection io selected fs).2.2 x =
            cellOf m' inode x := by
    obtain ⟨m', inode, hm', ⟨ok, hv, hall⟩ | ⟨hbad, -⟩, hcell⟩ := hat i m hm
    · exact ⟨m', inode, hm', hall hok ▸ hv, hcell⟩
    · exact absurd (hbad.symm.trans hok) nofun
  refine ⟨fun i m' hm' => ?_, fun x => ?_⟩
  · have hlen := congrArg List.length hp
    simp only [List.length_map] at hlen
    have hlt : i < d.files.length := hlen ▸ (List.getElem?_eq_some_iff.mp hm').1
    obtain ⟨n, inode, hn, hv, -⟩ := hvisit (List.getElem?_eq_getElem hlt)
    cases hm'.symm.trans hn
    exact (selectionVisit_ok hv).1
  · by_cases hx : ∃ i, InFile torrent i x
    · obtain ⟨i, hi⟩ := hx
      obtain ⟨m, hm⟩ := hl.exists_mapping hi
      obtain ⟨m', inode, -, hv, hcell⟩ := hvisit hm
      obtain ⟨hopened, hswitched⟩ := selectionVisit_ok hv
      rw [hl.cell_eq hm hi, hcell x hi]
      exact ⟨hswitched x ((hl.inFile_iff hm x).mp hi), fun j hj => hi.unique hj ▸ hopened⟩
    · have hnot : ∀ i, ¬ InFile torrent i x := fun i hi => hx ⟨i, hi⟩
      rw [hl'.cell_void hnot, hl.cell_void hnot]
      exact ⟨Switched.refl _, fun i hi => absurd hi (hnot i)⟩

theorem setSelection_frame {torrent : List TorrentFile} {d : Disk}
    (hl : Laid torrent (d.files.map FileMapping.plan)) (io : Io) (selected : List Bool)
    (fs : FileStore Path) :
    let r := d.setSelection io selected fs
    r.2.1.files.map FileMapping.plan = d.files.map FileMapping.plan ∧
      r.2.1.backend = d.backend ∧ r.2.1.pieceLength = d.pieceLength :=
  ⟨(cell_walkFiles (plan_selectionVisit d.backend io selected) hl fs).1, rfl, rfl⟩

def unopened (plan : FilePlan) : FileMapping := ⟨plan.path, false, plan.start, plan.stop, false⟩

theorem map_plan_unopened (plans : List FilePlan) :
    (plans.map unopened).map FileMapping.plan = plans := by
  rw [List.map_map]
  exact List.map_id plans

def Holds (plans : List FilePlan) (fs : FileStore Path) (x : Nat) (byte : UInt8) : Prop :=
  ∃ plan ∈ plans, plan.start ≤ x ∧ x < plan.stop ∧
    ∃ inode ∈ fs plan.path, x - plan.start < inode.len ∧ inode.content (x - plan.start) = byte

instance (plans : List FilePlan) (fs : FileStore Path) (x : Nat) (byte : UInt8) :
    Decidable (Holds plans fs x byte) :=
  inferInstanceAs (Decidable (∃ plan ∈ plans, plan.start ≤ x ∧ x < plan.stop ∧
    ∃ inode ∈ fs plan.path, x - plan.start < inode.len ∧ inode.content (x - plan.start) = byte))

theorem holds_iff {torrent : List TorrentFile} {files : List FileMapping} {fs : FileStore Path}
    (hl : Laid torrent (files.map FileMapping.plan)) {x : Nat} (byte : UInt8) :
    Holds (files.map FileMapping.plan) fs x byte ↔
      (cell files fs x).present = true ∧ (cell files fs x).content = byte := by
  constructor
  · rintro ⟨plan, hplan, hstart, hstop, inode, hfs, hlen, hbyte⟩
    obtain ⟨m, hmem, rfl⟩ := List.mem_map.mp hplan
    obtain ⟨i, hm⟩ := List.mem_iff_getElem?.mp hmem
    rw [hl.cell_eq hm ((hl.inFile_iff hm x).mpr ⟨hstart, hstop⟩)]
    simp only [cellOf, show fs m.path = some inode from hfs, Option.getD_some, decide_eq_true_eq]
    exact ⟨hlen, hbyte⟩
  · rintro ⟨hpresent, hbyte⟩
    have hin : ∃ i, InFile torrent i x := by
      by_contra hno
      rw [hl.cell_void fun i hi => hno ⟨i, hi⟩] at hpresent
      cases hpresent
    obtain ⟨i, hi⟩ := hin
    obtain ⟨m, hm⟩ := hl.exists_mapping hi
    have hrange := (hl.inFile_iff hm x).mp hi
    rw [hl.cell_eq hm hi] at hpresent hbyte
    simp only [cellOf, decide_eq_true_eq] at hpresent hbyte
    cases hfs : fs m.path with
    | none => simp [hfs, Inode.empty] at hpresent
    | some inode =>
      rw [hfs] at hpresent hbyte
      exact ⟨m.plan, List.mem_map_of_mem (List.mem_of_getElem? hm), hrange.1, hrange.2, inode,
        hfs, hpresent, hbyte⟩

theorem present_of_sized {torrent : List TorrentFile} {files : List FileMapping}
    {fs : FileStore Path} (hl : Laid torrent (files.map FileMapping.plan)) {x : Nat}
    (h : (cell files fs x).sized = true) : (cell files fs x).present = true := by
  have hin : ∃ i, InFile torrent i x := by
    by_contra hno
    rw [hl.cell_void fun i hi => hno ⟨i, hi⟩] at h
    cases h
  obtain ⟨i, hi⟩ := hin
  obtain ⟨m, hm⟩ := hl.exists_mapping hi
  have hrange := (hl.inFile_iff hm x).mp hi
  rw [hl.cell_eq hm hi] at h ⊢
  simp only [cellOf, decide_eq_true_eq] at h ⊢
  cases hfs : fs m.path with
  | none => simp [hfs] at h
  | some inode =>
    rw [hfs] at h
    simp only [Option.map_some, Option.some.injEq] at h
    simp only [Option.getD_some]
    omega

theorem initVisit_ok {backend : Backend} {io : Io} {selected : Option (List Bool)} {i : Nat}
    {m m' : FileMapping} {o o' : Option Inode} (hm : m.opened = false)
    (h : initVisit backend io selected i m o = (true, m', o')) :
    m'.opened = isSelected selected i ∧ m'.dirty = m.dirty ∧
      (m'.opened = true → Sized (m.endOffset - m.startOffset) o o') ∧
      (m'.opened = false → m' = m ∧ o' = o) := by
  unfold initVisit at h
  split at h
  case isTrue hs =>
    obtain ⟨rfl, hsized⟩ := openFile_ok h
    exact ⟨hs.symm, rfl, fun _ => hsized, nofun⟩
  case isFalse hs =>
    cases h
    exact ⟨hm.trans (Bool.eq_false_iff.mpr hs).symm, rfl, fun ho => absurd (hm.symm.trans ho) nofun,
      fun _ => ⟨rfl, rfl⟩⟩

structure Fresh (torrent : List TorrentFile) (selected : Option (List Bool))
    (plans : List FilePlan) (fs : FileStore Path) (d : Disk) (fs' : FileStore Path) : Prop where
  plan_eq : d.files.map FileMapping.plan = plans
  laid : Laid torrent plans
  opened : ∀ (i : Nat) (m : FileMapping), d.files[i]? = some m → m.opened = isSelected selected i
  dirty : ∀ (i : Nat) (m : FileMapping), d.files[i]? = some m → m.dirty = false
  ready : Ready (cell d.files fs')
  holds : ∀ x byte, Holds plans fs x byte → Holds plans fs' x byte
  written : ∀ x, (cell d.files fs' x).written = true →
    (cell (plans.map unopened) fs x).written = true ∧
      (cell d.files fs' x).content = (cell (plans.map unopened) fs x).content
  durable : ∀ x, (cell d.files fs' x).durable = (cell (plans.map unopened) fs x).durable

section InitWalk

variable {torrent : List TorrentFile} {plans : List FilePlan} {backend : Backend} {io : Io}
  {selected : Option (List Bool)} {fs fs' : FileStore Path} {files : List FileMapping}

theorem visited_initWalk (hl : Laid torrent plans)
    (h : walkFiles (initVisit backend io selected) 0 (plans.map unopened) fs =
      (true, files, fs')) : files.map FileMapping.plan = plans ∧
      ∀ (i : Nat) (plan : FilePlan), plans[i]? = some plan → ∃ m' inode, files[i]? = some m' ∧
        initVisit backend io selected i (unopened plan) (fs plan.path) = (true, m', inode) ∧
        ∀ x, InFile torrent i x → cell files fs' x = cellOf m' inode x := by
  have hl₀ : Laid torrent ((plans.map unopened).map FileMapping.plan) := by
    rwa [map_plan_unopened]
  obtain ⟨hp, hat⟩ := cell_walkFiles (plan_initVisit backend io selected) hl₀ fs
  rw [h, map_plan_unopened] at hp
  refine ⟨hp, fun i plan hplan => ?_⟩
  obtain ⟨m', inode, hm', hcase, hcell⟩ :=
    hat i (unopened plan) (by rw [List.getElem?_map, hplan]; rfl)
  rw [h] at hm' hcase hcell
  rcases hcase with ⟨ok, hv, hall⟩ | ⟨hbad, -⟩
  · exact ⟨m', inode, hm', hall rfl ▸ hv, hcell⟩
  · cases hbad

theorem byte_initWalk (hl : Laid torrent plans)
    (h : walkFiles (initVisit backend io selected) 0 (plans.map unopened) fs =
      (true, files, fs')) (x : Nat) : (∀ i, ¬ InFile torrent i x) ∨
      ∃ (i : Nat) (plan : FilePlan) (m' : FileMapping) (inode : Option Inode),
      plans[i]? = some plan ∧ InFile torrent i x ∧ m'.opened = isSelected selected i ∧
      cell (plans.map unopened) fs x = cellOf (unopened plan) (fs plan.path) x ∧
      cell files fs' x = cellOf m' inode x ∧ m'.plan = plan ∧
      (m'.opened = true → Sized (plan.stop - plan.start) (fs plan.path) inode) ∧
      (m'.opened = false → m' = unopened plan ∧ inode = fs plan.path) := by
  have hl₀ : Laid torrent ((plans.map unopened).map FileMapping.plan) := by
    rwa [map_plan_unopened]
  obtain ⟨hp, hvisit⟩ := visited_initWalk hl h
  by_cases hx : ∃ i, InFile torrent i x
  · obtain ⟨i, hi⟩ := hx
    obtain ⟨m, hm⟩ := hl₀.exists_mapping hi
    obtain ⟨plan, hplan, rfl⟩ := Option.map_eq_some_iff.mp ((List.getElem?_map ..).symm.trans hm)
    obtain ⟨m', inode, hm', hv, hcell⟩ := hvisit i plan hplan
    obtain ⟨ho, -, hs, hc⟩ := initVisit_ok rfl hv
    have hclosed : cell (plans.map unopened) fs x = cellOf (unopened plan) (fs plan.path) x :=
      hl₀.cell_eq (by rw [List.getElem?_map, hplan]; rfl) hi
    have hat : plans[i]? = some m'.plan := by rw [← hp, List.getElem?_map, hm']; rfl
    exact .inr ⟨i, plan, m', inode, hplan, hi, ho, hclosed, hcell x hi,
      Option.some.inj (hat.symm.trans hplan), hs, hc⟩
  · exact .inl fun i hi => hx ⟨i, hi⟩

theorem holds_initWalk (hl : Laid torrent plans)
    (h : walkFiles (initVisit backend io selected) 0 (plans.map unopened) fs = (true, files, fs'))
    {x : Nat} {byte : UInt8} (hx : Holds plans fs x byte) : Holds plans fs' x byte := by
  have hl₀ : Laid torrent ((plans.map unopened).map FileMapping.plan) := by
    rwa [map_plan_unopened]
  obtain ⟨hp, -⟩ := visited_initWalk hl h
  have hl' : Laid torrent (files.map FileMapping.plan) := by rwa [hp]
  obtain ⟨plan', hmem, hstart, hstop, inode₀, hfs, hlen, hb⟩ := hx
  obtain ⟨j, hplan'⟩ := List.mem_iff_getElem?.mp hmem
  have hj : InFile torrent j x :=
    (hl₀.inFile_iff (by rw [List.getElem?_map, hplan']; rfl) x).mpr ⟨hstart, hstop⟩
  rcases byte_initWalk hl h x with hnot | ⟨i, plan, m', inode, hplan, hi, -, -, hcell, he, hs, hc⟩
  · exact absurd hj (hnot j)
  · obtain rfl := hi.unique hj
    cases hplan.symm.trans hplan'
    have hoff : m'.startOffset = plan'.start := congrArg FilePlan.start he
    rw [← hp, holds_iff hl', hcell]
    simp only [cellOf, hoff, decide_eq_true_eq]
    cases ho : m'.opened with
    | true =>
      have hsized := hs ho
      have hlen' := hsized.len
      refine ⟨?_, ?_⟩
      · cases inode with
        | none => cases hlen'
        | some inode =>
          simp only [Option.map_some, Option.some.injEq] at hlen'
          simp only [Option.getD_some]
          omega
      · rw [hsized.kept (x - plan'.start) (by omega) (by rw [hfs]; exact hlen), hfs]
        exact hb
    | false =>
      rw [(hc ho).2, hfs]
      exact ⟨hlen, hb⟩

theorem fresh_walk (hl : Laid torrent plans) {pieceLength : Nat}
    (h : walkFiles (initVisit backend io selected) 0 (plans.map unopened) fs =
      (true, files, fs')) : Fresh torrent selected plans fs ⟨backend, files, pieceLength⟩ fs' := by
  have hl₀ : Laid torrent ((plans.map unopened).map FileMapping.plan) := by
    rwa [map_plan_unopened]
  obtain ⟨hp, hvisit⟩ := visited_initWalk hl h
  have hl' : Laid torrent (files.map FileMapping.plan) := by rwa [hp]
  have hplanAt {i : Nat} {m' : FileMapping} (hm' : files[i]? = some m') :
      plans[i]? = some m'.plan := by rw [← hp, List.getElem?_map, hm']; rfl
  have hbyte := byte_initWalk hl h
  have hvoid {x : Nat} (hx : ∀ i, ¬ InFile torrent i x) : cell files fs' x = .void :=
    hl'.cell_void hx
  refine ⟨hp, hl, fun i m hm => ?_, fun i m hm => ?_, fun x hx => ?_,
    fun x byte hx => holds_initWalk hl h hx, fun x hx => ?_, fun x => ?_⟩
  · obtain ⟨m', inode, hm', hv, -⟩ := hvisit i _ (hplanAt hm)
    cases hm.symm.trans hm'
    exact (initVisit_ok rfl hv).1
  · obtain ⟨m', inode, hm', hv, -⟩ := hvisit i _ (hplanAt hm)
    cases hm.symm.trans hm'
    exact (initVisit_ok rfl hv).2.1
  · rcases hbyte x with hnot | ⟨i, plan, m', inode, -, -, -, -, hcell, rfl, hs, -⟩
    · rw [show cell files fs' x = .void from hvoid hnot] at hx
      cases hx
    · simp only [hcell] at hx ⊢
      simpa [cellOf, FileMapping.plan] using (hs hx).len
  · rcases hbyte x with hnot | ⟨i, plan, m', inode, -, -, -, hold, hcell, rfl, hs, hc⟩
    · rw [show cell files fs' x = .void from hvoid hnot] at hx
      cases hx
    · simp only [hcell, hold] at hx ⊢
      cases ho : m'.opened with
      | true => exact (hs ho).written _ hx
      | false =>
        obtain ⟨-, rfl⟩ := hc ho
        exact ⟨hx, rfl⟩
  · rcases hbyte x with hnot | ⟨i, plan, m', inode, -, -, -, hold, hcell, rfl, hs, hc⟩
    · exact congrArg Cell.durable ((hvoid hnot).trans (hl₀.cell_void hnot).symm)
    · simp only [hcell, hold]
      cases ho : m'.opened with
      | true => exact congrFun (hs ho).durable _
      | false =>
        obtain ⟨-, rfl⟩ := hc ho
        rfl

end InitWalk

theorem initWithSelection_spec {backend : Backend} {windows : Bool} {base : Path}
    {totalSize pieceLength : Nat} {filesMeta : Option (List TorrentFile)} {name : String}
    {selected : Option (List Bool)} {io : Io} {fs fs' : FileStore Path} {d : Disk}
    (h : initWithSelection backend windows base totalSize pieceLength filesMeta name selected io
      fs = (some d, fs')) {plans : List FilePlan}
    (hplans : planFiles windows base name filesMeta.isSome
      (filesMeta.getD [⟨totalSize, [name]⟩]) 0 = .ok plans)
    (hpaths : (plans.map (·.path)).Nodup) :
    Fresh (filesMeta.getD [⟨totalSize, [name]⟩]) selected plans fs d fs' ∧
      d.backend = backend ∧ d.pieceLength = pieceLength := by
  have hl := laid_of_planFiles hplans hpaths
  rw [initWithSelection, hplans] at h
  simp only at h
  rcases hw : walkFiles (initVisit backend io selected) 0 (plans.map unopened) fs with
    ⟨_ | _, files, fs₁⟩
  · rw [show (plans.map fun plan => (⟨plan.path, false, plan.start, plan.stop, false⟩ :
      FileMapping)) = plans.map unopened from rfl, hw] at h
    cases h
  · rw [show (plans.map fun plan => (⟨plan.path, false, plan.start, plan.stop, false⟩ :
      FileMapping)) = plans.map unopened from rfl, hw] at h
    cases h
    exact ⟨fresh_walk hl hw, rfl, rfl⟩

end Disk
end Tortor.Core
