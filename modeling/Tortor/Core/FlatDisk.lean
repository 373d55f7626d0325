import Tortor.Core.DiskAccess
import Tortor.Core.DiskLaws

namespace Tortor.Core

open Tortor.Lib

/-! A torrent as one array of bytes.  It knows nothing of files but where they begin and which of
them are selected. -/

inductive DiskOp
  | writePiece (pieceIndex : UInt32) (data : List UInt8)
  | readPiece (pieceIndex offset len : UInt32)
  | flush
  | setSelection (selected : List Bool)

inductive DiskAnswer
  | written (fault : Option Fault)
  | bytes (result : Except Fault (List UInt8))
  | flushed (ok : Bool)
  | selected (ok : Bool)
  deriving DecidableEq

def DiskOp.Covers (pieceLength : Nat) (x : Nat) : DiskOp → Prop
  | .writePiece pieceIndex data => pieceIndex.toNat * pieceLength ≤ x ∧
      x < pieceIndex.toNat * pieceLength + data.length
  | _ => False

@[ext] structure FlatDisk where
  torrent : List TorrentFile
  selected : Nat → Bool
  store : Nat → UInt8

namespace FlatDisk

def total (self : FlatDisk) : Nat := (self.torrent.map (·.length)).sum

def Live (self : FlatDisk) (x : Nat) : Prop := ∃ i, InFile self.torrent i x ∧ self.selected i = true

open scoped Classical in
/-- Only live bytes are stored. -/
noncomputable def write (self : FlatDisk) (start : Nat) (data : List UInt8) : FlatDisk :=
  { self with
    store := fun x =>
      if start ≤ x ∧ x < start + data.length ∧ self.Live x then data.getD (x - start) 0
      else self.store x }

open scoped Classical in
noncomputable def shown (self : FlatDisk) (x : Nat) : UInt8 :=
  if self.Live x then self.store x else 0

noncomputable def read (self : FlatDisk) (start len : Nat) : List UInt8 :=
  (List.range len).map fun j => self.shown (start + j)

/-- The bytes of files that are no longer selected stay where they are. -/
def select (self : FlatDisk) (selected : Option (List Bool)) : FlatDisk :=
  { self with selected := isSelected selected }

/-- Only an access to nothing may lie outside. -/
def fault (self : FlatDisk) (start len : Nat) : Option Fault :=
  if len = 0 ∨ start + len ≤ self.total then none else some .outOfBounds

/-- What is done for a request.  Nothing is said about when a flush fails. -/
inductive Step (pieceLength : Nat) : FlatDisk → DiskOp → DiskAnswer → FlatDisk → Prop
  | writePiece (self : FlatDisk) (pieceIndex : UInt32) (data : List UInt8) :
      Step pieceLength self (.writePiece pieceIndex data)
        (.written (self.fault (pieceIndex.toNat * pieceLength) data.length))
        (self.write (pieceIndex.toNat * pieceLength) data)
  | readPiece (self : FlatDisk) (pieceIndex offset len : UInt32) :
      Step pieceLength self (.readPiece pieceIndex offset len)
        (.bytes (match self.fault (pieceIndex.toNat * pieceLength + offset.toNat) len.toNat with
          | none => .ok (self.read (pieceIndex.toNat * pieceLength + offset.toNat) len.toNat)
          | some fault => .error fault)) self
  | flush (self : FlatDisk) (ok : Bool) : Step pieceLength self .flush (.flushed ok) self
  | setSelection (self : FlatDisk) (selected : List Bool) :
      Step pieceLength self (.setSelection selected) (.selected true) (self.select (some selected))

inductive Steps (pieceLength : Nat) : FlatDisk → List DiskOp → List DiskAnswer → FlatDisk → Prop
  | nil (self : FlatDisk) : Steps pieceLength self [] [] self
  | cons {self mid last : FlatDisk} {op : DiskOp} {answer : DiskAnswer} {ops : List DiskOp}
      {answers : List DiskAnswer} (first : Step pieceLength self op answer mid)
      (rest : Steps pieceLength mid ops answers last) :
      Steps pieceLength self (op :: ops) (answer :: answers) last

variable {flat flat' : FlatDisk} {start x : Nat}

theorem write_of_dead {data : List UInt8}
    (h : ∀ x, start ≤ x → x < start + data.length → ¬ flat.Live x) :
    flat.write start data = flat :=
  FlatDisk.ext rfl rfl (funext fun x => if_neg fun hx => h x hx.1 hx.2.1 hx.2.2)

theorem write_nil (flat : FlatDisk) (start : Nat) : flat.write start [] = flat :=
  write_of_dead fun _ hx hx' => absurd hx' (Nat.not_lt.mpr hx)

@[simp] theorem live_write (data : List UInt8) : (flat.write start data).Live x ↔ flat.Live x :=
  Iff.rfl

open scoped Classical in
theorem store_write (data : List UInt8) : (flat.write start data).store x =
    if start ≤ x ∧ x < start + data.length ∧ flat.Live x then data.getD (x - start) 0
    else flat.store x := rfl

theorem write_write (flat : FlatDisk) (start : Nat) (front back : List UInt8) :
    (flat.write start front).write (start + front.length) back =
      flat.write start (front ++ back) := by
  refine FlatDisk.ext rfl rfl (funext fun x => ?_)
  rw [store_write, store_write, store_write, live_write, List.length_append]
  by_cases hx : flat.Live x
  case neg => simp only [hx, and_false, if_false]
  by_cases hback : start + front.length ≤ x ∧ x < start + front.length + back.length
  · rw [if_pos ⟨hback.1, hback.2, hx⟩, if_pos ⟨by omega, by omega, hx⟩,
      List.getD_append_right _ _ _ _ (by omega), Nat.sub_sub]
  · rw [if_neg fun h => hback ⟨h.1, h.2.1⟩]
    by_cases hfront : start ≤ x ∧ x < start + front.length
    · rw [if_pos ⟨hfront.1, hfront.2, hx⟩, if_pos ⟨hfront.1, by omega, hx⟩,
        List.getD_append _ _ _ _ (by omega)]
    · rw [if_neg fun h => hfront ⟨h.1, h.2.1⟩, if_neg fun h => by omega]

theorem Live.lt_total (h : flat.Live x) : x < flat.total := by
  obtain ⟨i, hi, -⟩ := h
  have hend := fileStart_mono flat.torrent (show i + 1 ≤ max (i + 1) flat.torrent.length by omega)
  rw [fileStart_eq_total (Nat.le_max_right _ _)] at hend
  exact Nat.lt_of_lt_of_le hi.2 hend

theorem write_of_total_le (h : flat.total ≤ start) (data : List UInt8) :
    flat.write start data = flat :=
  write_of_dead fun _ hx _ hlive => absurd hlive.lt_total (Nat.not_lt.mpr (h.trans hx))

theorem read_append (flat : FlatDisk) (start n k : Nat) :
    flat.read start (n + k) = flat.read start n ++ flat.read (start + n) k := by
  simp only [read, List.range_add, List.map_append, List.map_map, Nat.add_assoc]
  rfl

@[simp] theorem length_read (flat : FlatDisk) (start len : Nat) :
    (flat.read start len).length = len := by
  rw [read, List.length_map, List.length_range]

theorem Step.torrent_eq {pieceLength : Nat} {op : DiskOp} {answer : DiskAnswer}
    (h : Step pieceLength flat op answer flat') : flat'.torrent = flat.torrent := by
  cases h <;> rfl

theorem Step.store_eq {pieceLength : Nat} {op : DiskOp} {answer : DiskAnswer}
    (h : Step pieceLength flat op answer flat') (hx : ¬ op.Covers pieceLength x) :
    flat'.store x = flat.store x := by
  cases h with
  | writePiece pieceIndex data => exact if_neg fun h => hx ⟨h.1, h.2.1⟩
  | readPiece | flush | setSelection => rfl

/-- How the file of a mapping holds its part of the array.  A file that is missing is not open, and
its part is zero. -/
def Stored (self : FlatDisk) (m : FileMapping) : Option Inode → Prop
  | none => m.opened = false ∧ ∀ x, m.startOffset ≤ x → x < m.endOffset → self.store x = 0
  | some inode => inode.len = m.endOffset - m.startOffset ∧
      ∀ x, m.startOffset ≤ x → x < m.endOffset → inode.content (x - m.startOffset) = self.store x

theorem Stored.closed {m : FileMapping} {o : Option Inode} (h : flat.Stored m o) (ho : o = none) :
    m.opened = false := by
  subst ho
  exact h.1

theorem Stored.congr {m m' : FileMapping} {o : Option Inode} (h : flat.Stored m o)
    (hplan : m'.plan = m.plan) (hopened : o = none → m'.opened = false)
    (hsame : ∀ x, m.startOffset ≤ x → x < m.endOffset → flat'.store x = flat.store x) :
    flat'.Stored m' o := by
  have hstart : m'.startOffset = m.startOffset := congrArg FilePlan.start hplan
  have hend : m'.endOffset = m.endOffset := congrArg FilePlan.stop hplan
  cases o with
  | none =>
    refine ⟨hopened rfl, fun x hx hx' => ?_⟩
    rw [hstart] at hx
    rw [hend] at hx'
    rw [hsame x hx hx', h.2 x hx hx']
  | some inode =>
    refine ⟨by rw [hstart, hend]; exact h.1, fun x hx hx' => ?_⟩
    rw [hstart] at hx ⊢
    rw [hend] at hx'
    rw [hsame x hx hx', h.2 x hx hx']

theorem Stored.exists_inode {m : FileMapping} {o : Option Inode} (h : flat.Stored m o)
    (ho : m.opened = true) : ∃ inode, o = some inode := by
  cases o with
  | none => exact absurd (h.1.symm.trans ho) nofun
  | some inode => exact ⟨inode, rfl⟩

end FlatDisk

/-- The byte at `x`, in the file that the plan gives it to.  Files that are missing hold zeros. -/
def byteAt (plans : List FilePlan) (fs : FileStore Path) (x : Nat) : UInt8 :=
  (cell (plans.map Disk.unopened) fs x).content

theorem byteAt_outside {torrent : List TorrentFile} {plans : List FilePlan}
    (h : Laid torrent plans) {x : Nat} (hx : ∀ i, ¬ InFile torrent i x) (fs : FileStore Path) :
    byteAt plans fs x = 0 := by
  have hlaid : Laid torrent ((plans.map Disk.unopened).map FileMapping.plan) := by
    rw [Disk.map_plan_unopened]
    exact h
  exact congrArg Cell.content (hlaid.cell_void hx)

structure Refines (files : List FileMapping) (fs : FileStore Path) (flat : FlatDisk) : Prop where
  laid : Laid flat.torrent (files.map FileMapping.plan)
  opened : ∀ (i : Nat) (m : FileMapping), files[i]? = some m → m.opened = flat.selected i
  stored : ∀ (i : Nat) (m : FileMapping), files[i]? = some m → flat.Stored m (fs m.path)

namespace Refines

variable {files : List FileMapping} {fs : FileStore Path} {flat : FlatDisk} {i x : Nat}
  {m : FileMapping} {slice : List UInt8}

theorem live_iff (h : Refines files fs flat) (hm : files[i]? = some m) (hstart : m.startOffset ≤ x)
    (hend : x < m.endOffset) : flat.Live x ↔ m.opened = true := by
  have hin : InFile flat.torrent i x := (h.laid.inFile_iff hm x).mpr ⟨hstart, hend⟩
  rw [h.opened i m hm]
  constructor
  · rintro ⟨j, hj, hselected⟩
    rwa [hin.unique hj]
  · exact fun hselected => ⟨i, hin, hselected⟩

theorem end_le_total (h : Refines files fs flat) (hm : files[i]? = some m) :
    m.endOffset ≤ flat.total := by
  have hplan : (files.map FileMapping.plan)[i]? = some m.plan := by rw [List.getElem?_map, hm]; rfl
  have hstop : m.endOffset = fileStart flat.torrent (i + 1) := h.laid.stop_eq i _ hplan
  have hlt := (List.getElem?_eq_some_iff.mp hplan).1
  rw [h.laid.length_eq] at hlt
  have hmono := fileStart_mono flat.torrent (show i + 1 ≤ flat.torrent.length from hlt)
  rw [fileStart_eq_total (Nat.le_refl _)] at hmono
  rw [hstop]
  exact hmono

theorem total_le_of_locate (h : Refines files fs flat) (hnone : locate files x = none) :
    flat.total ≤ x := by
  by_contra hx
  obtain ⟨i, hi⟩ := exists_inFile (Nat.not_le.mp hx)
  obtain ⟨m, hm⟩ := h.laid.exists_mapping hi
  rw [h.laid.locate_eq hm hi] at hnone
  cases hnone

theorem reaches (h : Refines files fs flat) (hm : files[i]? = some m) (hend : x < m.endOffset)
    (ho : m.opened = true) : ∃ inode, fs m.path = some inode ∧ x - m.startOffset ≤ inode.len := by
  obtain ⟨inode, hinode⟩ := (h.stored i m hm).exists_inode ho
  have hstored := h.stored i m hm
  rw [hinode] at hstored
  exact ⟨inode, hinode, by rw [hstored.1]; omega⟩

theorem write_open (h : Refines files fs flat) (hm : files[i]? = some m)
    (hstart : m.startOffset ≤ x) (hend : x + slice.length ≤ m.endOffset) (ho : m.opened = true) :
    Refines (files.set i { m with dirty := true }) (fs.set m.path ((fs m.path).map fun inode =>
      inode.writeAt (x - m.startOffset) slice)) (flat.write x slice) := by
  have hlt := (List.getElem?_eq_some_iff.mp hm).1
  refine ⟨?_, fun j n hn => ?_, fun j n hn => ?_⟩
  · have hplans : (files.set i { m with dirty := true }).map FileMapping.plan =
        files.map FileMapping.plan := map_plan_set hm rfl
    rw [hplans]
    exact h.laid
  · by_cases hij : i = j
    · subst hij
      rw [List.getElem?_set_self hlt] at hn
      cases hn
      exact h.opened i m hm
    · rw [List.getElem?_set_ne hij] at hn
      exact h.opened j n hn
  · by_cases hij : i = j
    · subst hij
      rw [List.getElem?_set_self hlt] at hn
      cases hn
      obtain ⟨inode, hinode⟩ := (h.stored i m hm).exists_inode ho
      have hstored := h.stored i m hm
      rw [hinode] at hstored
      rw [FileStore.set_self, hinode]
      refine ⟨?_, fun y hy hy' => ?_⟩
      · have hlen := hstored.1
        simp only [Inode.writeAt]
        omega
      · have hlive := (h.live_iff hm hy hy').mpr ho
        have hat : (x - m.startOffset ≤ y - m.startOffset ∧
            y - m.startOffset < x - m.startOffset + slice.length) ↔
            x ≤ y ∧ y < x + slice.length := by
          have hy : m.startOffset ≤ y := hy
          omega
        rw [FlatDisk.store_write]
        simp only [Inode.writeAt, hat, hlive, and_true]
        rw [hstored.2 y hy hy', Nat.sub_sub_sub_cancel_right hstart]
    · rw [List.getElem?_set_ne hij] at hn
      rw [FileStore.set_of_ne (h.laid.path_ne hn hm (Ne.symm hij))]
      -- The other files share no byte with this one.
      refine (h.stored j n hn).congr rfl (h.stored j n hn).closed fun y hy hy' =>
        if_neg fun hslice => hij ?_
      exact ((h.laid.inFile_iff hm y).mpr ⟨by omega, by omega⟩).unique
        ((h.laid.inFile_iff hn y).mpr ⟨hy, hy'⟩)

theorem write_closed (h : Refines files fs flat) (hm : files[i]? = some m)
    (hstart : m.startOffset ≤ x) (hend : x + slice.length ≤ m.endOffset) (ho : m.opened = false) :
    flat.write x slice = flat :=
  FlatDisk.write_of_dead fun y hy hy' hlive => by
    have hopen := (h.live_iff hm (hstart.trans hy) (by omega)).mp hlive
    exact absurd (ho.symm.trans hopen) nofun

theorem byteAt_eq (h : Refines files fs flat) (hin : InFile flat.torrent i x) :
    byteAt (files.map FileMapping.plan) fs x = flat.store x := by
  obtain ⟨m, hm⟩ := h.laid.exists_mapping hin
  obtain ⟨hstart, hend⟩ := (h.laid.inFile_iff hm x).mp hin
  have hlaid : Laid flat.torrent
      (((files.map FileMapping.plan).map Disk.unopened).map FileMapping.plan) := by
    rw [Disk.map_plan_unopened]
    exact h.laid
  have hat : ((files.map FileMapping.plan).map Disk.unopened)[i]? =
      some (Disk.unopened m.plan) := by
    rw [List.getElem?_map, List.getElem?_map, hm]
    rfl
  have hstored := h.stored i m hm
  have hbyte : byteAt (files.map FileMapping.plan) fs x =
      ((fs m.path).getD .empty).content (x - m.startOffset) :=
    congrArg Cell.content (hlaid.cell_eq hat hin)
  rw [hbyte]
  cases hinode : fs m.path with
  | none =>
    rw [hinode] at hstored
    exact (hstored.2 x hstart hend).symm
  | some inode =>
    rw [hinode] at hstored
    exact hstored.2 x hstart hend

theorem read_open {n : Nat} (h : Refines files fs flat) (hm : files[i]? = some m)
    (hstart : m.startOffset ≤ x) (hend : x + n ≤ m.endOffset) (ho : m.opened = true) :
    ∃ inode, fs m.path = some inode ∧ x - m.startOffset + n ≤ inode.len ∧
      inode.readAt (x - m.startOffset) n = some (flat.read x n) := by
  obtain ⟨inode, hinode⟩ := (h.stored i m hm).exists_inode ho
  have hstored := h.stored i m hm
  rw [hinode] at hstored
  have hlen : x - m.startOffset + n ≤ inode.len := by
    rw [hstored.1]
    omega
  refine ⟨inode, hinode, hlen, ?_⟩
  rw [Inode.readAt, if_pos hlen]
  refine congrArg some (List.map_congr_left fun j hj => ?_)
  have hj := List.mem_range.mp hj
  have hlow : m.startOffset ≤ x + j := by omega
  have hhigh : x + j < m.endOffset := by omega
  rw [FlatDisk.shown, if_pos ((h.live_iff hm hlow hhigh).mpr ho), ← hstored.2 _ hlow hhigh]
  congr 1
  omega

theorem read_closed {n : Nat} (h : Refines files fs flat) (hm : files[i]? = some m)
    (hstart : m.startOffset ≤ x) (hend : x + n ≤ m.endOffset) (ho : m.opened = false) :
    flat.read x n = List.replicate n 0 := by
  refine List.eq_replicate_iff.mpr ⟨FlatDisk.length_read flat x n, fun byte hbyte => ?_⟩
  obtain ⟨j, hj, rfl⟩ := List.mem_map.mp hbyte
  have hj := List.mem_range.mp hj
  refine if_neg fun hlive => ?_
  have hopen := (h.live_iff hm (by omega) (by omega)).mp hlive
  exact absurd (ho.symm.trans hopen) nofun

end Refines

section Write

variable {torrent : List TorrentFile} {files files₀ : List FileMapping} {fs fs₀ : FileStore Path}
  {flat : FlatDisk} {start done : Nat} {data : List UInt8}
  {body : Nat → FileMapping → (fileOffset done n : Nat) → List FileMapping × FileStore Path →
    Bool × List FileMapping × FileStore Path}

def WritesWhole (data : List UInt8)
    (body : Nat → FileMapping → (fileOffset done n : Nat) → List FileMapping × FileStore Path →
      Bool × List FileMapping × FileStore Path) : Prop :=
  ∀ idx m fileOffset done n files fs,
    (m.opened = true → ∃ inode, fs m.path = some inode ∧ fileOffset ≤ inode.len) →
    body idx m fileOffset done n (files, fs) = (true,
      if m.opened then (files.set idx { m with dirty := true }, fs.set m.path
        ((fs m.path).map fun inode => inode.writeAt fileOffset ((data.drop done).take n)))
      else (files, fs))

theorem StandardDisk.writesWhole (os : Nat → Transfer) (data : List UInt8) :
    WritesWhole data (StandardDisk.writeBody os data) := by
  intro idx m fileOffset done n files fs hfile
  cases ho : m.opened with
  | false => simp only [StandardDisk.writeBody, ho, Bool.false_eq_true, if_false]
  | true =>
    obtain ⟨inode, hinode, hle⟩ := hfile ho
    have hslice : ((data.drop done).take n).length < n + 1 := by
      rw [List.length_take]
      omega
    simp only [StandardDisk.writeBody, ho, if_true, hinode, Option.bind_some, Option.map_some,
      Inode.writeAll_eq hle hslice]

theorem UringDisk.writesWhole (os : Nat → Transfer) (data : List UInt8) :
    WritesWhole data (UringDisk.writeBody os data) := by
  rw [UringDisk.writeBody_eq]
  exact StandardDisk.writesWhole os data

/-- Where a write stands after `done` bytes.  It goes the way of a write that cannot fail. -/
structure Writing (flat : FlatDisk) (start : Nat) (data : List UInt8) (files₀ : List FileMapping)
    (fs₀ : FileStore Path) (done : Nat) (s : List FileMapping × FileStore Path) : Prop where
  inside : done = 0 ∨ start + done ≤ flat.total
  plans : s.1.map FileMapping.plan = files₀.map FileMapping.plan
  refines : Refines s.1 s.2 (flat.write start (data.take done))
  loop : ∃ fuel, data.length ≤ fuel + done ∧
    Disk.writeLoop (fun _ => 0) start data (data.length + 1) none 0 files₀ fs₀ =
      Disk.writeLoop (fun _ => 0) start data (fuel + 1) none done s.1 s.2

theorem Writing.round (hbody : WritesWhole data body) {s s' : List FileMapping × FileStore Path}
    (h : Writing flat start data files₀ fs₀ done s) (hdone : done < data.length) {idx n : Nat}
    {m : FileMapping} (hfound : locate s.1 (start + done) = some (idx, m))
    (hle : done + n ≤ data.length) (hend : start + done + n ≤ m.endOffset)
    (hn : n = min (data.length - done) (m.endOffset - (start + done)))
    (hround : body idx m (start + done - m.startOffset) done n s = (true, s')) :
    Writing flat start data files₀ fs₀ (done + n) s' := by
  obtain ⟨hm, hstart, hstop⟩ := locate_bounds hfound
  obtain ⟨fuel, hfuel, hloop⟩ := h.loop
  obtain ⟨fuel, rfl⟩ : ∃ k, fuel = k + 1 := ⟨fuel - 1, by omega⟩
  have hmore : ¬ data.length ≤ done := Nat.not_le.mpr hdone
  have hfront : (data.take done).length = done := List.length_take_of_le hdone.le
  have hslice : ((data.drop done).take n).length = n := by
    rw [List.length_take, List.length_drop]
    omega
  have hwrite : (flat.write start (data.take done)).write (start + done) ((data.drop done).take n) =
      flat.write start (data.take (done + n)) := by
    rw [List.take_add, ← FlatDisk.write_write, hfront]
  rw [show s = (s.1, s.2) from rfl, hbody _ _ _ _ _ _ _ (h.refines.reaches hm hstop),
    Prod.mk.injEq] at hround
  obtain ⟨-, rfl⟩ := hround
  have htotal := h.refines.end_le_total hm
  refine ⟨.inr ?_, ?_, ?_, fuel, by omega, ?_⟩
  · rw [← Nat.add_assoc]
    exact hend.trans htotal
  · split
    · have hplans : (s.1.set idx { m with dirty := true }).map FileMapping.plan =
          s.1.map FileMapping.plan := map_plan_set hm rfl
      exact hplans.trans h.plans
    · exact h.plans
  · rw [← hwrite]
    have hend' : start + done + ((data.drop done).take n).length ≤ m.endOffset := by
      rw [hslice]
      exact hend
    by_cases ho : m.opened = true
    · rw [if_pos ho]
      exact h.refines.write_open hm hstart hend' ho
    · rw [if_neg ho, h.refines.write_closed hm hstart hend' (Bool.eq_false_iff.mpr ho)]
      exact h.refines
  · rw [hloop]
    cases ho : m.opened with
    | true => simp only [Disk.writeLoop, hmore, if_false, hfound, ho, if_true, ← hn, Nat.sub_zero,
        List.take_take, Nat.min_self]
    | false => simp only [Disk.writeLoop, hmore, if_false, hfound, ho, Bool.false_eq_true, ← hn]

/-- The bytes that are left when a write has come to the end of the torrent are not stored. -/
theorem Writing.refines_all {s : List FileMapping × FileStore Path}
    (h : Writing flat start data files₀ fs₀ done s) (hdone : done ≤ data.length)
    (hbehind : flat.total ≤ start + done) : Refines s.1 s.2 (flat.write start data) := by
  have hbehind : (flat.write start (data.take done)).total ≤ start + done := hbehind
  have hdead : (flat.write start (data.take done)).write (start + done) (data.drop done) =
      flat.write start (data.take done) := FlatDisk.write_of_total_le hbehind _
  have hrest := FlatDisk.write_write flat start (data.take done) (data.drop done)
  rw [List.take_append_drop, List.length_take_of_le hdone, hdead] at hrest
  rw [← hrest]
  exact h.refines

theorem write_refines (hbody : WritesWhole data body) (h : Refines files fs flat)
    (hstart : start < 2 ^ 64) (htotal : flat.total < 2 ^ 64) : ∃ files' fs',
      accessLoop Prod.fst body start data.length (data.length + 1) 0 (files, fs) =
        (flat.fault start data.length, files', fs') ∧
      Disk.writeLoop (fun _ => 0) start data (data.length + 1) none 0 files fs =
        ((flat.fault start data.length).isNone, files', fs') ∧
      files'.map FileMapping.plan = files.map FileMapping.plan ∧
      Refines files' fs' (flat.write start data) := by
  have hfirst : Writing flat start data files fs 0 (files, fs) :=
    ⟨.inl rfl, rfl, by rw [List.take_zero, FlatDisk.write_nil]; exact h, data.length,
      Nat.le_refl _, rfl⟩
  have hends : AccessEnds Prod.fst body start data.length (Writing flat start data files fs)
      (accessLoop Prod.fst body start data.length (data.length + 1) 0 (files, fs)) :=
    accessLoop_ends (fun done s hs => by have := hs.inside; omega)
      (fun done s idx m hs hdone hfound n s' _ hle hend hn hround =>
        hs.round hbody hdone hfound hle hend hn hround)
      hfirst (Nat.zero_le _) (Nat.lt_succ_self _)
  generalize accessLoop Prod.fst body start data.length (data.length + 1) 0 (files, fs) = result
    at hends ⊢
  cases hends with
  | @complete done s hs hdone =>
    obtain ⟨fuel, -, hloop⟩ := hs.loop
    have hfault : flat.fault start data.length = none := if_pos (hdone ▸ hs.inside)
    refine ⟨s.1, s.2, by rw [hfault], ?_, hs.plans, ?_⟩
    · rw [hloop, hfault, Disk.writeLoop, if_pos (Nat.le_of_eq hdone.symm)]
      rfl
    · have hall := hs.refines
      rwa [hdone, List.take_length] at hall
  | @outside done s hs hdone hnone =>
    obtain ⟨fuel, -, hloop⟩ := hs.loop
    have hbehind : flat.total ≤ start + done := hs.refines.total_le_of_locate hnone
    have hfault : flat.fault start data.length = some .outOfBounds := if_neg (by omega)
    refine ⟨s.1, s.2, by rw [hfault], ?_, hs.plans, hs.refines_all hdone.le hbehind⟩
    rw [hloop, hfault]
    simp only [Disk.writeLoop, Nat.not_le.mpr hdone, if_false, hnone]
    rfl
  | @failed done idx m s s' hs hdone hfound hround =>
    obtain ⟨hm, -, hhigh⟩ := locate_bounds hfound
    rw [show s = (s.1, s.2) from rfl,
      hbody _ _ _ _ _ _ _ (hs.refines.reaches hm hhigh)] at hround
    cases hround

end Write

section Read

variable {files : List FileMapping} {fs : FileStore Path} {flat : FlatDisk} {start len done : Nat}
  {frame : Nat → List UInt8 → List UInt8}
  {body : Nat → FileMapping → (fileOffset done n : Nat) → List UInt8 → Bool × List UInt8}

def ReadsWhole (files : List FileMapping) (flat : FlatDisk) (start len : Nat)
    (frame : Nat → List UInt8 → List UInt8)
    (body : Nat → FileMapping → (fileOffset done n : Nat) → List UInt8 → Bool × List UInt8) :
    Prop :=
  ∀ idx m done n, files[idx]? = some m → m.startOffset ≤ start + done →
    start + done + n ≤ m.endOffset → done + n ≤ len →
    body idx m (start + done - m.startOffset) done n (frame done (flat.read start done)) =
      (true, frame (done + n) (flat.read start (done + n)))

structure Reading (files : List FileMapping) (fs : FileStore Path) (flat : FlatDisk)
    (start len : Nat) (frame : Nat → List UInt8 → List UInt8) (done : Nat) (buffer : List UInt8) :
    Prop where
  inside : done = 0 ∨ start + done ≤ flat.total
  buffer_eq : buffer = frame done (flat.read start done)
  loop : ∃ fuel, len ≤ fuel + done ∧ Disk.readLoop Io.calm files fs start len (len + 1) [] =
    Disk.readLoop Io.calm files fs start len (fuel + 1) (flat.read start done)

theorem Reading.round (h : Refines files fs flat)
    (hbody : ReadsWhole files flat start len frame body)
    {buffer buffer' : List UInt8} (hr : Reading files fs flat start len frame done buffer)
    (hdone : done < len) {idx n : Nat} {m : FileMapping}
    (hfound : locate files (start + done) = some (idx, m)) (hle : done + n ≤ len)
    (hend : start + done + n ≤ m.endOffset)
    (hn : n = min (len - done) (m.endOffset - (start + done)))
    (hround : body idx m (start + done - m.startOffset) done n buffer = (true, buffer')) :
    Reading files fs flat start len frame (done + n) buffer' := by
  obtain ⟨hm, hstart, hstop⟩ := locate_bounds hfound
  obtain ⟨fuel, hfuel, hloop⟩ := hr.loop
  obtain ⟨fuel, rfl⟩ : ∃ k, fuel = k + 1 := ⟨fuel - 1, by omega⟩
  have hmore : ¬ len ≤ done := Nat.not_le.mpr hdone
  have htotal := h.end_le_total hm
  rw [hr.buffer_eq, hbody idx m done n hm hstart hend hle, Prod.mk.injEq] at hround
  obtain ⟨-, rfl⟩ := hround
  refine ⟨.inr (by omega), rfl, fuel, by omega, ?_⟩
  rw [hloop, FlatDisk.read_append]
  cases ho : m.opened with
  | true =>
    obtain ⟨inode, hinode, -, hread⟩ := h.read_open hm hstart hend ho
    simp only [Disk.readLoop, FlatDisk.length_read, hmore, if_false, hfound, ho, if_true, ← hn,
      hinode, Option.bind_some, hread]
    rfl
  | false =>
    simp only [Disk.readLoop, FlatDisk.length_read, hmore, if_false, hfound, ho,
      Bool.false_eq_true, ← hn, h.read_closed hm hstart hend ho]

theorem read_refines (h : Refines files fs flat)
    (hbody : ReadsWhole files flat start len frame body)
    (hframe : ∀ bytes, frame len bytes = bytes) (hstart : start < 2 ^ 64)
    (htotal : flat.total < 2 ^ 64) : ∃ buffer,
      accessLoop (fun _ => files) body start len (len + 1) 0 (frame 0 []) =
        (flat.fault start len, buffer) ∧
      Disk.readLoop Io.calm files fs start len (len + 1) [] =
        (if flat.fault start len = none then some buffer else none) ∧
      (flat.fault start len = none → buffer = flat.read start len) := by
  have hfirst : Reading files fs flat start len frame 0 (frame 0 []) :=
    ⟨.inl rfl, rfl, len, Nat.le_refl _, rfl⟩
  have hends : AccessEnds (fun _ => files) body start len (Reading files fs flat start len frame)
      (accessLoop (fun _ => files) body start len (len + 1) 0 (frame 0 [])) :=
    accessLoop_ends (fun done s hs => by have := hs.inside; omega)
      (fun done s idx m hs hdone hfound n s' _ hle hend hn hround =>
        hs.round h hbody hdone hfound hle hend hn hround)
      hfirst (Nat.zero_le _) (Nat.lt_succ_self _)
  generalize accessLoop (fun _ => files) body start len (len + 1) 0 (frame 0 []) = result
    at hends ⊢
  cases hends with
  | @complete done buffer hr hdone =>
    obtain ⟨fuel, -, hloop⟩ := hr.loop
    have hfault : flat.fault start len = none := if_pos (hdone ▸ hr.inside)
    have hbuffer : buffer = flat.read start len := by rw [hr.buffer_eq, hdone, hframe]
    refine ⟨buffer, by rw [hfault], ?_, fun _ => hbuffer⟩
    rw [hloop, if_pos hfault, hbuffer, hdone, Disk.readLoop, FlatDisk.length_read,
      if_pos (Nat.le_refl _)]
  | @outside done buffer hr hdone hnone =>
    obtain ⟨fuel, -, hloop⟩ := hr.loop
    have hbehind : flat.total ≤ start + done := h.total_le_of_locate hnone
    have hfault : flat.fault start len = some .outOfBounds := if_neg (by omega)
    refine ⟨buffer, by rw [hfault], ?_, fun hnofault => ?_⟩
    · rw [hloop, hfault, if_neg (Option.some_ne_none _)]
      simp only [Disk.readLoop, FlatDisk.length_read, Nat.not_le.mpr hdone, if_false, hnone]
    · rw [hfault] at hnofault
      cases hnofault
  | @failed done idx m buffer buffer' hr hdone hfound hround =>
    obtain ⟨hm, hlow, hhigh⟩ := locate_bounds hfound
    rw [hr.buffer_eq, hbody idx m done _ hm hlow (by omega) (by omega)] at hround
    cases hround

theorem StandardDisk.readsWhole (os : Nat → Transfer) (h : Refines files fs flat) :
    ReadsWhole files flat start len (fun done bytes => bytes ++ List.replicate (len - done) 0)
      (StandardDisk.readBody os fs) := by
  intro idx m done n hm hstart hend hle
  have hlength : (flat.read start done).length = done := FlatDisk.length_read ..
  have hsplit : List.replicate (len - done) (0 : UInt8) =
      List.replicate n 0 ++ List.replicate (len - (done + n)) 0 := by
    rw [List.replicate_append_replicate]
    congr 1
    omega
  rw [FlatDisk.read_append]
  cases ho : m.opened with
  | true =>
    obtain ⟨inode, hinode, hlen, hread⟩ := h.read_open hm hstart hend ho
    have hdrop : (flat.read start done ++ List.replicate (len - done) 0).drop (done + n) =
        List.replicate (len - (done + n)) 0 := by
      rw [List.drop_append, hlength, List.drop_of_length_le (by omega), List.nil_append,
        Nat.add_sub_cancel_left, List.drop_replicate, Nat.sub_sub]
    simp only [StandardDisk.readBody, ho, if_true, hinode, Option.bind_some,
      Inode.readExact_eq hlen (Nat.lt_succ_self n), hread, hdrop]
    rw [List.take_left' hlength]
  | false =>
    simp only [StandardDisk.readBody, ho, Bool.false_eq_true, if_false]
    rw [h.read_closed hm hstart hend ho, hsplit, List.append_assoc]

theorem UringDisk.readsWhole (os : Nat → Transfer) (h : Refines files fs flat) :
    ReadsWhole files flat start len (fun _ bytes => bytes) (UringDisk.readBody os fs) := by
  intro idx m done n hm hstart hend hle
  rw [FlatDisk.read_append]
  cases ho : m.opened with
  | true =>
    obtain ⟨inode, hinode, hlen, hread⟩ := h.read_open hm hstart hend ho
    simp only [UringDisk.readBody, ho, if_true, hinode, Option.bind_some,
      UringDisk.readFully_eq_readExact (Nat.zero_le n) List.length_replicate, Nat.add_zero,
      Nat.sub_zero, Inode.readExact_eq hlen (Nat.lt_succ_self n), hread, Option.map_some,
      List.take_zero, List.nil_append]
  | false =>
    simp only [UringDisk.readBody, ho, Bool.false_eq_true, if_false,
      h.read_closed hm hstart hend ho]

end Read

section Walk

variable {files : List FileMapping} {fs : FileStore Path} {flat flat' : FlatDisk} {i : Nat}
  {m m' : FileMapping} {o o' : Option Inode} {backend : Backend} {io : Io}
  {visit visit' : Nat → FileMapping → Option Inode → Bool × FileMapping × Option Inode}

theorem FlatDisk.stored_sync : flat.Stored m (o.map Inode.sync) ↔ flat.Stored m o := by
  cases o <;> exact Iff.rfl

theorem openPreallocated_none {length : Nat}
    (h : openPreallocated io i length none = (true, o')) :
    ∃ inode, o' = some inode ∧ inode.len = length ∧ ∀ y, inode.content y = 0 := by
  simp only [openPreallocated, Option.getD_none] at h
  split at h
  · cases h
  · split at h
    · cases h
    · split at h
      case isTrue =>
        cases h
        have hzero (y : Nat) : (Inode.empty.setLen length).content y = 0 := by
          simp only [Inode.setLen]
          exact ite_self (0 : UInt8)
        exact ⟨_, rfl, rfl, hzero⟩
      case isFalse hlen =>
        cases h
        exact ⟨_, rfl, Decidable.not_not.mp hlen, fun _ => rfl⟩

theorem FlatDisk.Stored.openFile (h : flat.Stored m o)
    (hopen : openFile backend io i m o = (true, m', o')) :
    m'.opened = true ∧ flat.Stored m' o' := by
  obtain ⟨rfl, hsized⟩ := Disk.openFile_ok hopen
  refine ⟨rfl, ?_⟩
  cases o with
  | none =>
    have hcreated : openPreallocated io i (m.endOffset - m.startOffset) none = (true, o') := by
      unfold Tortor.Core.openFile at hopen
      split at hopen
      · cases hopen
      · split at hopen
        · cases hopen
        · cases hopen
          assumption
    obtain ⟨inode, rfl, hlen, hzero⟩ := openPreallocated_none hcreated
    exact ⟨hlen, fun x hx hx' => (hzero _).trans (h.2 x hx hx').symm⟩
  | some inode =>
    rw [hsized.same (congrArg some h.1)]
    exact h.congr rfl nofun fun _ _ _ => rfl

theorem Refines.walk (h : Refines files fs flat)
    (hplan : ∀ i m o, (visit i m o).2.1.plan = m.plan) (htorrent : flat'.torrent = flat.torrent)
    (hend : (walkFiles visit 0 files fs).1 = false → flat' = flat)
    (hvisit : ∀ i m o ok m' o', m.opened = flat.selected i → flat.Stored m o →
      visit i m o = (ok, m', o') → (ok = false → (walkFiles visit 0 files fs).1 = false) →
      m'.opened = flat'.selected i ∧ flat'.Stored m' o') :
    Refines (walkFiles visit 0 files fs).2.1 (walkFiles visit 0 files fs).2.2 flat' := by
  have hpaths : (files.map (·.path)).Nodup := by
    have hpaths := h.laid.paths
    rwa [List.map_map] at hpaths
  have hplans := Disk.map_walkFiles hplan 0 files fs
  obtain ⟨-, stop, hstop, hok, hat⟩ := @Disk.walkFiles_spec visit files 0 fs
  have hlength := congrArg List.length hplans
  rw [List.length_map, List.length_map] at hlength
  have hfile (i : Nat) (m' : FileMapping)
      (hm' : (walkFiles visit 0 files fs).2.1[i]? = some m') :
      m'.opened = flat'.selected i ∧
        flat'.Stored m' ((walkFiles visit 0 files fs).2.2 m'.path) := by
    have hlt : i < files.length := hlength ▸ (List.getElem?_eq_some_iff.mp hm').1
    obtain ⟨m, hm⟩ : ∃ m, files[i]? = some m := ⟨_, List.getElem?_eq_getElem hlt⟩
    obtain ⟨n, o, o', hn, hcase, hinode⟩ := hat i m hm
    obtain ⟨rfl, rfl⟩ := hinode hpaths
    cases hm'.symm.trans hn
    have hpath : m'.path = m.path := by
      have hsame := congrArg (fun l => l[i]?) hplans
      simp only [List.getElem?_map, hm, hm', Option.map_some, Option.some.injEq] at hsame
      exact congrArg FilePlan.path hsame
    rw [hpath]
    rw [Nat.zero_add] at hcase
    have hbad (hi : stop ≤ i) : (walkFiles visit 0 files fs).1 = false := by
      rw [Bool.eq_false_iff, ne_eq, hok]
      omega
    rcases hcase with ⟨-, hv⟩ | ⟨hi, hv⟩ | ⟨hi, rfl, hfs⟩
    · exact hvisit i m _ _ _ _ (h.opened i m hm) (h.stored i m hm) hv nofun
    · exact hvisit i m _ _ _ _ (h.opened i m hm) (h.stored i m hm) hv
        fun _ => hbad (Nat.le_of_eq hi.symm)
    · rw [hfs, hend (hbad (Nat.le_of_lt hi))]
      exact ⟨h.opened i m' hm, h.stored i m' hm⟩
  exact ⟨by rw [htorrent, hplans]; exact h.laid, fun i m hm => (hfile i m hm).1,
    fun i m hm => (hfile i m hm).2⟩

theorem Refines.flush (h : Refines files fs flat) (io : Io) :
    Refines (walkFiles (Disk.flushVisit io) 0 files fs).2.1
      (walkFiles (Disk.flushVisit io) 0 files fs).2.2 flat := by
  refine h.walk (Disk.plan_flushVisit io) rfl (fun _ => rfl)
    fun i m o ok m' o' ho hstored hv _ => ?_
  have hclean : flat.Stored { m with dirty := false } o :=
    hstored.congr rfl hstored.closed fun _ _ _ => rfl
  simp only [Disk.flushVisit] at hv
  split at hv
  · cases hv
    exact ⟨ho, hstored⟩
  · split at hv
    · split at hv
      · cases hv
        exact ⟨ho, hstored⟩
      · cases hv
        exact ⟨ho, FlatDisk.stored_sync.mpr hclean⟩
    · cases hv
      exact ⟨ho, hclean⟩

theorem Refines.setSelection (h : Refines files fs flat) {selected : List Bool}
    (hok : (walkFiles (Disk.selectionVisit backend io selected) 0 files fs).1 = true) :
    Refines (walkFiles (Disk.selectionVisit backend io selected) 0 files fs).2.1
      (walkFiles (Disk.selectionVisit backend io selected) 0 files fs).2.2
      (flat.select (some selected)) := by
  refine h.walk (Disk.plan_selectionVisit backend io selected) rfl
    (fun hbad => absurd (hok.symm.trans hbad) nofun) fun i m o ok m' o' _ hstored hv hgood => ?_
  cases ok with
  | false => exact absurd (hok.symm.trans (hgood rfl)) nofun
  | true =>
    refine ⟨(Disk.selectionVisit_ok hv).1, ?_⟩
    simp only [Disk.selectionVisit] at hv
    split at hv
    case h_1 => exact (hstored.openFile hv).2
    case h_2 =>
      obtain ⟨rfl, rfl⟩ := Disk.releaseFile_ok hv
      exact FlatDisk.stored_sync.mpr (hstored.congr rfl (fun _ => rfl) fun _ _ _ => rfl)
    case h_3 =>
      cases hv
      exact hstored.congr rfl hstored.closed fun _ _ _ => rfl

theorem Refines.init (h : Refines files fs flat) (hclosed : ∀ i, flat.selected i = false)
    {selected : Option (List Bool)}
    (hok : (walkFiles (Disk.initVisit backend io selected) 0 files fs).1 = true) :
    Refines (walkFiles (Disk.initVisit backend io selected) 0 files fs).2.1
      (walkFiles (Disk.initVisit backend io selected) 0 files fs).2.2 (flat.select selected) := by
  refine h.walk (Disk.plan_initVisit backend io selected) rfl
    (fun hbad => absurd (hok.symm.trans hbad) nofun) fun i m o ok m' o' ho hstored hv hgood => ?_
  cases ok with
  | false => exact absurd (hok.symm.trans (hgood rfl)) nofun
  | true =>
    refine ⟨(Disk.initVisit_ok (ho.trans (hclosed i)) hv).1, ?_⟩
    simp only [Disk.initVisit] at hv
    split at hv
    · exact (hstored.openFile hv).2
    · cases hv
      exact hstored.congr rfl hstored.closed fun _ _ _ => rfl

theorem walkFiles_agree (hagree : ∀ i m o r r', visit i m o = (true, r) →
    visit' i m o = (true, r') → r = r') {index : Nat}
    (h : (walkFiles visit index files fs).1 = true)
    (h' : (walkFiles visit' index files fs).1 = true) :
    walkFiles visit index files fs = walkFiles visit' index files fs := by
  induction files generalizing index fs with
  | nil => rfl
  | cons m rest ih =>
    rcases hv : visit index m (fs m.path) with ⟨_ | _, m₁, o₁⟩
    · simp only [walkFiles, hv] at h
      cases h
    rcases hv' : visit' index m (fs m.path) with ⟨_ | _, m₂, o₂⟩
    · simp only [walkFiles, hv'] at h'
      cases h'
    cases hagree _ _ _ _ _ hv hv'
    simp only [walkFiles, hv, hv'] at h h' ⊢
    rw [ih h h']

theorem openFile_agree {backend' : Backend} {r r' : FileMapping × Option Inode}
    (h : openFile backend io i m o = (true, r)) (h' : openFile backend' io i m o = (true, r')) :
    r = r' := by
  unfold openFile at h h'
  split at h
  · cases h
  · rename_i inode hopen
    simp only [hopen] at h'
    split at h
    · cases h
    · split at h'
      · cases h'
      · cases h
        cases h'
        rfl

theorem selectionVisit_agree {backend' : Backend} {selected : List Bool}
    {r r' : FileMapping × Option Inode}
    (h : Disk.selectionVisit backend io selected i m o = (true, r))
    (h' : Disk.selectionVisit backend' io selected i m o = (true, r')) : r = r' := by
  unfold Disk.selectionVisit at h h'
  split at h
  case h_1 hkeep ho =>
    rw [hkeep, ho] at h'
    exact openFile_agree h h'
  case h_2 hkeep ho =>
    rw [hkeep, ho] at h'
    obtain ⟨hm, ho⟩ := Disk.releaseFile_ok h
    obtain ⟨hm', ho'⟩ := Disk.releaseFile_ok h'
    exact Prod.ext (hm.trans hm'.symm) (ho.trans ho'.symm)
  case h_3 hother hother' =>
    split at h'
    case h_1 hkeep ho => exact absurd ho (hother hkeep)
    case h_2 hkeep ho => exact absurd ho (hother' hkeep)
    case h_3 =>
      cases h
      cases h'
      rfl

theorem initVisit_agree {backend' : Backend} {selected : Option (List Bool)}
    {r r' : FileMapping × Option Inode}
    (h : Disk.initVisit backend io selected i m o = (true, r))
    (h' : Disk.initVisit backend' io selected i m o = (true, r')) : r = r' := by
  unfold Disk.initVisit at h h'
  split at h
  case isTrue hselected =>
    rw [if_pos hselected] at h'
    exact openFile_agree h h'
  case isFalse hselected =>
    rw [if_neg hselected] at h'
    cases h
    cases h'
    rfl

end Walk

end Tortor.Core
