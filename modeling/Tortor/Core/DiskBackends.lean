import Tortor.Core.FlatDisk

/-! `StandardDisk` and `UringDisk` under the same requests. -/

namespace Tortor.Core

open Tortor.Lib

/-- A request and what the system does for it.  How much of a read or a write gets through at a time
is up to each backend. -/
structure DiskTurn where
  op : DiskOp
  io : Io
  standard : Nat → Transfer
  uring : Nat → Transfer

def Disk.serve (self : Disk) (fs : FileStore Path)
    (writePiece : Nat → List UInt8 → Option Fault × Disk × FileStore Path)
    (readPiece : Nat → Nat → Nat → Except Fault (List UInt8)) (io : Io) :
    DiskOp → DiskAnswer × Disk × FileStore Path
  | .writePiece pieceIndex data =>
    let (fault, disk, fs) := writePiece pieceIndex.toNat data
    (.written fault, disk, fs)
  | .readPiece pieceIndex offset len =>
    (.bytes (readPiece pieceIndex.toNat offset.toNat len.toNat), self, fs)
  | .flush =>
    let (ok, disk, fs) := self.flush io fs
    (.flushed ok, disk, fs)
  | .setSelection selected =>
    let (ok, disk, fs) := self.setSelection io selected fs
    (.selected ok, disk, fs)

def StandardDisk.serve (turn : DiskTurn) (s : Disk × FileStore Path) :
    DiskAnswer × Disk × FileStore Path :=
  s.1.serve s.2 (fun pieceIndex data => writePiece turn.standard s.1 pieceIndex data s.2)
    (fun pieceIndex offset len => readPiece turn.standard s.1 pieceIndex offset len s.2)
    turn.io turn.op

def UringDisk.serve (turn : DiskTurn) (s : Disk × FileStore Path) :
    DiskAnswer × Disk × FileStore Path :=
  s.1.serve s.2 (fun pieceIndex data => writePiece turn.uring s.1 pieceIndex data s.2)
    (fun pieceIndex offset len => readPiece turn.uring s.1 pieceIndex offset len s.2)
    turn.io turn.op

def serveAll (serve : DiskTurn → Disk × FileStore Path → DiskAnswer × Disk × FileStore Path) :
    List DiskTurn → Disk × FileStore Path → List DiskAnswer × Disk × FileStore Path
  | [], s => ([], s)
  | turn :: turns, s =>
    let (answer, s) := serve turn s
    let (answers, s) := serveAll serve turns s
    (answer :: answers, s)

section Access

variable {d : Disk} {fs : FileStore Path} {flat : FlatDisk} {pieceIndex offset len : Nat}

/-- A write that gets its bytes through comes to one that cannot fail half way. -/
theorem writePieceWith_refines {data : List UInt8}
    {body : Nat → FileMapping → (fileOffset done n : Nat) → List FileMapping × FileStore Path →
      Bool × List FileMapping × FileStore Path}
    (hbody : WritesWhole data body) (h : Refines d.files fs flat) (htotal : flat.total < 2 ^ 64)
    (hpiece : pieceIndex < 2 ^ 32) (hlength : d.pieceLength < 2 ^ 32) :
    writePieceWith body d pieceIndex data fs =
        (flat.fault (pieceIndex * d.pieceLength) data.length,
          (d.writePiece Io.calm pieceIndex data fs).2) ∧
      (d.writePiece Io.calm pieceIndex data fs).2.1.files.map FileMapping.plan =
        d.files.map FileMapping.plan ∧
      Refines (d.writePiece Io.calm pieceIndex data fs).2.1.files
        (d.writePiece Io.calm pieceIndex data fs).2.2
        (flat.write (pieceIndex * d.pieceLength) data) := by
  have hoffset : Checked.mul 64 pieceIndex d.pieceLength = some (pieceIndex * d.pieceLength) :=
    Checked.mul_of_words hpiece hlength
  have hstart : pieceIndex * d.pieceLength < 2 ^ 64 := by
    have hproduct : pieceIndex * d.pieceLength ≤ (2 ^ 32 - 1) * (2 ^ 32 - 1) :=
      Nat.mul_le_mul (by omega) (by omega)
    omega
  obtain ⟨files', fs', haccess, hloop, hplans, hrefines⟩ := write_refines hbody h hstart htotal
  simp only [writePieceWith, hoffset, haccess, Disk.writePiece, Io.lostBy_calm,
    show Io.calm.writeBudget = none from rfl, hloop]
  exact ⟨trivial, hplans, hrefines⟩

theorem readPieceWith_refines {buffer : List UInt8}
    {body : Nat → FileMapping → (fileOffset done n : Nat) → List UInt8 → Bool × List UInt8}
    {frame : Nat → List UInt8 → List UInt8} (hbuffer : buffer = frame 0 [])
    (hframe : ∀ bytes, frame len bytes = bytes)
    (hbody : ReadsWhole d.files flat (pieceIndex * d.pieceLength + offset) len frame body)
    (h : Refines d.files fs flat) (htotal : flat.total < 2 ^ 64)
    (hpiece : pieceIndex < 2 ^ 32) (hlength : d.pieceLength < 2 ^ 32) (hoffset : offset < 2 ^ 32) :
    readPieceWith buffer body d pieceIndex offset len =
        (match flat.fault (pieceIndex * d.pieceLength + offset) len with
          | none => .ok (flat.read (pieceIndex * d.pieceLength + offset) len)
          | some fault => .error fault) ∧
      d.readPiece Io.calm pieceIndex offset len fs =
        (readPieceWith buffer body d pieceIndex offset len).toOption := by
  have hpieceOffset : Checked.mul 64 pieceIndex d.pieceLength = some (pieceIndex * d.pieceLength) :=
    Checked.mul_of_words hpiece hlength
  have hstart : pieceIndex * d.pieceLength + offset < 2 ^ 64 := by
    have hproduct : pieceIndex * d.pieceLength ≤ (2 ^ 32 - 1) * (2 ^ 32 - 1) :=
      Nat.mul_le_mul (by omega) (by omega)
    omega
  obtain ⟨bytes, haccess, hloop, hbytes⟩ := read_refines h hbody hframe hstart htotal
  rw [← hbuffer] at haccess
  simp only [readPieceWith, hpieceOffset, Option.bind_some, Checked.add_of_lt hstart, haccess,
    Disk.readPiece, hloop]
  cases hfault : flat.fault (pieceIndex * d.pieceLength + offset) len with
  | none =>
    rw [hbytes hfault]
    exact ⟨rfl, rfl⟩
  | some fault => exact ⟨rfl, rfl⟩

theorem StandardDisk.writePiece_refines (d : Disk) (os : Nat → Transfer) (data : List UInt8)
    (h : Refines d.files fs flat) (htotal : flat.total < 2 ^ 64) (hpiece : pieceIndex < 2 ^ 32)
    (hlength : d.pieceLength < 2 ^ 32) : StandardDisk.writePiece os d pieceIndex data fs =
        (flat.fault (pieceIndex * d.pieceLength) data.length,
          (d.writePiece Io.calm pieceIndex data fs).2) ∧
      (d.writePiece Io.calm pieceIndex data fs).2.1.files.map FileMapping.plan =
        d.files.map FileMapping.plan ∧
      Refines (d.writePiece Io.calm pieceIndex data fs).2.1.files
        (d.writePiece Io.calm pieceIndex data fs).2.2
        (flat.write (pieceIndex * d.pieceLength) data) :=
  writePieceWith_refines (StandardDisk.writesWhole os data) h htotal hpiece hlength

theorem UringDisk.writePiece_refines (d : Disk) (os : Nat → Transfer) (data : List UInt8)
    (h : Refines d.files fs flat) (htotal : flat.total < 2 ^ 64) (hpiece : pieceIndex < 2 ^ 32)
    (hlength : d.pieceLength < 2 ^ 32) : UringDisk.writePiece os d pieceIndex data fs =
        (flat.fault (pieceIndex * d.pieceLength) data.length,
          (d.writePiece Io.calm pieceIndex data fs).2) ∧
      (d.writePiece Io.calm pieceIndex data fs).2.1.files.map FileMapping.plan =
        d.files.map FileMapping.plan ∧
      Refines (d.writePiece Io.calm pieceIndex data fs).2.1.files
        (d.writePiece Io.calm pieceIndex data fs).2.2
        (flat.write (pieceIndex * d.pieceLength) data) :=
  writePieceWith_refines (UringDisk.writesWhole os data) h htotal hpiece hlength

theorem StandardDisk.readPiece_refines (d : Disk) (os : Nat → Transfer) (len : Nat)
    (h : Refines d.files fs flat) (htotal : flat.total < 2 ^ 64) (hpiece : pieceIndex < 2 ^ 32)
    (hlength : d.pieceLength < 2 ^ 32) (hoffset : offset < 2 ^ 32) :
    StandardDisk.readPiece os d pieceIndex offset len fs =
        (match flat.fault (pieceIndex * d.pieceLength + offset) len with
          | none => .ok (flat.read (pieceIndex * d.pieceLength + offset) len)
          | some fault => .error fault) ∧
      d.readPiece Io.calm pieceIndex offset len fs =
        (StandardDisk.readPiece os d pieceIndex offset len fs).toOption := by
  have hframe (bytes : List UInt8) : bytes ++ List.replicate (len - len) 0 = bytes := by
    rw [Nat.sub_self, List.replicate_zero, List.append_nil]
  exact readPieceWith_refines rfl hframe (StandardDisk.readsWhole os h) h htotal hpiece hlength
    hoffset

theorem UringDisk.readPiece_refines (d : Disk) (os : Nat → Transfer) (len : Nat)
    (h : Refines d.files fs flat) (htotal : flat.total < 2 ^ 64) (hpiece : pieceIndex < 2 ^ 32)
    (hlength : d.pieceLength < 2 ^ 32) (hoffset : offset < 2 ^ 32) :
    UringDisk.readPiece os d pieceIndex offset len fs =
        (match flat.fault (pieceIndex * d.pieceLength + offset) len with
          | none => .ok (flat.read (pieceIndex * d.pieceLength + offset) len)
          | some fault => .error fault) ∧
      d.readPiece Io.calm pieceIndex offset len fs =
        (UringDisk.readPiece os d pieceIndex offset len fs).toOption :=
  readPieceWith_refines rfl (fun _ => rfl) (UringDisk.readsWhole os h) h htotal hpiece hlength
    hoffset

end Access

structure Agree (plans : List FilePlan) (flat : FlatDisk) (pieceLength : UInt32)
    (s u : Disk × FileStore Path) : Prop where
  files : s.1.files = u.1.files
  fs : s.2 = u.2
  standard_length : s.1.pieceLength = pieceLength.toNat
  uring_length : u.1.pieceLength = pieceLength.toNat
  plans : s.1.files.map FileMapping.plan = plans
  total : flat.total < 2 ^ 64
  refines : Refines s.1.files s.2 flat

section Run

variable {plans : List FilePlan} {flat : FlatDisk} {pieceLength : UInt32}
  {s u : Disk × FileStore Path}

theorem Disk.writePiece_calm_backend (d : Disk) (backend : Backend) (pieceIndex : Nat)
    (data : List UInt8) (fs : FileStore Path) :
    ({ d with backend := backend } : Disk).writePiece .calm pieceIndex data fs =
      ((d.writePiece .calm pieceIndex data fs).1,
        { (d.writePiece .calm pieceIndex data fs).2.1 with backend := backend },
        (d.writePiece .calm pieceIndex data fs).2.2) := by
  simp only [Disk.writePiece, Io.lostBy_calm]

theorem Agree.serve (h : Agree plans flat pieceLength s u) (turn : DiskTurn)
    (hstandard : (StandardDisk.serve turn s).1 ≠ .selected false)
    (huring : (UringDisk.serve turn u).1 ≠ .selected false) :
    (StandardDisk.serve turn s).1 = (UringDisk.serve turn u).1 ∧ ∃ flat',
      flat.Step pieceLength.toNat turn.op (StandardDisk.serve turn s).1 flat' ∧
      Agree plans flat' pieceLength (StandardDisk.serve turn s).2 (UringDisk.serve turn u).2 := by
  obtain ⟨⟨backend, files, length⟩, fs⟩ := s
  obtain ⟨⟨backend', files', length'⟩, fs'⟩ := u
  obtain ⟨hfiles, hfs, hlength, hlength', hplans, htotal, hrefines⟩ := h
  simp only at hfiles hfs hlength hlength' hplans hrefines
  subst hfiles hfs hlength hlength'
  have hword : pieceLength.toNat < 2 ^ 32 := pieceLength.toNat_lt
  cases hop : turn.op with
  | writePiece pieceIndex data =>
    obtain ⟨hs, hkept, hafter⟩ := StandardDisk.writePiece_refines
      ⟨backend, files, pieceLength.toNat⟩ turn.standard data hrefines htotal pieceIndex.toNat_lt
      hword
    obtain ⟨hu, -⟩ := UringDisk.writePiece_refines ⟨backend', files, pieceLength.toNat⟩
      turn.uring data hrefines htotal pieceIndex.toNat_lt hword
    simp only [StandardDisk.serve, UringDisk.serve, hop, Disk.serve, hs, hu]
    have hsame := Disk.writePiece_calm_backend ⟨backend, files, pieceLength.toNat⟩ backend'
      pieceIndex.toNat data fs
    rw [hsame]
    exact ⟨trivial, _, .writePiece flat pieceIndex data, rfl, rfl, rfl, rfl, hkept.trans hplans,
      htotal, hafter⟩
  | readPiece pieceIndex offset len =>
    obtain ⟨hs, -⟩ := StandardDisk.readPiece_refines ⟨backend, files, pieceLength.toNat⟩
      turn.standard len.toNat hrefines htotal pieceIndex.toNat_lt hword offset.toNat_lt
    obtain ⟨hu, -⟩ := UringDisk.readPiece_refines ⟨backend', files, pieceLength.toNat⟩
      turn.uring len.toNat hrefines htotal pieceIndex.toNat_lt hword offset.toNat_lt
    simp only [StandardDisk.serve, UringDisk.serve, hop, Disk.serve, hs, hu]
    exact ⟨trivial, _, .readPiece flat pieceIndex offset len, rfl, rfl, rfl, rfl, hplans, htotal,
      hrefines⟩
  | flush =>
    have hkept := (Disk.cell_walkFiles (Disk.plan_flushVisit turn.io) hrefines.laid fs).1
    simp only [StandardDisk.serve, UringDisk.serve, hop, Disk.serve, Disk.flush]
    exact ⟨trivial, _, .flush flat _, rfl, rfl, rfl, rfl, hkept.trans hplans, htotal,
      hrefines.flush turn.io⟩
  | setSelection selected =>
    have hkept := (Disk.cell_walkFiles (Disk.plan_selectionVisit backend turn.io selected)
      hrefines.laid fs).1
    simp only [StandardDisk.serve, UringDisk.serve, hop, Disk.serve, Disk.setSelection, ne_eq,
      DiskAnswer.selected.injEq, Bool.not_eq_false] at hstandard huring ⊢
    have hwalk := walkFiles_agree (fun _ _ _ _ _ => selectionVisit_agree) hstandard huring
    have hafter := hrefines.setSelection hstandard
    rw [← hwalk, hstandard]
    exact ⟨rfl, _, .setSelection flat selected, rfl, rfl, rfl, rfl, hkept.trans hplans, htotal,
      hafter⟩

theorem Agree.serveAll (h : Agree plans flat pieceLength s u) {turns : List DiskTurn}
    (hstandard : .selected false ∉ (serveAll StandardDisk.serve turns s).1)
    (huring : .selected false ∉ (serveAll UringDisk.serve turns u).1) :
    (serveAll StandardDisk.serve turns s).1 = (serveAll UringDisk.serve turns u).1 ∧ ∃ flat',
      flat.Steps pieceLength.toNat (turns.map (·.op))
        (serveAll StandardDisk.serve turns s).1 flat' ∧
      Agree plans flat' pieceLength (serveAll StandardDisk.serve turns s).2
        (serveAll UringDisk.serve turns u).2 := by
  induction turns generalizing flat s u with
  | nil => exact ⟨rfl, flat, .nil flat, h⟩
  | cons turn turns ih =>
    simp only [Core.serveAll, List.mem_cons, not_or] at hstandard huring
    obtain ⟨hanswer, mid, hstep, hmid⟩ := h.serve turn (Ne.symm hstandard.1) (Ne.symm huring.1)
    obtain ⟨hanswers, last, hsteps, hlast⟩ := ih hmid hstandard.2 huring.2
    exact ⟨congrArg₂ List.cons hanswer hanswers, last, .cons hstep hsteps, hlast⟩

theorem Agree.byteAt_serve (h : Agree plans flat pieceLength s u) {turn : DiskTurn}
    (hstandard : (StandardDisk.serve turn s).1 ≠ .selected false)
    (huring : (UringDisk.serve turn u).1 ≠ .selected false) {x : Nat}
    (hx : ¬ turn.op.Covers pieceLength.toNat x) :
    byteAt plans (StandardDisk.serve turn s).2.2 x = byteAt plans s.2 x := by
  obtain ⟨-, flat', hstep, hafter⟩ := h.serve turn hstandard huring
  by_cases hin : ∃ i, InFile flat.torrent i x
  · obtain ⟨i, hi⟩ := hin
    have hi' : InFile flat'.torrent i x := hstep.torrent_eq ▸ hi
    have hbefore := h.refines.byteAt_eq hi
    have hbyte := hafter.refines.byteAt_eq hi'
    rw [h.plans] at hbefore
    rw [hafter.plans] at hbyte
    rw [hbyte, hbefore, hstep.store_eq hx]
  · have hlaid : Laid flat.torrent plans := h.plans ▸ h.refines.laid
    have hnone (i : Nat) : ¬ InFile flat.torrent i x := fun hi => hin ⟨i, hi⟩
    rw [byteAt_outside hlaid hnone, byteAt_outside hlaid hnone]

end Run

def FlatDisk.initial (torrent : List TorrentFile) (plans : List FilePlan)
    (selected : Option (List Bool)) (fs : FileStore Path) : FlatDisk :=
  ⟨torrent, isSelected selected, byteAt plans fs⟩

theorem refines_unopened {torrent : List TorrentFile} {plans : List FilePlan}
    {fs : FileStore Path} (hlaid : Laid torrent plans)
    (hfiles : ∀ plan ∈ plans, ∀ inode, fs plan.path = some inode →
      inode.len = plan.stop - plan.start) :
    Refines (plans.map Disk.unopened) fs ⟨torrent, fun _ => false, byteAt plans fs⟩ := by
  have hclosed : Laid torrent ((plans.map Disk.unopened).map FileMapping.plan) := by
    rw [Disk.map_plan_unopened]
    exact hlaid
  refine ⟨hclosed, fun i m hm => ?_, fun i m hm => ?_⟩
  · obtain ⟨plan, -, rfl⟩ := Option.map_eq_some_iff.mp ((List.getElem?_map ..).symm.trans hm)
    rfl
  · obtain ⟨plan, hplan, rfl⟩ := Option.map_eq_some_iff.mp ((List.getElem?_map ..).symm.trans hm)
    have hbyte (x : Nat) (hx : plan.start ≤ x) (hx' : x < plan.stop) :
        byteAt plans fs x = ((fs plan.path).getD .empty).content (x - plan.start) :=
      congrArg Cell.content (hclosed.cell_eq hm ((hclosed.inFile_iff hm x).mpr ⟨hx, hx'⟩))
    show FlatDisk.Stored _ _ (fs plan.path)
    cases hinode : fs plan.path with
    | none =>
      refine ⟨rfl, fun x hx hx' => (hbyte x hx hx').trans ?_⟩
      rw [hinode]
      rfl
    | some inode =>
      refine ⟨hfiles plan (List.mem_of_getElem? hplan) inode hinode, fun x hx hx' => ?_⟩
      rw [hinode] at hbyte
      exact (hbyte x hx hx').symm

section Init

variable {windows : Bool} {base : Path} {name : String} {totalSize : Nat}
  {filesMeta : Option (List TorrentFile)} {plans : List FilePlan}
  {selected : Option (List Bool)} {io : Io} {fs fs₁ fs₂ : FileStore Path} {pieceLength : UInt32}
  {standard uring : Disk}

theorem initWalk {backend : Backend} {d : Disk} {fs' : FileStore Path}
    (hplan : planFiles windows base name filesMeta.isSome (filesMeta.getD [⟨totalSize, [name]⟩]) 0 =
      .ok plans)
    (h : Disk.initWithSelection backend windows base totalSize pieceLength.toNat filesMeta name
      selected io fs = (some d, fs')) :
    walkFiles (Disk.initVisit backend io selected) 0 (plans.map Disk.unopened) fs =
      (true, d.files, fs') ∧ d.pieceLength = pieceLength.toNat := by
  have hclosed : (plans.map fun plan => (⟨plan.path, false, plan.start, plan.stop, false⟩ :
      FileMapping)) = plans.map Disk.unopened := rfl
  rw [Disk.initWithSelection, hplan] at h
  simp only [hclosed] at h
  split at h
  · cases h
  · rename_i files fs₁ hwalk
    cases h
    exact ⟨hwalk, rfl⟩

theorem agree_init
    (hplans : planWords windows base name filesMeta.isSome
      (filesMeta.getD [⟨totalSize, [name]⟩]) 0 = some (.ok plans)) (hpaths : (plans.map (·.path)).Nodup)
    (hfiles : ∀ plan ∈ plans, ∀ inode, fs plan.path = some inode →
      inode.len = plan.stop - plan.start)
    (hstandard : Disk.initWithSelection .standard windows base totalSize pieceLength.toNat filesMeta
      name selected io fs = (some standard, fs₁))
    (huring : Disk.initWithSelection .uring windows base totalSize pieceLength.toNat filesMeta
      name selected io fs = (some uring, fs₂)) :
    Agree plans (.initial (filesMeta.getD [⟨totalSize, [name]⟩]) plans selected fs) pieceLength
      (standard, fs₁) (uring, fs₂) := by
  obtain ⟨hplan, htotal⟩ := planFiles_of_planWords hplans (Nat.two_pow_pos 64)
  rw [Nat.zero_add] at htotal
  have hclosed := refines_unopened (laid_of_planFiles hplan hpaths) hfiles
  obtain ⟨hwalk, hlength⟩ := initWalk hplan hstandard
  obtain ⟨hwalk', hlength'⟩ := initWalk hplan huring
  have hok : (walkFiles (Disk.initVisit .standard io selected) 0 (plans.map Disk.unopened) fs).1 =
      true := by rw [hwalk]
  have hok' : (walkFiles (Disk.initVisit .uring io selected) 0 (plans.map Disk.unopened) fs).1 =
      true := by rw [hwalk']
  have hsame := walkFiles_agree (fun _ _ _ _ _ => initVisit_agree) hok hok'
  rw [hwalk, hwalk'] at hsame
  obtain ⟨hfilesEq, hfsEq⟩ := Prod.mk.inj (Prod.mk.inj hsame).2
  have hkept := (Disk.cell_walkFiles (Disk.plan_initVisit .standard io selected) hclosed.laid fs).1
  have hrefines := hclosed.init (fun _ => rfl) hok
  rw [hwalk] at hkept hrefines
  exact ⟨hfilesEq, hfsEq, hlength, hlength', hkept.trans (Disk.map_plan_unopened plans), htotal,
    hrefines⟩

/-- Both backends are one array of bytes.  Whatever the requests are, they answer alike and leave
the same files, which hold the array; what they answer is what the array does for the requests; and
a request leaves the bytes on disk alone that it does not write over. -/
theorem backends_refine_flat
    (hplans : planWords windows base name filesMeta.isSome
      (filesMeta.getD [⟨totalSize, [name]⟩]) 0 = some (.ok plans)) (hpaths : (plans.map (·.path)).Nodup)
    (hfiles : ∀ plan ∈ plans, ∀ inode, fs plan.path = some inode →
      inode.len = plan.stop - plan.start)
    (hstandard : Disk.initWithSelection .standard windows base totalSize pieceLength.toNat filesMeta
      name selected io fs = (some standard, fs₁))
    (huring : Disk.initWithSelection .uring windows base totalSize pieceLength.toNat filesMeta
      name selected io fs = (some uring, fs₂)) {turns : List DiskTurn}
    (hselects : .selected false ∉ (serveAll StandardDisk.serve turns (standard, fs₁)).1)
    (hselects' : .selected false ∉ (serveAll UringDisk.serve turns (uring, fs₂)).1) :
    let s := serveAll StandardDisk.serve turns (standard, fs₁)
    let u := serveAll UringDisk.serve turns (uring, fs₂)
    s.1 = u.1 ∧ s.2.2 = u.2.2 ∧
      (∃ flat, (FlatDisk.initial (filesMeta.getD [⟨totalSize, [name]⟩]) plans selected fs).Steps
          pieceLength.toNat (turns.map (·.op)) s.1 flat ∧ Refines s.2.1.files s.2.2 flat) ∧
      ∀ turn x, (StandardDisk.serve turn s.2).1 ≠ .selected false →
        (UringDisk.serve turn u.2).1 ≠ .selected false → ¬ turn.op.Covers pieceLength.toNat x →
        byteAt plans (StandardDisk.serve turn s.2).2.2 x = byteAt plans s.2.2 x := by
  have hagree := agree_init hplans hpaths hfiles hstandard huring
  obtain ⟨hanswers, flat, hsteps, hlast⟩ := hagree.serveAll hselects hselects'
  exact ⟨hanswers, hlast.fs, ⟨flat, hsteps, hlast.refines⟩,
    fun turn x hturn hturn' hx => hlast.byteAt_serve hturn hturn' hx⟩

end Init

def threeFiles : List TorrentFile := [⟨2, ["a"]⟩, ⟨0, ["b"]⟩, ⟨3, ["c"]⟩]

def threePlans : List FilePlan :=
  [⟨["d", "t", "a"], 0, 2⟩, ⟨["d", "t", "b"], 2, 2⟩, ⟨["d", "t", "c"], 2, 5⟩]

def threeMappings : List FileMapping :=
  threePlans.map fun plan => ⟨plan.path, true, plan.start, plan.stop, false⟩

def threeTurns : List DiskTurn :=
  [.writePiece 0 [1, 2, 3, 4], .setSelection [false], .readPiece 0 1 3, .setSelection [true],
    .readPiece 0 1 3, .readPiece 1 0 2, .flush].map
    fun op => ⟨op, .calm, fun _ => .upTo 0, fun _ => .upTo 1⟩

def threeStart (backend : Backend) : FileStore Path :=
  (Disk.initWithSelection backend false ["d"] 5 4 (some threeFiles) "t" none .calm fun _ => none).2

theorem init_threeFiles (backend : Backend) : Disk.initWithSelection backend false ["d"] 5
    (4 : UInt32).toNat (some threeFiles) "t" none .calm (fun _ => none) =
      (some ⟨backend, threeMappings, 4⟩, threeStart backend) :=
  Prod.ext (by cases backend <;> decide +kernel) rfl

theorem backends_refine_flat_threeFiles :
    let s := serveAll StandardDisk.serve threeTurns
      (⟨.standard, threeMappings, 4⟩, threeStart .standard)
    let u := serveAll UringDisk.serve threeTurns (⟨.uring, threeMappings, 4⟩, threeStart .uring)
    s.1 = u.1 ∧ s.2.2 = u.2.2 ∧ s.1 = [.written none, .selected true, .bytes (.ok [0, 3, 4]),
      .selected true, .bytes (.ok [2, 3, 4]), .bytes (.error .outOfBounds), .flushed true] :=
  have h := backends_refine_flat
    (show planWords false ["d"] "t" true threeFiles 0 = some (.ok threePlans) by decide +kernel)
    (by decide) (fun _ _ _ h => by cases h) (init_threeFiles .standard) (init_threeFiles .uring)
    (show _ ∉ (serveAll StandardDisk.serve threeTurns _).1 by decide +kernel)
    (show _ ∉ (serveAll UringDisk.serve threeTurns _).1 by decide +kernel)
  ⟨h.1, h.2.1, by decide +kernel⟩

end Tortor.Core
