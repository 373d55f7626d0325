import Tortor.Core.Bencode
import Tortor.Core.Handles
import Tortor.System.Progress
import Tortor.System.Torrent

namespace Tortor.System

open Tortor.Core Tortor.Core.Disk Tortor.Lib

/-! The coordinator, seen as the progress of its torrent. -/

def progress (c : Coordinator) : Progress where
  checking := c.state matches .checkingFiles ..
  completed := c.state.manager.completed
  cells := cell c.state.disk.files c.fs
  saved := c.resumeFile

structure Sound (info : TorrentMeta) (c : Coordinator) : Prop where
  laid : Laid (torrentFiles info) (c.state.disk.files.map FileMapping.plan)
  ready : Ready (cell c.state.disk.files c.fs)
  pieceLength : c.state.disk.pieceLength = info.pieceLength
  manager : c.state.manager.Inv
  totalPieces : c.state.manager.totalPieces = info.piecesCount
  check : ∀ manager disk hashes pieceLength totalLength index,
    c.state = .checkingFiles manager disk hashes pieceLength totalLength index →
      hashes = info.pieces ∧ pieceLength = info.pieceLength ∧ totalLength = totalSize info

structure Stepped (info : TorrentMeta) (r : Rules) (c c' : Coordinator) : Prop where
  sound : Sound info c'
  advance : Advance r (progress c) (progress c')

/-- The rules of a torrent, up to what its runs may assume. -/
def rules (info : TorrentMeta) (arrives : Prop) (good accepts : Nat → List UInt8 → Prop)
    (refetches : Prop) (keeps : Nat → Prop) : Rules where
  pieceLength := info.pieceLength
  total := totalSize info
  arrives := arrives
  Good := good
  Accepts := accepts
  Lists content p := ∃ json state, FastResumeState.decode json content = .ok state ∧
    p ∈ state.completed
  refetches := refetches
  Keeps := keeps

theorem WellFormed.totalSize_eq {info : TorrentMeta} {total : Nat} (h : info.WellFormed total) :
    totalSize info = total := by simp [totalSize, h.totalLength]

structure Rules.Fit (info : TorrentMeta) (r : Rules) : Prop where
  pieceLength : r.pieceLength = info.pieceLength
  total : r.total = totalSize info
  lists : ∀ content p, r.Lists content p → ∃ json state,
    FastResumeState.decode json content = .ok state ∧ p ∈ state.completed

theorem fit_rules (info : TorrentMeta) (arrives : Prop) (good accepts : Nat → List UInt8 → Prop)
    (refetches : Prop) (keeps : Nat → Prop) :
    (rules info arrives good accepts refetches keeps).Fit info :=
  ⟨rfl, rfl, fun _ _ h => h⟩

section Laws

variable {info : TorrentMeta} {r : Rules} {c : Coordinator}

theorem Stepped.refl (hs : Sound info c) : Stepped info r c c :=
  ⟨hs, .refl _ _⟩

theorem stepped_of_alike (hs : Sound info c) {f : TorrentManager → TorrentManager}
    (hf : TorrentManager.Alike c.state.manager (f c.state.manager))
    (hinv : (f c.state.manager).Inv) : Stepped info r c (c.mapManager f) := by
  obtain ⟨state, fs, resumeFile⟩ := c
  have hprogress : progress (Coordinator.mapManager ⟨state, fs, resumeFile⟩ f) =
      progress ⟨state, fs, resumeFile⟩ := by
    cases state <;>
      simp only [progress, Coordinator.mapManager, CoordinatorState.withManager,
        CoordinatorState.manager, CoordinatorState.disk] at hf ⊢ <;> rw [hf.completed]
  cases state with
  | checkingFiles manager disk hashes pieceLength totalLength index =>
    refine ⟨⟨hs.laid, hs.ready, hs.pieceLength, hinv, hf.totalPieces.trans hs.totalPieces, ?_⟩,
      hprogress ▸ .refl _ _⟩
    intro m d hashes' pl tl i he
    cases he
    exact hs.check _ _ _ _ _ _ rfl
  | downloadingData manager disk paused hasCompleted =>
    exact ⟨⟨hs.laid, hs.ready, hs.pieceLength, hinv, hf.totalPieces.trans hs.totalPieces, nofun⟩,
      hprogress ▸ .refl _ _⟩

theorem ready_of_flush {before after : Nat → Cell} (hready : Ready before)
    (h : ∀ x, after x = before x ∨ (before x).dirty = true ∧ after x = flushed (before x)) :
    Ready after := by
  intro x ho
  rcases h x with h | ⟨-, h⟩
  · rw [h] at ho ⊢
    exact hready x ho
  · have hsame : (flushed (before x)).opened = (before x).opened ∧
        (flushed (before x)).sized = (before x).sized := by
      unfold flushed; split <;> exact ⟨rfl, rfl⟩
    rw [h] at ho ⊢
    exact hsame.2.trans (hready x (hsame.1.symm.trans ho))

/-- A resume file is written only behind a flush, and it lists completed pieces. -/
theorem flushThenPersist_spec (hr : r.Fit info) {torrent : List TorrentFile}
    {manager : TorrentManager} (hsmall : manager.totalPieces < 2 ^ 32) {disk : Disk}
    (hl : Laid torrent (disk.files.map FileMapping.plan)) {fs : FileStore Path}
    (hready : Ready (cell disk.files fs)) (env : Env) (saved : List (List UInt8))
    (checking : Bool) :
    let after := flushThenPersist env manager disk fs saved
    after.1.files.map FileMapping.still = disk.files.map FileMapping.still ∧
      after.1.pieceLength = disk.pieceLength ∧ Ready (cell after.1.files after.2.1) ∧
      Advance r ⟨checking, manager.completed, cell disk.files fs, saved⟩
        ⟨checking, manager.completed, cell after.1.files after.2.1, after.2.2⟩ := by
  obtain ⟨hstill, -, hlen, hcells, hclean⟩ := flush_spec hl env.io fs
  have hmove : Move r ⟨checking, manager.completed, cell disk.files fs, saved⟩
      ⟨checking, manager.completed,
        cell (disk.flush env.io fs).2.1.files (disk.flush env.io fs).2.2, saved⟩ :=
    .flush _ hcells
  rcases hflush : disk.flush env.io fs with ⟨_ | _, disk', fs'⟩ <;>
    rw [hflush] at hstill hlen hcells hclean hmove
  · simp only [flushThenPersist, hflush]
    exact ⟨hstill, hlen, ready_of_flush hready hcells, hmove.advance⟩
  · simp only [flushThenPersist, hflush, persistResume]
    refine ⟨hstill, hlen, ready_of_flush hready hcells, _, .single hmove, ?_⟩
    split
    · exact .inl rfl
    · refine .inr ⟨hclean rfl, _, rfl, fun p hp => ?_⟩
      obtain ⟨json, state, hdecode, hmem⟩ := hr.lists _ p hp
      exact FastResumeState.mem_completed_of_decode hsmall hdecode hmem

theorem sound_downloading {manager : TorrentManager} {disk : Disk} {fs : FileStore Path}
    (hl : Laid (torrentFiles info) (disk.files.map FileMapping.plan))
    (hready : Ready (cell disk.files fs)) (hL : disk.pieceLength = info.pieceLength)
    (hinv : manager.Inv) (htotal : manager.totalPieces = info.piecesCount)
    (paused hasCompleted : Bool) (resumeFile : List (List UInt8)) :
    Sound info ⟨.downloadingData manager disk paused hasCompleted, fs, resumeFile⟩ :=
  ⟨hl, hready, hL, hinv, htotal, nofun⟩

theorem piecesCount_lt {total : Nat} (hw : info.WellFormed total) : info.piecesCount < 2 ^ 32 := by
  rw [hw.piecesCount]
  exact Nat.mod_lt _ (by decide)

/-- When a piece comes and is written with success, nothing of it is lost. -/
def Arrives (env : Env) (c : Coordinator) (index : Nat) (data : List UInt8) : Prop :=
  match c.state with
  | .checkingFiles .. => True
  | .downloadingData manager disk _ _ =>
    manager.isCompleted index = false → (disk.writePiece env.io index data c.fs).1 = true →
      disk.Arrives env.io index data

instance (env : Env) (c : Coordinator) (index : Nat) (data : List UInt8) :
    Decidable (Arrives env c index data) := by
  unfold Arrives
  split <;> infer_instance

theorem stepped_pieceDownloaded (hr : r.Fit info) {total : Nat} (hw : info.WellFormed total)
    (hs : Sound info c) (env : Env) {index : Nat} {data : List UInt8} (hgood : r.Good index data)
    (harrives : r.arrives → Arrives env c index data) :
    Stepped info r c (c.handlePieceDownloaded env index data).1 := by
  obtain ⟨state, fs, saved⟩ := c
  cases state with
  | checkingFiles => exact .refl hs
  | downloadingData manager disk paused hasCompleted =>
    obtain ⟨hl, hready, hL, hinv, htotal, -⟩ := hs
    simp only [CoordinatorState.disk, CoordinatorState.manager] at hl hready hL hinv htotal
    simp only [Coordinator.handlePieceDownloaded]
    split
    · exact .refl ⟨hl, hready, hL, hinv, htotal, nofun⟩
    case isFalse hopen =>
      have hmissing : index ∉ manager.completed := by
        simpa [TorrentManager.isCompleted] using hopen
      obtain ⟨hstill, -, hlen, k, hk, hwrote, hfull⟩ := writePiece_spec hl hready env.io index data
      rw [hL, ← hr.pieceLength] at hwrote hfull
      replace harrives := fun ha => harrives ha (Bool.eq_false_iff.mpr hopen)
      rcases hwp : disk.writePiece env.io index data fs with ⟨_ | _, disk', fs'⟩ <;>
        rw [hwp] at hstill hlen hwrote hfull harrives
      · -- The piece goes back into the queue; what was written of it stays.
        simp only
        obtain ⟨ht, hc, -⟩ := manager.alike_returnWork index
        refine ⟨sound_downloading (by rwa [map_plan_of_still hstill]) (hwrote.ready hready)
          (hlen.trans hL) (hinv.returnWork index) (ht.trans htotal) _ _ _, ?_⟩
        have hmove : Move r ⟨false, manager.completed, cell disk.files fs, saved⟩
            ⟨false, manager.completed, cell disk'.files fs', saved⟩ :=
          .spoil index data k _ rfl hmissing hgood hk (hwrote.mono False.elim)
        simpa only [progress, CoordinatorState.manager, CoordinatorState.disk, hc] using
          hmove.advance
      · simp only
        obtain ⟨rfl, hmarked⟩ := hfull rfl
        obtain ⟨ht, -, hgrows⟩ := manager.markCompleted_frame index
        have hstore : Move r ⟨false, manager.completed, cell disk.files fs, saved⟩
            ⟨false, (manager.markCompleted index).completed, cell disk'.files fs', saved⟩ :=
          .store index data _ _ rfl hmissing hgood (hwrote.mono fun ha => harrives ha rfl) hmarked
            hgrows
        have hl' : Laid (torrentFiles info) (disk'.files.map FileMapping.plan) := by
          rwa [map_plan_of_still hstill]
        have hready' := hwrote.ready hready
        have hsmall : (manager.markCompleted index).totalPieces < 2 ^ 32 := by
          rw [ht, htotal]; exact piecesCount_lt hw
        generalize hafter : (if (manager.markCompleted index).isDone || env.elapsed then
          flushThenPersist env (manager.markCompleted index) disk' fs' saved
          else (disk', fs', saved)) = after
        obtain ⟨hstill', hlen', hready'', hadvance⟩ :
            after.1.files.map FileMapping.still = disk'.files.map FileMapping.still ∧
            after.1.pieceLength = disk'.pieceLength ∧ Ready (cell after.1.files after.2.1) ∧
            Advance r ⟨false, (manager.markCompleted index).completed, cell disk'.files fs', saved⟩
              ⟨false, (manager.markCompleted index).completed, cell after.1.files after.2.1,
                after.2.2⟩ := by
          rw [← hafter]
          split
          · exact flushThenPersist_spec hr hsmall hl' hready' env saved false
          · exact ⟨rfl, rfl, hready', .refl _ _⟩
        obtain ⟨disk'', fs'', saved''⟩ := after
        have hdone (hasCompleted : Bool) : Stepped info r
            ⟨.downloadingData manager disk paused hasCompleted, fs, saved⟩
            ⟨.downloadingData (manager.markCompleted index) disk'' paused hasCompleted, fs'',
              saved''⟩ :=
          ⟨sound_downloading (by rwa [map_plan_of_still hstill']) hready''
            (hlen'.trans (hlen.trans hL)) (hinv.markCompleted index) (ht.trans htotal) _ _ _,
            .head hstore hadvance⟩
        split
        · have h := hdone true
          exact ⟨h.sound, h.advance⟩
        · exact hdone hasCompleted

theorem ready_of_switched {before after : Nat → Cell} (hready : Ready before)
    (h : ∀ x, Switched (before x) (after x)) : Ready after := by
  intro x ho
  cases hold : (before x).opened with
  | true =>
    rw [(h x).kept (ho.trans hold.symm)]
    exact hready x hold
  | false => exact ((h x).opens hold ho).sized

structure Applies (info : TorrentMeta) (r : Rules) (env : Env) (c : Coordinator)
    (flags : List Bool) (refetch : Bitfield) : Prop where
  succeeds : (c.state.disk.setSelection env.io flags c.fs).1 = true
  /-- A completed piece that reaches into a file that is opened is fetched again. -/
  refetched : r.refetches → ∀ i m p, c.state.disk.files[i]? = some m → m.opened = false →
    isSelected (some flags) i = true → Overlaps (torrentFiles info) info.pieceLength p i →
    p ∈ c.state.manager.completed → ∃ j, refetch.has j ∧ j % 2 ^ 32 = p
  kept : ∀ p, r.Keeps p → ∀ j, refetch.has j → j % 2 ^ 32 ≠ p

theorem stepped_handleSetSelection (hr : r.Fit info) {total : Nat} (hw : info.WellFormed total)
    (hs : Sound info c) {env : Env} (selection : Selection) {flags : List Bool}
    {refetch : Bitfield} (ha : Applies info r env c flags refetch) :
    Stepped info r c (c.handleSetSelection env selection flags refetch).1 := by
  obtain ⟨state, fs, saved⟩ := c
  obtain ⟨hok, href, hkeep⟩ := ha
  obtain ⟨hl, hready, hL, hinv, htotal, hcheck⟩ := hs
  simp only at hok href hl hready hL hinv htotal hcheck
  obtain ⟨hplan, -, hlen⟩ := setSelection_frame hl env.io flags fs
  obtain ⟨hopened, hcells⟩ := setSelection_spec hl hok
  rcases hset : state.disk.setSelection env.io flags fs with ⟨ok, disk', fs'⟩
  rw [hset] at hok hplan hlen hopened hcells
  obtain rfl : ok = true := hok
  simp only at hplan hlen hopened hcells
  have hl' : Laid (torrentFiles info) (disk'.files.map FileMapping.plan) := by rwa [hplan]
  have hready' := ready_of_switched hready fun x => (hcells x).1
  -- What is opened has been given up, so no completed piece reaches into it.
  have hswitch (checking : Bool) : Move r
      ⟨checking, state.manager.completed, cell state.disk.files fs, saved⟩
      ⟨checking, (state.manager.applySelection selection refetch).completed,
        cell disk'.files fs', saved⟩ := by
    refine .switch _ _ (fun x => (hcells x).1) (fun p hp =>
      (TorrentManager.mem_completed_applySelection.mp hp).1) (fun hrefetch x _ hold hnew hp => ?_)
      (fun p hp hc => TorrentManager.mem_completed_applySelection.mpr ⟨hc, hkeep p hp⟩)
    obtain ⟨hc, hnot⟩ := TorrentManager.mem_completed_applySelection.mp hp
    have hin : ∃ i, InFile (torrentFiles info) i x := by
      by_contra hno
      rw [hl'.cell_void fun i hi => hno ⟨i, hi⟩] at hnew
      cases hnew
    obtain ⟨i, hi⟩ := hin
    obtain ⟨m, hm⟩ := hl.exists_mapping hi
    have hclosed : m.opened = false := by
      have := hold
      simp only [hl.cell_eq hm hi] at this
      exact this
    rw [hr.pieceLength] at hc hnot
    obtain ⟨j, hj, hjp⟩ := href hrefetch i m _ hm hclosed (((hcells x).2 i hi).symm.trans hnew)
      ⟨x, hi, rfl⟩ hc
    exact hnot j hj hjp
  simp only [Coordinator.handleSetSelection, hset]
  cases state with
  | checkingFiles manager disk hashes pieceLength totalLength index =>
    refine ⟨⟨hl', hready', hlen.trans hL, hinv.applySelection selection refetch, htotal, ?_⟩,
      (hswitch true).advance⟩
    intro m d hashes' pl tl i he
    cases he
    exact hcheck _ _ _ _ _ _ rfl
  | downloadingData manager disk paused hasCompleted =>
    have hsmall : (manager.applySelection selection refetch).totalPieces < 2 ^ 32 :=
      htotal.symm ▸ piecesCount_lt hw
    obtain ⟨hstill, hlen', hready'', hadvance⟩ :=
      flushThenPersist_spec hr hsmall hl' hready' env saved false
    exact ⟨sound_downloading (by rwa [map_plan_of_still hstill]) hready''
      (hlen'.trans (hlen.trans hL)) (hinv.applySelection selection refetch) htotal _ _ _,
      .head (hswitch false) hadvance⟩

theorem stepped_shutdown (hr : r.Fit info) {total : Nat} (hw : info.WellFormed total)
    (hs : Sound info c) (env : Env) : Stepped info r c (c.shutdown env) := by
  obtain ⟨state, fs, saved⟩ := c
  cases state with
  | checkingFiles => exact .refl hs
  | downloadingData manager disk paused hasCompleted =>
    obtain ⟨hl, hready, hL, hinv, htotal, -⟩ := hs
    have hsmall : manager.totalPieces < 2 ^ 32 := htotal.symm ▸ piecesCount_lt hw
    obtain ⟨hstill, hlen, hready', hadvance⟩ :=
      flushThenPersist_spec hr hsmall hl hready env saved false
    exact ⟨sound_downloading (by rwa [map_plan_of_still hstill]) hready' (hlen.trans hL) hinv
      htotal _ _ _, hadvance⟩

def Verifies (sha1 : List UInt8 → Digest) (env : Env) (c : Coordinator) (index : Nat)
    (data : List UInt8) : Prop :=
  ∃ manager disk hashes pieceLength totalLength,
    c.state = .checkingFiles manager disk hashes pieceLength totalLength index ∧
    disk.readPiece env.io index 0
      (Coordinator.checkLength manager.totalPieces pieceLength totalLength index) c.fs = some data ∧
    hashes[index]? = some (sha1 data)

theorem verified_spec {sha1 : List UInt8 → Digest} {env : Env} {manager : TorrentManager}
    {disk : Disk} {hashes : List Digest} {pieceLength totalLength index : Nat}
    {fs : FileStore Path} (h : Coordinator.verified sha1 env manager disk hashes pieceLength
      totalLength index fs = true) :
    ∃ data, disk.readPiece env.io index 0
        (Coordinator.checkLength manager.totalPieces pieceLength totalLength index) fs = some data ∧
      hashes[index]? = some (sha1 data) := by
  simp only [Coordinator.verified] at h
  split at h
  case h_1 data expected hread hhash =>
    rw [Bool.and_eq_true, decide_eq_true_eq] at h
    obtain ⟨-, rfl⟩ := h
    split at hread
    case isTrue => exact ⟨data, hread, hhash⟩
    case isFalse => cases hread
  case h_2 => cases h

theorem stepped_checkTick (hr : r.Fit info) (hs : Sound info c) (sha1 : List UInt8 → Digest)
    (env : Env) (haccepts : ∀ index data, Verifies sha1 env c index data → r.Accepts index data) :
    Stepped info r c (c.checkTick sha1 env).1 := by
  obtain ⟨state, fs, saved⟩ := c
  cases state with
  | downloadingData => exact .refl hs
  | checkingFiles manager disk hashes pieceLength totalLength index =>
    obtain ⟨hl, hready, hL, hinv, htotal, hcheck⟩ := hs
    simp only [CoordinatorState.disk, CoordinatorState.manager] at hl hready hL hinv htotal
    have henter (completed : Finset Nat) :
        Move r ⟨true, completed, cell disk.files fs, saved⟩
          ⟨false, completed, cell disk.files fs, saved⟩ := .enter
    simp only [Coordinator.checkTick, Coordinator.enterDownloading]
    split
    · exact ⟨sound_downloading hl hready hL hinv htotal _ _ _, (henter _).advance⟩
    · generalize hverified : Coordinator.verified sha1 env manager disk hashes pieceLength
        totalLength index fs = verified
      generalize hafter : (if verified then manager.markCompleted index else manager) = after
      obtain ⟨hinv', htotal', hmoves⟩ : after.Inv ∧ after.totalPieces = info.piecesCount ∧
          Relation.ReflTransGen (Move r) ⟨true, manager.completed, cell disk.files fs, saved⟩
            ⟨true, after.completed, cell disk.files fs, saved⟩ := by
        rw [← hafter]
        cases verified with
        | false => exact ⟨hinv, htotal, .refl⟩
        | true =>
          obtain ⟨ht, -, hgrows⟩ := manager.markCompleted_frame index
          refine ⟨hinv.markCompleted index, ht.trans htotal, ?_⟩
          rcases hgrows with he | he
          · simp only [if_true, he]
            exact .refl
          · -- What the hash accepts is what the disk shows.
            obtain ⟨data, hread, hhash⟩ := verified_spec hverified
            have hreads := (readPiece_spec hl hread).2
            rw [← (readPiece_spec hl hread).1] at hreads
            simp only [if_true, he]
            refine .single (.verify index data rfl
              (haccepts index data ⟨_, _, _, _, _, rfl, hread, hhash⟩) fun j hj => ?_)
            rw [hreads j hj, hL, hr.pieceLength, Nat.add_zero]
      split
      · exact ⟨sound_downloading hl hready hL hinv' htotal' _ _ _,
          ⟨_, hmoves.tail (henter _), .inl rfl⟩⟩
      · refine ⟨⟨hl, hready, hL, hinv', htotal', fun m d hashes' pl tl i he => ?_⟩,
          ⟨_, hmoves, .inl rfl⟩⟩
        cases he
        exact hcheck _ _ _ _ _ _ rfl

def Allowed (info : TorrentMeta) (r : Rules) (env : Env) (c : Coordinator) :
    CoordinatorMsg → Prop
  | .pieceDownloaded index data => r.Good index data ∧ (r.arrives → Arrives env c index data)
  | .setSelection _ flags refetch => Applies info r env c flags refetch
  | _ => True

theorem stepped_handle (hr : r.Fit info) {total : Nat} (hw : info.WellFormed total)
    (hs : Sound info c) (env : Env) {msg : CoordinatorMsg} (hm : Allowed info r env c msg)
    (hmsg : ∀ selection flags refetch, msg ≠ .setSelection selection flags refetch) :
    Stepped info r c (c.handle env msg).1 := by
  cases msg with
  | requestWork peerHas reply =>
    simp only [Coordinator.handle, Coordinator.handleRequestWork]
    split
    case h_1 manager disk paused hasCompleted hstate =>
      split
      · exact .refl hs
      · have h := stepped_of_alike (r := r) hs (f := fun m => (m.nextWorkFor peerHas env.rng).2)
          (TorrentManager.alike_nextWorkFor _ _ _) (hs.manager.nextWorkFor _ _)
        simpa only [Coordinator.mapManager, hstate, CoordinatorState.withManager,
          CoordinatorState.manager] using h
    case h_2 => exact .refl hs
  | peerBitfield pieces =>
    exact stepped_of_alike (f := (·.addPeerPieces pieces)) hs ⟨rfl, rfl, rfl⟩
      (hs.manager.call (.addPeerPieces pieces))
  | peerHave index =>
    exact stepped_of_alike (f := (·.addPeerPiece index)) hs ⟨rfl, rfl, rfl⟩
      (hs.manager.call (.addPeerPiece index))
  | peerGone pieces =>
    exact stepped_of_alike (f := (·.removePeerPieces pieces)) hs ⟨rfl, rfl, rfl⟩
      (hs.manager.call (.removePeerPieces pieces))
  | pieceDownloaded index data => exact stepped_pieceDownloaded hr hw hs env hm.1 hm.2
  | pieceFailed index =>
    simp only [Coordinator.handle]
    split
    · exact stepped_of_alike (f := (·.returnWork index)) hs (TorrentManager.alike_returnWork _ _)
        (hs.manager.returnWork index)
    · exact .refl hs
  | getCompletedPieces reply =>
    simp only [Coordinator.handle]
    split <;> exact .refl hs
  | readPiece => exact .refl hs
  | pause | resume =>
    obtain ⟨state, fs, saved⟩ := c
    cases state with
    | checkingFiles => exact .refl hs
    | downloadingData manager disk paused hasCompleted =>
      refine ⟨⟨hs.laid, hs.ready, hs.pieceLength, hs.manager, hs.totalPieces, ?_⟩, .refl _ _⟩
      intro _ _ _ _ _ _ hchecking
      cases hchecking
  | setSelection selection flags refetch => exact absurd rfl (hmsg selection flags refetch)

def Fair (info : TorrentMeta) (r : Rules) (sha1 : List UInt8 → Digest) (s : BackgroundTask) :
    Input → Prop
  | .message env msg => Allowed info r env s.coordinator msg
  | .tick env => ∀ index data, Verifies sha1 env s.coordinator index data → r.Accepts index data
  | .selectionChanged env after => ∀ files, info.files = some files →
    s.requests info after = true → Applies info r env s.coordinator after
      (Selection.piecesToRefetch files s.currentFlags after info.pieceLength info.pieces.length)
  | .shutdown _ => True

theorem advance_step (hr : r.Fit info) {total : Nat} (hw : info.WellFormed total)
    {sha1 : List UInt8 → Digest} {s : BackgroundTask} (hs : Sound info s.coordinator) {i : Input}
    (hi : Fair info r sha1 s i) : Sound info (s.step sha1 info i).coordinator ∧
      Advance r (progress s.coordinator) (progress (s.step sha1 info i).coordinator) ∧
      (s.step sha1 info i).coordinator.state.disk.files.map FileMapping.plan =
        s.coordinator.state.disk.files.map FileMapping.plan := by
  have hrefl : Sound info s.coordinator ∧
      Advance r (progress s.coordinator) (progress s.coordinator) ∧
      s.coordinator.state.disk.files.map FileMapping.plan =
        s.coordinator.state.disk.files.map FileMapping.plan := ⟨hs, .refl _ _, rfl⟩
  unfold BackgroundTask.step
  split
  · exact hrefl
  · cases i with
    | message env msg =>
      by_cases hmsg : ∃ selection flags refetch, msg = .setSelection selection flags refetch
      · obtain ⟨selection, flags, refetch, rfl⟩ := hmsg
        have h := stepped_handleSetSelection hr hw hs selection hi
        exact ⟨h.sound, h.advance, Coordinator.plan_handleSetSelection ..⟩
      · have h := stepped_handle hr hw hs env hi fun _ _ _ he => hmsg ⟨_, _, _, he⟩
        exact ⟨h.sound, h.advance,
          (Coordinator.unmoved_handle env _ fun _ _ _ he => hmsg ⟨_, _, _, he⟩).disk.plan⟩
    | tick env =>
      have h := stepped_checkTick hr hs sha1 env hi
      exact ⟨h.sound, h.advance, (Coordinator.unmoved_checkTick ..).disk.plan⟩
    | selectionChanged env after =>
      simp only [BackgroundTask.select]
      split
      · exact hrefl
      · rename_i files hfiles
        split
        case isTrue hreq =>
          have h := stepped_handleSetSelection hr hw hs
            (.fromFiles files after info.pieceLength info.pieces.length) (hi files hfiles hreq)
          exact ⟨h.sound, h.advance, Coordinator.plan_handleSetSelection ..⟩
        case isFalse => exact hrefl
    | shutdown env =>
      have h := stepped_shutdown hr hw hs env
      exact ⟨h.sound, h.advance, (Coordinator.unmoved_shutdown ..).disk.plan⟩

end Laws

def filePlans (info : TorrentMeta) (l : Launch) : Except PathError (List FilePlan) :=
  planFiles l.windows l.outputDir info.name info.files.isSome (torrentFiles info) 0

/-- A torrent that was accepted, with files at different paths, has been started. -/
structure Started (info : TorrentMeta) (l : Launch) (fs : FileStore Path)
    (s : BackgroundTask) : Prop where
  accepted : ∃ raw infoHash, buildMeta l.windows raw infoHash = .ok info
  paths : ∀ plans, filePlans info l = .ok plans → (plans.map (·.path)).Nodup
  launched : launch info l fs = some s

theorem wellFormed_of_accepted {windows : Bool} {info : TorrentMeta}
    (h : ∃ raw infoHash, buildMeta windows raw infoHash = .ok info) :
    info.WellFormed (totalSize info) := by
  obtain ⟨raw, infoHash, haccepted⟩ := h
  obtain ⟨total, hw⟩ := wellFormed_of_buildMeta haccepted
  rwa [WellFormed.totalSize_eq hw]

theorem Started.wellFormed {info : TorrentMeta} {l : Launch} {fs : FileStore Path}
    {s : BackgroundTask} (h : Started info l fs s) : info.WellFormed (totalSize info) :=
  wellFormed_of_accepted h.accepted

theorem sum_torrentFiles {info : TorrentMeta} (hw : info.WellFormed (totalSize info)) :
    ((torrentFiles info).map (·.length)).sum = totalSize info := by
  unfold torrentFiles
  cases hfiles : info.files with
  | none => simp
  | some files => exact (hw.files files hfiles).2

structure Initial (info : TorrentMeta) (l : Launch) (plans : List FilePlan)
    (fs : FileStore Path) (s : BackgroundTask) : Prop where
  sound : Sound info s.coordinator
  fresh : Fresh (torrentFiles info) l.chosen plans fs s.coordinator.state.disk s.coordinator.fs
  manager : s.coordinator.state.manager =
    TorrentManager.withSelection info.piecesCount l.completed l.selection
  resumeFile : s.coordinator.resumeFile = l.resumeFile
  currentFlags : s.currentFlags = l.chosen.getD ((info.files.map fun files =>
    List.replicate files.length true).getD [])
  checking : l.requiresCheck = false → (progress s.coordinator).checking = false

theorem Started.initial {info : TorrentMeta} {l : Launch} {fs : FileStore Path}
    {s : BackgroundTask} (h : Started info l fs s) :
    ∃ plans, filePlans info l = .ok plans ∧ Initial info l plans fs s := by
  have hlaunch := h.launched
  unfold launch at hlaunch
  split at hlaunch
  · cases hlaunch
  · rename_i disk fs' hinit
    cases hlaunch
    cases hplans : filePlans info l with
    | error err =>
      -- Without a layout there is no disk.
      rw [initWithSelection, show planFiles l.windows l.outputDir info.name info.files.isSome
        (info.files.getD [⟨totalSize info, [info.name]⟩]) 0 = .error err from hplans] at hinit
      cases hinit
    | ok plans =>
      obtain ⟨hfresh, -, hL⟩ := initWithSelection_spec hinit hplans (h.paths plans hplans)
      have hinv := TorrentManager.inv_withSelection info.piecesCount l.completed l.selection
      have hl : Laid (torrentFiles info) (disk.files.map FileMapping.plan) := by
        rw [hfresh.plan_eq]; exact hfresh.laid
      refine ⟨plans, rfl, ?_⟩
      unfold initialCoordinatorState
      split
      case isTrue hcheck =>
        refine ⟨⟨hl, hfresh.ready, hL, hinv, rfl, fun _ _ _ _ _ _ he => ?_⟩, hfresh, rfl, rfl,
          rfl, fun hno => ?_⟩
        · cases he
          exact ⟨rfl, rfl, rfl⟩
        · simp [hno] at hcheck
      case isFalse => exact ⟨⟨hl, hfresh.ready, hL, hinv, rfl, fun _ _ _ _ _ _ he => by cases he⟩,
        hfresh, rfl, rfl, rfl, fun _ => rfl⟩

/-! A torrent that is small enough to run: two files of one byte each share its one piece. -/

def zeroDigest : Digest := ⟨List.replicate 20 0, rfl⟩

def twoFiles : TorrentMeta :=
  .new "t" 2 1 [zeroDigest] none (some [⟨1, ["a"]⟩, ⟨1, ["b"]⟩]) zeroDigest

def plainLaunch (chosen : Option (List Bool)) : Launch where
  backend := .standard
  windows := false
  outputDir := []
  chosen := chosen
  completed := []
  selection := fileSelection twoFiles chosen
  requiresCheck := false
  startPaused := false
  io := .calm
  resumeFile := []

def twoPlans : List FilePlan := [⟨["t", "a"], 0, 1⟩, ⟨["t", "b"], 1, 2⟩]

theorem filePlans_twoFiles (chosen : Option (List Bool)) :
    filePlans twoFiles (plainLaunch chosen) = .ok twoPlans := rfl

theorem accepted_twoFiles :
    buildMeta false ⟨"t", 2, List.replicate 20 0, none, some [⟨1, ["a"]⟩, ⟨1, ["b"]⟩]⟩ zeroDigest =
      .ok twoFiles := rfl

theorem started_twoFiles {chosen : Option (List Bool)} {s : BackgroundTask}
    (h : launch twoFiles (plainLaunch chosen) (fun _ => none) = some s) :
    Started twoFiles (plainLaunch chosen) (fun _ => none) s where
  accepted := ⟨_, _, accepted_twoFiles⟩
  paths plans hplans := by
    cases (filePlans_twoFiles chosen).symm.trans hplans
    decide
  launched := h

def startTwoFiles (chosen : Option (List Bool))
    (h : (launch twoFiles (plainLaunch chosen) fun _ => none).isSome) : BackgroundTask :=
  (launch twoFiles (plainLaunch chosen) fun _ => none).get h

end Tortor.System
