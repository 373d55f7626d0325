import Tortor.Core.CoordinatorLaws
import Tortor.Core.DiskLaws

/-! Only a change of files opens or releases a file, and only that gives the manager another
selection. -/

namespace Tortor.Core

open Tortor.Lib (FileStore Inode)

theorem getElem?_of_locate {files : List FileMapping} {x idx : Nat} {m : FileMapping}
    (h : locate files x = some (idx, m)) : files[idx]? = some m := by
  unfold locate at h
  dsimp only at h
  split at h
  case h_1 mapping hmapping =>
    split at h
    · cases h
      exact hmapping
    · cases h
  case h_2 => cases h

namespace Disk

/-- The same files in the same places, open or not as before. -/
structure Unmoved (d d' : Disk) : Prop where
  still : d'.files.map FileMapping.still = d.files.map FileMapping.still
  pieceLength : d'.pieceLength = d.pieceLength

theorem Unmoved.refl (d : Disk) : Unmoved d d := ⟨rfl, rfl⟩

theorem Unmoved.trans {d d' d'' : Disk} (h : Unmoved d d') (h' : Unmoved d' d'') :
    Unmoved d d'' := ⟨h'.still.trans h.still, h'.pieceLength.trans h.pieceLength⟩

theorem Unmoved.plan {d d' : Disk} (h : Unmoved d d') :
    d'.files.map FileMapping.plan = d.files.map FileMapping.plan := map_plan_of_still h.still

theorem Unmoved.opened {d d' : Disk} (h : Unmoved d d') {flag : Nat → Bool}
    (hold : ∀ (i : Nat) (m : FileMapping), d.files[i]? = some m → m.opened = flag i) (i : Nat)
    (m : FileMapping) (hm : d'.files[i]? = some m) : m.opened = flag i := by
  obtain ⟨m₀, hm₀, he⟩ := opened_of_still h.still hm
  exact he.symm.trans (hold i m₀ hm₀)

theorem still_writeLoop (lost : Nat → Nat) (pieceOffset : Nat) (data : List UInt8) (fuel : Nat)
    (budget : Option Nat) (written : Nat) (files : List FileMapping) (fs : FileStore Path) :
    (writeLoop lost pieceOffset data fuel budget written files fs).2.1.map FileMapping.still =
      files.map FileMapping.still := by
  induction fuel generalizing budget written files fs with
  | zero => rfl
  | succ fuel ih =>
    rw [writeLoop]
    split
    · rfl
    · dsimp only
      split
      · rfl
      case h_2 idx mapping hlocate =>
        have hset := map_still_set (getElem?_of_locate hlocate) true
        split
        · split
          · split
            · rfl
            · rw [ih, hset]
          · rw [ih, hset]
        · exact ih ..

theorem unmoved_writePiece (d : Disk) (io : Io) (index : Nat) (data : List UInt8)
    (fs : FileStore Path) : Unmoved d (d.writePiece io index data fs).2.1 :=
  ⟨still_writeLoop (io.lostBy d.backend) (index * d.pieceLength) data (data.length + 1)
    io.writeBudget 0 d.files fs, rfl⟩

theorem still_flushVisit (io : Io) (i : Nat) (m : FileMapping) (o : Option Inode) :
    (flushVisit io i m o).2.1.still = m.still := by
  obtain ⟨ok, m', o', hvisit, hstill, -⟩ := flushVisit_cases io i m o
  rw [hvisit]
  exact hstill

theorem unmoved_flush (d : Disk) (io : Io) (fs : FileStore Path) :
    Unmoved d (d.flush io fs).2.1 := ⟨map_walkFiles (still_flushVisit io) .., rfl⟩

theorem opened_setSelection {d : Disk} {io : Io} {flags : List Bool} {fs : FileStore Path}
    (hok : (d.setSelection io flags fs).1 = true) (i : Nat) (m : FileMapping)
    (hm : (d.setSelection io flags fs).2.1.files[i]? = some m) :
    m.opened = isSelected (some flags) i := by
  obtain ⟨-, stop, -, hall, hat⟩ := @walkFiles_spec (selectionVisit d.backend io flags) d.files 0 fs
  have hlength := congrArg List.length
    (map_walkFiles (plan_selectionVisit d.backend io flags) 0 d.files fs)
  rw [List.length_map, List.length_map] at hlength
  have hi : i < d.files.length := hlength ▸ (List.getElem?_eq_some_iff.mp hm).1
  obtain ⟨m', o, o', hm', hcase, -⟩ := hat i _ (List.getElem?_eq_getElem hi)
  cases hm.symm.trans hm'
  have hend := hall.mp hok
  rw [Nat.zero_add] at hcase
  rcases hcase with ⟨-, hv⟩ | ⟨he, -⟩ | ⟨hgt, -⟩
  · exact (selectionVisit_ok hv).1
  · omega
  · omega

end Disk

namespace Coordinator

structure Unmoved (c c' : Coordinator) : Prop where
  disk : Disk.Unmoved c.state.disk c'.state.disk
  selection : c'.state.manager.selection = c.state.manager.selection

theorem unmoved_flushThenPersist (env : Env) (manager : TorrentManager) (disk : Disk)
    (fs : FileStore Path) (resumeFile : List (List UInt8)) :
    Disk.Unmoved disk (flushThenPersist env manager disk fs resumeFile).1 := by
  have hflush := disk.unmoved_flush env.io fs
  unfold flushThenPersist
  split <;> rename_i heq <;> rw [heq] at hflush <;> exact hflush

theorem Unmoved.refl (c : Coordinator) : Unmoved c c := ⟨.refl _, rfl⟩

theorem unmoved_mapManager (c : Coordinator) {f : TorrentManager → TorrentManager}
    (hf : ∀ m, (f m).selection = m.selection) : Unmoved c (c.mapManager f) := by
  obtain ⟨state, fs, saved⟩ := c
  cases state <;> exact ⟨.refl _, hf _⟩

theorem unmoved_handlePieceDownloaded (env : Env) (c : Coordinator) (index : Nat)
    (data : List UInt8) : Unmoved c (c.handlePieceDownloaded env index data).1 := by
  obtain ⟨state, fs, saved⟩ := c
  cases state with
  | checkingFiles => exact .refl _
  | downloadingData manager disk paused hasCompleted =>
    have hwrite := disk.unmoved_writePiece env.io index data fs
    have hselection := (manager.markCompleted_frame index).2.1
    simp only [handlePieceDownloaded]
    split
    · exact .refl _
    · split
      case h_1 heq =>
        rw [heq] at hwrite
        exact ⟨hwrite, (manager.alike_returnWork index).selection⟩
      case h_2 written fs' heq =>
        rw [heq] at hwrite
        generalize hafter : (if (manager.markCompleted index).isDone || env.elapsed then
          flushThenPersist env (manager.markCompleted index) written fs' saved
          else (written, fs', saved)) = after
        have hflush : Disk.Unmoved written after.1 := by
          rw [← hafter]
          split
          · exact unmoved_flushThenPersist ..
          · exact .refl _
        split <;> exact ⟨hwrite.trans hflush, hselection⟩

theorem unmoved_handle (env : Env) (c : Coordinator) {msg : CoordinatorMsg}
    (hmsg : ∀ selection flags refetch, msg ≠ .setSelection selection flags refetch) :
    Unmoved c (c.handle env msg).1 := by
  cases msg with
  | requestWork peerHas reply =>
    obtain ⟨state, fs, saved⟩ := c
    simp only [handle, handleRequestWork]
    split
    · split
      · exact .refl _
      · exact ⟨.refl _, (TorrentManager.alike_nextWorkFor ..).selection⟩
    · exact .refl _
  | peerBitfield pieces => exact unmoved_mapManager (f := (·.addPeerPieces pieces)) c fun _ => rfl
  | peerHave index => exact unmoved_mapManager (f := (·.addPeerPiece index)) c fun _ => rfl
  | peerGone pieces => exact unmoved_mapManager (f := (·.removePeerPieces pieces)) c fun _ => rfl
  | pieceDownloaded index data => exact unmoved_handlePieceDownloaded env c index data
  | pieceFailed index =>
    simp only [handle]
    split
    · exact unmoved_mapManager (f := (·.returnWork index)) c
        fun m => (m.alike_returnWork index).selection
    · exact .refl _
  | getCompletedPieces => simp only [handle]; split <;> exact .refl _
  | readPiece => exact .refl _
  | pause | resume =>
    obtain ⟨state, fs, saved⟩ := c
    cases state <;> exact ⟨.refl _, rfl⟩
  | setSelection selection flags refetch => exact absurd rfl (hmsg selection flags refetch)

theorem unmoved_checkTick (sha1 : List UInt8 → Digest) (env : Env) (c : Coordinator) :
    Unmoved c (c.checkTick sha1 env).1 := by
  obtain ⟨state, fs, saved⟩ := c
  cases state with
  | downloadingData => exact .refl _
  | checkingFiles manager disk hashes pieceLength totalLength index =>
    simp only [checkTick]
    split
    · exact ⟨.refl _, rfl⟩
    · generalize verified sha1 env manager disk hashes pieceLength totalLength index fs = found
      have hselection : (if found then manager.markCompleted index else manager).selection =
          manager.selection := by
        split
        · exact (manager.markCompleted_frame index).2.1
        · rfl
      generalize (if found then manager.markCompleted index else manager) = after at hselection ⊢
      split <;> exact ⟨.refl _, hselection⟩

theorem unmoved_shutdown (env : Env) (c : Coordinator) : Unmoved c (c.shutdown env) := by
  obtain ⟨state, fs, saved⟩ := c
  cases state with
  | checkingFiles => exact .refl _
  | downloadingData => exact ⟨unmoved_flushThenPersist .., rfl⟩

theorem unmoved_handleSetSelection (env : Env) (c : Coordinator) (selection : Selection)
    (flags : List Bool) (refetch : Bitfield) :
    let r := c.state.disk.setSelection env.io flags c.fs
    let c' := (c.handleSetSelection env selection flags refetch).1
    Disk.Unmoved r.2.1 c'.state.disk ∧ c'.state.manager.selection =
      if r.1 then selection else c.state.manager.selection := by
  rcases hset : c.state.disk.setSelection env.io flags c.fs with ⟨_ | _, disk', fs'⟩
  · simp only [handleSetSelection, hset]
    cases c.state <;> exact ⟨.refl _, rfl⟩
  · simp only [handleSetSelection, hset]
    cases c.state with
    | checkingFiles => exact ⟨.refl _, rfl⟩
    | downloadingData => exact ⟨unmoved_flushThenPersist .., rfl⟩

theorem handleSetSelection_err {env : Env} {c : Coordinator} {flags : List Bool}
    (hok : (c.state.disk.setSelection env.io flags c.fs).1 = false) (selection : Selection)
    (refetch : Bitfield) :
    let c' := (c.handleSetSelection env selection flags refetch).1
    c'.state.manager = c.state.manager ∧
      c'.state.disk = (c.state.disk.setSelection env.io flags c.fs).2.1 := by
  rcases hset : c.state.disk.setSelection env.io flags c.fs with ⟨ok, disk', fs'⟩
  rw [hset] at hok
  obtain rfl : ok = false := hok
  simp only [handleSetSelection, hset]
  cases c.state <;> exact ⟨rfl, rfl⟩

theorem plan_handleSetSelection (env : Env) (c : Coordinator) (selection : Selection)
    (flags : List Bool) (refetch : Bitfield) :
    (c.handleSetSelection env selection flags refetch).1.state.disk.files.map FileMapping.plan =
      c.state.disk.files.map FileMapping.plan :=
  (unmoved_handleSetSelection env c selection flags refetch).1.plan.trans
    (Disk.map_walkFiles (Disk.plan_selectionVisit c.state.disk.backend env.io flags) ..)

theorem opened_handleSetSelection {env : Env} {c : Coordinator} {flags : List Bool}
    (hok : (c.state.disk.setSelection env.io flags c.fs).1 = true) (selection : Selection)
    (refetch : Bitfield) :
    let c' := (c.handleSetSelection env selection flags refetch).1
    (∀ (i : Nat) (m : FileMapping), c'.state.disk.files[i]? = some m →
        m.opened = isSelected (some flags) i) ∧ c'.state.manager.selection = selection := by
  obtain ⟨hdisk, hselection⟩ := unmoved_handleSetSelection env c selection flags refetch
  exact ⟨hdisk.opened (Disk.opened_setSelection hok), hselection.trans (if_pos hok)⟩

end Coordinator
end Tortor.Core
