import Tortor.Core.Handles
import Tortor.System.DiskBounds
import Tortor.System.SwarmLaws

/-! The files of a torrent stay where they were laid out, and a piece that fits in is written unless
the operating system fails. -/

namespace Tortor.Core

open Tortor.Lib (FileStore Inode)

namespace Disk

def shape (d : Disk) : List FilePlan × Nat := (d.files.map FileMapping.plan, d.pieceLength)

theorem Unmoved.shape {d d' : Disk} (h : Unmoved d d') : d'.shape = d.shape :=
  Prod.ext h.plan h.pieceLength

theorem shape_setSelection (d : Disk) (io : Io) (selected : List Bool) (fs : FileStore Path) :
    (d.setSelection io selected fs).2.1.shape = d.shape :=
  congrArg (·, d.pieceLength) (map_walkFiles (plan_selectionVisit d.backend io selected) ..)

theorem writeLoop_calm {lost : Nat → Nat} {pieceOffset : Nat} {data : List UInt8} {plans : List FilePlan}
    (hroom : ∀ files : List FileMapping, files.map FileMapping.plan = plans → ∀ x, pieceOffset ≤ x →
      x < pieceOffset + data.length → ∃ found, locate files x = some found)
    (fuel written : Nat) (files : List FileMapping) (hplans : files.map FileMapping.plan = plans)
    (fs : FileStore Path) :
    (writeLoop lost pieceOffset data fuel none written files fs).1 = true := by
  induction fuel generalizing written files fs with
  | zero => rfl
  | succ fuel ih =>
    rw [writeLoop]
    split
    · rfl
    case isFalse hmore =>
      obtain ⟨⟨idx, mapping⟩, hlocate⟩ :=
        hroom files hplans (pieceOffset + written) (Nat.le_add_right _ _) (by omega)
      dsimp only
      rw [hlocate]
      dsimp only
      split
      · have hset := map_plan_set (getElem?_of_locate hlocate)
          (show FileMapping.plan { mapping with dirty := true } = mapping.plan from rfl)
        exact ih _ _ (hset.trans hplans) _
      · exact ih _ _ hplans _

theorem writePiece_calm {d : Disk} {total : Nat}
    (hcontiguous : Contiguous (d.files.map FileMapping.plan) 0 total) {index : Nat}
    {data : List UInt8} (hfits : index * d.pieceLength + data.length ≤ total)
    (fs : FileStore Path) : (d.writePiece .calm index data fs).1 = true := by
  have hroom (files : List FileMapping)
      (hplans : files.map FileMapping.plan = d.files.map FileMapping.plan) (x : Nat)
      (_ : index * d.pieceLength ≤ x) (hx : x < index * d.pieceLength + data.length) :
      ∃ found, locate files x = some found :=
    hcontiguous.exists_located hplans (Nat.zero_le x) (by omega)
  exact writeLoop_calm hroom (data.length + 1) 0 d.files rfl fs

end Disk

namespace Coordinator

theorem shape_handle (env : Env) (c : Coordinator) (msg : CoordinatorMsg) :
    (c.handle env msg).1.state.disk.shape = c.state.disk.shape := by
  by_cases hmsg : ∃ selection flags refetch, msg = .setSelection selection flags refetch
  · obtain ⟨selection, flags, refetch, rfl⟩ := hmsg
    exact (unmoved_handleSetSelection env c selection flags refetch).1.shape.trans
      (c.state.disk.shape_setSelection env.io flags c.fs)
  · exact (unmoved_handle env c fun _ _ _ he => hmsg ⟨_, _, _, he⟩).disk.shape

end Coordinator
end Tortor.Core

namespace Tortor.System

open Tortor.Core Tortor.Lib

theorem Swarm.shape_step (sha1 : List UInt8 → Digest) (codec : Net.ExtensionCodec)
    (info : TorrentMeta) (s : Swarm) (action : Action) :
    (s.step sha1 codec info action).coordinator.state.disk.shape =
      s.coordinator.state.disk.shape := by
  have hchange := change_step sha1 codec info s action
  generalize s.step sha1 codec info action = s' at hchange ⊢
  cases hchange with
  | deliver env =>
    rw [(resume_frame _ _).1]
    exact Coordinator.shape_handle ..
  | tick env =>
    rw [(resume_frame _ _).1]
    exact (Coordinator.unmoved_checkTick ..).disk.shape
  | shutdown env => exact (Coordinator.unmoved_shutdown ..).disk.shape
  | _ => rfl

theorem contiguous_launch {info : TorrentMeta} {l : Launch} {fs : FileStore Path}
    {task : BackgroundTask}
    (haccepted : ∃ raw infoHash, buildMeta l.windows raw infoHash = .ok info)
    (hlaunch : launch info l fs = some task) :
    Contiguous task.coordinator.state.disk.shape.1 0 (totalSize info) ∧
      task.coordinator.state.disk.shape.2 = info.pieceLength := by
  have hwellFormed := wellFormed_of_accepted haccepted
  unfold launch at hlaunch
  split at hlaunch
  case h_1 => cases hlaunch
  case h_2 disk fs' hinit =>
    cases hlaunch
    unfold Disk.initWithSelection at hinit
    split at hinit
    case h_1 => cases hinit
    case h_2 plans hplans =>
      dsimp only at hinit
      split at hinit
      case h_1 => cases hinit
      case h_2 files fs'' hwalk =>
        cases hinit
        have hcontiguous := contiguous_planFiles hplans
        have hplan := Disk.map_walkFiles (Disk.plan_initVisit l.backend l.io l.chosen) 0
          (plans.map fun plan => ⟨plan.path, false, plan.start, plan.stop, false⟩) fs
        rw [hwalk] at hplan
        rw [Nat.zero_add] at hcontiguous
        have hsum : ((info.files.getD [⟨totalSize info, [info.name]⟩]).map (·.length)).sum =
            totalSize info := sum_torrentFiles hwellFormed
        rw [hsum] at hcontiguous
        have hfiles : files.map FileMapping.plan = plans :=
          hplan.trans (Disk.map_plan_unopened plans)
        have hstate : (initialCoordinatorState (.withSelection info.piecesCount l.completed
            l.selection) ⟨l.backend, files, info.pieceLength⟩ l.requiresCheck info.pieces
            info.pieceLength (totalSize info) l.startPaused).disk.shape =
              (plans, info.pieceLength) := by
          unfold initialCoordinatorState
          split <;> exact congrArg (·, info.pieceLength) hfiles
        rw [hstate]
        exact ⟨hcontiguous, rfl⟩

end Tortor.System
