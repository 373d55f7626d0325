import Tortor.Core.Coordinator
import Tortor.Core.ManagerLaws

/-! What the coordinator makes of a message, as far as the peer sessions can tell. -/

namespace Tortor.Core

open TorrentManager (Call call)

namespace CoordinatorMsg

def replyTo : CoordinatorMsg → Option Nat
  | requestWork _ reply | getCompletedPieces reply | readPiece _ _ _ reply => some reply
  | _ => none

/-- The piece that comes back from the session that was handed it. -/
def returned : CoordinatorMsg → Option Nat
  | pieceDownloaded index _ | pieceFailed index => some index
  | _ => none

def counted (p n : Nat) : CoordinatorMsg → Nat
  | peerBitfield pieces => if pieces.has p then TorrentManager.saturatingSucc n else n
  | peerHave index => if index = p then TorrentManager.saturatingSucc n else n
  | peerGone pieces => if pieces.has p then n - 1 else n
  | _ => n

attribute [simp] replyTo returned counted

end CoordinatorMsg

def Effect.isNotice : Effect → Bool
  | announce _ | ui _ => true
  | _ => false

def CoordinatorState.isChecking : CoordinatorState → Bool
  | checkingFiles .. => true
  | downloadingData .. => false

namespace Coordinator

theorem manager_mapManager (c : Coordinator) (f : TorrentManager → TorrentManager) :
    (c.mapManager f).state.manager = f c.state.manager := by
  obtain ⟨state, fs, saved⟩ := c
  cases state <;> rfl

theorem isChecking_mapManager (c : Coordinator) (f : TorrentManager → TorrentManager) :
    (c.mapManager f).state.isChecking = c.state.isChecking := by
  obtain ⟨state, fs, saved⟩ := c
  cases state <;> rfl

theorem handlePieceDownloaded_cases (env : Env) (c : Coordinator) (index : Nat)
    (data : List UInt8) :
    let r := c.handlePieceDownloaded env index data
    (∀ e ∈ r.2, e.isNotice) ∧ r.1.state.isChecking = c.state.isChecking ∧
      ((c.state.isChecking = true ∨ index ∈ c.state.manager.completed) ∧
          r.1.state.manager = c.state.manager ∨
        r.1.state.manager = c.state.manager.returnWork index ∨
        r.1.state.manager = c.state.manager.markCompleted index) := by
  obtain ⟨state, fs, saved⟩ := c
  cases state with
  | checkingFiles => exact ⟨List.forall_mem_nil _, rfl, .inl ⟨.inl rfl, rfl⟩⟩
  | downloadingData manager disk paused hasCompleted =>
    simp only [handlePieceDownloaded]
    split
    case isTrue hc =>
      have hmem : index ∈ manager.completed := by
        simpa [TorrentManager.isCompleted] using hc
      exact ⟨List.forall_mem_nil _, rfl, .inl ⟨.inr hmem, rfl⟩⟩
    case isFalse =>
      split
      · exact ⟨List.forall_mem_nil _, rfl, .inr (.inl rfl)⟩
      · have hnotice : ∀ e ∈ (if (manager.markCompleted index).isServable index then
            [Effect.announce (.pieceCompleted index)] else []), e.isNotice := by
          split <;> simp [Effect.isNotice]
        split
        · refine ⟨fun e he => ?_, rfl, .inr (.inr rfl)⟩
          rcases List.mem_append.mp he with he | he
          · exact hnotice e he
          · simp only [List.mem_cons, List.not_mem_nil, or_false] at he
            rcases he with rfl | rfl <;> rfl
        · exact ⟨hnotice, rfl, .inr (.inr rfl)⟩

theorem handleSetSelection_cases (env : Env) (c : Coordinator) (selection : Selection)
    (selectedFiles : List Bool) (refetch : Bitfield) :
    let r := c.handleSetSelection env selection selectedFiles refetch
    (∀ e ∈ r.2, e.isNotice) ∧ r.1.state.isChecking = c.state.isChecking ∧
      (r.1.state.manager = c.state.manager ∨
        (c.state.disk.setSelection env.io selectedFiles c.fs).1 = true ∧
          r.1.state.manager = c.state.manager.applySelection selection refetch) := by
  obtain ⟨state, fs, saved⟩ := c
  simp only [handleSetSelection]
  rcases hset : state.disk.setSelection env.io selectedFiles fs with ⟨_ | _, disk, fs'⟩
  · cases state <;> exact ⟨by simp [Effect.isNotice], rfl, .inl rfl⟩
  · cases state with
    | checkingFiles => exact ⟨by simp [Effect.isNotice], rfl, .inr ⟨rfl, rfl⟩⟩
    | downloadingData manager =>
      refine ⟨fun e he => ?_, rfl, .inr ⟨rfl, rfl⟩⟩
      rcases List.mem_cons.mp he with rfl | he
      · rfl
      · split at he
        · simp only [List.mem_cons, List.not_mem_nil, or_false] at he
          rcases he with rfl | rfl <;> rfl
        · split at he
          · rw [List.mem_singleton.mp he]; rfl
          · simp at he

theorem handleRequestWork_cases (env : Env) (c : Coordinator) (peerHas : Bitfield) (reply : Nat) :
    let r := c.handleRequestWork env peerHas reply
    r.1.state.isChecking = c.state.isChecking ∧
      (r = (c, [.work reply none]) ∨
        c.state.isChecking = false ∧
          r.2 = [.work reply (c.state.manager.nextWorkFor peerHas env.rng).1] ∧
          r.1.state.manager = (c.state.manager.nextWorkFor peerHas env.rng).2) := by
  obtain ⟨state, fs, saved⟩ := c
  cases state with
  | checkingFiles => exact ⟨rfl, .inl rfl⟩
  | downloadingData manager disk paused hasCompleted =>
    cases paused with
    | true => exact ⟨rfl, .inl rfl⟩
    | false => exact ⟨rfl, .inr ⟨rfl, rfl, rfl⟩⟩

/-- One message is at most one call of the manager. -/
theorem handle_calls (env : Env) (c : Coordinator) (msg : CoordinatorMsg) :
    ∃ calls, (c.handle env msg).1.state.manager = Lib.exec call c.state.manager calls := by
  cases msg with
  | requestWork peerHas reply =>
    obtain ⟨-, he | ⟨-, -, he⟩⟩ := handleRequestWork_cases env c peerHas reply
    · exact ⟨[], by rw [handle, he]; rfl⟩
    · exact ⟨[.nextWorkFor peerHas env.rng], he⟩
  | peerBitfield pieces => exact ⟨[.addPeerPieces pieces], manager_mapManager _ _⟩
  | peerHave index => exact ⟨[.addPeerPiece index], manager_mapManager _ _⟩
  | peerGone pieces => exact ⟨[.removePeerPieces pieces], manager_mapManager _ _⟩
  | pieceDownloaded index data =>
    obtain ⟨-, -, ⟨-, he⟩ | he | he⟩ := handlePieceDownloaded_cases env c index data
    exacts [⟨[], he⟩, ⟨[.returnWork index], he⟩, ⟨[.markCompleted index], he⟩]
  | pieceFailed index =>
    simp only [handle]
    split
    exacts [⟨[.returnWork index], manager_mapManager _ _⟩, ⟨[], rfl⟩]
  | getCompletedPieces => simp only [handle]; split <;> exact ⟨[], rfl⟩
  | readPiece => exact ⟨[], rfl⟩
  | pause | resume =>
    obtain ⟨state, fs, saved⟩ := c
    cases state <;> exact ⟨[], rfl⟩
  | setSelection selection selectedFiles refetch =>
    obtain ⟨-, -, he | ⟨-, he⟩⟩ := handleSetSelection_cases env c selection selectedFiles refetch
    exacts [⟨[], he⟩, ⟨[.applySelection selection refetch], he⟩]

theorem isChecking_handle (env : Env) (c : Coordinator) (msg : CoordinatorMsg) :
    (c.handle env msg).1.state.isChecking = c.state.isChecking := by
  cases msg with
  | requestWork peerHas reply => exact (handleRequestWork_cases env c peerHas reply).1
  | peerBitfield | peerHave | peerGone => exact isChecking_mapManager _ _
  | pieceDownloaded index data => exact (handlePieceDownloaded_cases env c index data).2.1
  | pieceFailed => simp only [handle]; split <;> first | exact isChecking_mapManager _ _ | rfl
  | getCompletedPieces => simp only [handle]; split <;> rfl
  | readPiece => rfl
  | pause | resume =>
    obtain ⟨state, fs, saved⟩ := c
    cases state <;> rfl
  | setSelection selection selectedFiles refetch =>
    exact (handleSetSelection_cases env c selection selectedFiles refetch).2.1

theorem availabilityOf_handle (env : Env) {c : Coordinator} (msg : CoordinatorMsg) {p : Nat}
    (hp : p < c.state.manager.availability.length) :
    (c.handle env msg).1.state.manager.availabilityOf p =
      msg.counted p (c.state.manager.availabilityOf p) := by
  have hsame {m : TorrentManager} (h : m.availability = c.state.manager.availability) :
      m.availabilityOf p = c.state.manager.availabilityOf p := by
    rw [TorrentManager.availabilityOf, h, TorrentManager.availabilityOf]
  cases msg with
  | requestWork peerHas reply =>
    obtain ⟨-, he | ⟨-, -, he⟩⟩ := handleRequestWork_cases env c peerHas reply
    · rw [handle, he]; rfl
    · rw [handle, he]; exact hsame (TorrentManager.availability_nextWorkFor _ _ _)
  | peerBitfield pieces =>
    rw [handle, manager_mapManager]; exact TorrentManager.availabilityOf_addPeerPieces _ pieces hp
  | peerHave index =>
    rw [handle, manager_mapManager]; exact TorrentManager.availabilityOf_addPeerPiece _ index hp
  | peerGone pieces =>
    rw [handle, manager_mapManager]; exact TorrentManager.availabilityOf_removePeerPieces _ pieces hp
  | pieceDownloaded index data =>
    obtain ⟨-, -, ⟨-, he⟩ | he | he⟩ := handlePieceDownloaded_cases env c index data <;>
      rw [handle, he]
    exacts [rfl, hsame (TorrentManager.availability_returnWork _ _),
      hsame (TorrentManager.availability_markCompleted _ _)]
  | pieceFailed index =>
    simp only [handle]
    split
    · rw [manager_mapManager]; exact hsame (TorrentManager.availability_returnWork _ _)
    · rfl
  | getCompletedPieces => simp only [handle]; split <;> rfl
  | readPiece => rfl
  | pause | resume =>
    obtain ⟨state, fs, saved⟩ := c
    cases state <;> rfl
  | setSelection selection selectedFiles refetch =>
    obtain ⟨-, -, he | ⟨-, he⟩⟩ := handleSetSelection_cases env c selection selectedFiles refetch
      <;> rw [handle, he] <;> rfl

theorem enterDownloading_spec (manager : TorrentManager) (disk : Disk) :
    (∀ e ∈ (enterDownloading manager disk).2, e.isNotice) ∧
      (enterDownloading manager disk).1.manager = manager := by
  refine ⟨fun e he => ?_, rfl⟩
  simp only [enterDownloading] at he
  split at he <;> simp only [List.mem_append, List.mem_cons, List.not_mem_nil, or_false] at he
  · rcases he with (rfl | rfl) | rfl <;> rfl
  · rcases he with he | rfl
    exacts [he.elim, rfl]

/-- What the file check can do: it completes a piece, announces it, and ends. -/
theorem checkTick_cases (sha1 : List UInt8 → Digest) (env : Env) (c : Coordinator) :
    let r := c.checkTick sha1 env
    (∀ e ∈ r.2, e.isNotice) ∧
      (r = (c, []) ∨ c.state.isChecking = true ∧
        (r.1.state.manager = c.state.manager ∨
          ∃ index, r.1.state.manager = c.state.manager.markCompleted index)) := by
  obtain ⟨state, fs, saved⟩ := c
  cases state with
  | downloadingData => exact ⟨nofun, .inl rfl⟩
  | checkingFiles manager disk hashes pieceLength totalLength index =>
    simp only [checkTick]
    split
    · exact ⟨(enterDownloading_spec manager disk).1, .inr ⟨rfl, .inl rfl⟩⟩
    · generalize verified sha1 env manager disk hashes pieceLength totalLength index fs = found
      have hmanager : (if found then manager.markCompleted index else manager) = manager ∨
          ∃ i, (if found then manager.markCompleted index else manager) =
            manager.markCompleted i := by
        cases found
        exacts [.inl rfl, .inr ⟨index, rfl⟩]
      generalize (if found then manager.markCompleted index else manager) = after at hmanager
      have hnotice : ∀ e ∈ (if found && after.isServable index then
          [Effect.announce (.pieceCompleted index)] else []), e.isNotice := by
        split <;> simp [Effect.isNotice]
      split
      · refine ⟨fun e he => ?_, .inr ⟨rfl, hmanager⟩⟩
        rcases List.mem_append.mp he with he | he
        exacts [hnotice e he, (enterDownloading_spec after disk).1 e he]
      · exact ⟨hnotice, .inr ⟨rfl, hmanager⟩⟩

end Coordinator
end Tortor.Core
