import Tortor.Net.Informed
import Tortor.System.SwarmLaws

/-! What the peers hear about the pieces that can be served.  A piece becomes servable when it is
completed, which goes to every session, or when the selection changes, which does not. -/

namespace Tortor.Core

namespace TorrentManager

variable {m m' : TorrentManager} {p : Nat}

theorem isServable_iff : m.isServable p ↔ p ∈ m.completed ∧ m.selection.unservable.has p = false := by
  simp [isServable, isCompleted]

theorem mem_servablePieces : p ∈ m.servablePieces ↔ m.isServable p := by
  simp [servablePieces, completedPieces, isServable, isCompleted]

theorem Alike.isServable (h : Alike m m') (p : Nat) : m'.isServable p = m.isServable p := by
  rw [TorrentManager.isServable, TorrentManager.isServable, isCompleted, isCompleted, h.completed,
    h.selection]

theorem isServable_markCompleted {piece : Nat} (h : (m.markCompleted piece).isServable p) :
    m.isServable p ∨ p = piece := by
  rw [isServable_iff, mem_completed_markCompleted, (markCompleted_frame m piece).2.1] at h
  rcases h with ⟨hold | hnew, hstored⟩
  · exact .inl (isServable_iff.mpr ⟨hold, hstored⟩)
  · exact .inr hnew.1

end TorrentManager

namespace Coordinator

variable {c : Coordinator} {p : Nat}

theorem announces_handlePieceDownloaded (env : Env) (index : Nat) (data : List UInt8) :
    let r := c.handlePieceDownloaded env index data
    r.1.state.manager.isServable p →
      c.state.manager.isServable p ∨ .announce (.pieceCompleted p) ∈ r.2 := by
  obtain ⟨state, fs, saved⟩ := c
  cases state with
  | checkingFiles => exact .inl
  | downloadingData manager disk paused hasCompleted =>
    simp only [handlePieceDownloaded]
    split
    · exact .inl
    · split
      · intro hserve
        exact .inl ((TorrentManager.alike_returnWork manager index).isServable p ▸ hserve)
      · have hnew (hserve : (manager.markCompleted index).isServable p) :
            manager.isServable p ∨ Effect.announce (.pieceCompleted p) ∈
              if (manager.markCompleted index).isServable index then
                [Effect.announce (.pieceCompleted index)] else [] := by
          rcases TorrentManager.isServable_markCompleted hserve with hold | rfl
          · exact .inl hold
          · exact .inr (by rw [if_pos hserve]; exact List.mem_singleton_self _)
        split
        · exact fun hserve => (hnew hserve).imp_right (List.mem_append_left _)
        · exact hnew

theorem announces_checkTick (sha1 : List UInt8 → Digest) (env : Env) :
    let r := c.checkTick sha1 env
    r.1.state.manager.isServable p →
      c.state.manager.isServable p ∨ .announce (.pieceCompleted p) ∈ r.2 := by
  obtain ⟨state, fs, saved⟩ := c
  cases state with
  | downloadingData => exact .inl
  | checkingFiles manager disk hashes pieceLength totalLength index =>
    simp only [checkTick]
    split
    · exact .inl
    · generalize verified sha1 env manager disk hashes pieceLength totalLength index fs = found
      have hnew (hserve : (if found then manager.markCompleted index else manager).isServable p) :
          manager.isServable p ∨ Effect.announce (.pieceCompleted p) ∈
            if found && (if found then manager.markCompleted index else manager).isServable index
              then [Effect.announce (.pieceCompleted index)] else [] := by
        cases found with
        | false => exact .inl hserve
        | true =>
          rcases TorrentManager.isServable_markCompleted hserve with hold | rfl
          · exact .inl hold
          · refine .inr ?_
            rw [if_pos (by simpa using hserve)]
            exact List.mem_singleton_self _
      generalize (if found then manager.markCompleted index else manager) = after at hnew
      split
      · exact fun hserve => (hnew hserve).imp_right (List.mem_append_left _)
      · exact hnew

theorem announces_handle (env : Env) (msg : CoordinatorMsg)
    (hmsg : ∀ selection selectedFiles refetch, msg ≠ .setSelection selection selectedFiles refetch) :
    let r := c.handle env msg
    r.1.state.manager.isServable p →
      c.state.manager.isServable p ∨ .announce (.pieceCompleted p) ∈ r.2 := by
  have hsame {m : TorrentManager} (h : TorrentManager.Alike c.state.manager m)
      (hserve : m.isServable p) : c.state.manager.isServable p := h.isServable p ▸ hserve
  intro r hserve
  cases msg with
  | requestWork peerHas reply =>
    obtain ⟨-, he | ⟨-, -, he⟩⟩ := handleRequestWork_cases env c peerHas reply
    · left
      have hr : r = _ := he
      rwa [hr] at hserve
    · left
      have hr : r.1.state.manager = _ := he
      rw [hr] at hserve
      exact hsame (TorrentManager.alike_nextWorkFor _ _ _) hserve
  | peerBitfield pieces =>
    left
    have hr : r.1.state.manager = _ := manager_mapManager c (·.addPeerPieces pieces)
    rw [hr] at hserve
    exact hsame ⟨rfl, rfl, rfl⟩ hserve
  | peerHave index =>
    left
    have hr : r.1.state.manager = _ := manager_mapManager c (·.addPeerPiece index)
    rw [hr] at hserve
    exact hsame ⟨rfl, rfl, rfl⟩ hserve
  | peerGone pieces =>
    left
    have hr : r.1.state.manager = _ := manager_mapManager c (·.removePeerPieces pieces)
    rw [hr] at hserve
    exact hsame ⟨rfl, rfl, rfl⟩ hserve
  | pieceDownloaded index data => exact announces_handlePieceDownloaded env index data hserve
  | pieceFailed index =>
    left
    obtain ⟨state, fs, saved⟩ := c
    cases state with
    | checkingFiles => exact hserve
    | downloadingData manager =>
      exact hsame (TorrentManager.alike_returnWork manager index) hserve
  | getCompletedPieces | readPiece | pause | resume =>
    obtain ⟨state, fs, saved⟩ := c
    cases state <;> exact .inl hserve
  | setSelection selection selectedFiles refetch => exact absurd rfl (hmsg _ _ _)

theorem completedPieces_handle {env : Env} {msg : CoordinatorMsg} {id : Nat} {pieces : List Nat}
    (h : .completedPieces id pieces ∈ (c.handle env msg).2) :
    msg = .getCompletedPieces id ∧ (c.handle env msg).1 = c ∧
      (c.state.isChecking = true ∨ pieces = c.state.manager.servablePieces) := by
  rcases System.effects_handle env c msg with ⟨-, hnotices⟩ | ⟨other, reply, hid, he, -⟩
  · cases hnotices _ h
  · cases msg with
    | getCompletedPieces i =>
      obtain ⟨state, fs, saved⟩ := c
      cases state with
      | checkingFiles =>
        cases List.mem_singleton.mp h
        exact ⟨rfl, rfl, .inl rfl⟩
      | downloadingData =>
        cases List.mem_singleton.mp h
        exact ⟨rfl, rfl, .inr rfl⟩
    | requestWork peerHas i =>
      obtain ⟨-, hr | ⟨-, hr, -⟩⟩ := handleRequestWork_cases env c peerHas i
      · rw [handle, hr] at h
        cases List.mem_singleton.mp h
      · rw [handle, hr] at h
        cases List.mem_singleton.mp h
    | readPiece index begin length i =>
      simp only [handle, handleReadPiece] at h
      split at h <;> cases List.mem_singleton.mp h
    | _ => cases hid

end Coordinator
end Tortor.Core

namespace Tortor.System

open Tortor.Core Tortor.Net Tortor.Lib

namespace Swarm

variable {sha1 : List UInt8 → Digest} {codec : ExtensionCodec} {info : TorrentMeta} {s : Swarm}
  {action : Action}

def KeepsUp : Action → Prop
  | .turn _ turn => ∀ missed, turn.stimulus ≠ .lagged missed
  | _ => True

/-- What the coordinator leaves out is not missed: a session that asks during the file check has
been there since the first piece was found, a change of files makes no completed piece
servable, and the writes of a session succeed. -/
def Covered (s : Swarm) : Action → Prop
  | .turn id turn => ∀ peer, s.peers[id]? = some peer →
    ∀ p, s.manager.isServable p → peer.session.Announces turn p
  | .deliver env =>
    match s.mailbox with
    | .getCompletedPieces id :: _ => s.coordinator.state.isChecking →
      ∀ peer, s.peers[id]? = some peer → peer.session.phase = .opening →
        ∀ p, s.manager.isServable p → .pieceCompleted p ∈ peer.session.events
    | .setSelection selection selectedFiles refetch :: _ =>
      (s.coordinator.state.disk.setSelection env.io selectedFiles s.coordinator.fs).1 = true →
      ∀ p ∈ s.manager.completed, (∀ r, refetch.has r → r % 2 ^ 32 ≠ p) →
        selection.unservable.has p = false → s.manager.selection.unservable.has p = false
    | _ => True
  | _ => True

/-- Whatever can be served, every session has told its peer or will. -/
def Told (s : Swarm) : Prop :=
  ∀ p, s.manager.isServable p → Each (fun _ session => session.Informed p) s.peers

theorem announced_of_mem {event : SessionEvent} {effects : List Effect}
    (h : .announce event ∈ effects) : event ∈ announced effects :=
  List.mem_filterMap.mpr ⟨_, h, rfl⟩

theorem informed_inform {peer : ActivePeer} {p : Nat} {events : List SessionEvent}
    (h : peer.session.Informed p ∨ .pieceCompleted p ∈ events) :
    (peer.inform events).session.Informed p := by
  rcases h with h | hevent
  · cases h with
    | gone hphase => exact .gone hphase
    | opening hphase hreply => exact .opening hphase hreply
    | queued hevent => exact .queued (List.mem_append_left _ hevent)
    | announced hsent => exact .announced hsent
  · exact .queued (List.mem_append_right _ hevent)

theorem told_notify {result : Coordinator × List Effect} {mailbox : List CoordinatorMsg}
    (h : s.Told) (hnew : ∀ p, result.1.state.manager.isServable p →
      s.manager.isServable p ∨ .announce (.pieceCompleted p) ∈ result.2) :
    Told { s with
      coordinator := result.1
      mailbox := mailbox
      peers := s.peers.map (·.inform (announced result.2)) } := by
  intro p hserve id peer hpeer
  rw [List.getElem?_map, Option.map_eq_some_iff] at hpeer
  obtain ⟨old, hold, rfl⟩ := hpeer
  apply informed_inform
  rcases hnew p hserve with hserved | hannounced
  · exact .inl (h p hserved id old hold)
  · exact .inr (announced_of_mem hannounced)

theorem servable_deliver {env : Env} {msg : CoordinatorMsg} {rest : List CoordinatorMsg}
    (hmailbox : s.mailbox = msg :: rest) (hcovered : s.Covered (.deliver env)) {p : Nat}
    (hserve : (s.coordinator.handle env msg).1.state.manager.isServable p) :
    s.manager.isServable p ∨
      .announce (.pieceCompleted p) ∈ (s.coordinator.handle env msg).2 := by
  cases msg with
  | setSelection selection selectedFiles refetch =>
    left
    obtain ⟨-, -, he | ⟨hok, he⟩⟩ :=
      Coordinator.handleSetSelection_cases env s.coordinator selection selectedFiles refetch
    · rwa [Coordinator.handle, he] at hserve
    · rw [Coordinator.handle, he, TorrentManager.isServable_iff,
        TorrentManager.mem_completed_applySelection] at hserve
      obtain ⟨⟨hcompleted, hkept⟩, hstored⟩ := hserve
      unfold Covered at hcovered
      rw [hmailbox] at hcovered
      exact TorrentManager.isServable_iff.mpr
        ⟨hcompleted, hcovered hok p hcompleted hkept hstored⟩
  | _ => exact Coordinator.announces_handle env _ (by simp) hserve

theorem answered_deliver {env : Env} {msg : CoordinatorMsg} {rest : List CoordinatorMsg}
    (hmailbox : s.mailbox = msg :: rest) (hcovered : s.Covered (.deliver env)) {id p : Nat}
    {pieces : List Nat} (hserve : s.manager.isServable p)
    (he : (s.coordinator.handle env msg).2 = [answering id (.completedPieces pieces)])
    {peer : ActivePeer} (hpeer : s.peers[id]? = some peer) (hphase : peer.session.phase = .opening) :
    p ∈ pieces ∨ .pieceCompleted p ∈ peer.session.events := by
  have hmem : .completedPieces id pieces ∈ (s.coordinator.handle env msg).2 := by
    rw [he]
    exact List.mem_singleton_self _
  obtain ⟨rfl, -, hchecking | rfl⟩ := Coordinator.completedPieces_handle hmem
  · unfold Covered at hcovered
    rw [hmailbox] at hcovered
    exact .inr (hcovered hchecking peer hpeer hphase p hserve)
  · exact .inl (TorrentManager.mem_servablePieces.mpr hserve)

theorem told_step (hsteady : s.Steady sha1 codec info) (h : s.Told)
    (hkeeps : KeepsUp action) (hcovered : s.Covered action)
    (hstill : (s.step sha1 codec info action).stopped = false) :
    (s.step sha1 codec info action).Told := by
  have hrunning := running_of_step hstill
  have hchange := change_step sha1 codec info s action
  generalize s.step sha1 codec info action = s' at hchange hstill ⊢
  cases hchange with
  | idle => exact h
  | dial peerAddr now => exact fun p hserve => (h p hserve).append (.gone rfl)
  | @connect id peer supportsExtensions turn hpeer hphase =>
    intro p hserve
    exact Each.set (fun i other hi _ => h p hserve i other hi)
      (PeerSession.informed_connect (hsteady.valid id peer hpeer) hphase supportsExtensions turn p)
  | dialFailed => exact fun p hserve => Each.set (fun i other hi _ => h p hserve i other hi) (.gone rfl)
  | abort => exact fun p hserve => Each.set (fun i other hi _ => h p hserve i other hi) (.gone rfl)
  | @turn id peer result turn hpeer hresult =>
    intro p hserve
    refine Each.set (fun i other hi _ => h p hserve i other hi) ?_
    have hlt : p < (peerContext codec info).expectedHashes.length :=
      (hsteady.inv.completed_lt p (TorrentManager.isServable_iff.mp hserve).1).trans_le
        hsteady.totalPieces
    rw [hresult, hrunning]
    exact PeerSession.informed_turn (h p hserve id peer hpeer) hlt hkeeps
      (hcovered peer hpeer p hserve)
  | @send id peer msg rest hpeer =>
    intro p hserve
    refine Each.set (fun i other hi _ => h p hserve i other hi) ?_
    cases h p hserve id peer hpeer with
    | gone hphase => exact .gone hphase
    | opening hphase hreply => exact .opening hphase hreply
    | queued hevent => exact .queued hevent
    | announced hsent => exact .announced hsent
  | refuse hpeer houtbox hstopped => exact absurd (hrunning.symm.trans hstopped) Bool.false_ne_true
  | @deliver env msg rest _ hmailbox =>
    have hnew (p : Nat) := servable_deliver (p := p) hmailbox hcovered
    rcases effects_handle env s.coordinator msg with ⟨-, hnotices⟩ | ⟨id, reply, -, he, -⟩
    · rw [resume_notices hnotices]
      exact told_notify h hnew
    · rw [resume_answer he]
      intro p hserve
      rw [manager, coordinator_answer] at hserve
      have hserved : s.manager.isServable p := by
        refine (hnew p hserve).resolve_right ?_
        rw [he, List.mem_singleton]
        cases reply <;> simp [answering]
      unfold answer
      dsimp only
      split
      case h_1 => exact h p hserved
      case h_2 peer hpeer =>
        refine Each.set (fun i other hi _ => h p hserved i other hi) ?_
        refine PeerSession.informed_receive (h p hserved id peer hpeer) fun hphase pieces hreply => ?_
        rw [hreply] at he
        exact answered_deliver hmailbox hcovered hserved he hpeer hphase
  | tick env =>
    rw [resume_notices (Coordinator.checkTick_cases sha1 env s.coordinator).1]
    exact told_notify h fun p => Coordinator.announces_checkTick sha1 env
  | command => exact h
  | @progress id peer now hpeer =>
    exact fun p hserve => Each.set (fun i other hi _ => h p hserve i other hi) (h p hserve id peer hpeer)
  | closeSwarm => exact h
  | shutdown => cases hstill

end Swarm

/-- While the coordinator runs, a connected session that has opened and handled its events has
announced every piece that can be served. -/
theorem servable_pieces_announced {sha1 : List UInt8 → Digest} {codec : ExtensionCodec}
    {info : TorrentMeta} {l : Launch} {fs : FileStore Path} {task : BackgroundTask}
    (haccepted : ∃ raw infoHash, buildMeta l.windows raw infoHash = .ok info)
    (hlaunch : launch info l fs = some task) (actions : List Action)
    (hkeeps : ∀ action ∈ actions, Swarm.KeepsUp action)
    (hcovered : Along (Swarm.step sha1 codec info) Swarm.Covered (.start task.coordinator) actions) :
    let s := exec (Swarm.step sha1 codec info) (.start task.coordinator) actions
    s.stopped = false → ∀ (id : Nat) (peer : ActivePeer), s.peers[id]? = some peer →
      peer.session.phase.connected → peer.session.phase ≠ .opening → peer.session.events = [] →
        ∀ p, s.manager.isServable p → announces peer.session.sent p := by
  intro s hrunning id peer hpeer hconnected hopened hevents p hserve
  have hsteady := Swarm.steady_start sha1 codec haccepted hlaunch
  have htold : s.Told := by
    refine (Swarm.run_invariant (fun s action hsteady h hc hstill => ?_) hsteady
      (fun _ _ => Swarm.Each.nil _) (Along.and hcovered (along_of_forall hkeeps _)) hrunning).2
    exact Swarm.told_step hsteady h hc.2 hc.1 hstill
  exact (htold p hserve id peer hpeer).announces hconnected hopened hevents

def resumedLaunch : Launch :=
  { plainLaunch none with selection := fileSelection twoPieces none, completed := [0] }

def startResumed : Swarm :=
  .start ((launch twoPieces resumedLaunch fun _ => none).get (by decide +kernel)).coordinator

def openingActions : List Action :=
  [.dial (.v4 0 0) 0, .connect 0 false (turnWith .tick), .send 0, .deliver .calm,
    .turn 0 (turnWith .tick)]

theorem servable_pieces_announced_resumed :
    let s := exec (Swarm.step sameHash noCodec twoPieces) startResumed openingActions
    ∃ peer, s.peers[0]? = some peer ∧ s.manager.isServable 0 ∧ announces peer.session.sent 0 := by
  intro s
  have hkeeps : ∀ action ∈ openingActions, Swarm.KeepsUp action := by
    simp [openingActions, Swarm.KeepsUp, turnWith]
  have hcovered : Along (Swarm.step sameHash noCodec twoPieces) Swarm.Covered startResumed
      openingActions := by
    refine ⟨trivial, trivial, trivial, fun hchecking => ?_, fun peer hpeer p _ _ hphase => ?_, trivial⟩
    · exact absurd hchecking (by decide +kernel)
    · have hat : (exec (Swarm.step sameHash noCodec twoPieces) startResumed
          (openingActions.take 4)).peers[0]? = some peer := hpeer
      have hopening : ((exec (Swarm.step sameHash noCodec twoPieces) startResumed
          (openingActions.take 4)).peers[0]?.all (·.session.phase.awaits)) = true := by
        decide +kernel
      rw [hat, Option.all_some, hphase] at hopening
      cases hopening
  have hpeer : (s.peers[0]?.any fun peer => peer.session.phase.connected &&
      !peer.session.phase.awaits && peer.session.events.isEmpty) = true := by decide +kernel
  obtain ⟨peer, hat, hpeer⟩ := (Option.any_eq_true _ _).mp hpeer
  simp only [Bool.and_eq_true, Bool.not_eq_true', List.isEmpty_iff] at hpeer
  obtain ⟨⟨hconnected, hawaits⟩, hevents⟩ := hpeer
  have hopened : peer.session.phase ≠ .opening := fun he => by
    rw [he] at hawaits
    cases hawaits
  have hserve : s.manager.isServable 0 := by decide +kernel
  refine ⟨peer, hat, hserve, ?_⟩
  exact servable_pieces_announced (l := resumedLaunch) accepted_twoPieces (Option.some_get _).symm
    openingActions hkeeps hcovered (by decide +kernel) 0 peer hat hconnected hopened hevents 0 hserve

def checkedLaunch : Launch :=
  { plainLaunch none with selection := fileSelection twoPieces none, requiresCheck := true }

def startChecked : Swarm :=
  .start ((launch twoPieces checkedLaunch fun _ => none).get (by decide +kernel)).coordinator

/-- The session comes between the check of the first piece and that of the second one. -/
def lateActions : List Action :=
  [.tick .calm, .dial (.v4 0 0) 0, .connect 0 false (turnWith .tick), .send 0, .deliver .calm,
    .turn 0 (turnWith .tick), .turn 0 (turnWith .tick), .tick .calm, .turn 0 (turnWith .event),
    .turn 0 (turnWith .tick), .turn 0 (turnWith .event)]

/-- The first piece is never announced. -/
theorem servable_piece_unannounced : ¬ ∀ actions : List Action,
    (∀ action ∈ actions, Swarm.KeepsUp action) →
      let s := exec (Swarm.step sameHash noCodec twoPieces) startChecked actions
      s.stopped = false → s.coordinator.state.isChecking = false →
        ∀ (id : Nat) (peer : ActivePeer), s.peers[id]? = some peer →
          peer.session.phase.connected → peer.session.phase ≠ .opening →
            peer.session.events = [] → ∀ p, s.manager.isServable p → announces peer.session.sent p := by
  intro h
  let s := exec (Swarm.step sameHash noCodec twoPieces) startChecked lateActions
  have hkeeps : ∀ action ∈ lateActions, Swarm.KeepsUp action := by
    simp [lateActions, Swarm.KeepsUp, turnWith]
  have hpeer : (s.peers[0]?.any fun peer => peer.session.phase.connected &&
      !peer.session.phase.awaits && peer.session.events.isEmpty &&
        !announces peer.session.sent 0) = true := by decide +kernel
  obtain ⟨peer, hat, hpeer⟩ := (Option.any_eq_true _ _).mp hpeer
  simp only [Bool.and_eq_true, Bool.not_eq_true', List.isEmpty_iff] at hpeer
  obtain ⟨⟨⟨hconnected, hawaits⟩, hevents⟩, hsilent⟩ := hpeer
  have hopened : peer.session.phase ≠ .opening := fun he => by
    rw [he] at hawaits
    cases hawaits
  have hannounced := h lateActions hkeeps (by decide +kernel) (by decide +kernel) 0 peer hat
    hconnected hopened hevents 0 (by decide +kernel)
  rw [hsilent] at hannounced
  cases hannounced

end Tortor.System
