import Tortor.Net.UploadSharing
import Tortor.System.Availability
import Tortor.System.Reservations

/-! What is left of the sessions when all of them are over.  A session that returns gives back what
it has; one that is aborted does not. -/

namespace Tortor.System

open Tortor.Core Tortor.Net Tortor.Lib

namespace Swarm

variable {sha1 : List UInt8 → Digest} {codec : ExtensionCodec} {info : TorrentMeta} {s : Swarm}
  {action : Action} {id p : Nat} {peer : ActivePeer} {session : PeerSession}

structure Slotted (sha1 : List UInt8 → Digest) (codec : ExtensionCodec) (info : TorrentMeta)
    (s : Swarm) : Prop where
  valid : Each (fun id session => session.Valid (peerContext codec info) sha1 id) s.peers
  used : s.uploadSlots.used = tally (fun peer => peer.session.holdsUploadSlot.toNat) s.peers

theorem Slotted.set (h : s.Slotted sha1 codec info) (hpeer : s.peers[id]? = some peer)
    (other : ActivePeer) (hvalid : other.session.Valid (peerContext codec info) sha1 id)
    (hheld : other.session.holdsUploadSlot = peer.session.holdsUploadSlot)
    {mailbox : List CoordinatorMsg} :
    Slotted sha1 codec info { s with mailbox := mailbox, peers := s.peers.set id other } where
  valid := Each.set (fun i other hi _ => h.valid i other hi) hvalid
  used := h.used.trans (tally_set_of_eq hpeer (by rw [hheld])).symm

theorem slots_inform (events : List SessionEvent) (peers : List ActivePeer) :
    tally (fun peer => peer.session.holdsUploadSlot.toNat) (peers.map (·.inform events)) =
      tally (fun peer => peer.session.holdsUploadSlot.toNat) peers := tally_map fun _ _ => rfl

theorem slots_answer (id : Nat) (reply : Reply) (s : Swarm) :
    (s.answer id reply).uploadSlots = s.uploadSlots ∧
      tally (fun peer => peer.session.holdsUploadSlot.toNat) (s.answer id reply).peers =
        tally (fun peer => peer.session.holdsUploadSlot.toNat) s.peers := by
  unfold answer
  split
  case h_1 => exact ⟨rfl, rfl⟩
  case h_2 peer hpeer =>
    refine ⟨rfl, tally_set_of_eq hpeer ?_⟩
    unfold PeerSession.receive
    split <;> rfl

theorem slotted_step (hsteady : s.stopped = false → s.Steady sha1 codec info)
    (h : s.Slotted sha1 codec info)
    (hhits : s.Hits (fun _ session => session.holdsUploadSlot = false) action) :
    (s.step sha1 codec info action).Slotted sha1 codec info := by
  have hvalid (hrunning : s.stopped = false)
      (hstill : (s.step sha1 codec info action).stopped = false) :=
    (steady_step (hsteady hrunning) hstill).valid
  have hchange := change_step sha1 codec info s action
  generalize s.step sha1 codec info action = s' at hchange hvalid ⊢
  cases hchange with
  | idle | command | closeSwarm | shutdown => exact ⟨h.valid, h.used⟩
  | dial peerAddr now =>
    refine ⟨h.valid.append (PeerSession.valid_new _ sha1 _ peerAddr), ?_⟩
    dsimp only
    rw [tally_append, tally_cons]
    exact h.used
  | connect supportsExtensions turn hpeer hphase =>
    exact h.set hpeer _ (PeerSession.valid_connect (h.valid _ _ hpeer) hphase supportsExtensions turn)
      (PeerSession.holds_connect _ _ _ _ _)
  | @dialFailed id peer hpeer hphase =>
    have hpeerValid := h.valid id peer hpeer
    exact h.set hpeer _ (PeerSession.valid_drop hpeerValid) (hpeerValid.idle (.inl hphase)).2.symm
  | @turn id peer result turn hpeer hresult =>
    have hturned := PeerSession.turned_turn (u := s.uploadSlots) (h.valid id peer hpeer) s.stopped turn
    rw [← hresult] at hturned
    exact ⟨Each.set (fun i other hi _ => h.valid i other hi) hturned.valid,
      used_set (·.session.holdsUploadSlot) hpeer h.used hturned.shifts⟩
  | @send id peer msg rest hpeer houtbox =>
    exact h.set hpeer { peer with session := { peer.session with outbox := rest } }
      (PeerSession.valid_sent (h.valid id peer hpeer) houtbox) rfl
  | @refuse id peer msg rest hpeer houtbox =>
    exact h.set hpeer _ (PeerSession.valid_sendFailed (h.valid id peer hpeer) houtbox)
      (PeerSession.holds_sendFailed msg _)
  | @deliver env msg rest hrunning hmailbox =>
    refine ⟨hvalid hrunning ((resume_frame _ _).2.trans hrunning), ?_⟩
    rcases effects_handle env s.coordinator msg with ⟨-, hnotices⟩ | ⟨id, reply, -, he, -⟩
    · rw [resume_notices hnotices]
      exact h.used.trans (slots_inform _ _).symm
    · rw [resume_answer he, (slots_answer _ _ _).1, (slots_answer _ _ _).2]
      exact h.used
  | tick env hrunning =>
    refine ⟨hvalid hrunning ((resume_frame _ _).2.trans hrunning), ?_⟩
    rw [resume_notices (Coordinator.checkTick_cases sha1 env s.coordinator).1]
    exact h.used.trans (slots_inform _ _).symm
  | @progress id peer now hpeer =>
    exact h.set hpeer { peer with lastProgress := now } (h.valid id peer hpeer) rfl
  | @abort id now peer hpeer hgone =>
    exact h.set hpeer _ (PeerSession.valid_drop (h.valid id peer hpeer)) (hhits peer hpeer hgone).symm

theorem slotted_start (coordinator : Coordinator) :
    (Swarm.start coordinator).Slotted sha1 codec info := ⟨Each.nil _, rfl⟩

/-- Nothing is reserved or counted that nobody will give back. -/
structure Backed (s : Swarm) : Prop where
  covered : ∀ p, (s.ledger p).Covered
  served : s.Served
  unclaimed : s.Unclaimed
  counted : ∀ p < s.manager.totalPieces, s.expected p ≤ tellers p s.peers

structure Frugal (s : Swarm) (action : Action) : Prop where
  loses : ∀ p, s.Loses p action → p ∈ s.manager.completed
  sober : s.Sober action
  serves : s.Serves action
  tells : s.Hits (fun _ session => ∀ p, tells p session = false) action

theorem backed_step (hsteady : s.Steady sha1 codec info) (h : s.Backed) (hfrugal : s.Frugal action)
    (hstill : (s.step sha1 codec info action).stopped = false) :
    (s.step sha1 codec info action).Backed where
  covered p :=
    (ledger_step hsteady h.served h.unclaimed hstill p).covered
      (Coordinator.settled_books hsteady.inv) (h.covered p)
      fun hloses => decide_eq_true (hfrugal.loses p hloses)
  served := served_step hsteady h.served hfrugal.serves hstill
  unclaimed := unclaimed_step hsteady h.served h.unclaimed hstill
  counted p hp := by
    rw [totalPieces_step] at hp
    have hcount := h.counted p hp
    cases recount_step hsteady hfrugal.sober hstill hp with
    | same hexpected htellers => rwa [hexpected, htellers]
    | @send id n peer msg rest hpeer houtbox hexpected hbefore hafter =>
      rw [hbefore] at hcount
      rw [hexpected, hafter]
      exact PeerSession.told_sent_le (hsteady.valid id peer hpeer) houtbox hcount
    | @abort id now peer haction hpeer hgone hexpected htellers =>
      have hsilent : System.tells p peer.session = false := by
        have hhits := hfrugal.tells
        rw [haction] at hhits
        exact hhits peer hpeer hgone p
      rw [hsilent] at htellers
      rw [hexpected]
      exact hcount.trans_eq htellers.symm

theorem backed_start {n : Nat} {completed : List Nat} {selection : Selection}
    (coordinator : Coordinator)
    (h : (Swarm.start coordinator).manager = .withSelection n completed selection) :
    (Swarm.start coordinator).Backed where
  covered p := by
    have hnone : (Swarm.start coordinator).manager.reserved p = 0 := by
      rw [h]
      rfl
    exact Nat.le_of_eq hnone
  served := Each.nil _
  unclaimed _ _ := rfl
  counted p hp := Nat.le_of_eq (counted_start coordinator h p hp)

structure Releases (s : Swarm) (action : Action) : Prop where
  frugal : s.stopped = false → s.Frugal action
  slot : s.Hits (fun _ session => session.holdsUploadSlot = false) action

theorem releases_of_calm (hcalm : s.calm action) (hnews : s.news action) : s.Releases action := by
  have hhits (P : Nat → PeerSession → Prop) : s.Hits P action := by
    cases action with
    | abort => cases hcalm
    | _ => trivial
  exact ⟨fun _ => ⟨fun p => (kept_of_calm hcalm p).1, sober_of_news hnews, hhits _, hhits _⟩, hhits _⟩

end Swarm

/-- When no session is running and the mailbox is empty, nothing is reserved, no piece counts as
available and no upload slot is in use. -/
theorem everything_released {sha1 : List UInt8 → Digest} {codec : ExtensionCodec}
    {info : TorrentMeta} {l : Launch} {fs : FileStore Path} {task : BackgroundTask}
    (haccepted : ∃ raw infoHash, buildMeta l.windows raw infoHash = .ok info)
    (hlaunch : launch info l fs = some task) (actions : List Action)
    (hreleases : Along (Swarm.step sha1 codec info) Swarm.Releases (.start task.coordinator)
      actions) :
    let s := exec (Swarm.step sha1 codec info) (.start task.coordinator) actions
    (∀ peer ∈ s.peers, peer.session.phase = .dialing ∨ peer.session.phase = .ended) →
      s.uploadSlots.used = 0 ∧
        (s.stopped = false → s.mailbox = [] →
          s.manager.inProgress = ∅ ∧ ∀ p, s.manager.availabilityOf p = 0) := by
  intro s hover
  obtain ⟨hslotted, hmanager⟩ : s.Slotted sha1 codec info ∧
      (s.stopped = false → s.Steady sha1 codec info ∧ s.Backed) := by
    refine exec_invariant_along (P := fun s => s.Slotted sha1 codec info ∧
      (s.stopped = false → s.Steady sha1 codec info ∧ s.Backed)) (fun s action h hc => ?_) hreleases
      ⟨Swarm.slotted_start _, fun _ => ⟨Swarm.steady_start sha1 codec haccepted hlaunch,
        Swarm.backed_start _ (Swarm.manager_launch hlaunch)⟩⟩
    refine ⟨Swarm.slotted_step (fun hrunning => (h.2 hrunning).1) h.1 hc.slot, fun hstill => ?_⟩
    have hrunning := Swarm.running_of_step hstill
    obtain ⟨hsteady, hbacked⟩ := h.2 hrunning
    exact ⟨Swarm.steady_step hsteady hstill,
      Swarm.backed_step hsteady hbacked (hc.frugal hrunning) hstill⟩
  refine ⟨?_, fun hrunning hdrained => ?_⟩
  · rw [hslotted.used, tally_eq_zero]
    intro peer hpeer
    obtain ⟨id, hid⟩ := List.getElem?_of_mem hpeer
    rw [((hslotted.valid id peer hid).idle (hover peer hpeer)).2]
    rfl
  · obtain ⟨hsteady, hbacked⟩ := hmanager hrunning
    refine ⟨hsteady.inv.inProgress_eq_empty fun p => ?_, fun p => ?_⟩
    · have hheld : s.held p = 0 := by
        rw [Swarm.held, hdrained, tally_nil, Nat.add_zero, tally_eq_zero]
        intro peer hpeer
        obtain ⟨id, hid⟩ := List.getElem?_of_mem hpeer
        rw [PeerSession.burden_idle (hslotted.valid id peer hid) (hover peer hpeer)]
        rfl
      exact Nat.eq_zero_of_le_zero ((hbacked.covered p).trans_eq hheld)
    · rcases Nat.lt_or_ge p s.manager.totalPieces with hp | hp
      · have hcounted := hbacked.counted p hp
        have htellers : Swarm.tellers p s.peers = 0 := by
          rw [Swarm.tellers, tally_eq_zero]
          intro peer hpeer
          obtain ⟨id, hid⟩ := List.getElem?_of_mem hpeer
          rw [Swarm.tells_idle (hslotted.valid id peer hid) (hover peer hpeer)]
          rfl
        rw [htellers, Swarm.expected, hdrained] at hcounted
        exact Nat.eq_zero_of_le_zero hcounted
      · rw [← hsteady.inv.availability_length] at hp
        rw [TorrentManager.availabilityOf, List.getD_eq_default _ _ hp]

def isOver (peer : ActivePeer) : Bool :=
  match peer.session.phase with
  | .ended => true
  | _ => false

theorem ended_of_isOver {peer : ActivePeer} (h : isOver peer) : peer.session.phase = .ended := by
  revert h
  unfold isOver
  cases peer.session.phase <;> first | exact fun _ => rfl | nofun

def leaveActions : List Action :=
  fetchActions 0 ++ [.turn 0 (turnWith .readFailed), .send 0, .send 0, .deliver .calm,
    .deliver .calm, .turn 0 (turnWith .tick)]

theorem everything_released_leave :
    let s := exec (Swarm.step sameHash noCodec twoPieces) startFresh leaveActions
    s.uploadSlots.used = 0 ∧ s.manager.inProgress = ∅ ∧ ∀ p, s.manager.availabilityOf p = 0 := by
  intro s
  have hreleases : Along (Swarm.step sameHash noCodec twoPieces) Swarm.Releases startFresh
      leaveActions := Along.mono (C := fun s action => (s.calm action && s.news action) = true)
    (fun s action h => Swarm.releases_of_calm (Bool.and_eq_true_iff.mp h).1
      (Bool.and_eq_true_iff.mp h).2) (by decide +kernel)
  have hended : s.peers.all isOver = true := by decide +kernel
  have hover (peer : ActivePeer) (hpeer : peer ∈ s.peers) :
      peer.session.phase = .dialing ∨ peer.session.phase = .ended :=
    .inr (ended_of_isOver (List.all_eq_true.mp hended peer hpeer))
  have h := everything_released (l := freshLaunch) accepted_twoPieces (Option.some_get _).symm
    leaveActions hreleases hover
  exact ⟨h.1, h.2 (by decide +kernel) (by decide +kernel)⟩

/-- A peer that announces a piece and is unchoked, and then does not read any more.  The last
progress is reported before the session gets stuck with a keep-alive. -/
def stuckActions : List Action :=
  [.dial (.v4 0 0) 0, .connect 0 false (turnWith .tick), .send 0, .deliver .calm,
    .turn 0 (turnWith .tick), .turn 0 (turnWith .tick), .turn 0 (turnWith (.message (.have 0))),
    .send 0, .deliver .calm, .turn 0 (turnWith .tick), .turn 0 (turnWith (.message .interested)),
    .turn 0 (turnWith .tick), .progress 0 90000, .abort 0 391000]

/-- When the swarm manager aborts its session, the piece still counts as available, and the
upload slot is lost. -/
theorem abort_keeps_everything : ¬ ∀ actions : List Action,
    let s := exec (Swarm.step sameHash noCodec twoPieces) startFresh actions
    (∀ peer ∈ s.peers, peer.session.phase = .ended) → s.mailbox = [] → s.stopped = false →
      s.manager.inProgress = ∅ ∧ (∀ p, s.manager.availabilityOf p = 0) ∧
        s.uploadSlots.used = 0 := by
  intro h
  let s := exec (Swarm.step sameHash noCodec twoPieces) startFresh stuckActions
  have hended : s.peers.all isOver = true := by decide +kernel
  have hover (peer : ActivePeer) (hpeer : peer ∈ s.peers) : peer.session.phase = .ended :=
    ended_of_isOver (List.all_eq_true.mp hended peer hpeer)
  have hused := (h stuckActions hover (by decide +kernel) (by decide +kernel)).2.2
  revert hused
  decide +kernel

end Tortor.System
