import Tortor.System.SwarmLaws

/-! The manager counts for each piece how many connected peers advertise it.  While messages are
underway the count is behind by what they say. -/

namespace Tortor.System

open Tortor.Core Tortor.Net Tortor.Lib

def tells (p : Nat) (session : PeerSession) : Bool :=
  PeerSession.told session.peerHas session.outbox p

namespace Swarm

variable {sha1 : List UInt8 → Digest} {codec : ExtensionCodec} {info : TorrentMeta} {s : Swarm}
  {action : Action} {id p : Nat} {peer : ActivePeer} {session : PeerSession}

def tellers (p : Nat) (peers : List ActivePeer) : Nat :=
  tally (fun peer => (tells p peer.session).toNat) peers

/-- What the count will be once the mailbox has been worked off. -/
def expected (p : Nat) (s : Swarm) : Nat :=
  s.mailbox.foldl (fun n msg => msg.counted p n) (s.manager.availabilityOf p)

def Counted (s : Swarm) : Prop := ∀ p < s.manager.totalPieces, s.expected p = tellers p s.peers

def Sober (s : Swarm) : Action → Prop
  | .turn id turn => ∀ peer, s.peers[id]? = some peer → ∀ p, peer.session.repeats turn p = false
  | _ => True

theorem tellers_set_of_eq (hpeer : s.peers[id]? = some peer) (h : tells p session = tells p peer.session) :
    tellers p (s.peers.set id { peer with session := session }) = tellers p s.peers :=
  tally_set_of_eq hpeer (by rw [h])

theorem tellers_inform (events : List SessionEvent) (peers : List ActivePeer) :
    tellers p (peers.map (·.inform events)) = tellers p peers := tally_map fun _ _ => rfl

theorem tells_idle (h : session.Valid (peerContext codec info) sha1 id)
    (hphase : session.phase = .dialing ∨ session.phase = .ended) : tells p session = false := by
  rw [tells, (h.idle hphase).1]
  rcases hphase with hphase | hphase <;> exact (h.heard p).trans (by rw [hphase]; rfl)

theorem tells_connect {ctx : PeerContext} (h : session.Valid ctx sha1 id)
    (hphase : session.phase = .dialing) (supportsExtensions : Bool) (turn : Turn) :
    tells p (session.connect ctx id supportsExtensions turn) = tells p session := by
  obtain ⟨sent, heq⟩ := PeerSession.connect_eq ctx id supportsExtensions turn session
  rw [heq, tells, tells, (h.idle (.inl hphase)).1]
  rfl

theorem tells_receive (reply : Reply) (session : PeerSession) :
    tells p (session.receive reply) = tells p session := by
  unfold PeerSession.receive
  split <;> rfl

theorem tellers_answer (id : Nat) (reply : Reply) (s : Swarm) :
    tellers p (s.answer id reply).peers = tellers p s.peers := by
  unfold answer
  split
  case h_1 => rfl
  case h_2 peer hpeer => exact tellers_set_of_eq hpeer (tells_receive reply peer.session)

theorem tellers_le (p : Nat) (peers : List ActivePeer) : tellers p peers ≤ peers.length := by
  rw [tellers, tally_eq_countP fun _ _ => rfl]
  exact List.countP_le_length

theorem counted_command {msg : CoordinatorMsg} (h : isCommand msg) (n : Nat) :
    msg.counted p n = n := by
  cases msg <;> first | rfl | cases h

theorem availabilityOf_checkTick (sha1 : List UInt8 → Digest) (env : Env) (c : Coordinator) (p : Nat) :
    (c.checkTick sha1 env).1.state.manager.availabilityOf p = c.state.manager.availabilityOf p := by
  obtain ⟨-, he | ⟨-, he | ⟨index, he⟩⟩⟩ := Coordinator.checkTick_cases sha1 env c
  · rw [he]
  · rw [he]
  · rw [he, TorrentManager.availabilityOf, TorrentManager.availability_markCompleted,
      TorrentManager.availabilityOf]

inductive Recount (p : Nat) (s : Swarm) (action : Action) (s' : Swarm) : Prop
  | same (expected_eq : s'.expected p = s.expected p)
      (tellers_eq : tellers p s'.peers = tellers p s.peers)
  | send {id n : Nat} {peer : ActivePeer} {msg : CoordinatorMsg} {rest : List CoordinatorMsg}
      (peer_eq : s.peers[id]? = some peer) (outbox_eq : peer.session.outbox = msg :: rest)
      (expected_eq : s'.expected p = msg.counted p (s.expected p))
      (before : tellers p s.peers =
        n + (PeerSession.told peer.session.peerHas peer.session.outbox p).toNat)
      (after : tellers p s'.peers = n + (PeerSession.told peer.session.peerHas rest p).toNat)
  | abort {id now : Nat} {peer : ActivePeer} (action_eq : action = .abort id now)
      (peer_eq : s.peers[id]? = some peer) (gone : (s.closing || expired now peer) = true)
      (expected_eq : s'.expected p = s.expected p)
      (tellers_eq : tellers p s'.peers + (tells p peer.session).toNat = tellers p s.peers)

theorem recount_step (hsteady : s.Steady sha1 codec info) (hsober : s.Sober action)
    (hstill : (s.step sha1 codec info action).stopped = false) (hp : p < s.manager.totalPieces) :
    Recount p s action (s.step sha1 codec info action) := by
  have hrunning := running_of_step hstill
  have hchange := change_step sha1 codec info s action
  generalize s.step sha1 codec info action = s' at hchange hstill ⊢
  cases hchange with
  | idle => exact .same rfl rfl
  | dial peerAddr now =>
    have hnew : tells p (PeerSession.new (peerContext codec info) peerAddr) = false :=
      Bitfield.has_new _ p
    refine .same rfl ?_
    rw [tellers, tally_append, tally_cons, hnew]
    rfl
  | connect supportsExtensions turn hpeer hphase =>
    have hsame := tells_connect (p := p) (hsteady.valid _ _ hpeer) hphase supportsExtensions turn
    exact .same rfl (tellers_set_of_eq hpeer hsame)
  | dialFailed hpeer hphase =>
    have hvalid := hsteady.valid _ _ hpeer
    have hafter := tells_idle (p := p) (PeerSession.valid_drop hvalid) (.inr rfl)
    exact .same rfl (tellers_set_of_eq hpeer (hafter.trans (tells_idle hvalid (.inl hphase)).symm))
  | @abort id now peer hpeer hgone =>
    have hafter := tells_idle (p := p) (PeerSession.valid_drop (hsteady.valid id peer hpeer)) (.inr rfl)
    have hset := tally_set hpeer (fun peer => (tells p peer.session).toNat)
      { peer with session := peer.session.drop }
    rw [hafter] at hset
    exact .abort rfl hpeer hgone rfl hset
  | @turn id peer result turn hpeer hresult =>
    have hvalid := hsteady.valid id peer hpeer
    have hturned := PeerSession.turned_turn (u := s.uploadSlots) hvalid s.stopped turn
    have htold : tells p result.1 = tells p peer.session := by
      rw [hresult, tells, hturned.told_eq p, hsober peer hpeer p]
      rfl
    exact .same rfl (tellers_set_of_eq hpeer htold)
  | @send id peer msg rest hpeer houtbox =>
    let session := { peer.session with outbox := rest }
    have hset : tellers p (s.peers.set id { peer with session := session }) +
        (tells p peer.session).toNat = tellers p s.peers + (tells p session).toNat :=
      tally_set hpeer (fun peer => (tells p peer.session).toNat) { peer with session := session }
    have hle : (tells p peer.session).toNat ≤ tellers p s.peers :=
      le_tally (List.mem_of_getElem? hpeer) fun peer => (tells p peer.session).toNat
    have hbefore : tellers p s.peers =
        tellers p s.peers - (tells p peer.session).toNat + (tells p peer.session).toNat :=
      (Nat.sub_add_cancel hle).symm
    refine .send hpeer houtbox ?_ hbefore ?_
    · exact List.foldl_append ..
    · change tellers p (s.peers.set id { peer with session := session }) =
        tellers p s.peers - (tells p peer.session).toNat + (tells p session).toNat
      omega
  | refuse hpeer houtbox hstopped => exact absurd (hrunning.symm.trans hstopped) nofun
  | @deliver env msg rest _ hmailbox =>
    have hlength : p < s.manager.availability.length := hsteady.inv.availability_length.symm ▸ hp
    have hafter : rest.foldl (fun n msg => msg.counted p n)
        ((s.coordinator.handle env msg).1.state.manager.availabilityOf p) = s.expected p := by
      rw [Coordinator.availabilityOf_handle env msg hlength, expected, hmailbox]
      rfl
    rcases effects_handle env s.coordinator msg with ⟨-, hnotices⟩ | ⟨id, reply, -, he, -⟩
    · rw [resume_notices hnotices]
      exact .same hafter (tellers_inform _ _)
    · rw [resume_answer he]
      refine .same ?_ (tellers_answer _ _ _)
      rw [expected, manager, coordinator_answer, mailbox_answer]
      exact hafter
  | tick env =>
    rw [resume_notices (Coordinator.checkTick_cases sha1 env s.coordinator).1]
    refine .same ?_ (tellers_inform _ _)
    rw [expected, manager, availabilityOf_checkTick]
    rfl
  | @command msg _ hcommand =>
    refine .same ?_ rfl
    change (s.mailbox ++ [msg]).foldl _ _ = _
    rw [List.foldl_append]
    exact counted_command hcommand _
  | @progress id peer now hpeer => exact .same rfl (tally_set_of_eq hpeer rfl)
  | closeSwarm => exact .same rfl rfl
  | shutdown => cases hstill

theorem counted_step (hsteady : s.Steady sha1 codec info) (h : s.Counted)
    (hsober : s.Sober action) (hreturns : Returns action)
    (hfew : (s.step sha1 codec info action).peers.length < 2 ^ 16 - 1)
    (hstill : (s.step sha1 codec info action).stopped = false) :
    (s.step sha1 codec info action).Counted := by
  intro p hp
  rw [totalPieces_step] at hp
  have hcount := h p hp
  have hlength := (length_peers_step sha1 codec info s action).trans_lt hfew
  cases recount_step hsteady hsober hstill hp with
  | same hexpected htellers => rw [hexpected, htellers, hcount]
  | @send id n peer msg rest hpeer houtbox hexpected hbefore hafter =>
    have hn : n < 2 ^ 16 - 1 := by
      have hle := tellers_le p s.peers
      omega
    rw [hexpected, hcount, hbefore, hafter]
    exact PeerSession.told_sent (hsteady.valid id peer hpeer) houtbox p n hn
  | abort haction =>
    subst haction
    exact hreturns.elim

theorem counted_start {n : Nat} {completed : List Nat} {selection : Selection}
    (coordinator : Coordinator)
    (h : (Swarm.start coordinator).manager = .withSelection n completed selection) :
    (Swarm.start coordinator).Counted := by
  intro p hp
  have hzero : (Swarm.start coordinator).manager.availabilityOf p = 0 := by
    rw [h] at hp ⊢
    simp [TorrentManager.availabilityOf, TorrentManager.withSelection]
  exact hzero

/-- Enough for `Sober`, and easily checked. -/
def news (s : Swarm) : Action → Bool
  | .turn id turn =>
    match turn.stimulus with
    | .message (.have index) => s.peers[id]?.all fun peer => !peer.session.peerHas.has index
    | _ => true
  | _ => true

theorem sober_of_news (h : s.news action) : s.Sober action := by
  cases action with
  | turn id turn =>
    intro peer hpeer p
    unfold PeerSession.repeats
    split
    case h_1 index _ hstimulus =>
      rw [news, hstimulus] at h
      dsimp only at h
      rw [hpeer, Option.all_some, Bool.not_eq_true'] at h
      by_cases hp : p = index
      · simp [hp, h]
      · simp [hp]
    case h_2 => exact Bool.and_false _
  | _ => trivial

end Swarm

/-- When the sessions have sent what they had to send and the mailbox is empty, the availability
of a piece is the number of connected peers that advertise it. -/
theorem availability_counts_peers {sha1 : List UInt8 → Digest} {codec : ExtensionCodec}
    {info : TorrentMeta} {l : Launch} {fs : FileStore Path} {task : BackgroundTask}
    (haccepted : ∃ raw infoHash, buildMeta l.windows raw infoHash = .ok info)
    (hlaunch : launch info l fs = some task) (actions : List Action)
    (hreturns : ∀ action ∈ actions, Swarm.Returns action)
    (hsober : Along (Swarm.step sha1 codec info) Swarm.Sober (.start task.coordinator) actions) :
    let s := exec (Swarm.step sha1 codec info) (.start task.coordinator) actions
    s.stopped = false → s.peers.length < 2 ^ 16 - 1 → s.mailbox = [] →
      ((∀ peer ∈ s.peers, peer.session.outbox = []) → ∀ p < s.manager.totalPieces,
        s.manager.availabilityOf p = s.peers.countP fun peer =>
          peer.session.phase.connected && advertises info.pieces.length peer.session.received p) ∧
      ((∀ peer ∈ s.peers, peer.session.phase = .ended) → ∀ p, s.manager.availabilityOf p = 0) := by
  intro s hrunning hfew hdrained
  have hsteady := Swarm.steady_start sha1 codec haccepted hlaunch
  obtain ⟨hs, hcounted⟩ : s.Steady sha1 codec info ∧ (s.peers.length < 2 ^ 16 - 1 → s.Counted) := by
    refine Swarm.run_invariant (I := fun s => s.peers.length < 2 ^ 16 - 1 → s.Counted)
      (fun s action hsteady h hc hstill hfew => ?_) hsteady
      (fun _ => Swarm.counted_start _ (Swarm.manager_launch hlaunch))
      (Along.and hsober (along_of_forall hreturns _)) hrunning
    have hless := (Swarm.length_peers_step sha1 codec info s action).trans_lt hfew
    exact Swarm.counted_step hsteady (h hless) hc.1 hc.2 hfew hstill
  have hcount (p : Nat) (hp : p < s.manager.totalPieces) :
      s.manager.availabilityOf p = s.peers.countP fun peer => tells p peer.session := by
    have h := hcounted hfew p hp
    rw [Swarm.expected, hdrained] at h
    exact h.trans (tally_eq_countP fun _ _ => rfl)
  refine ⟨fun hsent p hp => ?_, fun hended p => ?_⟩
  · rw [hcount p hp]
    refine List.countP_congr fun peer hpeer => ?_
    obtain ⟨id, hid⟩ := List.getElem?_of_mem hpeer
    rw [tells, hsent peer hpeer]
    exact iff_of_eq (congrArg (· = true) ((hs.valid id peer hid).heard p))
  · rcases Nat.lt_or_ge p s.manager.totalPieces with hp | hp
    · rw [hcount p hp, List.countP_eq_zero]
      intro peer hpeer
      obtain ⟨id, hid⟩ := List.getElem?_of_mem hpeer
      rw [Swarm.tells_idle (hs.valid id peer hid) (.inr (hended peer hpeer))]
      nofun
    · rw [← hs.inv.availability_length] at hp
      rw [TorrentManager.availabilityOf, List.getD_eq_default _ _ hp]

def haveActions : List Action :=
  [.dial (.v4 0 0) 0, .connect 0 false (turnWith .tick), .send 0, .deliver .calm,
    .turn 0 (turnWith .tick), .turn 0 (turnWith .tick), .turn 0 (turnWith (.message (.have 0))),
    .send 0, .deliver .calm]

theorem availability_counts_peer :
    let s := exec (Swarm.step sameHash noCodec twoPieces) startFresh haveActions
    s.manager.availabilityOf 0 = s.peers.countP fun peer =>
      peer.session.phase.connected && advertises 2 peer.session.received 0 := by
  intro s
  have hreturns : ∀ action ∈ haveActions, Swarm.Returns action := by decide
  have hsober : Along (Swarm.step sameHash noCodec twoPieces) Swarm.Sober startFresh haveActions :=
    Along.mono (C := fun s action => s.news action = true) (fun _ _ => Swarm.sober_of_news)
      (by decide +kernel)
  exact (availability_counts_peers (l := freshLaunch) accepted_twoPieces (Option.some_get _).symm
    haveActions hreturns hsober (by decide +kernel) (by decide +kernel) (by decide +kernel)).1
    (by decide +kernel) 0 (by decide +kernel)

/-- When it announces the piece once more, it counts twice. -/
theorem availability_drifts : ¬ ∀ actions : List Action,
    (∀ action ∈ actions, Swarm.Returns action) →
      let s := exec (Swarm.step sameHash noCodec twoPieces) startFresh actions
      s.stopped = false → s.peers.length < 2 ^ 16 - 1 → s.mailbox = [] →
        (∀ peer ∈ s.peers, peer.session.outbox = []) → ∀ p < s.manager.totalPieces,
          s.manager.availabilityOf p = s.peers.countP fun peer =>
            peer.session.phase.connected && advertises 2 peer.session.received p := by
  intro h
  let actions := haveActions ++ [.turn 0 (turnWith .tick),
    .turn 0 (turnWith (.message (.have 0))), .send 0, .deliver .calm]
  have hreturns : ∀ action ∈ actions, Swarm.Returns action := by decide
  have hcount := h actions hreturns (by decide +kernel) (by decide +kernel) (by decide +kernel)
    (by decide +kernel) 0 (by decide +kernel)
  revert hcount
  decide +kernel

end Tortor.System
