import Tortor.Lib.CanReach
import Tortor.Net.SessionEnding
import Tortor.System.Stranded

/-! As long as no piece is stranded, everything that is underway can be brought to an end without
one. -/

namespace Tortor.System

open Tortor.Core Tortor.Net Tortor.Lib

namespace Swarm

variable {sha1 : List UInt8 → Digest} {codec : ExtensionCodec} {info : TorrentMeta} {s : Swarm}
  {action : Action} {id p : Nat} {peer : ActivePeer}

def Gentle (s : Swarm) : Action → Prop
  | .turn id turn => ∀ peer, s.peers[id]? = some peer → peer.session.drops turn = none
  | .command msg => isSelectionChange msg = false
  | .abort .. | .closeSwarm | .shutdown _ => False
  | _ => True

theorem selects_of_gentle (h : s.Gentle action) : selects action = false := by
  cases action with
  | command => exact h
  | _ => rfl

theorem returns_of_gentle (h : s.Gentle action) : Returns action := by
  cases action with
  | abort => exact h.elim
  | _ => trivial

theorem running_of_gentle (sha1 : List UInt8 → Digest) (codec : ExtensionCodec) (info : TorrentMeta)
    (h : s.Gentle action) :
    (s.step sha1 codec info action).stopped = s.stopped ∧
      (s.step sha1 codec info action).closing = s.closing := by
  have hchange := change_step sha1 codec info s action
  generalize s.step sha1 codec info action = s' at hchange ⊢
  cases hchange with
  | deliver env =>
    obtain ⟨-, hnotices⟩ | ⟨id, reply, -, he, -⟩ := effects_handle env s.coordinator _
    · rw [resume_notices hnotices]
      exact ⟨rfl, rfl⟩
    · rw [resume_answer he, answer]
      split <;> exact ⟨rfl, rfl⟩
  | tick env =>
    rw [resume_notices (Coordinator.checkTick_cases sha1 env s.coordinator).1]
    exact ⟨rfl, rfl⟩
  | closeSwarm | shutdown => exact h.elim
  | _ => exact ⟨rfl, rfl⟩

/-- No piece is stranded, and nothing that is underway can strand one. -/
structure Able (sha1 : List UInt8 → Digest) (codec : ExtensionCodec) (info : TorrentMeta)
    (s : Swarm) : Prop extends Founded sha1 codec info s where
  running : s.stopped = false
  dialing : s.closing = false
  unchanging : s.Unchanging
  served : s.Served
  free : ∀ p, s.manager.isWanted p = true → (s.ledger p).Free MAX_ENDGAME_HOLDERS

theorem able_step (h : s.Able sha1 codec info) (hgentle : s.Gentle action) :
    (s.step sha1 codec info action).Able sha1 codec info := by
  obtain ⟨hstopped, hclosing⟩ := running_of_gentle sha1 codec info hgentle
  have hstill := hstopped.trans h.running
  have hsteady := h.steady h.running
  have honward := onward_step sha1 codec info h.unchanging action
  refine ⟨founded_step h.toFounded action, hstill, hclosing.trans h.dialing,
    unchanging_step h.orderly h.unchanging (selects_of_gentle hgentle),
    served_step hsteady h.served (serves_of_returns (returns_of_gentle hgentle) s) hstill,
    fun p hwanted => ?_⟩
  have hfree := h.free p (by rwa [TorrentManager.isWanted, honward.selection] at hwanted)
  refine (ledger_step hsteady h.served (h.untouched h.running).unclaimed hstill p).free (by decide)
    hfree (fun hloses => ?_) fun hreopens => ?_
  · cases action with
    | turn id turn =>
      obtain ⟨peer, hpeer, hdrops⟩ := hloses
      cases (hgentle peer hpeer).symm.trans hdrops
    | abort => exact hgentle
    | _ => exact hloses
  · cases action with
    | deliver env =>
      obtain ⟨selection, selectedFiles, refetch, rest, hmailbox, -⟩ := hreopens
      cases h.unchanging _ (hmailbox ▸ List.mem_cons_self)
    | _ => exact hreopens

/-- A message in the mailbox is less than one that has yet to be sent. -/
def pending (s : Swarm) : Nat :=
  tally (fun peer => peer.session.remaining) s.peers + s.mailbox.length

theorem remaining_receive (reply : Reply) (session : PeerSession) :
    (session.receive reply).remaining = session.remaining := by
  unfold PeerSession.receive
  split <;> rfl

theorem pending_deliver (hrunning : s.stopped = false) {msg : CoordinatorMsg}
    {rest : List CoordinatorMsg} (hmailbox : s.mailbox = msg :: rest) (env : Env) :
    (s.step sha1 codec info (.deliver env)).pending < s.pending := by
  have hpeers : tally (fun peer => peer.session.remaining)
      (s.step sha1 codec info (.deliver env)).peers =
        tally (fun peer => peer.session.remaining) s.peers := by
    rw [step_deliver hrunning hmailbox]
    obtain ⟨-, hnotices⟩ | ⟨id, reply, -, he, -⟩ := effects_handle env s.coordinator msg
    · rw [resume_notices hnotices]
      exact tally_map fun _ _ => rfl
    · rw [resume_answer he, answer]
      split
      · rfl
      case h_2 peer hpeer => exact tally_set_of_eq hpeer (remaining_receive reply peer.session)
  rw [pending, pending, hpeers, hmailbox, step_deliver hrunning hmailbox, mailbox_resume]
  exact Nat.lt_succ_self _

theorem pending_send (hrunning : s.stopped = false) {msg : CoordinatorMsg}
    {rest : List CoordinatorMsg} (hpeer : s.peers[id]? = some peer)
    (houtbox : peer.session.outbox = msg :: rest) :
    (s.step sha1 codec info (.send id)).pending < s.pending := by
  have hstep : s.step sha1 codec info (.send id) =
      { s.withSession id peer { peer.session with outbox := rest } with
        mailbox := s.mailbox ++ [msg] } := by
    simp [step, sendNext, hpeer, houtbox, hrunning]
  have hless : peer.session.remaining = { peer.session with outbox := rest }.remaining + 2 := by
    rw [PeerSession.remaining, PeerSession.remaining, houtbox, List.length_cons]
    dsimp only
    omega
  rw [hstep]
  generalize { peer.session with outbox := rest } = session at hless ⊢
  have hset := tally_set hpeer (fun peer => peer.session.remaining) { peer with session := session }
  rw [pending, pending, withSession, List.length_append, List.length_singleton]
  dsimp only at hset ⊢
  omega

theorem pending_session {s' : Swarm} {session : PeerSession} (hpeer : s.peers[id]? = some peer)
    (hpeers : s'.peers = (s.withSession id peer session).peers) (hmailbox : s'.mailbox = s.mailbox)
    (hless : session.remaining < peer.session.remaining) : s'.pending < s.pending := by
  have hset := tally_set hpeer (fun peer => peer.session.remaining) { peer with session := session }
  rw [pending, pending, hpeers, hmailbox, withSession]
  dsimp only at hset ⊢
  omega

theorem pending_decreases (h : s.Able sha1 codec info) (hpending : s.pending ≠ 0) :
    ∃ action, s.Gentle action ∧ (s.step sha1 codec info action).pending < s.pending := by
  cases hmailbox : s.mailbox with
  | cons msg rest => exact ⟨.deliver .calm, trivial, pending_deliver h.running hmailbox .calm⟩
  | nil =>
  have hsome : ∃ peer ∈ s.peers, peer.session.remaining ≠ 0 := by
    by_contra hnone
    push Not at hnone
    refine hpending ?_
    rw [pending, tally_eq_zero.mpr hnone, hmailbox]
    rfl
  obtain ⟨peer, hmem, hremaining⟩ := hsome
  obtain ⟨id, hpeer⟩ := List.getElem?_of_mem hmem
  cases houtbox : peer.session.outbox with
  | cons msg rest => exact ⟨.send id, trivial, pending_send h.running hpeer houtbox⟩
  | nil =>
  have hlively := h.orderly.lively h.running
  have hended : peer.session.phase ≠ .ended := fun hended => hremaining (by
    rw [PeerSession.remaining_of_nil houtbox, hended]
    rfl)
  by_cases hdialing : peer.session.phase = .dialing
  · refine ⟨.dialFailed id, trivial, ?_⟩
    have hstep : s.step sha1 codec info (.dialFailed id) =
        s.withSession id peer peer.session.drop := by simp [step, hpeer, hdialing]
    rw [hstep]
    refine pending_session hpeer rfl rfl ?_
    rw [PeerSession.remaining_of_nil houtbox, hdialing]
    exact (show 0 < 8 by decide)
  · refine ⟨.turn id .quitting, fun _ _ => PeerSession.drops_of_stimulus (by rintro ⟨⟩) rfl, ?_⟩
    -- what the session waits for has come
    have hreply (hawaits : peer.session.phase.awaits = true) :
        ∃ reply, peer.session.reply = some reply ∧ peer.session.phase.expects reply := by
      have htickets := (hlively.waits id peer hpeer hended).tickets
      rw [hmailbox, hawaits, PeerSession.asked, houtbox] at htickets
      cases hr : peer.session.reply with
      | none =>
        rw [hr] at htickets
        cases htickets
      | some reply => exact ⟨reply, rfl, h.apt h.running id peer hpeer reply hr⟩
    have hturn : (peer.session.turn (peerContext codec info) sha1 id false .quitting
        s.uploadSlots).1.remaining < peer.session.remaining :=
      PeerSession.remaining_turn houtbox hdialing hended hreply
    have hstep : s.step sha1 codec info (.turn id .quitting) =
        { s.withSession id peer (peer.session.turn (peerContext codec info) sha1 id false .quitting
            s.uploadSlots).1 with
          uploadSlots := (peer.session.turn (peerContext codec info) sha1 id false .quitting
            s.uploadSlots).2 } := by
      simp only [step, hpeer, h.running]
    rw [hstep]
    exact pending_session hpeer rfl rfl hturn

structure Quiet (s : Swarm) : Prop where
  mailbox : s.mailbox = []
  ended : ∀ peer ∈ s.peers, peer.session.phase = .ended
  downloading : s.coordinator.state.isChecking = false

theorem can_drain (h : s.Able sha1 codec info)
    (hchecking : s.coordinator.state.isChecking = false) :
    CanReach (step sha1 codec info) Gentle
      (fun t => t.Able sha1 codec info ∧ s.manager.Onward t.manager ∧ t.Quiet) s := by
  have hdescend : CanReach (step sha1 codec info) Gentle (fun t => (t.Able sha1 codec info ∧
      s.manager.Onward t.manager ∧ t.coordinator.state.isChecking = false) ∧ t.pending = 0) s := by
    refine CanReach.descend pending ?_ ⟨h, .refl _, hchecking⟩
    rintro t ⟨hable, honward, hdownloading⟩ hpending
    obtain ⟨action, hgentle, hless⟩ := pending_decreases hable hpending
    have hnext := able_step hable hgentle
    have hstill : (t.step sha1 codec info action).coordinator.state.isChecking = false :=
      Bool.eq_false_iff.mpr fun hchecking => absurd
        (hdownloading.symm.trans (isChecking_step hchecking hnext.running)) (by rintro ⟨⟩)
    have honward' := honward.trans (onward_step sha1 codec info hable.unchanging action)
    exact .next action hgentle (.here ⟨⟨hnext, honward', hstill⟩, hless⟩)
  refine hdescend.mono fun t ht => ?_
  obtain ⟨⟨hable, honward, hdownloading⟩, hpending⟩ := ht
  rw [pending, Nat.add_eq_zero_iff, List.length_eq_zero_iff] at hpending
  exact ⟨hable, honward, hpending.2, fun peer hmem =>
    PeerSession.ended_of_remaining (tally_eq_zero.mp hpending.1 peer hmem), hdownloading⟩

def unchecked (c : Coordinator) : Nat :=
  match c.state with
  | .checkingFiles manager _ _ _ _ nextPiece => manager.totalPieces - nextPiece + 1
  | .downloadingData .. => 0

theorem unchecked_checkTick (env : Env) {c : Coordinator} (h : unchecked c ≠ 0) :
    unchecked (c.checkTick sha1 env).1 < unchecked c := by
  obtain ⟨state, fs, saved⟩ := c
  cases state with
  | downloadingData => exact absurd rfl h
  | checkingFiles manager disk hashes pieceLength totalLength index =>
    have htotal (found : Bool) : (if found = true then manager.markCompleted index
        else manager).totalPieces = manager.totalPieces := by
      split
      · exact (TorrentManager.markCompleted_frame manager index).1
      · rfl
    simp only [Coordinator.checkTick]
    split
    · exact Nat.succ_pos _
    · generalize Coordinator.verified sha1 env manager disk hashes pieceLength totalLength index
        fs = found
      have hsame := htotal found
      generalize (if found = true then manager.markCompleted index else manager) = after at hsame ⊢
      split
      · exact Nat.succ_pos _
      · simp only [unchecked]
        omega

theorem downloading_of_unchecked {c : Coordinator} (h : unchecked c = 0) :
    c.state.isChecking = false := by
  obtain ⟨state, fs, saved⟩ := c
  cases state with
  | downloadingData => rfl
  | checkingFiles => cases h

/-- From wherever no piece is stranded the torrent can come to rest. -/
theorem can_rest (h : s.Able sha1 codec info) :
    CanReach (step sha1 codec info) Gentle
      (fun t => t.Able sha1 codec info ∧ s.manager.Onward t.manager ∧ t.Quiet) s := by
  have hdescend : CanReach (step sha1 codec info) Gentle (fun t => (t.Able sha1 codec info ∧
      s.manager.Onward t.manager) ∧ unchecked t.coordinator = 0) s := by
    refine CanReach.descend (fun t : Swarm => unchecked t.coordinator) ?_ ⟨h, .refl _⟩
    rintro t ⟨hable, honward⟩ hunchecked
    have hstep : (t.step sha1 codec info (.tick .calm)).coordinator =
        (t.coordinator.checkTick sha1 .calm).1 := by
      simp only [step, hable.running]
      exact (resume_frame _ _).1
    have hless : unchecked (t.step sha1 codec info (.tick .calm)).coordinator <
        unchecked t.coordinator := by
      rw [hstep]
      exact unchecked_checkTick .calm hunchecked
    have honward' := honward.trans (onward_step sha1 codec info hable.unchanging (.tick .calm))
    exact .next (.tick .calm) trivial (.here ⟨⟨able_step hable trivial, honward'⟩, hless⟩)
  refine hdescend.trans fun t ht => ?_
  obtain ⟨⟨hable, honward⟩, hchecked⟩ := ht
  refine (can_drain hable (downloading_of_unchecked hchecked)).mono fun u hu => ?_
  exact ⟨hu.1, honward.trans hu.2.1, hu.2.2⟩

end Swarm
end Tortor.System
