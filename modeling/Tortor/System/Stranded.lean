import Tortor.System.Hosted
import Tortor.System.Layout
import Tortor.System.Reservations

/-! Pieces that nobody can be handed any more.  When the swarm manager aborts a session, also one
that is about to be handed a piece, the reservation stays; nobody will ever give it back. -/

namespace Tortor.Core

open Tortor.System (isSelectionChange)

structure TorrentManager.Onward (m m' : TorrentManager) : Prop where
  totalPieces : m'.totalPieces = m.totalPieces
  selection : m'.selection = m.selection
  completed : m.completed ⊆ m'.completed

namespace TorrentManager

variable {m m' m'' : TorrentManager}

theorem Onward.refl (m : TorrentManager) : m.Onward m := ⟨rfl, rfl, Finset.Subset.refl _⟩

theorem Onward.trans (h : m.Onward m') (h' : m'.Onward m'') : m.Onward m'' :=
  ⟨h'.totalPieces.trans h.totalPieces, h'.selection.trans h.selection,
    h.completed.trans h'.completed⟩

theorem Alike.onward (h : Alike m m') : m.Onward m' :=
  ⟨h.totalPieces, h.selection, h.completed.symm.subset⟩

theorem onward_markCompleted (m : TorrentManager) (piece : Nat) :
    m.Onward (m.markCompleted piece) := by
  obtain ⟨htotal, hselection, -⟩ := markCompleted_frame m piece
  exact ⟨htotal, hselection, fun p hp => (mem_completed_markCompleted m piece p).mpr (.inl hp)⟩

end TorrentManager

namespace Coordinator

variable {c : Coordinator}

theorem onward_handle (env : Env) {msg : CoordinatorMsg} (hmsg : isSelectionChange msg = false) :
    c.state.manager.Onward (c.handle env msg).1.state.manager ∧
      ∀ p ∈ (c.handle env msg).1.state.manager.completed, p ∈ c.state.manager.completed ∨
        ∃ data, msg = .pieceDownloaded p data := by
  have halike {m : TorrentManager} (h : TorrentManager.Alike c.state.manager m)
      (hm : (c.handle env msg).1.state.manager = m) :
      c.state.manager.Onward (c.handle env msg).1.state.manager ∧
        ∀ p ∈ (c.handle env msg).1.state.manager.completed, p ∈ c.state.manager.completed ∨
          ∃ data, msg = .pieceDownloaded p data := by
    rw [hm]
    exact ⟨h.onward, fun p hp => .inl (h.completed ▸ hp)⟩
  have hsame (h : (c.handle env msg).1.state.manager = c.state.manager) :=
    halike ⟨rfl, rfl, rfl⟩ h
  cases msg with
  | requestWork peerHas reply =>
    obtain ⟨-, he | ⟨-, -, he⟩⟩ := handleRequestWork_cases env c peerHas reply
    · exact hsame (congrArg (·.1.state.manager) he)
    · exact halike (TorrentManager.alike_nextWorkFor _ _ _) he
  | peerBitfield | peerHave | peerGone =>
    refine halike ?_ (manager_mapManager _ _)
    exact ⟨rfl, rfl, rfl⟩
  | pieceDownloaded index data =>
    obtain ⟨-, -, ⟨-, he⟩ | he | he⟩ := handlePieceDownloaded_cases env c index data
    · exact hsame he
    · exact halike (TorrentManager.alike_returnWork _ _) he
    · rw [handle, he]
      refine ⟨TorrentManager.onward_markCompleted _ index, fun p hp => ?_⟩
      obtain hold | ⟨rfl, -⟩ := (TorrentManager.mem_completed_markCompleted _ index p).mp hp
      · exact .inl hold
      · exact .inr ⟨data, rfl⟩
  | pieceFailed index =>
    have hcases : (c.handle env (.pieceFailed index)).1.state.manager =
        c.state.manager.returnWork index ∨
          (c.handle env (.pieceFailed index)).1.state.manager = c.state.manager := by
      simp only [handle]
      split
      · exact .inl (manager_mapManager c (·.returnWork index))
      · exact .inr rfl
    obtain he | he := hcases
    · exact halike (TorrentManager.alike_returnWork _ index) he
    · exact hsame he
  | getCompletedPieces => exact hsame (by simp only [handle]; split <;> rfl)
  | readPiece => exact hsame rfl
  | pause | resume =>
    refine hsame ?_
    simp only [handle]
    split <;> simp_all [CoordinatorState.manager]
  | setSelection => cases hmsg

theorem onward_checkTick (sha1 : List UInt8 → Digest) (env : Env) (c : Coordinator) :
    c.state.manager.Onward (c.checkTick sha1 env).1.state.manager := by
  obtain ⟨-, he | ⟨-, he | ⟨index, he⟩⟩⟩ := checkTick_cases sha1 env c
  · rw [he]
    exact .refl _
  · rw [he]
    exact .refl _
  · rw [he]
    exact TorrentManager.onward_markCompleted _ index

end Coordinator
end Tortor.Core

namespace Tortor.System

open Tortor.Core Tortor.Net Tortor.Lib

namespace Swarm

variable {sha1 : List UInt8 → Digest} {codec : ExtensionCodec} {info : TorrentMeta} {s : Swarm}
  {action : Action} {id p : Nat}

def Unchanging (s : Swarm) : Prop := ∀ msg ∈ s.mailbox, isSelectionChange msg = false

def selects : Action → Bool
  | .command msg => isSelectionChange msg
  | _ => false

theorem manager_shutdown (env : Env) (c : Coordinator) :
    (c.shutdown env).state.manager = c.state.manager := by
  obtain ⟨state, fs, saved⟩ := c
  cases state <;> rfl

theorem onward_step (sha1 : List UInt8 → Digest) (codec : ExtensionCodec) (info : TorrentMeta)
    (hunchanging : s.Unchanging) (action : Action) :
    s.manager.Onward (s.step sha1 codec info action).manager := by
  have hchange := change_step sha1 codec info s action
  generalize s.step sha1 codec info action = s' at hchange ⊢
  cases hchange with
  | deliver env _ hmailbox =>
    rw [manager, manager, (resume_frame _ _).1]
    exact (Coordinator.onward_handle env (hunchanging _ (hmailbox ▸ List.mem_cons_self))).1
  | tick env =>
    rw [manager, manager, (resume_frame _ _).1]
    exact Coordinator.onward_checkTick sha1 env _
  | shutdown env =>
    rw [manager, manager, manager_shutdown]
    exact .refl _
  | _ => exact .refl _

theorem unchanging_step (horderly : s.Orderly sha1 codec info) (h : s.Unchanging)
    (haction : selects action = false) : (s.step sha1 codec info action).Unchanging := by
  have hchange := change_step sha1 codec info s action
  generalize s.step sha1 codec info action = s' at hchange ⊢
  have hmore {msg : CoordinatorMsg} (hmsg : isSelectionChange msg = false) (other : CoordinatorMsg)
      (hm : other ∈ s.mailbox ++ [msg]) : isSelectionChange other = false := by
    obtain hm | hm := List.mem_append.mp hm
    · exact h other hm
    · exact List.mem_singleton.mp hm ▸ hmsg
  cases hchange with
  | send hpeer houtbox =>
    exact hmore (isSelectionChange_posted
      ((horderly.proper _ _ hpeer).posted _ (PeerSession.mem_of_outbox houtbox)))
  | command => exact hmore haction
  | deliver env _ hmailbox =>
    rw [Unchanging, mailbox_resume]
    exact fun msg hm => h msg (hmailbox ▸ List.mem_cons_of_mem _ hm)
  | tick env =>
    rw [Unchanging, mailbox_resume]
    exact h
  | shutdown => exact fun msg hm => absurd hm List.not_mem_nil
  | _ => exact h

def Untouched (s : Swarm) : Prop :=
  s.coordinator.state.isChecking = true → ∀ p, s.manager.reserved p = 0 ∧ s.held p = 0

theorem Untouched.unclaimed (h : s.Untouched) : s.Unclaimed := fun hchecking p => (h hchecking p).2

/-- Every step is a move in the books, or a piece is reserved for a session that is over. -/
theorem ledger_step_any (hsteady : s.Steady sha1 codec info) (huntouched : s.Untouched)
    (hstill : (s.step sha1 codec info action).stopped = false) (p : Nat) :
    (s.ledger p).Move (s.rules p action) ((s.step sha1 codec info action).ledger p) ∨
      s.coordinator.state.isChecking = false ∧ (s.step sha1 codec info action).ledger p =
        { s.ledger p with reserved := (s.ledger p).reserved + 1 } := by
  by_cases hdelivers : ∃ env msg rest, action = .deliver env ∧ s.mailbox = msg :: rest
  case neg =>
    exact .inl (ledger_aside hsteady hstill
      (fun env msg rest he hmailbox => hdelivers ⟨env, msg, rest, he, hmailbox⟩) p)
  case pos =>
  obtain ⟨env, msg, rest, rfl, hmailbox⟩ := hdelivers
  rw [step_deliver (running_of_step hstill) hmailbox]
  obtain ⟨hnobody, hnotices⟩ | ⟨id, reply, hid, he, hexpects⟩ :=
    effects_handle env s.coordinator msg
  · exact .inl (ledger_notice hsteady huntouched.unclaimed env hmailbox hnobody hnotices)
  obtain ⟨hmove, -⟩ := Coordinator.move_request (r := s.rules p (.deliver env)) (p := p)
    hsteady.inv (s.held p) env hid he fun h => h
  by_cases hhaunted : ∃ peer, s.peers[id]? = some peer ∧ peer.session.phase = .ended
  case neg =>
    have hheld := held_deliver_of hsteady env hmailbox hid hexpects
      (fun peer hpeer hphase => absurd ⟨peer, hpeer, hphase⟩ hhaunted) p
    rw [resume_answer he, ledger, ledger, coordinator_answer, hheld]
    exact .inl hmove
  case pos =>
  obtain ⟨peer, hpeer, hphase⟩ := hhaunted
  have hanswer : ({ s with mailbox := rest, coordinator := (s.coordinator.handle env msg).1 }.answer
      id reply).held p = s.held p := by
    have htaken := held_taken hmailbox p
    rw [Coordinator.claims_of_replyTo hid, Nat.add_zero] at htaken
    rw [htaken, answer]
    dsimp only
    rw [hpeer]
    dsimp only
    rw [PeerSession.receive_ended hphase]
    exact held_withSession_of_eq
      (s := { s with mailbox := rest, coordinator := (s.coordinator.handle env msg).1 }) hpeer rfl
  rw [resume_answer he, ledger, ledger, coordinator_answer, hanswer]
  obtain ⟨hquiet, hpiece⟩ | ⟨peerHas, -, hdownloading, hnext, hpiece⟩ :=
    Coordinator.request_cases env hid he
  · rw [Coordinator.books_of_alike (congrArg (·.completed) hquiet)
      (congrArg (·.reserved p) hquiet)]
    exact .inl .still
  · have hreserved := (hsteady.inv.reserved_nextWorkFor peerHas env.rng).2 p
    rw [manager, ← hnext, ← hpiece] at hreserved
    have hcompleted : (s.coordinator.handle env msg).1.state.manager.completed =
        s.coordinator.state.manager.completed := by
      rw [hnext]
      exact (TorrentManager.alike_nextWorkFor ..).completed
    split at hreserved
    · refine .inr ⟨hdownloading, ?_⟩
      rw [Coordinator.books, hcompleted, hreserved]
      rfl
    · rw [Coordinator.books_of_alike hcompleted hreserved]
      exact .inl .still

theorem untouched_step (hsteady : s.Steady sha1 codec info) (h : s.Untouched)
    (hstill : (s.step sha1 codec info action).stopped = false) :
    (s.step sha1 codec info action).Untouched := by
  intro hchecking p
  have hbefore := isChecking_step hchecking hstill
  have htake : ¬ (s.rules p action).Take := fun h => absurd (hbefore.symm.trans h) nofun
  obtain ⟨hreserved, hheld⟩ := h hbefore p
  obtain hmove | ⟨hdownloading, -⟩ := ledger_step_any hsteady h hstill p
  · exact ⟨Nat.eq_zero_of_le_zero ((hmove.reserved_le htake).trans_eq hreserved),
      Nat.eq_zero_of_le_zero ((hmove.held_le htake).trans_eq hheld)⟩
  · cases hbefore.symm.trans hdownloading

theorem untouched_start {n : Nat} {completed : List Nat} {selection : Selection}
    (coordinator : Coordinator)
    (h : (Swarm.start coordinator).manager = .withSelection n completed selection) :
    (Swarm.start coordinator).Untouched := by
  intro _ p
  rw [h]
  exact ⟨rfl, rfl⟩

/-! What holds of every run, also of one in which sessions are aborted. -/

def Apt (session : PeerSession) : Prop :=
  ∀ reply, session.reply = some reply → session.phase.expects reply = true

theorem apt_of_silent {session : PeerSession} (h : session.reply = none) : Apt session := by
  intro reply hreply
  cases h.symm.trans hreply

theorem apt_step (horderly : s.Orderly sha1 codec info) (h : Each (fun _ => Apt) s.peers)
    (hstill : (s.step sha1 codec info action).stopped = false) :
    Each (fun _ => Apt) (s.step sha1 codec info action).peers := by
  have hlively := horderly.lively (running_of_step hstill)
  have hchange := change_step sha1 codec info s action
  generalize s.step sha1 codec info action = s' at hchange hstill ⊢
  have hset {id : Nat} {peer : ActivePeer} (hpeer : Apt peer.session) :
      Each (fun _ => Apt) (s.peers.set id peer) :=
    Each.set (fun i other hi _ => h i other hi) hpeer
  have hinform (events : List SessionEvent) :
      Each (fun _ => Apt) (s.peers.map (·.inform events)) := h.map fun _ _ hold => hold
  cases hchange with
  | idle | command | closeSwarm => exact h
  | shutdown => cases hstill
  | refuse _ _ hstopped => exact absurd (hstill.symm.trans hstopped) nofun
  | dial => exact h.append (apt_of_silent rfl)
  | connect supportsExtensions turn hpeer hphase =>
    refine hset (apt_of_silent ?_)
    obtain ⟨sent, he⟩ := PeerSession.connect_eq (peerContext codec info) _ supportsExtensions turn _
    dsimp only
    rw [he]
    exact (hlively.valid _ _ hpeer).silent (by rw [hphase]; rfl)
  | dialFailed | abort => exact hset (apt_of_silent rfl)
  | turn turn hpeer hresult =>
    refine hset ?_
    dsimp only
    rw [hresult]
    obtain he | hnone := PeerSession.reply_turn (hlively.valid _ _ hpeer) s.stopped turn
      s.uploadSlots
    · rw [he]
      exact h _ _ hpeer
    · exact apt_of_silent hnone
  | @send id peer msg rest hpeer =>
    have hold : Apt peer.session := h id peer hpeer
    exact hset hold
  | @progress id peer now hpeer =>
    have hold : Apt peer.session := h id peer hpeer
    exact hset hold
  | deliver env hrunning hmailbox =>
    obtain ⟨-, hnotices⟩ | ⟨id, reply, hid, he, hexpects⟩ := effects_handle env s.coordinator _
    · rw [resume_notices hnotices]
      exact hinform _
    · rw [resume_answer he, answer]
      dsimp only
      split
      · exact h
      case h_2 peer hpeer =>
        refine hset fun other hother => ?_
        by_cases hphase : peer.session.phase = .ended
        · dsimp only at hother ⊢
          rw [PeerSession.receive_ended hphase] at hother ⊢
          exact h _ _ hpeer other hother
        · have hwaits := hlively.waits id peer hpeer hphase
          rw [hmailbox] at hwaits
          obtain ⟨hopen, -, -, -⟩ := hwaits.receive (hlively.valid id peer hpeer) hid hexpects
          dsimp only at hother ⊢
          rw [PeerSession.receive_eq hopen] at hother ⊢
          cases hother
          exact hopen
  | tick env =>
    rw [resume_notices (Coordinator.checkTick_cases sha1 env s.coordinator).1]
    exact hinform _

structure Founded (sha1 : List UInt8 → Digest) (codec : ExtensionCodec) (info : TorrentMeta)
    (s : Swarm) : Prop where
  orderly : s.Orderly sha1 codec info
  inv : s.manager.Inv
  totalPieces : s.manager.totalPieces ≤ info.pieces.length
  apt : s.stopped = false → Each (fun _ => Apt) s.peers
  untouched : s.stopped = false → s.Untouched
  pieceLength : s.coordinator.state.disk.shape.2 = info.pieceLength
  contiguous : Contiguous s.coordinator.state.disk.shape.1 0 (totalSize info)

theorem Founded.steady (h : s.Founded sha1 codec info) (hrunning : s.stopped = false) :
    s.Steady sha1 codec info :=
  ⟨h.orderly.lively hrunning, h.inv, h.totalPieces⟩

theorem founded_step (h : s.Founded sha1 codec info) (action : Action) :
    (s.step sha1 codec info action).Founded sha1 codec info where
  orderly := orderly_step h.orderly action
  inv := inv_step h.inv
  totalPieces := (totalPieces_step sha1 codec info s action).trans_le h.totalPieces
  apt hstill := apt_step h.orderly (h.apt (running_of_step hstill)) hstill
  untouched hstill :=
    untouched_step (h.steady (running_of_step hstill)) (h.untouched (running_of_step hstill)) hstill
  pieceLength := shape_step sha1 codec info s action ▸ h.pieceLength
  contiguous := shape_step sha1 codec info s action ▸ h.contiguous

theorem founded_start (sha1 : List UInt8 → Digest) (codec : ExtensionCodec) {l : Launch}
    {fs : FileStore Path} {task : BackgroundTask}
    (haccepted : ∃ raw infoHash, buildMeta l.windows raw infoHash = .ok info)
    (hlaunch : launch info l fs = some task) :
    (Swarm.start task.coordinator).Founded sha1 codec info := by
  have hsteady := steady_start sha1 codec haccepted hlaunch
  obtain ⟨hcontiguous, hlength⟩ := contiguous_launch haccepted hlaunch
  exact ⟨orderly_start sha1 codec info _, hsteady.inv, hsteady.totalPieces, fun _ => Each.nil _,
    fun _ => untouched_start _ (manager_launch hlaunch), hlength, hcontiguous⟩

/-- All that may work on the piece are gone without a word, and no more are let in. -/
structure Stranded (p : Nat) (s : Swarm) : Prop where
  wanted : s.manager.isWanted p = true
  missing : p ∉ s.manager.completed
  reserved : s.manager.reserved p = MAX_ENDGAME_HOLDERS
  held : s.held p = 0

theorem reserved_le (h : s.manager.Inv) (p : Nat) : s.manager.reserved p ≤ MAX_ENDGAME_HOLDERS := by
  unfold TorrentManager.reserved
  cases hlookup : s.manager.inProgress.lookup p with
  | none => exact Nat.zero_le _
  | some n => exact (h.held_count p n hlookup).2

theorem lt_of_stranded (h : s.manager.Inv) (hstranded : s.Stranded p) :
    p < s.manager.totalPieces := by
  have hreserved := hstranded.reserved
  unfold TorrentManager.reserved at hreserved
  cases hlookup : s.manager.inProgress.lookup p with
  | none =>
    rw [hlookup] at hreserved
    cases hreserved
  | some n => exact h.held_lt p n hlookup

theorem downloading_of_stranded (huntouched : s.Untouched) (h : s.Stranded p) :
    s.coordinator.state.isChecking = false := by
  cases hchecking : s.coordinator.state.isChecking with
  | false => rfl
  | true =>
    have hzero := (huntouched hchecking p).1
    rw [h.reserved] at hzero
    cases hzero

/-- Nobody brings a stranded piece, since a message that does is a claim on it. -/
theorem missing_step (sha1 : List UInt8 → Digest) (codec : ExtensionCodec) (info : TorrentMeta)
    (huntouched : s.Untouched) (hunchanging : s.Unchanging) (action : Action)
    (h : s.Stranded p) : p ∉ (s.step sha1 codec info action).manager.completed := by
  have hchange := change_step sha1 codec info s action
  generalize s.step sha1 codec info action = s' at hchange ⊢
  cases hchange with
  | deliver env _ hmailbox =>
    rw [manager, (resume_frame _ _).1]
    intro hp
    obtain hold | ⟨data, rfl⟩ :=
      (Coordinator.onward_handle env (hunchanging _ (hmailbox ▸ List.mem_cons_self))).2 p hp
    · exact h.missing hold
    · have htaken := held_taken hmailbox p
      have hclaim : Coordinator.claims p (.pieceDownloaded p data) = 1 := if_pos rfl
      rw [h.held, hclaim] at htaken
      cases htaken
  | tick env =>
    rw [manager, (resume_frame _ _).1]
    obtain ⟨-, he | ⟨hchecking, -⟩⟩ := Coordinator.checkTick_cases sha1 env s.coordinator
    · rw [he]
      exact h.missing
    · cases hchecking.symm.trans (downloading_of_stranded huntouched h)
  | shutdown env =>
    rw [manager, manager_shutdown]
    exact h.missing
  | _ => exact h.missing

theorem ledger_of_stranded (h : s.Stranded p) : s.ledger p = ⟨false, MAX_ENDGAME_HOLDERS, 0⟩ := by
  have hdone : decide (p ∈ s.coordinator.state.manager.completed) = false :=
    decide_eq_false h.missing
  rw [ledger, Coordinator.books, ← h.reserved, ← h.held, hdone]
  rfl

theorem stranded_step (hsteady : s.Steady sha1 codec info) (huntouched : s.Untouched)
    (hunchanging : s.Unchanging) (hstill : (s.step sha1 codec info action).stopped = false)
    (h : s.Stranded p) : (s.step sha1 codec info action).Stranded p := by
  have honward := onward_step sha1 codec info hunchanging action
  have hmissing := missing_step sha1 codec info huntouched hunchanging action h
  have hfull := reserved_le (steady_step hsteady hstill).inv p
  have hsettled : (s.step sha1 codec info action).manager.reserved p = MAX_ENDGAME_HOLDERS ∧
      (s.step sha1 codec info action).held p = 0 := by
    obtain hmove | ⟨-, he⟩ := ledger_step_any hsteady huntouched hstill p
    · rw [ledger_of_stranded h] at hmove
      generalize hbooks : (s.step sha1 codec info action).ledger p = books at hmove
      have hreserved := congrArg Ledger.reserved hbooks
      have hheld := congrArg Ledger.held hbooks
      cases hmove with
      | still | reopen => exact ⟨hreserved, hheld⟩
      | take => exact absurd (hreserved.symm.trans_le hfull) (Nat.not_succ_le_self _)
      | giveBack hholder => cases hholder
      | settle => exact absurd (of_decide_eq_true (congrArg Ledger.done hbooks)) hmissing
      | lose hle => exact ⟨hreserved, Nat.eq_zero_of_le_zero (hheld.trans_le hle)⟩
    · rw [ledger_of_stranded h] at he
      have hreserved := congrArg Ledger.reserved he
      exact absurd (hreserved.symm.trans_le hfull) (Nat.not_succ_le_self _)
  have hwanted : (s.step sha1 codec info action).manager.isWanted p = true := by
    rw [TorrentManager.isWanted, honward.selection]
    exact h.wanted
  exact ⟨hwanted, hmissing, hsettled.1, hsettled.2⟩

end Swarm
end Tortor.System
