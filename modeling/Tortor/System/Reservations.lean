import Tortor.Lib.Ledger
import Tortor.System.SwarmLaws

/-! The reservations of the manager against the claims of the sessions.  A session holds a claim
on the piece it was handed until the message that gives it back has been handled. -/

namespace Tortor.Core.Coordinator

open Tortor.Lib (Ledger)
open Tortor.Net (Reply)
open Tortor.System (answering)

variable {c : Coordinator} {r : Ledger.Rules} {p held : Nat}

def books (p : Nat) (c : Coordinator) (held : Nat) : Ledger :=
  ⟨decide (p ∈ c.state.manager.completed), c.state.manager.reserved p, held⟩

theorem books_of_alike {c' : Coordinator}
    (hcompleted : c'.state.manager.completed = c.state.manager.completed)
    (hreserved : c'.state.manager.reserved p = c.state.manager.reserved p) :
    c'.books p held = c.books p held := by
  rw [books, books, hcompleted, hreserved]

theorem settled_books (h : c.state.manager.Inv) : (c.books p held).Settled :=
  fun hdone => h.reserved_of_completed (of_decide_eq_true hdone)

/-- The claims on `p` that end when the message has been handled. -/
def claims (p : Nat) (msg : CoordinatorMsg) : Nat := if msg.returned = some p then 1 else 0

theorem claims_of_returned {msg : CoordinatorMsg} (h : msg.returned = none) : claims p msg = 0 :=
  if_neg (by rw [h]; nofun)

theorem claims_eq_count (msg : CoordinatorMsg) : claims p msg = msg.returned.toList.count p := by
  unfold claims
  cases msg.returned <;> simp [List.count_cons]

theorem claims_of_replyTo {msg : CoordinatorMsg} {id : Nat} (h : msg.replyTo = some id) :
    claims p msg = 0 := by
  cases msg <;> first | rfl | cases h

theorem move_unreserved (hnone : c.state.manager.reserved p = 0) :
    (c.books p (held + 1)).Move r (c.books p held) := by
  have hsame : c.books p held =
      ⟨decide (p ∈ c.state.manager.completed), c.state.manager.reserved p - 1, held⟩ := by
    rw [books, hnone]
  rw [hsame]
  exact .giveBack rfl

theorem move_returnWork {c' : Coordinator} {index : Nat}
    (h : c'.state.manager = c.state.manager.returnWork index) :
    (c.books p (held + if index = p then 1 else 0)).Move r (c'.books p held) := by
  have hcompleted : c'.state.manager.completed = c.state.manager.completed :=
    h ▸ (TorrentManager.alike_returnWork _ _).completed
  have hreserved := TorrentManager.reserved_returnWork c.state.manager index p
  rw [← h] at hreserved
  by_cases hp : p = index
  · rw [if_pos hp] at hreserved
    have hsame : c'.books p held =
        ⟨decide (p ∈ c.state.manager.completed), c.state.manager.reserved p - 1, held⟩ := by
      rw [books, hcompleted, hreserved]
    rw [if_pos hp.symm, hsame]
    exact .giveBack rfl
  · rw [if_neg hp] at hreserved
    rw [if_neg fun he => hp he.symm, books_of_alike hcompleted hreserved]
    exact .still

theorem move_markCompleted (hinv : c.state.manager.Inv) {c' : Coordinator} {index n : Nat}
    (h : c'.state.manager = c.state.manager.markCompleted index)
    (hn : n = 0 ∨ n = if index = p then 1 else 0) :
    (c.books p (held + n)).Move r (c'.books p held) := by
  have hreserved := TorrentManager.reserved_markCompleted c.state.manager index p
  have hcompleted := TorrentManager.mem_completed_markCompleted c.state.manager index p
  rw [← h] at hreserved hcompleted
  by_cases hp : p = index ∧ index < c.state.manager.totalPieces
  · have hdone : decide (p ∈ c'.state.manager.completed) = true :=
      decide_eq_true (hcompleted.mpr (.inr hp))
    rw [if_pos hp] at hreserved
    rw [show c'.books p held = ⟨true, 0, held⟩ by rw [books, hdone, hreserved]]
    exact .settle (Nat.le_add_right _ _)
  · have hsame : c'.books p held = c.books p held := by
      rw [if_neg hp] at hreserved
      rw [books, books, hreserved]
      simp only [hcompleted, hp, or_false]
    rw [hsame]
    by_cases hindex : index = p
    · -- A piece that does not exist is not reserved.
      have hnone : c.state.manager.reserved p = 0 := by
        unfold TorrentManager.reserved
        cases hl : c.state.manager.inProgress.lookup p with
        | none => rfl
        | some count => exact absurd ⟨hindex.symm, hindex ▸ hinv.held_lt p count hl⟩ hp
      rcases hn with rfl | rfl
      · exact .still
      · rw [if_pos hindex]
        exact move_unreserved hnone
    · rcases hn with rfl | rfl
      · exact .still
      · rw [if_neg hindex]
        exact .still

theorem move_applySelection {c' : Coordinator} {selection : Selection} {refetch : Bitfield}
    (h : c'.state.manager = c.state.manager.applySelection selection refetch)
    (hreopen : p ∈ c.state.manager.completed → (∃ i, refetch.has i ∧ i % 2 ^ 32 = p) → r.Reopen) :
    (c.books p held).Move r (c'.books p held) := by
  have hmem : p ∈ c'.state.manager.completed ↔
      p ∈ c.state.manager.completed ∧ ∀ i, refetch.has i → i % 2 ^ 32 ≠ p := by
    rw [h]
    exact TorrentManager.mem_completed_applySelection
  have hreserved : c'.state.manager.reserved p = c.state.manager.reserved p := by
    rw [h]
    rfl
  by_cases hlost : p ∈ c.state.manager.completed ∧ ∃ i, refetch.has i ∧ i % 2 ^ 32 = p
  · have hgone : decide (p ∈ c'.state.manager.completed) = false := by
      obtain ⟨i, hi, hmod⟩ := hlost.2
      exact decide_eq_false fun hp => (hmem.mp hp).2 i hi hmod
    have hsame : c'.books p held = ⟨false, c.state.manager.reserved p, held⟩ := by
      rw [books, hgone, hreserved]
    rw [hsame]
    exact .reopen (hreopen hlost.1 hlost.2)
  · have hkept : p ∈ c'.state.manager.completed ↔ p ∈ c.state.manager.completed := by
      rw [hmem]
      exact ⟨And.left, fun hp => ⟨hp, fun i hi hmod => hlost ⟨hp, i, hi, hmod⟩⟩⟩
    have hsame : c'.books p held = c.books p held := by
      rw [books, books, hreserved]
      simp only [hkept]
    rw [hsame]
    exact .still

/-- A message that nobody waits for takes back the claim that it stands for. -/
theorem move_handle (hinv : c.state.manager.Inv) (env : Env) {msg : CoordinatorMsg}
    (hnobody : msg.replyTo = none)
    (hheld : msg.returned = some p → c.state.isChecking = false)
    (hreopen : ∀ selection selectedFiles refetch,
      msg = .setSelection selection selectedFiles refetch →
        (c.state.disk.setSelection env.io selectedFiles c.fs).1 = true →
          p ∈ c.state.manager.completed → (∃ i, refetch.has i ∧ i % 2 ^ 32 = p) → r.Reopen) :
    (c.books p (held + claims p msg)).Move r ((c.handle env msg).1.books p held) := by
  have hmap (f : TorrentManager → TorrentManager)
      (hcompleted : (f c.state.manager).completed = c.state.manager.completed)
      (hreserved : (f c.state.manager).reserved p = c.state.manager.reserved p) :
      (c.books p (held + 0)).Move r ((c.mapManager f).books p held) := by
    have hsame : (c.mapManager f).books p held = c.books p held :=
      books_of_alike (by rw [manager_mapManager]; exact hcompleted)
        (by rw [manager_mapManager]; exact hreserved)
    rw [hsame]
    exact .still
  cases msg with
  | peerBitfield pieces => exact hmap (·.addPeerPieces pieces) rfl rfl
  | peerHave index => exact hmap (·.addPeerPiece index) rfl rfl
  | peerGone pieces => exact hmap (·.removePeerPieces pieces) rfl rfl
  | pieceDownloaded index data =>
    have hclaims : claims p (.pieceDownloaded index data) = if index = p then 1 else 0 := by
      simp [claims]
    rw [hclaims]
    obtain ⟨-, -, ⟨hdone, he⟩ | he | he⟩ := handlePieceDownloaded_cases env c index data
    · have hsame : ((c.handle env (.pieceDownloaded index data)).1).books p held = c.books p held :=
        books_of_alike (congrArg (·.completed) he) (congrArg (·.reserved p) he)
      rw [hsame]
      by_cases hindex : index = p
      · have hdownloading := hheld (congrArg some hindex)
        have hmem := hdone.resolve_left (by rw [hdownloading]; nofun)
        rw [if_pos hindex]
        exact move_unreserved (hinv.reserved_of_completed (hindex ▸ hmem))
      · rw [if_neg hindex]
        exact .still
    · exact move_returnWork he
    · exact move_markCompleted hinv he (.inr rfl)
  | pieceFailed index =>
    have hclaims : claims p (.pieceFailed index) = if index = p then 1 else 0 := by simp [claims]
    rw [hclaims]
    by_cases hchecking : c.state.isChecking = true
    · have hindex : index ≠ p := fun he =>
        absurd (hchecking.symm.trans (hheld (congrArg some he))) nofun
      rw [if_neg hindex]
      obtain ⟨state, fs, saved⟩ := c
      cases state with
      | checkingFiles => exact .still
      | downloadingData => cases hchecking
    · obtain ⟨state, fs, saved⟩ := c
      cases state with
      | checkingFiles => exact absurd rfl hchecking
      | downloadingData => exact move_returnWork rfl
  | pause | resume =>
    obtain ⟨state, fs, saved⟩ := c
    cases state <;> exact .still
  | setSelection selection selectedFiles refetch =>
    rw [claims_of_returned rfl]
    obtain ⟨-, -, he | ⟨hset, he⟩⟩ :=
      handleSetSelection_cases env c selection selectedFiles refetch
    · have hsame : (c.handle env (.setSelection selection selectedFiles refetch)).1.books p held =
          c.books p held := books_of_alike (congrArg (·.completed) he) (congrArg (·.reserved p) he)
      rw [hsame]
      exact .still
    · exact move_applySelection he (hreopen _ _ _ rfl hset)
  | _ => cases hnobody

theorem move_requestWork (hinv : c.state.manager.Inv) (held : Nat) (env : Env) {peerHas : Bitfield}
    {reply : Reply} {c' : Coordinator}
    (hmanager : c'.state.manager = (c.state.manager.nextWorkFor peerHas env.rng).2)
    (hpiece : reply.piece = (c.state.manager.nextWorkFor peerHas env.rng).1) (htake : r.Take) :
    (c.books p held).Move r (c'.books p (held + reply.piece.toList.count p)) := by
  obtain ⟨hopen, hreserved⟩ := hinv.reserved_nextWorkFor peerHas env.rng
  have hcompleted : c'.state.manager.completed = c.state.manager.completed := by
    rw [hmanager]
    exact (TorrentManager.alike_nextWorkFor c.state.manager peerHas env.rng).completed
  have hcount : c'.state.manager.reserved p =
      c.state.manager.reserved p + reply.piece.toList.count p := by
    rw [hmanager, hreserved, hpiece]
    cases (c.state.manager.nextWorkFor peerHas env.rng).1 <;>
      simp [List.count_cons, Option.some.injEq]
  by_cases hp : reply.piece = some p
  · have hdone : decide (p ∈ c.state.manager.completed) = false :=
      decide_eq_false (hopen p (hpiece ▸ hp))
    have hsame : c'.books p (held + reply.piece.toList.count p) =
        { c.books p held with
          reserved := (c.books p held).reserved + 1, held := (c.books p held).held + 1 } := by
      rw [books, hcompleted, hcount, hp, books]
      simp
    rw [hsame]
    exact .take hdone htake
  · have hnone : reply.piece.toList.count p = 0 := by
      simpa [List.count_eq_zero] using hp
    rw [hnone] at hcount ⊢
    rw [Nat.add_zero, books_of_alike hcompleted hcount]
    exact .still

theorem request_cases (env : Env) {msg : CoordinatorMsg} {id : Nat} {reply : Reply}
    (hid : msg.replyTo = some id) (heffects : (c.handle env msg).2 = [answering id reply]) :
    (c.handle env msg).1.state.manager = c.state.manager ∧ reply.piece = none ∨
      ∃ peerHas, msg = .requestWork peerHas id ∧ c.state.isChecking = false ∧
        (c.handle env msg).1.state.manager = (c.state.manager.nextWorkFor peerHas env.rng).2 ∧
        reply.piece = (c.state.manager.nextWorkFor peerHas env.rng).1 := by
  cases msg with
  | requestWork peerHas sender =>
    cases hid
    obtain ⟨-, he | ⟨hdownloading, hwork, he⟩⟩ := handleRequestWork_cases env c peerHas id
    · rw [handle, he] at heffects
      cases reply <;> cases heffects
      exact .inl ⟨congrArg (·.1.state.manager) he, rfl⟩
    · rw [handle, hwork] at heffects
      have hpiece : reply.piece = (c.state.manager.nextWorkFor peerHas env.rng).1 := by
        cases reply <;> cases heffects
        rfl
      exact .inr ⟨peerHas, rfl, hdownloading, he, hpiece⟩
  | getCompletedPieces sender =>
    cases hid
    have hpiece : reply.piece = none := by
      revert heffects
      simp only [handle]
      split <;> intro he <;> cases reply <;> cases he <;> rfl
    have hsame : (c.handle env (.getCompletedPieces id)).1.state.manager = c.state.manager := by
      simp only [handle]
      split <;> rfl
    exact .inl ⟨hsame, hpiece⟩
  | readPiece index begin length sender =>
    cases hid
    have hpiece : reply.piece = none := by
      revert heffects
      simp only [handle, handleReadPiece]
      split <;> intro he <;> cases reply <;> cases he <;> rfl
    exact .inl ⟨rfl, hpiece⟩
  | _ => cases hid

theorem move_request (hinv : c.state.manager.Inv) (held : Nat) (env : Env) {msg : CoordinatorMsg}
    {id : Nat} {reply : Reply} (hid : msg.replyTo = some id)
    (heffects : (c.handle env msg).2 = [answering id reply])
    (htake : c.state.isChecking = false → r.Take) :
    (c.books p held).Move r ((c.handle env msg).1.books p (held + reply.piece.toList.count p)) ∧
      (reply.piece = none ∨ ∃ peerHas, msg = .requestWork peerHas id) := by
  obtain ⟨hsame, hpiece⟩ | ⟨peerHas, hmsg, hdownloading, he, hpiece⟩ :=
    request_cases env hid heffects
  · rw [hpiece, books_of_alike (congrArg (·.completed) hsame) (congrArg (·.reserved p) hsame)]
    exact ⟨.still, .inl rfl⟩
  · exact ⟨move_requestWork hinv held env he hpiece (htake hdownloading), .inr ⟨peerHas, hmsg⟩⟩

theorem move_checkTick (hinv : c.state.manager.Inv) (sha1 : List UInt8 → Digest) (env : Env) :
    (c.books p held).Move r ((c.checkTick sha1 env).1.books p held) := by
  have hsame {c' : Coordinator} (h : c'.state.manager = c.state.manager) :
      (c.books p held).Move r (c'.books p held) := by
    rw [books_of_alike (congrArg (·.completed) h) (congrArg (·.reserved p) h)]
    exact .still
  obtain ⟨-, he | ⟨-, he | ⟨index, he⟩⟩⟩ := checkTick_cases sha1 env c
  · exact hsame (congrArg (·.1.state.manager) he)
  · exact hsame he
  · exact move_markCompleted hinv he (.inl rfl)

end Tortor.Core.Coordinator

namespace Tortor.System

open Tortor.Core Tortor.Net Tortor.Lib

namespace Swarm

variable {sha1 : List UInt8 → Digest} {codec : ExtensionCodec} {info : TorrentMeta} {s : Swarm}
  {action : Action} {id p : Nat} {peer : ActivePeer} {session : PeerSession}

def held (p : Nat) (s : Swarm) : Nat :=
  tally (fun peer => peer.session.burden.count p) s.peers + tally (Coordinator.claims p) s.mailbox

def ledger (p : Nat) (s : Swarm) : Ledger := s.coordinator.books p (s.held p)

def Loses (p : Nat) (s : Swarm) : Action → Prop
  | .turn id turn => ∃ peer, s.peers[id]? = some peer ∧ peer.session.drops turn = some p
  | .abort id now => ∃ peer, s.peers[id]? = some peer ∧ (s.closing || expired now peer) = true ∧
      p ∈ peer.session.burden
  | _ => False

/-- A change of the selection makes a completed piece open. -/
def Reopens (p : Nat) (s : Swarm) : Action → Prop
  | .deliver env => ∃ selection selectedFiles refetch rest,
      s.mailbox = .setSelection selection selectedFiles refetch :: rest ∧
        (s.coordinator.state.disk.setSelection env.io selectedFiles s.coordinator.fs).1 = true ∧
          p ∈ s.manager.completed ∧ ∃ i, refetch.has i ∧ i % 2 ^ 32 = p
  | _ => False

def rules (p : Nat) (s : Swarm) (action : Action) : Ledger.Rules :=
  ⟨s.coordinator.state.isChecking = false, s.Loses p action, s.Reopens p action⟩

def Fetches (id : Nat) (mailbox : List CoordinatorMsg) : Prop :=
  ∃ peerHas, .requestWork peerHas id ∈ mailbox

def Served (s : Swarm) : Prop :=
  Each (fun id session => session.phase = .ended → ¬ Fetches id s.mailbox) s.peers

def Unclaimed (s : Swarm) : Prop := s.coordinator.state.isChecking = true → ∀ p, s.held p = 0

theorem held_withSession (hpeer : s.peers[id]? = some peer) (session : PeerSession) (p : Nat) :
    (s.withSession id peer session).held p + peer.session.burden.count p =
      s.held p + session.burden.count p := by
  have hset := tally_set hpeer (fun peer => peer.session.burden.count p) { peer with session := session }
  unfold held withSession
  dsimp only at hset ⊢
  omega

theorem held_withSession_of_eq (hpeer : s.peers[id]? = some peer)
    (hburden : session.burden.count p = peer.session.burden.count p) :
    (s.withSession id peer session).held p = s.held p := by
  have h := held_withSession hpeer session p
  omega

theorem held_inform (events : List SessionEvent) (coordinator : Coordinator) (p : Nat) :
    held p { s with coordinator := coordinator, peers := s.peers.map (·.inform events) } =
      s.held p :=
  congrArg (· + _) (tally_map fun _ _ => rfl)

theorem held_posted (msg : CoordinatorMsg) (p : Nat) :
    held p { s with mailbox := s.mailbox ++ [msg] } = s.held p + Coordinator.claims p msg := by
  rw [held, held, tally_append, tally_cons, tally_nil]
  exact (Nat.add_assoc _ _ _).symm

theorem held_taken {msg : CoordinatorMsg} {rest : List CoordinatorMsg}
    (hmailbox : s.mailbox = msg :: rest) (p : Nat) :
    s.held p = held p { s with mailbox := rest } + Coordinator.claims p msg := by
  rw [held, held, hmailbox, tally_cons]
  dsimp only
  omega

theorem held_answer {reply : Reply} (hpeer : s.peers[id]? = some peer)
    (hopen : peer.session.phase ≠ .ended →
      peer.session.phase.expects reply ∧ peer.session.reply = none)
    (hended : peer.session.phase = .ended → reply.piece = none) (coordinator : Coordinator)
    (p : Nat) :
    ({ s with coordinator := coordinator }.answer id reply).held p =
      s.held p + reply.piece.toList.count p := by
  have hanswer : { s with coordinator := coordinator }.answer id reply =
      { s with coordinator := coordinator }.withSession id peer (peer.session.receive reply) := by
    unfold answer
    dsimp only
    rw [hpeer]
  have hcount : (peer.session.receive reply).burden.count p =
      reply.piece.toList.count p + peer.session.burden.count p := by
    by_cases hphase : peer.session.phase = .ended
    · rw [PeerSession.receive_ended hphase, hended hphase]
      exact (Nat.zero_add _).symm
    · obtain ⟨hexpects, hnone⟩ := hopen hphase
      rw [(PeerSession.burden_receive hexpects hnone).count_eq p, List.count_append]
  have hset := held_withSession (s := { s with coordinator := coordinator }) hpeer
    (peer.session.receive reply) p
  have hsame : held p { s with coordinator := coordinator } = s.held p := rfl
  rw [hanswer]
  omega

theorem burden_drop (session : PeerSession) : session.drop.burden = [] := rfl

theorem ledger_quiet {r : Ledger.Rules} {s' : Swarm} (hcoordinator : s'.coordinator = s.coordinator)
    (hheld : s'.held p = s.held p) : (s.ledger p).Move r (s'.ledger p) := by
  rw [ledger, ledger, hcoordinator, hheld]
  exact .still

theorem ledger_lose {r : Ledger.Rules} {s' : Swarm} (hcoordinator : s'.coordinator = s.coordinator)
    (hheld : s'.held p ≤ s.held p) (may : r.Lose) : (s.ledger p).Move r (s'.ledger p) := by
  rw [ledger, ledger, hcoordinator]
  exact .lose hheld may

/-- A turn of a session ends a claim only when it drops the piece. -/
theorem ledger_turn (hvalid : peer.session.Valid (peerContext codec info) sha1 id)
    (hpeer : s.peers[id]? = some peer) (turn : Turn) {result : PeerSession × UploadSlots}
    (hresult : result =
      peer.session.turn (peerContext codec info) sha1 id s.stopped turn s.uploadSlots) :
    (s.ledger p).Move (s.rules p (.turn id turn))
      (ledger p { s.withSession id peer result.1 with uploadSlots := result.2 }) := by
  have hturned := PeerSession.turned_turn (u := s.uploadSlots) hvalid s.stopped turn
  rw [← hresult] at hturned
  have hset := held_withSession hpeer result.1 p
  have hburden := congrArg (List.count p) hturned.burden_eq
  rw [List.count_append] at hburden
  by_cases hdrops : peer.session.drops turn = some p
  · refine ledger_lose rfl ?_ ⟨peer, hpeer, hdrops⟩
    change (s.withSession id peer result.1).held p ≤ _
    omega
  · have hnone : (peer.session.drops turn).toList.count p = 0 := by
      simpa [List.count_eq_zero] using hdrops
    refine ledger_quiet rfl ?_
    change (s.withSession id peer result.1).held p = _
    omega

theorem held_send {msg : CoordinatorMsg} {rest : List CoordinatorMsg}
    (hpeer : s.peers[id]? = some peer) (houtbox : peer.session.outbox = msg :: rest) (p : Nat) :
    held p { s.withSession id peer { peer.session with outbox := rest } with
      mailbox := s.mailbox ++ [msg] } = s.held p := by
  have hburden := (PeerSession.burden_sent houtbox).count_eq p
  generalize { peer.session with outbox := rest } = session at hburden ⊢
  have hset := held_withSession hpeer session p
  rw [List.count_append, ← Coordinator.claims_eq_count] at hburden
  have hposted := held_posted (s := s.withSession id peer session) msg p
  refine hposted.trans ?_
  omega

theorem held_deliver_of {msg : CoordinatorMsg} {rest : List CoordinatorMsg} {reply : Reply}
    (hsteady : s.Steady sha1 codec info) (env : Env) (hmailbox : s.mailbox = msg :: rest)
    (hid : msg.replyTo = some id)
    (hexpects : ∀ phase : Phase, phase.asks msg → phase.expects reply)
    (hended : ∀ peer, s.peers[id]? = some peer → peer.session.phase = .ended →
      reply.piece = none) (p : Nat) :
    ({ s with mailbox := rest, coordinator := (s.coordinator.handle env msg).1 }.answer
      id reply).held p = s.held p + reply.piece.toList.count p := by
  have hlt := hsteady.known msg (hmailbox ▸ List.mem_cons_self) id hid
  have hpeer : s.peers[id]? = some s.peers[id] := List.getElem?_eq_getElem hlt
  have hopen (hphase : s.peers[id].session.phase ≠ .ended) :
      s.peers[id].session.phase.expects reply ∧ s.peers[id].session.reply = none := by
    have hwaits := hsteady.waits id _ hpeer hphase
    rw [hmailbox] at hwaits
    obtain ⟨hopen, -, hnone, -⟩ := hwaits.receive (hsteady.valid id _ hpeer) hid hexpects
    exact ⟨hopen, hnone⟩
  have htaken := held_taken hmailbox p
  rw [Coordinator.claims_of_replyTo hid, Nat.add_zero] at htaken
  rw [htaken]
  exact held_answer (s := { s with mailbox := rest }) hpeer hopen (hended _ hpeer) _ p

theorem held_deliver {msg : CoordinatorMsg} {rest : List CoordinatorMsg} {reply : Reply}
    (hsteady : s.Steady sha1 codec info) (hserved : s.Served) (env : Env)
    (hmailbox : s.mailbox = msg :: rest)
    (hid : msg.replyTo = some id)
    (hexpects : ∀ phase : Phase, phase.asks msg → phase.expects reply)
    (hwork : reply.piece = none ∨ ∃ peerHas, msg = .requestWork peerHas id) (p : Nat) :
    ({ s with mailbox := rest, coordinator := (s.coordinator.handle env msg).1 }.answer
      id reply).held p = s.held p + reply.piece.toList.count p := by
  refine held_deliver_of hsteady env hmailbox hid hexpects (fun peer hpeer hphase => ?_) p
  rcases hwork with hnone | ⟨peerHas, rfl⟩
  · exact hnone
  · exact absurd ⟨peerHas, hmailbox ▸ List.mem_cons_self⟩ (hserved id peer hpeer hphase)

theorem ledger_notice (hsteady : s.Steady sha1 codec info) (hunclaimed : s.Unclaimed) (env : Env)
    {msg : CoordinatorMsg} {rest : List CoordinatorMsg} (hmailbox : s.mailbox = msg :: rest)
    (hnobody : msg.replyTo = none) (hnotices : ∀ e ∈ (s.coordinator.handle env msg).2, e.isNotice) :
    (s.ledger p).Move (s.rules p (.deliver env))
      (({ s with mailbox := rest }.resume (s.coordinator.handle env msg)).ledger p) := by
  have htaken := held_taken hmailbox p
  rw [resume_notices hnotices, ledger, ledger, held_inform, htaken]
  refine Coordinator.move_handle hsteady.inv env hnobody (fun hreturned => ?_)
    fun selection selectedFiles refetch hmsg hset hmem hrefetch => ?_
  · cases hchecking : s.coordinator.state.isChecking with
    | false => rfl
    | true =>
      have hzero := hunclaimed hchecking p
      rw [Coordinator.claims, if_pos hreturned] at htaken
      omega
  · exact ⟨selection, selectedFiles, refetch, rest, hmsg ▸ hmailbox, hset, hmem, hrefetch⟩

theorem ledger_deliver (hsteady : s.Steady sha1 codec info) (hserved : s.Served)
    (hunclaimed : s.Unclaimed) (env : Env) {msg : CoordinatorMsg} {rest : List CoordinatorMsg}
    (hmailbox : s.mailbox = msg :: rest) :
    (s.ledger p).Move (s.rules p (.deliver env))
      (({ s with mailbox := rest }.resume (s.coordinator.handle env msg)).ledger p) := by
  rcases effects_handle env s.coordinator msg with ⟨hnobody, hnotices⟩ | ⟨id, reply, hid, he, hexpects⟩
  · exact ledger_notice hsteady hunclaimed env hmailbox hnobody hnotices
  · obtain ⟨hmove, hwork⟩ := Coordinator.move_request (r := s.rules p (.deliver env)) (p := p)
      hsteady.inv (s.held p) env hid he fun h => h
    have hheld := held_deliver hsteady hserved env hmailbox hid hexpects hwork p
    rw [resume_answer he, ledger, ledger, coordinator_answer, hheld]
    exact hmove

theorem ledger_aside (hsteady : s.Steady sha1 codec info)
    (hstill : (s.step sha1 codec info action).stopped = false)
    (haction : ∀ env msg rest, action = .deliver env → s.mailbox ≠ msg :: rest) (p : Nat) :
    (s.ledger p).Move (s.rules p action) ((s.step sha1 codec info action).ledger p) := by
  have hrunning := running_of_step hstill
  have hchange := change_step sha1 codec info s action
  generalize s.step sha1 codec info action = s' at hchange hstill ⊢
  cases hchange with
  | idle => exact .still
  | dial peerAddr now =>
    refine ledger_quiet rfl ?_
    rw [held, tally_append, tally_cons]
    rfl
  | connect supportsExtensions turn hpeer hphase =>
    have hvalid := hsteady.valid _ _ hpeer
    have hafter := PeerSession.burden_connect hvalid hphase supportsExtensions turn
    have hbefore := PeerSession.burden_idle hvalid (.inl hphase)
    exact ledger_quiet rfl (held_withSession_of_eq hpeer (by rw [hafter, hbefore]))
  | dialFailed hpeer hphase =>
    have hbefore := PeerSession.burden_idle (hsteady.valid _ _ hpeer) (.inl hphase)
    exact ledger_quiet rfl (held_withSession_of_eq hpeer (by rw [burden_drop, hbefore]))
  | turn turn hpeer hresult => exact ledger_turn (hsteady.valid _ _ hpeer) hpeer turn hresult
  | send hpeer houtbox => exact ledger_quiet rfl (held_send hpeer houtbox p)
  | refuse hpeer houtbox hstopped => exact absurd (hrunning.symm.trans hstopped) nofun
  | deliver env _ hmailbox => exact absurd hmailbox (haction env _ _ rfl)
  | tick env =>
    rw [resume_notices (Coordinator.checkTick_cases sha1 env s.coordinator).1, ledger, ledger,
      held_inform]
    exact Coordinator.move_checkTick hsteady.inv sha1 env
  | command _ hcommand =>
    refine ledger_quiet rfl ?_
    rw [held_posted, Coordinator.claims_of_returned (isCommand_silent hcommand).2]
    rfl
  | progress now hpeer => exact ledger_quiet rfl (congrArg (· + _) (tally_set_of_eq hpeer rfl))
  | @abort id now peer hpeer hgone =>
    have hset := held_withSession hpeer peer.session.drop p
    rw [burden_drop, List.count_nil] at hset
    by_cases hmem : p ∈ peer.session.burden
    · exact ledger_lose rfl (by omega) ⟨_, hpeer, hgone, hmem⟩
    · exact ledger_quiet rfl (held_withSession_of_eq hpeer (List.count_eq_zero.mpr hmem).symm)
  | closeSwarm => exact .still
  | shutdown => cases hstill

theorem step_deliver (hrunning : s.stopped = false) {msg : CoordinatorMsg}
    {rest : List CoordinatorMsg} (hmailbox : s.mailbox = msg :: rest) (env : Env) :
    s.step sha1 codec info (.deliver env) =
      { s with mailbox := rest }.resume (s.coordinator.handle env msg) := by
  simp only [step, hrunning, hmailbox]

/-- Every step is a move in the books on every piece. -/
theorem ledger_step (hsteady : s.Steady sha1 codec info) (hserved : s.Served)
    (hunclaimed : s.Unclaimed) (hstill : (s.step sha1 codec info action).stopped = false) (p : Nat) :
    (s.ledger p).Move (s.rules p action) ((s.step sha1 codec info action).ledger p) := by
  by_cases hdelivers : ∃ env msg rest, action = .deliver env ∧ s.mailbox = msg :: rest
  · obtain ⟨env, msg, rest, rfl, hmailbox⟩ := hdelivers
    rw [step_deliver (running_of_step hstill) hmailbox]
    exact ledger_deliver hsteady hserved hunclaimed env hmailbox
  · exact ledger_aside hsteady hstill
      (fun env msg rest he hmailbox => hdelivers ⟨env, msg, rest, he, hmailbox⟩) p

theorem isChecking_step (h : (s.step sha1 codec info action).coordinator.state.isChecking = true)
    (hstill : (s.step sha1 codec info action).stopped = false) :
    s.coordinator.state.isChecking = true := by
  have hchange := change_step sha1 codec info s action
  generalize s.step sha1 codec info action = s' at hchange h hstill ⊢
  cases hchange with
  | @deliver env msg rest =>
    rw [(resume_frame _ _).1, Coordinator.isChecking_handle] at h
    exact h
  | tick env =>
    rw [(resume_frame _ _).1] at h
    obtain ⟨-, he | ⟨hchecking, -⟩⟩ := Coordinator.checkTick_cases sha1 env s.coordinator
    · rwa [he] at h
    · exact hchecking
  | shutdown => cases hstill
  | _ => exact h

theorem unclaimed_step (hsteady : s.Steady sha1 codec info) (hserved : s.Served)
    (hunclaimed : s.Unclaimed) (hstill : (s.step sha1 codec info action).stopped = false) :
    (s.step sha1 codec info action).Unclaimed := by
  intro hchecking p
  have hbefore := isChecking_step hchecking hstill
  have htake : ¬ (s.rules p action).Take := fun h => absurd (hbefore.symm.trans h) nofun
  have hle := (ledger_step hsteady hserved hunclaimed hstill p).held_le htake
  exact Nat.eq_zero_of_le_zero (hle.trans_eq (hunclaimed hbefore p))

def Hits (P : Nat → PeerSession → Prop) (s : Swarm) : Action → Prop
  | .abort id now => ∀ peer, s.peers[id]? = some peer → (s.closing || expired now peer) = true →
      P id peer.session
  | _ => True

def Serves (s : Swarm) : Action → Prop := s.Hits fun id _ => ¬ Fetches id s.mailbox

theorem unasked_turn {turn : Turn} {result : PeerSession × UploadSlots}
    (hsteady : s.Steady sha1 codec info) (h : s.Served) (hpeer : s.peers[id]? = some peer)
    (hresult : result =
      peer.session.turn (peerContext codec info) sha1 id false turn s.uploadSlots)
    (hended : result.1.phase = .ended) : ¬ Fetches id s.mailbox := by
  by_cases hphase : peer.session.phase = .ended
  · exact h id peer hpeer hphase
  · rintro ⟨peerHas, hm⟩
    obtain ⟨hasks, -, hnone⟩ :=
      (hsteady.waits id peer hpeer hphase).idle (hsteady.valid id peer hpeer) hm rfl
    rw [hresult, turn_of_waiting (awaits_of_asks hasks) hnone] at hended
    exact hphase hended

theorem unasked_dialing (hsteady : s.Steady sha1 codec info) (hpeer : s.peers[id]? = some peer)
    (hphase : peer.session.phase = .dialing) : ¬ Fetches id s.mailbox := by
  rintro ⟨peerHas, hm⟩
  have hkinds := (hsteady.waits id peer hpeer (by rw [hphase]; nofun)).kinds _ hm rfl
  rw [hphase] at hkinds
  cases hkinds

theorem served_post {msg : CoordinatorMsg} {peers : List ActivePeer}
    (hold : Each (fun id session => session.phase = .ended → ¬ Fetches id s.mailbox) peers)
    (hnew : Each (fun id session => session.phase = .ended → msg.replyTo ≠ some id) peers) :
    Each (fun id session => session.phase = .ended → ¬ Fetches id (s.mailbox ++ [msg])) peers := by
  rintro id peer hpeer hphase ⟨peerHas, hm⟩
  rcases List.mem_append.mp hm with hm | hm
  · exact hold id peer hpeer hphase ⟨peerHas, hm⟩
  · rw [List.mem_singleton] at hm
    exact hnew id peer hpeer hphase (by rw [← hm]; rfl)

theorem served_inform {coordinator : Coordinator} {mailbox : List CoordinatorMsg} (h : s.Served)
    (events : List SessionEvent) (hmailbox : ∀ msg ∈ mailbox, msg ∈ s.mailbox) :
    Served { s with
      mailbox := mailbox, coordinator := coordinator, peers := s.peers.map (·.inform events) } := by
  refine Each.map h fun id peer hended hphase hfetches => hended hphase ?_
  obtain ⟨peerHas, hm⟩ := hfetches
  exact ⟨peerHas, hmailbox _ hm⟩

theorem served_answer (h : s.Served) (id : Nat) (reply : Reply) : (s.answer id reply).Served := by
  unfold Served answer
  split
  · exact h
  case h_2 peer hpeer =>
    refine Each.set (fun i other hi _ => h i other hi) fun hended => h _ _ hpeer ?_
    revert hended
    unfold PeerSession.receive
    split
    case h_1 hphase => exact fun _ => hphase
    case h_2 => exact fun hended => hended

theorem served_deliver (h : s.Served) (env : Env) {msg : CoordinatorMsg}
    {rest : List CoordinatorMsg} (hmailbox : s.mailbox = msg :: rest) :
    ({ s with mailbox := rest }.resume (s.coordinator.handle env msg)).Served := by
  have hrest : ∀ other ∈ rest, other ∈ s.mailbox := fun other hm =>
    hmailbox ▸ List.mem_cons_of_mem msg hm
  rcases effects_handle env s.coordinator msg with ⟨-, hnotices⟩ | ⟨id, reply, hid, he, -⟩
  · rw [resume_notices hnotices]
    exact served_inform h _ hrest
  · rw [resume_answer he]
    refine served_answer ?_ id reply
    rintro id peer hpeer hended ⟨peerHas, hm⟩
    exact h id peer hpeer hended ⟨peerHas, hrest _ hm⟩

theorem served_step (hsteady : s.Steady sha1 codec info) (h : s.Served) (hserves : s.Serves action)
    (hstill : (s.step sha1 codec info action).stopped = false) :
    (s.step sha1 codec info action).Served := by
  have hrunning := running_of_step hstill
  have hchange := change_step sha1 codec info s action
  have hset {i : Nat} {peer : ActivePeer} (hi : peer.session.phase = .ended → ¬ Fetches i s.mailbox) :
      Each (fun id session => session.phase = .ended → ¬ Fetches id s.mailbox)
        (s.peers.set i peer) := Each.set (fun id other hother _ => h id other hother) hi
  generalize s.step sha1 codec info action = s' at hchange hstill ⊢
  cases hchange with
  | idle | closeSwarm => exact h
  | dial peerAddr now => exact h.append nofun
  | connect supportsExtensions turn hpeer hphase =>
    refine hset fun hended => ?_
    obtain ⟨sent, heq⟩ := PeerSession.connect_eq (peerContext codec info) _ supportsExtensions turn _
    dsimp only at hended
    rw [heq] at hended
    cases hended
  | dialFailed hpeer hphase => exact hset fun _ => unasked_dialing hsteady hpeer hphase
  | turn turn hpeer hresult =>
    rw [hrunning] at hresult
    exact hset fun hended => unasked_turn hsteady h hpeer hresult hended
  | @send id peer msg rest hpeer houtbox =>
    have hvalid := hsteady.valid id peer hpeer
    refine served_post (hset fun hended => h id peer hpeer hended)
      (Each.set (fun i other hi hne hended => ?_) fun hended => ?_)
    · intro hreply
      have hid := (hvalid.asks msg (PeerSession.mem_of_outbox houtbox) (by rw [hreply]; rfl)).1
      cases hreply.symm.trans hid
      exact hne rfl
    · exact absurd (houtbox.symm.trans (hvalid.idle (.inr hended)).1) nofun
  | refuse hpeer houtbox hstopped => exact absurd (hrunning.symm.trans hstopped) nofun
  | deliver env _ hmailbox => exact served_deliver h env hmailbox
  | tick env =>
    rw [resume_notices (Coordinator.checkTick_cases sha1 env s.coordinator).1]
    exact served_inform h _ fun _ hm => hm
  | command _ hcommand =>
    have hnone := (isCommand_silent hcommand).1
    exact served_post h fun _ _ _ _ => by rw [hnone]; nofun
  | @progress id peer now hpeer => exact hset fun hended => h id peer hpeer hended
  | @abort id now peer hpeer hgone => exact hset fun _ => hserves peer hpeer hgone
  | shutdown => cases hstill

/-- No claim is lost on a piece that is still to be fetched, and no piece is to be fetched again
that somebody has a claim on. -/
def Kept (s : Swarm) (action : Action) : Prop :=
  ∀ p, (s.Loses p action → p ∈ s.manager.completed) ∧ (s.Reopens p action → s.held p = 0)

structure Audited (s : Swarm) : Prop where
  exact : ∀ p, (s.ledger p).Exact
  served : s.Served
  unclaimed : s.Unclaimed

theorem audited_step (hsteady : s.Steady sha1 codec info) (h : s.Audited) (hkept : s.Kept action)
    (hserves : s.Serves action) (hstill : (s.step sha1 codec info action).stopped = false) :
    (s.step sha1 codec info action).Audited where
  exact p :=
    (ledger_step hsteady h.served h.unclaimed hstill p).exact (Coordinator.settled_books hsteady.inv)
      (h.exact p) (fun hloses => decide_eq_true ((hkept p).1 hloses)) (hkept p).2
  served := served_step hsteady h.served hserves hstill
  unclaimed := unclaimed_step hsteady h.served h.unclaimed hstill

theorem audited_start {n : Nat} {completed : List Nat} {selection : Selection}
    (coordinator : Coordinator)
    (h : (Swarm.start coordinator).manager = .withSelection n completed selection) :
    (Swarm.start coordinator).Audited where
  exact p _ := by
    change (Swarm.start coordinator).manager.reserved p = 0
    rw [h]
    rfl
  served := Each.nil _
  unclaimed _ _ := rfl

theorem serves_of_returns (h : Returns action) (s : Swarm) : s.Serves action := by
  cases action with
  | abort => exact h.elim
  | _ => trivial

def calm (s : Swarm) : Action → Bool
  | .turn id turn => s.peers[id]?.all fun peer => (peer.session.drops turn).isNone
  | .deliver _ => !s.mailbox.head?.any isCommand
  | .abort .. => false
  | _ => true

theorem kept_of_calm (h : s.calm action) : s.Kept action := by
  intro p
  cases action with
  | turn id turn =>
    refine ⟨fun ⟨peer, hpeer, hdrops⟩ => ?_, nofun⟩
    rw [calm, hpeer, Option.all_some, hdrops] at h
    cases h
  | deliver env =>
    refine ⟨nofun, fun ⟨selection, selectedFiles, refetch, rest, hmailbox, _⟩ => ?_⟩
    rw [calm, hmailbox] at h
    cases h
  | abort => cases h
  | _ => exact ⟨nofun, nofun⟩

theorem mem_inProgress (h : s.manager.Inv) (hp : p ∈ s.manager.inProgress) :
    p ∉ s.manager.completed ∧ 0 < s.manager.reserved p := by
  obtain ⟨n, hn⟩ := Option.isSome_iff_exists.mp (AList.lookup_isSome.mpr hp)
  refine ⟨h.held_open p n hn, ?_⟩
  rw [TorrentManager.reserved, hn]
  exact (h.held_count p n hn).1

/-- No session has two claims, so the claims are as many as those who have them. -/
theorem held_eq (hsteady : s.Steady sha1 codec info) (p : Nat) :
    s.held p = (s.peers.countP fun peer => decide (p ∈ peer.session.burden)) +
      s.mailbox.countP (·.returned == some p) := by
  have hcount {l : List Nat} (h : l.length ≤ 1) : l.count p = (decide (p ∈ l)).toNat := by
    match l, h with
    | [], _ => rfl
    | [q], _ =>
      rw [List.count_singleton]
      by_cases hq : q = p
      · simp [hq]
      · simp [hq, Ne.symm hq]
  have hpeers : tally (fun peer => peer.session.burden.count p) s.peers =
      s.peers.countP fun peer => decide (p ∈ peer.session.burden) := by
    refine tally_eq_countP fun peer hpeer => ?_
    obtain ⟨id, hid⟩ := List.getElem?_of_mem hpeer
    exact hcount (hsteady.valid id peer hid).single
  have hmailbox : tally (Coordinator.claims p) s.mailbox =
      s.mailbox.countP (·.returned == some p) := by
    refine tally_eq_countP fun msg _ => ?_
    rw [Coordinator.claims]
    by_cases hreturned : msg.returned = some p
    · rw [if_pos hreturned, beq_iff_eq.mpr hreturned]
      rfl
    · rw [if_neg hreturned, beq_eq_false_iff_ne.mpr hreturned]
      rfl
  rw [held, hpeers, hmailbox]

end Swarm

/-- A piece that is not completed is reserved once for each session that was handed it and for
each message underway that gives it back, and without them it is not reserved. -/
theorem reservations_exact {sha1 : List UInt8 → Digest} {codec : ExtensionCodec}
    {info : TorrentMeta} {l : Launch} {fs : FileStore Path} {task : BackgroundTask}
    (haccepted : ∃ raw infoHash, buildMeta l.windows raw infoHash = .ok info)
    (hlaunch : launch info l fs = some task) (actions : List Action)
    (hreturns : ∀ action ∈ actions, Swarm.Returns action)
    (hkept : Along (Swarm.step sha1 codec info) Swarm.Kept (.start task.coordinator) actions) :
    let s := exec (Swarm.step sha1 codec info) (.start task.coordinator) actions
    s.stopped = false →
      (∀ p ∉ s.manager.completed, s.manager.reserved p =
        (s.peers.countP fun peer => decide (p ∈ peer.session.burden)) +
          s.mailbox.countP (·.returned == some p)) ∧
      ∀ p ∈ s.manager.inProgress, (∃ peer ∈ s.peers, p ∈ peer.session.burden) ∨
        ∃ msg ∈ s.mailbox, msg.returned = some p := by
  intro s hrunning
  have hsteady := Swarm.steady_start sha1 codec haccepted hlaunch
  obtain ⟨hs, haudited⟩ : s.Steady sha1 codec info ∧ s.Audited := by
    refine Swarm.run_invariant (fun s action hsteady h hc hstill => ?_) hsteady
      (Swarm.audited_start _ (Swarm.manager_launch hlaunch))
      (Along.and hkept (along_of_forall hreturns _)) hrunning
    exact Swarm.audited_step hsteady h hc.1 (Swarm.serves_of_returns hc.2 s) hstill
  have hexact (p : Nat) (hp : p ∉ s.manager.completed) : s.manager.reserved p = s.held p :=
    haudited.exact p (decide_eq_false hp)
  refine ⟨fun p hp => (hexact p hp).trans (Swarm.held_eq hs p), fun p hp => ?_⟩
  obtain ⟨hopen, hreserved⟩ := Swarm.mem_inProgress hs.inv hp
  rw [hexact p hopen, Swarm.held_eq hs p] at hreserved
  rcases Nat.add_pos_iff_pos_or_pos.mp hreserved with hpeers | hmailbox
  · obtain ⟨peer, hpeer, hmem⟩ := List.countP_pos_iff.mp hpeers
    exact .inl ⟨peer, hpeer, of_decide_eq_true hmem⟩
  · obtain ⟨msg, hmsg, hreturned⟩ := List.countP_pos_iff.mp hmailbox
    exact .inr ⟨msg, hmsg, beq_iff_eq.mp hreturned⟩

def fetchActions (id : Nat) : List Action :=
  [.dial (.v4 id 0) 0, .connect id false (turnWith .tick), .send id, .deliver .calm,
    .turn id (turnWith .tick), .turn id (turnWith .tick), .turn id (turnWith (.message (.have 0))),
    .send id, .deliver .calm, .turn id (turnWith .tick), .turn id (turnWith (.message .unchoke)),
    .turn id (turnWith .tick), .send id, .deliver .calm, .turn id (turnWith .tick)]

theorem reservations_exact_fetch :
    let s := exec (Swarm.step sameHash noCodec twoPieces) startFresh (fetchActions 0)
    s.manager.reserved 0 = (s.peers.countP fun peer => decide (0 ∈ peer.session.burden)) +
      s.mailbox.countP (·.returned == some 0) := by
  have hreturns : ∀ action ∈ fetchActions 0, Swarm.Returns action := by decide
  have hkept : Along (Swarm.step sameHash noCodec twoPieces) Swarm.Kept startFresh
      (fetchActions 0) := Along.mono (C := fun s action => s.calm action = true)
    (fun _ _ => Swarm.kept_of_calm) (by decide +kernel)
  exact (reservations_exact (l := freshLaunch) accepted_twoPieces (Option.some_get _).symm
    (fetchActions 0) hreturns hkept (by decide +kernel)).1 0 (by decide +kernel)

/-! Two sessions fetch the same piece.  The first one delivers it, and then one of the files is
dropped from the selection and added again. -/

def swarmTwoFiles : Swarm := .start (startTwoFiles none (by decide +kernel)).coordinator

def refetchActions : List Action :=
  fetchActions 0 ++ fetchActions 1 ++
    [.turn 0 (turnWith (.message (.piece 0 0 [0, 0]))), .turn 0 (turnWith .tick), .send 0,
      .deliver .calm,
      .command (BackgroundTask.setSelectionMsg twoFiles (torrentFiles twoFiles) [true, true]
        [true, false]), .deliver .calm,
      .command (BackgroundTask.setSelectionMsg twoFiles (torrentFiles twoFiles) [true, false]
        [true, true]), .deliver .calm]

/-- The second session still works on the piece, which is open again and not reserved. -/
theorem reservation_lost : ¬ ∀ actions : List Action,
    (∀ action ∈ actions, Swarm.Returns action) →
      let s := exec (Swarm.step sameHash noCodec twoFiles) swarmTwoFiles actions
      s.stopped = false → ∀ p ∉ s.manager.completed, s.manager.reserved p =
        (s.peers.countP fun peer => decide (p ∈ peer.session.burden)) +
          s.mailbox.countP (·.returned == some p) := by
  intro h
  have hreturns : ∀ action ∈ refetchActions, Swarm.Returns action := by decide
  have hexact := h refetchActions hreturns (by decide +kernel) 0 (by decide +kernel)
  revert hexact
  decide +kernel

end Tortor.System
