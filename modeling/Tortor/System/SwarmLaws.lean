import Tortor.Lib.Tally
import Tortor.Net.SessionWrites
import Tortor.System.Swarm
import Tortor.System.TorrentLaws

/-! What a step of the swarm can do.  A step of the coordinator reaches the sessions either with
one answer or with events for all of them. -/

namespace Tortor.System

open Tortor.Core Tortor.Net Tortor.Lib

def announced (effects : List Effect) : List SessionEvent :=
  effects.filterMap fun
    | .announce event => some event
    | _ => none

namespace ActivePeer

def inform (events : List SessionEvent) (peer : ActivePeer) : ActivePeer :=
  { peer with session := { peer.session with events := peer.session.events ++ events } }

@[simp] theorem inform_nil (peer : ActivePeer) : peer.inform [] = peer := by
  rw [inform, List.append_nil]

theorem inform_append (events more : List SessionEvent) (peer : ActivePeer) :
    (peer.inform events).inform more = peer.inform (events ++ more) := by
  simp [inform]

end ActivePeer

def answering (id : Nat) : Reply → Effect
  | .work piece => .work id piece
  | .completedPieces pieces => .completedPieces id pieces
  | .block data => .block id data

/-- A message without a sender who waits makes nothing but notices; the others are answered. -/
theorem effects_handle (env : Env) (c : Coordinator) (msg : CoordinatorMsg) :
    msg.replyTo = none ∧ (∀ e ∈ (c.handle env msg).2, e.isNotice) ∨
      ∃ id reply, msg.replyTo = some id ∧ (c.handle env msg).2 = [answering id reply] ∧
        ∀ phase : Phase, phase.asks msg → phase.expects reply := by
  cases msg with
  | requestWork peerHas reply =>
    obtain ⟨-, he | ⟨-, he, -⟩⟩ := Coordinator.handleRequestWork_cases env c peerHas reply
    · refine .inr ⟨reply, .work none, rfl, by rw [Coordinator.handle, he]; rfl, ?_⟩
      intro phase hasks
      cases phase <;> first | rfl | cases hasks
    · refine .inr ⟨reply, .work _, rfl, he, ?_⟩
      intro phase hasks
      cases phase <;> first | rfl | cases hasks
  | getCompletedPieces reply =>
    have hasks (phase : Phase) (pieces : List Nat) (h : phase.asks (.getCompletedPieces reply)) :
        phase.expects (.completedPieces pieces) := by
      cases phase <;> first | rfl | cases h
    simp only [Coordinator.handle]
    split
    · exact .inr ⟨reply, .completedPieces _, rfl, rfl, fun phase => hasks phase _⟩
    · exact .inr ⟨reply, .completedPieces [], rfl, rfl, fun phase => hasks phase []⟩
  | readPiece index begin length reply =>
    have hasks (phase : Phase) (data : Option (List UInt8))
        (h : phase.asks (.readPiece index begin length reply)) : phase.expects (.block data) := by
      cases phase <;> first | rfl | cases h
    simp only [Coordinator.handle, Coordinator.handleReadPiece]
    split
    · exact .inr ⟨reply, .block none, rfl, rfl, fun phase => hasks phase none⟩
    · exact .inr ⟨reply, .block _, rfl, rfl, fun phase => hasks phase _⟩
  | peerBitfield | peerHave | peerGone => exact .inl ⟨rfl, List.forall_mem_nil _⟩
  | pieceDownloaded index data =>
    exact .inl ⟨rfl, (Coordinator.handlePieceDownloaded_cases env c index data).1⟩
  | pieceFailed index => exact .inl ⟨rfl, by simp only [Coordinator.handle]; split <;> exact List.forall_mem_nil _⟩
  | pause | resume =>
    obtain ⟨state, fs, saved⟩ := c
    cases state <;> exact .inl ⟨rfl, by simp [Coordinator.handle, Effect.isNotice]⟩
  | setSelection selection selectedFiles refetch =>
    exact .inl ⟨rfl,
      (Coordinator.handleSetSelection_cases env c selection selectedFiles refetch).1⟩

namespace Swarm

variable {s : Swarm}

theorem foldl_perform_notices {effects : List Effect} (h : ∀ e ∈ effects, e.isNotice) (s : Swarm) :
    effects.foldl perform s = { s with peers := s.peers.map (·.inform (announced effects)) } := by
  induction effects generalizing s with
  | nil => simp [announced]
  | cons e effects ih =>
    rw [List.foldl_cons, ih fun e' he' => h e' (List.mem_cons_of_mem e he')]
    have hnotice := h e List.mem_cons_self
    cases e with
    | announce event =>
      simp only [perform, List.map_map, announced]
      congr 1
      apply List.map_congr_left
      intro peer _
      exact ActivePeer.inform_append [event] _ peer
    | ui => rfl
    | _ => cases hnotice

theorem isCommand_silent {msg : CoordinatorMsg} (h : isCommand msg) :
    msg.replyTo = none ∧ msg.returned = none := by
  cases msg <;> first | exact ⟨rfl, rfl⟩ | cases h

theorem resume_notices {result : Coordinator × List Effect} (h : ∀ e ∈ result.2, e.isNotice)
    (s : Swarm) : s.resume result =
      { s with coordinator := result.1, peers := s.peers.map (·.inform (announced result.2)) } :=
  foldl_perform_notices h { s with coordinator := result.1 }

theorem resume_answer {result : Coordinator × List Effect} {id : Nat} {reply : Reply}
    (h : result.2 = [answering id reply]) (s : Swarm) :
    s.resume result = { s with coordinator := result.1 }.answer id reply := by
  rw [resume, h]
  cases reply <;> rfl

inductive Change (sha1 : List UInt8 → Digest) (codec : ExtensionCodec) (info : TorrentMeta)
    (s : Swarm) : Action → Swarm → Prop
  | idle (action : Action) : Change sha1 codec info s action s
  | dial (peerAddr : SocketAddr) (now : Nat) : Change sha1 codec info s (.dial peerAddr now)
      { s with peers := s.peers ++ [⟨.new (peerContext codec info) peerAddr, now⟩] }
  | connect {id : Nat} {peer : ActivePeer} (supportsExtensions : Bool) (turn : Turn)
      (peer_eq : s.peers[id]? = some peer) (phase_eq : peer.session.phase = .dialing) :
      Change sha1 codec info s (.connect id supportsExtensions turn)
        (s.withSession id peer
          (peer.session.connect (peerContext codec info) id supportsExtensions turn))
  | dialFailed {id : Nat} {peer : ActivePeer} (peer_eq : s.peers[id]? = some peer)
      (phase_eq : peer.session.phase = .dialing) :
      Change sha1 codec info s (.dialFailed id) (s.withSession id peer peer.session.drop)
  | turn {id : Nat} {peer : ActivePeer} {result : PeerSession × UploadSlots} (turn : Turn)
      (peer_eq : s.peers[id]? = some peer)
      (result_eq : result =
        peer.session.turn (peerContext codec info) sha1 id s.stopped turn s.uploadSlots) :
      Change sha1 codec info s (.turn id turn)
        { s.withSession id peer result.1 with uploadSlots := result.2 }
  | send {id : Nat} {peer : ActivePeer} {msg : CoordinatorMsg} {rest : List CoordinatorMsg}
      (peer_eq : s.peers[id]? = some peer) (outbox_eq : peer.session.outbox = msg :: rest)
      (running : s.stopped = false) : Change sha1 codec info s (.send id)
        { s.withSession id peer { peer.session with outbox := rest } with
          mailbox := s.mailbox ++ [msg] }
  | refuse {id : Nat} {peer : ActivePeer} {msg : CoordinatorMsg} {rest : List CoordinatorMsg}
      (peer_eq : s.peers[id]? = some peer) (outbox_eq : peer.session.outbox = msg :: rest)
      (stopped : s.stopped = true) : Change sha1 codec info s (.send id)
        (s.withSession id peer ({ peer.session with outbox := rest }.sendFailed msg))
  | deliver (env : Env) {msg : CoordinatorMsg} {rest : List CoordinatorMsg}
      (running : s.stopped = false) (mailbox_eq : s.mailbox = msg :: rest) :
      Change sha1 codec info s (.deliver env)
        ({ s with mailbox := rest }.resume (s.coordinator.handle env msg))
  | tick (env : Env) (running : s.stopped = false) :
      Change sha1 codec info s (.tick env) (s.resume (s.coordinator.checkTick sha1 env))
  | command {msg : CoordinatorMsg} (running : s.stopped = false) (command : isCommand msg) :
      Change sha1 codec info s (.command msg) { s with mailbox := s.mailbox ++ [msg] }
  | progress {id : Nat} {peer : ActivePeer} (now : Nat) (peer_eq : s.peers[id]? = some peer) :
      Change sha1 codec info s (.progress id now)
        { s with peers := s.peers.set id { peer with lastProgress := now } }
  | abort {id now : Nat} {peer : ActivePeer} (peer_eq : s.peers[id]? = some peer)
      (gone : s.closing || expired now peer) :
      Change sha1 codec info s (.abort id now) (s.withSession id peer peer.session.drop)
  | closeSwarm : Change sha1 codec info s .closeSwarm { s with closing := true }
  | shutdown (env : Env) (running : s.stopped = false) :
      Change sha1 codec info s (.shutdown env)
        { s with coordinator := s.coordinator.shutdown env, stopped := true, mailbox := [] }

theorem change_step (sha1 : List UInt8 → Digest) (codec : ExtensionCodec) (info : TorrentMeta)
    (s : Swarm) (action : Action) :
    Change sha1 codec info s action (s.step sha1 codec info action) := by
  cases action with
  | dial peerAddr now => exact .dial peerAddr now
  | connect id supportsExtensions turn =>
    unfold step
    dsimp only
    split
    case h_1 peer hpeer =>
      split
      case h_1 hphase => exact .connect supportsExtensions turn hpeer hphase
      case h_2 => exact .idle _
    case h_2 => exact .idle _
  | dialFailed id =>
    unfold step
    dsimp only
    split
    case h_1 peer hpeer =>
      split
      case h_1 hphase => exact .dialFailed hpeer hphase
      case h_2 => exact .idle _
    case h_2 => exact .idle _
  | turn id turn =>
    unfold step
    dsimp only
    split
    case h_1 => exact .idle _
    case h_2 peer hpeer => exact .turn turn hpeer rfl
  | send id =>
    unfold step sendNext
    dsimp only
    split
    case h_1 => exact .idle _
    case h_2 peer hpeer =>
      split
      case h_1 => exact .idle _
      case h_2 houtbox =>
        split
        case isTrue hstopped => exact .refuse hpeer houtbox hstopped
        case isFalse hrunning => exact .send hpeer houtbox (Bool.not_eq_true _ ▸ hrunning)
  | deliver env =>
    unfold step
    dsimp only
    split
    case h_1 hrunning hmailbox => exact .deliver env hrunning hmailbox
    case h_2 => exact .idle _
  | tick env =>
    unfold step
    dsimp only
    split
    case isTrue => exact .idle _
    case isFalse hrunning => exact .tick env (Bool.not_eq_true _ ▸ hrunning)
  | command msg =>
    unfold step
    dsimp only
    split
    case isTrue hcommand =>
      rw [Bool.and_eq_true, Bool.not_eq_true'] at hcommand
      exact .command hcommand.1 hcommand.2
    case isFalse => exact .idle _
  | progress id now =>
    unfold step
    dsimp only
    split
    case h_1 => exact .idle _
    case h_2 peer hpeer => exact .progress now hpeer
  | abort id now =>
    unfold step
    dsimp only
    split
    case h_1 => exact .idle _
    case h_2 peer hpeer =>
      split
      case isTrue hgone => exact .abort hpeer hgone
      case isFalse => exact .idle _
  | closeSwarm => exact .closeSwarm
  | shutdown env =>
    unfold step
    dsimp only
    split
    case isTrue => exact .idle _
    case isFalse hrunning => exact .shutdown env (Bool.not_eq_true _ ▸ hrunning)

/-! Every request is answered once, and the session that made it waits for the answer. -/

def Each (P : Nat → PeerSession → Prop) (peers : List ActivePeer) : Prop :=
  ∀ (id : Nat) (peer : ActivePeer), peers[id]? = some peer → P id peer.session

section Each

variable {P Q : Nat → PeerSession → Prop} {peers : List ActivePeer}

theorem Each.append (h : Each P peers) {peer : ActivePeer} (hP : P peers.length peer.session) :
    Each P (peers ++ [peer]) := by
  intro id other hother
  rcases Nat.lt_trichotomy id peers.length with hlt | rfl | hlt
  · rw [List.getElem?_append_left hlt] at hother
    exact h id other hother
  · rw [List.getElem?_concat_length, Option.some.injEq] at hother
    exact hother ▸ hP
  · rw [List.getElem?_eq_none (by simp; omega)] at hother
    cases hother

theorem Each.set {i : Nat} (h : ∀ id peer, peers[id]? = some peer → id ≠ i → P id peer.session)
    {peer : ActivePeer} (hP : P i peer.session) : Each P (peers.set i peer) := by
  intro id other hother
  rw [List.getElem?_set] at hother
  split at hother
  case isTrue he =>
    split at hother <;> cases hother
    exact he ▸ hP
  case isFalse hne => exact h id other hother fun he => hne he.symm

theorem Each.map (h : Each P peers) {f : ActivePeer → ActivePeer}
    (hf : ∀ id peer, P id peer.session → Q id (f peer).session) : Each Q (peers.map f) := by
  intro id other hother
  rw [List.getElem?_map, Option.map_eq_some_iff] at hother
  obtain ⟨peer, hpeer, rfl⟩ := hother
  exact hf id peer (h id peer hpeer)

end Each

def requests (id : Nat) (mailbox : List CoordinatorMsg) : Nat :=
  mailbox.countP (·.replyTo == some id)

/-- A session that is not over waits exactly while a request of its own is underway. -/
structure Waits (mailbox : List CoordinatorMsg) (id : Nat) (session : PeerSession) : Prop where
  tickets : requests id mailbox + session.asked id = session.phase.awaits.toNat
  kinds : ∀ msg ∈ mailbox, msg.replyTo = some id → session.phase.asks msg

structure Lively (sha1 : List UInt8 → Digest) (codec : ExtensionCodec) (info : TorrentMeta)
    (s : Swarm) : Prop where
  valid : Each (fun id session => session.Valid (peerContext codec info) sha1 id) s.peers
  known : ∀ msg ∈ s.mailbox, ∀ id, msg.replyTo = some id → id < s.peers.length
  waits : Each (fun id session => session.phase ≠ .ended → Waits s.mailbox id session) s.peers

section Lively

variable {sha1 : List UInt8 → Digest} {codec : ExtensionCodec} {info : TorrentMeta}
  {action : Action} {id : Nat} {peer : ActivePeer} {session : PeerSession}
  {msg : CoordinatorMsg} {mailbox rest : List CoordinatorMsg}

theorem requests_cons (id : Nat) (msg : CoordinatorMsg) (mailbox : List CoordinatorMsg) :
    requests id (msg :: mailbox) =
      requests id mailbox + if msg.replyTo = some id then 1 else 0 := by
  rw [requests, List.countP_cons]
  simp only [beq_iff_eq]
  rfl

theorem requests_append (id : Nat) (mailbox : List CoordinatorMsg) (msg : CoordinatorMsg) :
    requests id (mailbox ++ [msg]) =
      requests id mailbox + if msg.replyTo = some id then 1 else 0 := by
  rw [requests, List.countP_append, ← requests, ← requests, requests_cons]
  exact congrArg _ (Nat.zero_add _)

theorem requests_eq_zero : requests id mailbox = 0 ↔ ∀ msg ∈ mailbox, msg.replyTo ≠ some id := by
  simp only [requests, List.countP_eq_zero, beq_iff_eq]

/-- While the request of a session is in the mailbox, the session has nothing to send and no
answer. -/
theorem Waits.idle (h : Waits mailbox id session)
    (hvalid : session.Valid (peerContext codec info) sha1 id) (hmem : msg ∈ mailbox)
    (hreply : msg.replyTo = some id) :
    session.phase.asks msg ∧ session.outbox = [] ∧ session.reply = none := by
  have hpos : requests id mailbox ≠ 0 := fun hzero => requests_eq_zero.mp hzero msg hmem hreply
  have htickets := h.tickets
  have hbound : session.phase.awaits.toNat ≤ 1 := by cases session.phase.awaits <;> simp
  have hasked : session.asked id = 0 := by omega
  have hawaits : session.phase.awaits = true := by
    cases ha : session.phase.awaits with
    | true => rfl
    | false =>
      rw [ha] at htickets
      simp at htickets
      omega
  rw [PeerSession.asked, Nat.add_eq_zero_iff] at hasked
  refine ⟨h.kinds msg hmem hreply, ?_, by simpa using hasked.2⟩
  by_contra hne
  obtain ⟨other, hother⟩ := List.exists_mem_of_ne_nil _ hne
  have hsome := hvalid.waits hawaits other hother
  have hid := (hvalid.asks other hother hsome).1
  exact List.countP_eq_zero.mp hasked.1 other hother (beq_iff_eq.mpr hid)

theorem turn_of_waiting {turn : Turn} {slots : UploadSlots} {ctx : PeerContext}
    (hawaits : session.phase.awaits) (hreply : session.reply = none) :
    session.turn ctx sha1 id false turn slots = (session, slots) := by
  unfold PeerSession.turn
  split
  case isTrue => rfl
  case isFalse =>
    rw [hreply]
    cases hphase : session.phase <;> rw [hphase] at hawaits <;> first | rfl | cases hawaits

theorem turn_of_ended {turn : Turn} {slots : UploadSlots} {ctx : PeerContext} {gone : Bool}
    (hphase : session.phase = .ended) :
    session.turn ctx sha1 id gone turn slots = (session, slots) := by
  unfold PeerSession.turn
  rw [hphase]
  cases session.reply with
  | none => split <;> rfl
  | some reply => cases reply <;> split <;> rfl

theorem awaits_of_asks {phase : Phase} (h : phase.asks msg) : phase.awaits = true := by
  cases phase <;> first | rfl | cases h

theorem Waits.of_eq {other : PeerSession} (h : Waits mailbox id session)
    (hasked : other.asked id = session.asked id) (hphase : other.phase = session.phase) :
    Waits mailbox id other :=
  ⟨by rw [hasked, hphase]; exact h.tickets, hphase ▸ h.kinds⟩

theorem Waits.turn {turn : Turn} {slots : UploadSlots} (h : Waits mailbox id session)
    (hvalid : session.Valid (peerContext codec info) sha1 id) :
    Waits mailbox id (session.turn (peerContext codec info) sha1 id false turn slots).1 := by
  have hturned := PeerSession.turned_turn (u := slots) hvalid false turn
  refine ⟨?_, fun msg hm hreply => ?_⟩
  · have hasked := hturned.asked_eq rfl
    have htickets := h.tickets
    omega
  · obtain ⟨hasks, -, hnone⟩ := h.idle hvalid hm hreply
    rw [turn_of_waiting (awaits_of_asks hasks) hnone]
    exact hasks

theorem Waits.connect {turn : Turn} {ctx : PeerContext} (h : Waits mailbox id session)
    (hvalid : session.Valid ctx sha1 id) (hphase : session.phase = .dialing)
    (supportsExtensions : Bool) :
    Waits mailbox id (session.connect ctx id supportsExtensions turn) := by
  have htickets := h.tickets
  rw [hphase] at htickets
  obtain ⟨sent, heq⟩ := PeerSession.connect_eq ctx id supportsExtensions turn session
  have hnone : requests id mailbox = 0 := by
    simp only [Phase.awaits, Bool.toNat_false] at htickets
    omega
  rw [heq]
  refine ⟨?_, fun msg hm hreply => absurd hreply (requests_eq_zero.mp hnone msg hm)⟩
  rw [hnone, PeerSession.asked, (hvalid.idle (.inl hphase)).1, hvalid.silent (by rw [hphase]; rfl)]
  simp [Phase.awaits]

theorem Waits.send (h : Waits mailbox id session) (hvalid : session.Valid (peerContext codec info) sha1 id)
    (houtbox : session.outbox = msg :: rest) :
    Waits (mailbox ++ [msg]) id { session with outbox := rest } := by
  refine ⟨?_, fun other hm hreply => ?_⟩
  · have htickets := h.tickets
    rw [PeerSession.asked, houtbox, ← requests, requests_cons] at htickets
    rw [requests_append, PeerSession.asked, ← requests]
    dsimp only
    omega
  · rcases List.mem_append.mp hm with hm | hm
    · exact h.kinds other hm hreply
    · rw [List.mem_singleton] at hm
      subst hm
      exact (hvalid.asks other (PeerSession.mem_of_outbox houtbox) (by rw [hreply]; rfl)).2

theorem Waits.skip (h : Waits mailbox id session) (hreply : msg.replyTo ≠ some id) :
    Waits (mailbox ++ [msg]) id session := by
  refine ⟨by rw [requests_append, if_neg hreply]; exact h.tickets, fun other hm he => ?_⟩
  rcases List.mem_append.mp hm with hm | hm
  · exact h.kinds other hm he
  · exact absurd (List.mem_singleton.mp hm ▸ he) hreply

theorem Waits.taken (h : Waits (msg :: mailbox) id session) (hreply : msg.replyTo ≠ some id) :
    Waits mailbox id session := by
  have htickets := h.tickets
  rw [requests_cons, if_neg hreply] at htickets
  exact ⟨htickets, fun other hm he => h.kinds other (List.mem_cons_of_mem msg hm) he⟩

theorem Waits.receive {reply : Reply} (h : Waits (msg :: mailbox) id session)
    (hvalid : session.Valid (peerContext codec info) sha1 id) (hid : msg.replyTo = some id)
    (hexpects : ∀ phase : Phase, phase.asks msg → phase.expects reply) :
    session.phase.expects reply ∧ session.outbox = [] ∧ session.reply = none ∧
      Waits mailbox id (session.receive reply) := by
  obtain ⟨hasks, houtbox, hnone⟩ := h.idle hvalid List.mem_cons_self hid
  have hopen := hexpects _ hasks
  have htickets := h.tickets
  rw [requests_cons, if_pos hid] at htickets
  refine ⟨hopen, houtbox, hnone, ?_⟩
  rw [PeerSession.receive_eq hopen]
  refine ⟨?_, fun other hm he => h.kinds other (List.mem_cons_of_mem msg hm) he⟩
  rw [PeerSession.asked, hnone] at htickets
  rw [PeerSession.asked]
  simp only [Option.isSome_none, Option.isSome_some, Bool.toNat_false, Bool.toNat_true] at htickets ⊢
  omega

theorem Each.nil (P : Nat → PeerSession → Prop) : Each P [] := by
  intro id peer hpeer
  rw [List.getElem?_nil] at hpeer
  cases hpeer

theorem Lively.start (coordinator : Coordinator) :
    (Swarm.start coordinator).Lively sha1 codec info :=
  ⟨Each.nil _, fun _ hm => absurd hm List.not_mem_nil, Each.nil _⟩

theorem Lively.set (h : s.Lively sha1 codec info) (peer : ActivePeer)
    (hvalid : session.Valid (peerContext codec info) sha1 id)
    (hwaits : session.phase ≠ .ended → Waits s.mailbox id session) :
    (s.withSession id peer session).Lively sha1 codec info where
  valid := Each.set (fun i other hi _ => h.valid i other hi) hvalid
  known msg hm i hi := by
    have hlt := h.known msg hm i hi
    rwa [withSession, List.length_set]
  waits := Each.set (fun i other hi _ => h.waits i other hi) hwaits

theorem Lively.notify (h : s.Lively sha1 codec info) (coordinator : Coordinator)
    (hmailbox : s.mailbox = mailbox ∨ ∃ msg : CoordinatorMsg,
      s.mailbox = msg :: mailbox ∧ msg.replyTo = none)
    (events : List SessionEvent) :
    Lively sha1 codec info { s with
      coordinator := coordinator
      mailbox := mailbox
      peers := s.peers.map (·.inform events) } := by
  refine ⟨h.valid.map fun id peer hv => { hv with }, fun msg hm id hid => ?_,
    h.waits.map fun id peer hw hp => ?_⟩
  · rw [List.length_map]
    rcases hmailbox with he | ⟨first, he, -⟩
    · exact h.known msg (he ▸ hm) id hid
    · exact h.known msg (he ▸ List.mem_cons_of_mem first hm) id hid
  · have hwaits : Waits s.mailbox id peer.session := hw hp
    have hless : Waits mailbox id peer.session := by
      rcases hmailbox with he | ⟨first, he, hnone⟩
      · rwa [he] at hwaits
      · rw [he] at hwaits
        exact hwaits.taken (by rw [hnone]; nofun)
    exact hless.of_eq rfl rfl

theorem Lively.answer {reply : Reply} (h : s.Lively sha1 codec info)
    (hmailbox : s.mailbox = msg :: mailbox) (hid : msg.replyTo = some id)
    (hexpects : ∀ phase : Phase, phase.asks msg → phase.expects reply) (coordinator : Coordinator) :
    ({ s with coordinator := coordinator, mailbox := mailbox }.answer id reply).Lively
      sha1 codec info := by
  have hlt := h.known msg (hmailbox ▸ List.mem_cons_self) id hid
  have hpeer : s.peers[id]? = some s.peers[id] := List.getElem?_eq_getElem hlt
  have hother (i : Nat) (other : ActivePeer) (hi : s.peers[i]? = some other) (hne : i ≠ id)
      (hp : other.session.phase ≠ .ended) : Waits mailbox i other.session := by
    have hwaits := h.waits i other hi hp
    rw [hmailbox] at hwaits
    refine hwaits.taken ?_
    rw [hid, ne_eq, Option.some.injEq]
    exact fun he => hne he.symm
  have hvalid := h.valid id _ hpeer
  have hknown (other : CoordinatorMsg) (hm : other ∈ mailbox) (i : Nat)
      (hi : other.replyTo = some i) : i < s.peers.length :=
    h.known other (hmailbox ▸ List.mem_cons_of_mem msg hm) i hi
  have hreceive : (s.peers[id].session.receive reply).Valid (peerContext codec info) sha1 id ∧
      ((s.peers[id].session.receive reply).phase ≠ .ended →
        Waits mailbox id (s.peers[id].session.receive reply)) := by
    by_cases hended : s.peers[id].session.phase = .ended
    · rw [PeerSession.receive_ended hended]
      exact ⟨hvalid, fun hp => absurd hended hp⟩
    · have hwaits := h.waits id _ hpeer hended
      rw [hmailbox] at hwaits
      obtain ⟨hopen, houtbox, hnone, hafter⟩ := hwaits.receive hvalid hid hexpects
      exact ⟨PeerSession.valid_receive hvalid hopen houtbox hnone, fun _ => hafter⟩
  unfold Swarm.answer
  dsimp only
  rw [hpeer]
  refine ⟨Each.set (fun i other hi _ => h.valid i other hi) hreceive.1, fun other hm i hi => ?_,
    Each.set hother hreceive.2⟩
  exact (List.length_set ..).symm ▸ hknown other hm i hi

theorem Lively.known_append (h : s.Lively sha1 codec info)
    (hmsg : ∀ id, msg.replyTo = some id → id < s.peers.length) :
    ∀ other ∈ s.mailbox ++ [msg], ∀ id, other.replyTo = some id → id < s.peers.length := by
  intro other hm id hid
  rcases List.mem_append.mp hm with hm | hm
  · exact h.known other hm id hid
  · rw [List.mem_singleton.mp hm] at hid
    exact hmsg id hid

theorem lively_step (h : s.Lively sha1 codec info) (hrunning : s.stopped = false)
    (hstill : (s.step sha1 codec info action).stopped = false) :
    (s.step sha1 codec info action).Lively sha1 codec info := by
  have hchange := change_step sha1 codec info s action
  generalize s.step sha1 codec info action = s' at hchange hstill ⊢
  cases hchange with
  | idle => exact h
  | dial peerAddr now =>
    refine ⟨h.valid.append (PeerSession.valid_new _ sha1 _ peerAddr), fun msg hm id hid => ?_,
      h.waits.append fun _ => ⟨?_, fun msg hm hid => ?_⟩⟩
    · rw [List.length_append]
      exact Nat.lt_add_right _ (h.known msg hm id hid)
    · have hnone : requests s.peers.length s.mailbox = 0 :=
        requests_eq_zero.mpr fun msg hm hid => Nat.lt_irrefl _ (h.known msg hm _ hid)
      rw [hnone]
      rfl
    · exact absurd (h.known msg hm _ hid) (Nat.lt_irrefl _)
  | connect supportsExtensions turn hpeer hphase =>
    have hvalid := h.valid _ _ hpeer
    have hwaits := h.waits _ _ hpeer (by rw [hphase]; nofun)
    exact h.set _ (PeerSession.valid_connect hvalid hphase supportsExtensions turn)
      fun _ => hwaits.connect hvalid hphase supportsExtensions
  | dialFailed hpeer => exact h.set _ (PeerSession.valid_drop (h.valid _ _ hpeer)) fun hp => absurd rfl hp
  | abort hpeer => exact h.set _ (PeerSession.valid_drop (h.valid _ _ hpeer)) fun hp => absurd rfl hp
  | @turn id peer result turn hpeer hresult =>
    have hvalid := h.valid _ _ hpeer
    have hturned := PeerSession.turned_turn (u := s.uploadSlots) hvalid false turn
    rw [hrunning] at hresult
    rw [← hresult] at hturned
    have hset := h.set peer hturned.valid fun hp => by
      rw [hresult] at hp ⊢
      refine (h.waits _ _ hpeer fun hended => hp ?_).turn hvalid
      rw [turn_of_ended hended]
      exact hended
    exact ⟨hset.valid, hset.known, hset.waits⟩
  | @send id peer msg rest hpeer houtbox =>
    have hvalid := h.valid _ _ hpeer
    have hown (i : Nat) (hi : msg.replyTo = some i) : i = id := by
      have hid := (hvalid.asks msg (PeerSession.mem_of_outbox houtbox) (by rw [hi]; rfl)).1
      cases hi.symm.trans hid
      rfl
    have hlt : id < s.peers.length := (List.getElem?_eq_some_iff.mp hpeer).1
    refine ⟨Each.set (fun i other hi _ => h.valid i other hi)
      (PeerSession.valid_sent hvalid houtbox), fun other hm i hi => ?_,
      Each.set (fun i other hi hne hp => (h.waits i other hi hp).skip fun hi => hne (hown i hi))
        fun hp => (h.waits _ _ hpeer hp).send hvalid houtbox⟩
    exact (List.length_set ..).symm ▸ h.known_append (fun i hi => hown i hi ▸ hlt) other hm i hi
  | refuse hpeer houtbox hstopped => exact absurd (hrunning.symm.trans hstopped) nofun
  | @deliver env msg rest _ hmailbox =>
    rcases effects_handle env s.coordinator msg with ⟨hnone, hnotices⟩ | ⟨id, reply, hid, he, hexpects⟩
    · rw [resume_notices hnotices]
      exact h.notify _ (.inr ⟨msg, hmailbox, hnone⟩) _
    · rw [resume_answer he]
      exact h.answer hmailbox hid hexpects _
  | tick env =>
    rw [resume_notices (Coordinator.checkTick_cases sha1 env s.coordinator).1]
    exact h.notify _ (.inl rfl) _
  | @command msg _ hcommand =>
    have hnone := (isCommand_silent hcommand).1
    refine ⟨h.valid, h.known_append fun id hid => ?_,
      fun i other ho hp => (h.waits i other ho hp).skip (by rw [hnone]; nofun)⟩
    cases hnone.symm.trans hid
  | @progress id peer now hpeer =>
    exact ⟨Each.set (fun i other hi _ => h.valid i other hi) (h.valid id peer hpeer),
      fun msg hm i hi => (List.length_set ..).symm ▸ h.known msg hm i hi,
      Each.set (fun i other hi _ => h.waits i other hi) (h.waits id peer hpeer)⟩
  | closeSwarm => exact ⟨h.valid, h.known, h.waits⟩
  | shutdown => cases hstill

def manager (s : Swarm) : TorrentManager := s.coordinator.state.manager

theorem coordinator_answer (id : Nat) (reply : Reply) (s : Swarm) :
    (s.answer id reply).coordinator = s.coordinator := by
  unfold answer
  split <;> rfl

theorem stopped_answer (id : Nat) (reply : Reply) (s : Swarm) :
    (s.answer id reply).stopped = s.stopped := by
  unfold answer
  split <;> rfl

theorem mailbox_answer (id : Nat) (reply : Reply) (s : Swarm) :
    (s.answer id reply).mailbox = s.mailbox := by
  unfold answer
  split <;> rfl

theorem resume_frame (result : Coordinator × List Effect) (s : Swarm) :
    (s.resume result).coordinator = result.1 ∧ (s.resume result).stopped = s.stopped := by
  have hfold (effects : List Effect) (s : Swarm) :
      (effects.foldl perform s).coordinator = s.coordinator ∧
        (effects.foldl perform s).stopped = s.stopped := by
    induction effects generalizing s with
    | nil => exact ⟨rfl, rfl⟩
    | cons e effects ih =>
      rw [List.foldl_cons, (ih _).1, (ih _).2]
      cases e <;>
        first | exact ⟨rfl, rfl⟩ | exact ⟨coordinator_answer _ _ _, stopped_answer _ _ _⟩
  exact hfold result.2 { s with coordinator := result.1 }

theorem manager_step (sha1 : List UInt8 → Digest) (codec : ExtensionCodec) (info : TorrentMeta)
    (s : Swarm) (action : Action) :
    ∃ calls, (s.step sha1 codec info action).manager =
      exec TorrentManager.call s.manager calls := by
  have hchange := change_step sha1 codec info s action
  generalize s.step sha1 codec info action = s' at hchange ⊢
  cases hchange with
  | @deliver env msg rest =>
    rw [manager, (resume_frame _ _).1]
    exact Coordinator.handle_calls env s.coordinator msg
  | tick env =>
    rw [manager, (resume_frame _ _).1]
    obtain ⟨-, he | ⟨-, he | ⟨index, he⟩⟩⟩ := Coordinator.checkTick_cases sha1 env s.coordinator
    · exact ⟨[], by rw [he]; rfl⟩
    · exact ⟨[], he⟩
    · exact ⟨[.markCompleted index], he⟩
  | shutdown env =>
    refine ⟨[], ?_⟩
    rw [manager]
    unfold Coordinator.shutdown
    dsimp only
    split <;> simp_all [manager, CoordinatorState.manager]
  | _ => exact ⟨[], rfl⟩

theorem inv_step (h : s.manager.Inv) : (s.step sha1 codec info action).manager.Inv := by
  obtain ⟨calls, he⟩ := manager_step sha1 codec info s action
  rw [he]
  exact exec_invariant (fun _ call h => h.call call) calls h

theorem totalPieces_step (sha1 : List UInt8 → Digest) (codec : ExtensionCodec)
    (info : TorrentMeta) (s : Swarm) (action : Action) :
    (s.step sha1 codec info action).manager.totalPieces = s.manager.totalPieces := by
  obtain ⟨calls, he⟩ := manager_step sha1 codec info s action
  rw [he]
  exact exec_invariant (P := fun m => m.totalPieces = s.manager.totalPieces)
    (fun m call h => (TorrentManager.totalPieces_call m call).trans h) calls rfl

theorem length_peers_step (sha1 : List UInt8 → Digest) (codec : ExtensionCodec)
    (info : TorrentMeta) (s : Swarm) (action : Action) :
    s.peers.length ≤ (s.step sha1 codec info action).peers.length := by
  have hchange := change_step sha1 codec info s action
  generalize s.step sha1 codec info action = s' at hchange ⊢
  cases hchange with
  | idle | command | closeSwarm | shutdown => exact Nat.le_refl _
  | dial => exact (List.length_append ..).symm ▸ Nat.le_add_right _ _
  | deliver env _ hmailbox =>
    rcases effects_handle env s.coordinator _ with ⟨-, hnotices⟩ | ⟨id, reply, -, he, -⟩
    · rw [resume_notices hnotices]
      exact (List.length_map ..).symm ▸ Nat.le_refl _
    · rw [resume_answer he]
      unfold answer
      split
      · exact Nat.le_refl _
      · exact (List.length_set ..).symm ▸ Nat.le_refl _
  | tick env =>
    rw [resume_notices (Coordinator.checkTick_cases sha1 env s.coordinator).1]
    exact (List.length_map ..).symm ▸ Nat.le_refl _
  | _ => exact (List.length_set ..).symm ▸ Nat.le_refl _

theorem running_of_step (h : (s.step sha1 codec info action).stopped = false) :
    s.stopped = false := by
  have hchange := change_step sha1 codec info s action
  generalize s.step sha1 codec info action = s' at hchange h ⊢
  cases hchange with
  | deliver env =>
    rw [(resume_frame _ _).2] at h
    exact h
  | tick env =>
    rw [(resume_frame _ _).2] at h
    exact h
  | shutdown => cases h
  | _ => exact h

structure Steady (sha1 : List UInt8 → Digest) (codec : ExtensionCodec) (info : TorrentMeta)
    (s : Swarm) : Prop extends Lively sha1 codec info s where
  inv : s.manager.Inv
  totalPieces : s.manager.totalPieces ≤ info.pieces.length

theorem steady_step (h : s.Steady sha1 codec info)
    (hstill : (s.step sha1 codec info action).stopped = false) :
    (s.step sha1 codec info action).Steady sha1 codec info where
  toLively := lively_step h.toLively (running_of_step hstill) hstill
  inv := inv_step h.inv
  totalPieces := (totalPieces_step sha1 codec info s action).trans_le h.totalPieces

theorem manager_launch {l : Launch} {fs : FileStore Path} {task : BackgroundTask}
    (h : launch info l fs = some task) : task.coordinator.state.manager =
      .withSelection info.piecesCount l.completed l.selection := by
  unfold launch at h
  split at h
  case h_1 => cases h
  case h_2 =>
    cases h
    unfold initialCoordinatorState
    split <;> rfl

theorem steady_start (sha1 : List UInt8 → Digest) (codec : ExtensionCodec) {l : Launch}
    {fs : FileStore Path} {task : BackgroundTask}
    (haccepted : ∃ raw infoHash, buildMeta l.windows raw infoHash = .ok info)
    (hlaunch : launch info l fs = some task) :
    (Swarm.start task.coordinator).Steady sha1 codec info := by
  have hmanager : (Swarm.start task.coordinator).manager = _ := manager_launch hlaunch
  refine ⟨.start _, ?_, ?_⟩
  · rw [hmanager]
    exact TorrentManager.inv_withSelection _ _ _
  · obtain ⟨raw, infoHash, hbuilt⟩ := haccepted
    obtain ⟨total, hwellFormed⟩ := wellFormed_of_buildMeta hbuilt
    rw [hmanager]
    exact hwellFormed.piecesCount.trans_le (Nat.mod_le _ _)

/-- Sessions end by returning, not by being aborted. -/
def Returns : Action → Prop
  | .abort .. => False
  | _ => True

instance (action : Action) : Decidable (Returns action) := by
  unfold Returns
  split <;> infer_instance

theorem run_invariant {I : Swarm → Prop} {C : Swarm → Action → Prop} {actions : List Action}
    (hstep : ∀ s action, s.Steady sha1 codec info → I s → C s action →
      (s.step sha1 codec info action).stopped = false → I (s.step sha1 codec info action))
    (hsteady : s.Steady sha1 codec info) (hI : I s)
    (hC : Along (step sha1 codec info) C s actions)
    (hrunning : (exec (step sha1 codec info) s actions).stopped = false) :
    (exec (step sha1 codec info) s actions).Steady sha1 codec info ∧
      I (exec (step sha1 codec info) s actions) := by
  refine exec_invariant_along (P := fun s => s.stopped = false → s.Steady sha1 codec info ∧ I s)
    (fun s action h hc hstill => ?_) hC (fun _ => ⟨hsteady, hI⟩) hrunning
  obtain ⟨hsteady, hI⟩ := h (running_of_step hstill)
  exact ⟨steady_step hsteady hstill, hstep s action hsteady hI hc hstill⟩

end Lively

end Swarm

/-! A torrent of two pieces in one file, all bytes of which have the same hash. -/

def twoPieces : TorrentMeta := .new "t" 1 2 [zeroDigest, zeroDigest] (some 2) none zeroDigest

def sameHash (_ : List UInt8) : Digest := zeroDigest

def noCodec : ExtensionCodec := ⟨fun _ => none, fun _ => none, fun _ => none, fun _ => none⟩

def turnWith (stimulus : Stimulus) : Turn :=
  ⟨0, stimulus, fun _ => true, false, .dedup⟩

def freshLaunch : Launch := { plainLaunch none with selection := fileSelection twoPieces none }

def startFresh : Swarm :=
  .start ((launch twoPieces freshLaunch fun _ => none).get (by decide +kernel)).coordinator

theorem accepted_twoPieces : ∃ raw infoHash, buildMeta false raw infoHash = .ok twoPieces :=
  ⟨⟨"t", 1, List.replicate 40 0, some 2, none⟩, zeroDigest, by decide +kernel⟩

end Tortor.System
