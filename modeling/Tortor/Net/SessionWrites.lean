import Tortor.Net.SessionRun

/-! What a session writes to its peer, and when. -/

namespace Tortor.Net

open Tortor.Core

def PeerMessage.isPlain : PeerMessage → Bool
  | .have _ | .bitfield _ | .piece .. | .extended .. => false
  | _ => true

namespace PeerSession

/-- From `s` to `t` the session has written messages with `P`; it has not read any, not looked at
its events and not changed what it knows of the extensions. -/
structure Writes (P : PeerMessage → Prop) (s t : PeerSession) : Prop where
  sent : ∃ new, t.sent = new ++ s.sent ∧ ∀ msg ∈ new, P msg
  received : t.received = s.received
  events : t.events = s.events
  supportsExtensions : t.supportsExtensions = s.supportsExtensions
  remotePexId : t.remotePexId = s.remotePexId
  pexReceived : t.pexReceived = s.pexReceived

variable {P : PeerMessage → Prop} {s t v : PeerSession} {u : UploadSlots} {msg : PeerMessage}

theorem Writes.of_eq (hsent : t.sent = s.sent) (hreceived : t.received = s.received)
    (hevents : t.events = s.events) (hsupports : t.supportsExtensions = s.supportsExtensions)
    (hremote : t.remotePexId = s.remotePexId) (hpex : t.pexReceived = s.pexReceived) :
    Writes P s t :=
  ⟨⟨[], hsent, nofun⟩, hreceived, hevents, hsupports, hremote, hpex⟩

theorem Writes.refl (P : PeerMessage → Prop) (s : PeerSession) : Writes P s s :=
  .of_eq rfl rfl rfl rfl rfl rfl

theorem Writes.trans (h : Writes P s t) (h' : Writes P t v) : Writes P s v := by
  obtain ⟨⟨new, hnew, hP⟩, hreceived, hevents, hsupports, hremote, hpex⟩ := h
  obtain ⟨⟨new', hnew', hP'⟩, hreceived', hevents', hsupports', hremote', hpex'⟩ := h'
  refine ⟨⟨new' ++ new, by rw [hnew', hnew, List.append_assoc], fun msg hm => ?_⟩,
    hreceived'.trans hreceived, hevents'.trans hevents, hsupports'.trans hsupports,
    hremote'.trans hremote, hpex'.trans hpex⟩
  exact (List.mem_append.mp hm).elim (hP' msg) (hP msg)

theorem Writes.after (h : Writes P t v) (hsame : Writes P s t) : Writes P s v := hsame.trans h

theorem writes_write (hP : P msg) (s : PeerSession) : Writes P s (s.write msg) :=
  ⟨⟨[msg], rfl, fun _ hm => List.mem_singleton.mp hm ▸ hP⟩, rfl, rfl, rfl, rfl, rfl⟩

theorem writes_tryWrite (hP : P msg) (turn : Turn) (s : PeerSession) :
    Writes P s (s.tryWrite turn msg) := by
  unfold tryWrite
  split
  · exact writes_write hP s
  · exact .refl P s

theorem writes_finish (P : PeerMessage → Prop) (s : PeerSession) : Writes P s s.finish := by
  unfold finish
  dsimp only
  split <;> exact .of_eq rfl rfl rfl rfl rfl rfl

theorem writes_writeThen (hP : P msg) (turn : Turn) (n : Nat) {next : PeerSession → PeerSession}
    (hnext : ∀ t, Writes P t (next t)) (s : PeerSession) :
    Writes P s (s.writeThen turn n msg next) := by
  unfold writeThen
  split
  · exact (writes_write hP s).trans (hnext _)
  · exact writes_finish P s

/-! The code between two awaits, where messages that may be written at any time have `P`. -/

section Plain

variable (hplain : ∀ msg : PeerMessage, msg.isPlain → P msg)
include hplain

theorem writes_requestLoop (turn : Turn) (index rounds : Nat) (assembler : PieceAssembler)
    (sent : List PeerMessage) : ∃ new,
      (requestLoop turn index rounds assembler sent).2.2 = new ++ sent ∧ ∀ msg ∈ new, P msg := by
  induction rounds generalizing assembler sent with
  | zero => exact ⟨[], rfl, nofun⟩
  | succ rounds ih =>
    unfold requestLoop
    split
    case isFalse => exact ⟨[], rfl, nofun⟩
    case isTrue =>
      split
      case h_1 => exact ⟨[], rfl, nofun⟩
      case h_2 begin len retry next hnext =>
        split
        case isTrue =>
          obtain ⟨new, hnew, hP⟩ := ih next (.request index begin len :: sent)
          refine ⟨new ++ [.request index begin len], by rw [hnew]; simp, fun msg hm => ?_⟩
          rcases List.mem_append.mp hm with hm | hm
          · exact hP msg hm
          · exact List.mem_singleton.mp hm ▸ hplain _ rfl
        case isFalse => exact ⟨[], rfl, nofun⟩

theorem writes_fillPipeline (turn : Turn) (s : PeerSession) : Writes P s (s.fillPipeline turn) := by
  unfold fillPipeline
  dsimp only
  split
  · exact .of_eq rfl rfl rfl rfl rfl rfl
  · split
    case h_1 => exact .of_eq rfl rfl rfl rfl rfl rfl
    case h_2 job hjob =>
      have hloop := writes_requestLoop hplain turn job.index PIPELINE_DEPTH job.assembler s.sent
      split
      · exact ⟨hloop, rfl, rfl, rfl, rfl, rfl⟩
      · exact Writes.after (writes_finish P _) ⟨hloop, rfl, rfl, rfl, rfl, rfl⟩

theorem writes_maybeRequestWork (id : Nat) (turn : Turn) (s : PeerSession) :
    Writes P s (s.maybeRequestWork id turn) := by
  unfold maybeRequestWork
  split
  · exact writes_fillPipeline hplain turn s
  · exact .of_eq rfl rfl rfl rfl rfl rfl

theorem writes_takeWork (ctx : PeerContext) (turn : Turn) (piece : Option Nat) (s : PeerSession) :
    Writes P s (s.takeWork ctx turn piece) := by
  unfold takeWork
  split
  · exact Writes.after (writes_fillPipeline hplain turn _) (.of_eq rfl rfl rfl rfl rfl rfl)
  · split
    · exact Writes.after (writes_fillPipeline hplain turn _) (.of_eq rfl rfl rfl rfl rfl rfl)
    · exact Writes.after (writes_finish P _) (.of_eq rfl rfl rfl rfl rfl rfl)

theorem writes_interested (turn : Turn) (n : Nat) (s : PeerSession) :
    Writes P s (s.writeThen turn n .interested fun self =>
      { self with phase := .looping, amInterested := true }) := by
  apply writes_writeThen (hplain .interested rfl)
  exact fun _ => .of_eq rfl rfl rfl rfl rfl rfl

theorem writes_tryUnchoke (turn : Turn) (s : PeerSession) (u : UploadSlots) :
    Writes P s (s.tryUnchoke turn u).2.1 := by
  unfold tryUnchoke
  split
  · split
    · dsimp only
      split
      · exact (writes_write (hplain .unchoke rfl) s).trans (.of_eq rfl rfl rfl rfl rfl rfl)
      · exact .of_eq rfl rfl rfl rfl rfl rfl
    · exact .refl P s
  · exact .refl P s

omit hplain in
theorem writes_releaseUploadSlot (s : PeerSession) (u : UploadSlots) :
    Writes P s (s.releaseUploadSlot u).1 := by
  rw [(releaseUploadSlot_spec s u).1]
  exact .of_eq rfl rfl rfl rfl rfl rfl

theorem writes_choke (turn : Turn) (s : PeerSession) (u : UploadSlots) :
    Writes P s (s.choke turn u).1 := by
  unfold choke
  split
  · exact writes_releaseUploadSlot s u
  · split
    · refine Writes.trans ?_ (writes_releaseUploadSlot _ u)
      exact (writes_write (hplain .choke rfl) s).trans (.of_eq rfl rfl rfl rfl rfl rfl)
    · exact writes_finish P s

omit hplain in
theorem writes_handleHave (turn : Turn) (index : Nat) (s : PeerSession) :
    Writes P s (s.handleHave turn index) := by
  unfold handleHave
  split
  · exact writes_finish P s
  · dsimp only
    split <;> exact .of_eq rfl rfl rfl rfl rfl rfl

omit hplain in
theorem writes_handleBitfield (turn : Turn) (payload : List UInt8) (s : PeerSession) :
    Writes P s (s.handleBitfield turn payload) := by
  unfold handleBitfield
  split
  · exact writes_finish P s
  · dsimp only
    split <;> exact .of_eq rfl rfl rfl rfl rfl rfl

omit hplain in
theorem writes_handleRequest (ctx : PeerContext) (id index begin length : Nat) (s : PeerSession) :
    Writes P s (s.handleRequest ctx id index begin length) := by
  unfold handleRequest
  split
  · exact .refl P s
  · dsimp only
    split
    · exact .of_eq rfl rfl rfl rfl rfl rfl
    · exact writes_finish P s

omit hplain in
theorem writes_handlePiece (turn : Turn) (index begin : Nat) (block : List UInt8)
    (s : PeerSession) : Writes P s (s.handlePiece turn index begin block) := by
  unfold handlePiece
  split
  · exact .refl P s
  · split
    · split
      · exact .refl P s
      · exact .refl P s
      · dsimp only
        split
        · exact .of_eq rfl rfl rfl rfl rfl rfl
        · exact Writes.after (writes_finish P _) (.of_eq rfl rfl rfl rfl rfl rfl)
        · exact .of_eq rfl rfl rfl rfl rfl rfl
    · exact .refl P s

omit hplain in
theorem writes_takeHash (sha1 : List UInt8 → Digest) (turn : Turn) (job : Job)
    (buffer : List UInt8) (s : PeerSession) : Writes P s (s.takeHash sha1 turn job buffer) := by
  unfold takeHash
  split
  · exact writes_finish P s
  · split
    · exact .of_eq rfl rfl rfl rfl rfl rfl
    · exact Writes.after (writes_finish P _) (.of_eq rfl rfl rfl rfl rfl rfl)

theorem writes_tend (now : Nat) (turn : Turn) (s : PeerSession) (u : UploadSlots) :
    Writes P s (s.tend now turn u).1 := by
  have htry := writes_tryUnchoke hplain turn s u
  unfold tend
  split
  case h_1 t u' he =>
    rw [he] at htry
    exact htry.trans (writes_finish P t)
  case h_2 t u' he =>
    rw [he] at htry
    have hrest (v : PeerSession) : Writes P v
        (if v.job.isNone && decide (USELESS_TIMEOUT < now - v.lastUseful) &&
          (!v.peerInterested || v.amChoking) then v.finish
        else { v with phase := .looping }) := by
      split
      · exact writes_finish P v
      · exact .of_eq rfl rfl rfl rfl rfl rfl
    refine htry.trans ?_
    dsimp only
    split
    · dsimp only
      apply writes_writeThen (hplain .keepAlive rfl)
      intro v
      exact Writes.after (hrest { v with lastKeepalive := now }) (.of_eq rfl rfl rfl rfl rfl rfl)
    · exact hrest t

theorem writes_housekeeping (turn : Turn) (s : PeerSession) (u : UploadSlots) :
    Writes P s (s.housekeeping turn u).1 := by
  unfold housekeeping
  split
  · exact writes_finish P s
  · split
    · exact writes_tend hplain turn.now turn s u
    · dsimp only
      split
      · exact .of_eq rfl rfl rfl rfl rfl rfl
      · split
        · exact writes_finish P s
        · exact writes_tend hplain turn.now turn s u

end Plain

/-- The messages that a turn may write, and what each of them tells about the turn. -/
inductive Written (ctx : PeerContext) (s : PeerSession) (turn : Turn) : PeerMessage → Prop
  | plain {msg : PeerMessage} (h : msg.isPlain) : Written ctx s turn msg
  | bitfield (completed : List Nat) (phase : s.phase = .opening)
      (reply : s.reply = some (.completedPieces completed)) (some : completed.isEmpty = false) :
      Written ctx s turn
        (.bitfield (Bitfield.fromIndices ctx.expectedHashes.length completed).bytes)
  | piece (index begin : Nat) (block : List UInt8) (phase : s.phase = .serving index begin)
      (reply : s.reply = some (.block (some block))) : Written ctx s turn (.piece index begin block)
  | have (index : Nat) (events : List SessionEvent) (phase : s.phase = .selecting)
      (stimulus : turn.stimulus = .event) (head : s.events = .pieceCompleted index :: events) :
      Written ctx s turn (.have index)
  | extended (currentPeers : List SocketAddr) (events : List SessionEvent) (remoteId : UInt8)
      (payload : List UInt8) (phase : s.phase = .selecting) (stimulus : turn.stimulus = .event)
      (head : s.events = .activePeersSnapshot currentPeers :: events)
      (remote : s.remotePexId = some remoteId)
      (changes : s.peerChanges (turn.order.arrange currentPeers) ≠ ([], [])) :
      Written ctx s turn (.extended remoteId payload)

def hear (ctx : PeerContext) (msg : PeerMessage) (s : PeerSession) : PeerSession :=
  let s := { s with received := msg :: s.received }
  match msg with
  | .extended id payload => s.handleExtended ctx id payload
  | _ => s

def takeIn (ctx : PeerContext) (turn : Turn) (s : PeerSession) : PeerSession :=
  if !s.outbox.isEmpty then s
  else match s.phase, turn.stimulus with
    | .selecting, .message msg => s.hear ctx msg
    | .selecting, .event => { s with events := s.events.tail }
    | .selecting, .lagged missed => { s with events := s.events.drop missed }
    | _, _ => s

variable {ctx : PeerContext} {turn : Turn}

theorem writes_handleSnapshot {currentPeers : List SocketAddr}
    (hP : ∀ remoteId payload, s.remotePexId = some remoteId →
      s.peerChanges (turn.order.arrange currentPeers) ≠ ([], []) → P (.extended remoteId payload)) :
    Writes P s (s.handleSnapshot ctx turn currentPeers) := by
  unfold handleSnapshot
  split
  case h_1 => exact .refl P s
  case h_2 remoteId hremote =>
    dsimp only
    split
    case isTrue => exact .refl P s
    case isFalse hchanges =>
      have hne : s.peerChanges (turn.order.arrange currentPeers) ≠ ([], []) := fun he => by
        rw [he] at hchanges
        exact hchanges rfl
      split
      · exact Writes.after (writes_tryWrite (hP remoteId _ hremote hne) turn _)
          (.of_eq rfl rfl rfl rfl rfl rfl)
      · exact .of_eq rfl rfl rfl rfl rfl rfl

theorem writes_handleEvent {event : SessionEvent} (hplain : ∀ msg : PeerMessage, msg.isPlain → P msg)
    (hhave : ∀ index, event = .pieceCompleted index → P (.have index))
    (hextended : ∀ currentPeers remoteId payload, event = .activePeersSnapshot currentPeers →
      s.remotePexId = some remoteId → s.peerChanges (turn.order.arrange currentPeers) ≠ ([], []) →
        P (.extended remoteId payload)) :
    Writes P s (s.handleEvent ctx turn event) := by
  unfold handleEvent
  cases event with
  | pieceCompleted index =>
    have hwrite : Writes P s (tryWrite turn (.have index) { s with phase := .looping }) :=
      Writes.after (writes_tryWrite (hhave index rfl) turn _) (.of_eq rfl rfl rfl rfl rfl rfl)
    dsimp only
    split
    · exact hwrite.trans (.of_eq rfl rfl rfl rfl rfl rfl)
    · exact hwrite
  | selectionChanged =>
    dsimp only
    split
    · exact .of_eq rfl rfl rfl rfl rfl rfl
    · have hloop : Writes P s { s with phase := .looping } := .of_eq rfl rfl rfl rfl rfl rfl
      apply hloop.trans
      apply writes_writeThen (hplain .interested rfl)
      exact fun _ => .of_eq rfl rfl rfl rfl rfl rfl
  | downloadComplete =>
    have hwrite : Writes P s (tryWrite turn .notInterested { s with phase := .looping }) :=
      Writes.after (writes_tryWrite (hplain .notInterested rfl) turn _)
        (.of_eq rfl rfl rfl rfl rfl rfl)
    dsimp only
    split
    · exact hwrite.trans (.of_eq rfl rfl rfl rfl rfl rfl)
    · exact .of_eq rfl rfl rfl rfl rfl rfl
  | activePeersSnapshot currentPeers =>
    refine Writes.after (writes_handleSnapshot fun remoteId payload hremote hchanges => ?_)
      (.of_eq rfl rfl rfl rfl rfl rfl)
    exact hextended currentPeers remoteId payload rfl hremote hchanges

theorem writes_handleExtended (h : Writes P s t) (extensionId : UInt8) (payload : List UInt8) :
    Writes P (s.handleExtended ctx extensionId payload)
      (t.handleExtended ctx extensionId payload) := by
  obtain ⟨hsent, hreceived, hevents, hsupports, hremote, hpex⟩ := h
  unfold handleExtended
  rw [hremote]
  split
  · exact ⟨hsent, hreceived, hevents, hsupports, hremote, hpex⟩
  · split
    · split
      · exact ⟨hsent, hreceived, hevents, hsupports, rfl, hpex⟩
      · exact ⟨hsent, hreceived, hevents, hsupports, hremote, hpex⟩
    · split
      · split
        · split
          · exact ⟨hsent, hreceived, hevents, hsupports, hremote, hpex⟩
          · exact ⟨hsent, hreceived, hevents, hsupports, rfl, by rw [hpex]⟩
        · exact ⟨hsent, hreceived, hevents, hsupports, hremote, hpex⟩
      · exact ⟨hsent, hreceived, hevents, hsupports, hremote, hpex⟩

theorem writes_handleMessage (hplain : ∀ msg : PeerMessage, msg.isPlain → P msg)
    (id : Nat) (turn : Turn) (msg : PeerMessage) (s : PeerSession) (u : UploadSlots) :
    Writes P (s.hear ctx msg) (s.handleMessage ctx id turn msg u).1 := by
  unfold handleMessage
  have hsame : Writes P { s with received := msg :: s.received }
      { s with phase := .looping, lastRecv := turn.now, received := msg :: s.received } :=
    .of_eq rfl rfl rfl rfl rfl rfl
  cases msg with
  | keepAlive => exact hsame
  | choke => exact .of_eq rfl rfl rfl rfl rfl rfl
  | unchoke => exact .of_eq rfl rfl rfl rfl rfl rfl
  | interested =>
    have htry := writes_tryUnchoke hplain turn { s with
      phase := .looping, lastRecv := turn.now, received := .interested :: s.received
      peerInterested := true } u
    dsimp only
    split <;> rename_i he <;> rw [he] at htry
    · exact htry.after (.of_eq rfl rfl rfl rfl rfl rfl)
    · exact (htry.trans (writes_finish P _)).after (.of_eq rfl rfl rfl rfl rfl rfl)
  | notInterested =>
    exact Writes.after (writes_choke hplain turn _ u) (.of_eq rfl rfl rfl rfl rfl rfl)
  | «have» index => exact Writes.after (writes_handleHave turn index _) hsame
  | bitfield payload => exact Writes.after (writes_handleBitfield turn payload _) hsame
  | request index begin length =>
    exact Writes.after (writes_handleRequest ctx id index begin length _) hsame
  | piece index begin block => exact Writes.after (writes_handlePiece turn index begin block _) hsame
  | extended extensionId payload =>
    exact writes_handleExtended hsame extensionId payload

theorem writes_opened (ctx : PeerContext) (completed : List Nat)
    (hplain : ∀ msg : PeerMessage, msg.isPlain → P msg)
    (hbitfield : completed.isEmpty = false →
      P (.bitfield (Bitfield.fromIndices ctx.expectedHashes.length completed).bytes))
    (s : PeerSession) : Writes P s (s.opened ctx turn completed) := by
  unfold opened
  dsimp only
  split
  case isTrue => exact writes_interested hplain turn 1 s
  case isFalse hsome =>
    apply writes_writeThen (hbitfield (Bool.eq_false_iff.mpr hsome))
    exact fun t => writes_interested hplain turn 1 t

theorem writes_takeBlock (turn : Turn) (index begin : Nat) (data : Option (List UInt8))
    (hpiece : ∀ block, data = some block → P (.piece index begin block)) (s : PeerSession) :
    Writes P s (s.takeBlock turn index begin data) := by
  unfold takeBlock
  split
  case h_1 => exact .of_eq rfl rfl rfl rfl rfl rfl
  case h_2 block =>
    apply writes_writeThen (hpiece block rfl)
    exact fun _ => .of_eq rfl rfl rfl rfl rfl rfl

theorem writes_select (id : Nat) (hphase : s.phase = .selecting) (houtbox : s.outbox = []) :
    Writes (Written ctx s turn) (s.takeIn ctx turn) (s.select ctx id turn u).1 := by
  have hplain (msg : PeerMessage) (hp : msg.isPlain) : Written ctx s turn msg := .plain hp
  have hsame {t : PeerSession} (hst : ∀ msg, turn.stimulus ≠ .message msg)
      (hno : turn.stimulus ≠ .event) (hlag : ∀ missed, turn.stimulus ≠ .lagged missed)
      (h : Writes (Written ctx s turn) s t) : Writes (Written ctx s turn) (s.takeIn ctx turn) t := by
    have heq : s.takeIn ctx turn = s := by
      unfold takeIn
      rw [hphase, houtbox]
      cases hturn : turn.stimulus <;> simp_all
    rwa [heq]
  unfold select
  split
  case h_1 hst =>
    exact hsame (by simp [hst]) (by simp [hst]) (by simp [hst]) (writes_finish _ s)
  case h_2 hst =>
    have htake : s.takeIn ctx turn = { s with events := s.events.tail } := by
      simp [takeIn, hphase, houtbox, hst]
    rw [htake]
    split
    case h_1 hevents => exact .of_eq rfl rfl (by rw [hevents]; rfl) rfl rfl rfl
    case h_2 event events hevents =>
      have htail : s.events.tail = events := by rw [hevents]; rfl
      rw [htail]
      apply writes_handleEvent hplain
      · exact fun index he => .have index events hphase hst (he ▸ hevents)
      · intro currentPeers remoteId payload he hremote hchanges
        exact .extended currentPeers events remoteId payload hphase hst (he ▸ hevents) hremote hchanges
  case h_3 missed hst =>
    have htake : s.takeIn ctx turn = { s with events := s.events.drop missed } := by
      simp [takeIn, hphase, houtbox, hst]
    rw [htake]
    exact .of_eq rfl rfl rfl rfl rfl rfl
  case h_4 msg hst =>
    have htake : s.takeIn ctx turn = s.hear ctx msg := by simp [takeIn, hphase, houtbox, hst]
    rw [htake]
    exact writes_handleMessage hplain id turn msg s u
  case h_5 hst =>
    exact hsame (by simp [hst]) (by simp [hst]) (by simp [hst]) (writes_finish _ s)
  case h_6 hst =>
    exact hsame (by simp [hst]) (by simp [hst]) (by simp [hst]) (writes_housekeeping hplain turn s u)

theorem writes_turn (ctx : PeerContext) (sha1 : List UInt8 → Digest) (id : Nat) (gone : Bool)
    (turn : Turn) (s : PeerSession) (u : UploadSlots) :
    Writes (Written ctx s turn) (s.takeIn ctx turn) (s.turn ctx sha1 id gone turn u).1 := by
  have hplain (msg : PeerMessage) (hp : msg.isPlain) : Written ctx s turn msg := .plain hp
  have hsame {t : PeerSession} (hs : s.outbox = [] → s.phase ≠ .selecting)
      (h : Writes (Written ctx s turn) s t) : Writes (Written ctx s turn) (s.takeIn ctx turn) t := by
    have heq : s.takeIn ctx turn = s := by
      unfold takeIn
      split
      case isTrue => rfl
      case isFalse hempty =>
        have houtbox : s.outbox = [] := by simpa using hempty
        cases hphase : s.phase <;> first | rfl | exact absurd hphase (hs houtbox)
    rwa [heq]
  unfold PeerSession.turn
  split
  case isTrue hfull => exact hsame (fun houtbox => by simp [houtbox] at hfull) (.refl _ s)
  case isFalse hempty =>
    have houtbox : s.outbox = [] := by simpa using hempty
    split
    case h_1 pieces hphase hreply =>
      refine hsame (fun _ => by rw [hphase]; nofun) ?_
      refine Writes.after (writes_opened ctx pieces hplain (fun hsome => ?_) _)
        (.of_eq rfl rfl rfl rfl rfl rfl)
      exact .bitfield pieces hphase hreply hsome
    case h_2 hphase hreply =>
      refine hsame (fun _ => by rw [hphase]; nofun) ?_
      cases gone with
      | false => exact .refl _ s
      | true => exact writes_opened ctx [] hplain nofun s
    case h_3 hphase =>
      exact hsame (fun _ => by rw [hphase]; nofun) (writes_maybeRequestWork hplain id turn s)
    case h_4 piece hphase hreply =>
      refine hsame (fun _ => by rw [hphase]; nofun) ?_
      exact Writes.after (writes_takeWork hplain ctx turn piece _) (.of_eq rfl rfl rfl rfl rfl rfl)
    case h_5 hphase hreply =>
      refine hsame (fun _ => by rw [hphase]; nofun) ?_
      cases gone with
      | false => exact .refl _ s
      | true => exact writes_takeWork hplain ctx turn none s
    case h_6 hphase => exact writes_select id hphase houtbox
    case h_7 index begin data hphase hreply =>
      refine hsame (fun _ => by rw [hphase]; nofun) ?_
      refine Writes.after (writes_takeBlock turn index begin data (fun block hdata => ?_) _)
        (.of_eq rfl rfl rfl rfl rfl rfl)
      exact .piece index begin block hphase (hdata ▸ hreply)
    case h_8 index begin hphase hreply =>
      refine hsame (fun _ => by rw [hphase]; nofun) ?_
      cases gone with
      | false => exact .refl _ s
      | true => exact writes_takeBlock turn index begin none nofun s
    case h_9 job buffer hphase =>
      exact hsame (fun _ => by rw [hphase]; nofun) (writes_takeHash sha1 turn job buffer s)
    case h_10 now hphase =>
      exact hsame (fun _ => by rw [hphase]; nofun) (writes_tend hplain now turn s u)
    case h_11 hphase =>
      refine hsame (fun _ => by rw [hphase]; nofun) ?_
      exact (writes_releaseUploadSlot s u).trans (.of_eq rfl rfl rfl rfl rfl rfl)
    case h_12 hselecting _ _ _ _ _ _ _ _ _ =>
      exact hsame (fun _ he => hselecting he) (.refl _ s)

theorem turn_of_event {sha1 : List UInt8 → Digest} {id : Nat} {event : SessionEvent}
    {events : List SessionEvent} {gone : Bool}
    (houtbox : s.outbox = []) (hphase : s.phase = .selecting) (hstimulus : turn.stimulus = .event)
    (hevents : s.events = event :: events) :
    s.turn ctx sha1 id gone turn u = ({ s with events := events }.handleEvent ctx turn event, u) := by
  have hturn : s.turn ctx sha1 id gone turn u = s.select ctx id turn u := by
    unfold PeerSession.turn
    rw [if_neg (by simp [houtbox]), hphase]
  rw [hturn]
  unfold select
  rw [hstimulus]
  dsimp only
  rw [hevents]

theorem sent_finish (s : PeerSession) : s.finish.sent = s.sent := by
  unfold finish
  dsimp only
  split <;> rfl

theorem handleExtended_sent (ctx : PeerContext) (extensionId : UInt8) (payload : List UInt8)
    (s : PeerSession) : (s.handleExtended ctx extensionId payload).sent = s.sent := by
  obtain ⟨remotePexId, pexReceived, heq⟩ := handleExtended_eq ctx extensionId payload s
  rw [heq]

theorem sent_takeIn (ctx : PeerContext) (turn : Turn) (s : PeerSession) :
    (s.takeIn ctx turn).sent = s.sent := by
  unfold takeIn hear
  dsimp only
  repeat' split
  all_goals first | rfl | exact handleExtended_sent ctx _ _ _

theorem sent_connect (ctx : PeerContext) (id : Nat) (supportsExtensions : Bool) (turn : Turn)
    (s : PeerSession) : ∃ new, (s.connect ctx id supportsExtensions turn).sent = new ++ s.sent ∧
      ∀ msg ∈ new, ∃ payload, msg = .extended 0 payload := by
  unfold connect sendHandshake
  dsimp only
  split
  case isFalse => exact ⟨[], rfl, nofun⟩
  case isTrue =>
    split
    case h_2 => exact ⟨[], rfl, nofun⟩
    case h_1 payload _ =>
      unfold tryWrite
      split
      · exact ⟨[.extended 0 payload], rfl, fun msg hm => ⟨payload, List.mem_singleton.mp hm⟩⟩
      · exact ⟨[], rfl, nofun⟩

end PeerSession
end Tortor.Net
