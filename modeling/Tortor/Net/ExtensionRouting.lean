import Tortor.Net.SessionWrites

/-! The ids of the extensions: each side says under which ids it takes messages, and the other
one has to use these. -/

namespace Tortor.Net

open Tortor.Core Tortor.Lib

def utPexId (ctx : PeerContext) (payload : List UInt8) : Option UInt8 :=
  match checkBencodeDepth payload with
  | .error _ => none
  | .ok () => (ctx.codec.decodeHandshake payload).bind (·.m.lookup "ut_pex")

def theirPexId (ctx : PeerContext) : List PeerMessage → Option UInt8
  | [] => none
  | .extended id payload :: rest =>
    if id = 0 then (utPexId ctx payload).or (theirPexId ctx rest) else theirPexId ctx rest
  | _ :: rest => theirPexId ctx rest

def addedPeers (ctx : PeerContext) (payload : List UInt8) : Option (List SocketAddr) :=
  ((ctx.codec.decodePex payload).map PexMessage.decodeAdded).filter (!·.isEmpty)

namespace PeerSession

variable {ctx : PeerContext} {sha1 : List UInt8 → Digest} {id : Nat} {input : SessionInput}
  {s : PeerSession} {u : UploadSlots} {turn : Turn}

def isOpening (ctx : PeerContext) : PeerMessage → Bool
  | .extended id payload => id == 0 && ctx.codec.encodeHandshake openingDict == some payload
  | _ => false

def ownPexId (ctx : PeerContext) (s : PeerSession) : Option UInt8 :=
  if s.sent.any (isOpening ctx) then openingDict.m.lookup "ut_pex" else none

def Hears (s : PeerSession) (input : SessionInput) (msg : PeerMessage) : Prop :=
  ∃ gone turn, input = .turn gone turn ∧ s.outbox = [] ∧ s.phase = .selecting ∧
    turn.stimulus = .message msg

def Sees (s : PeerSession) (input : SessionInput) (turn : Turn) (event : SessionEvent) : Prop :=
  ∃ gone events, input = .turn gone turn ∧ s.outbox = [] ∧ s.phase = .selecting ∧
    turn.stimulus = .event ∧ s.events = event :: events

def pexMessages (ctx : PeerContext) (turn : Turn) (currentPeers : List SocketAddr)
    (s : PeerSession) : List PeerMessage :=
  let (added, dropped) := s.peerChanges (turn.order.arrange currentPeers)
  match s.remotePexId, ctx.codec.encodePex (.fromPeers added dropped) with
  | some remoteId, some payload =>
    if (added.isEmpty && dropped.isEmpty) || !turn.writes 0 then [] else [.extended remoteId payload]
  | _, _ => []

def extensions (s : PeerSession) : List PeerMessage × Option UInt8 × List (List SocketAddr) :=
  (s.received, s.remotePexId, s.pexReceived)

theorem extensions_handleExtended (ctx : PeerContext) (extensionId : UInt8) (payload : List UInt8)
    (s : PeerSession) : (s.handleExtended ctx extensionId payload).extensions =
      (s.received,
        if extensionId = 0 then (utPexId ctx payload).or s.remotePexId else s.remotePexId,
        if extensionId ≠ 0 ∧ s.remotePexId = some extensionId ∧ (checkBencodeDepth payload).isOk
          then (addedPeers ctx payload).toList ++ s.pexReceived else s.pexReceived) := by
  unfold handleExtended utPexId
  cases checkBencodeDepth payload with
  | error text => simp [extensions, Except.isOk, Except.toBool]
  | ok =>
    dsimp only
    by_cases hzero : extensionId = 0
    · rw [if_pos hzero]
      cases (ctx.codec.decodeHandshake payload).bind (·.m.lookup "ut_pex") with
      | none => simp [extensions, hzero]
      | some remotePex => simp [extensions, hzero]
    · rw [if_neg hzero, addedPeers]
      by_cases hremote : some extensionId = s.remotePexId
      · rw [if_pos hremote]
        cases ctx.codec.decodePex payload with
        | none => simp [extensions, hzero]
        | some pex =>
          dsimp only
          split <;> simp_all [extensions, Except.isOk, Except.toBool, Option.filter]
      · rw [if_neg hremote]
        have hother : ¬ s.remotePexId = some extensionId := fun he => hremote he.symm
        simp [extensions, hzero, hother]

theorem Writes.extensions_eq {P : PeerMessage → Prop} {t : PeerSession} (h : Writes P s t) :
    t.extensions = s.extensions := by
  rw [extensions, h.received, h.remotePexId, h.pexReceived]
  rfl

theorem extensions_react (ctx : PeerContext) (sha1 : List UInt8 → Digest) (id : Nat)
    (input : SessionInput) (s : PeerSession) (u : UploadSlots) :
    (∃ msg, s.Hears input msg ∧
      (s.react ctx sha1 id input u).1.extensions = (s.hear ctx msg).extensions) ∨
    (∀ msg, ¬ s.Hears input msg) ∧ (s.react ctx sha1 id input u).1.extensions = s.extensions := by
  unfold react
  cases input with
  | connect supportsExtensions turn =>
    refine .inr ⟨by simp [Hears], ?_⟩
    dsimp only
    split
    · obtain ⟨sent, heq⟩ := connect_eq ctx id supportsExtensions turn s
      rw [heq]
      rfl
    · rfl
  | turn gone turn =>
    have hturn := (writes_turn ctx sha1 id gone turn s u).extensions_eq
    dsimp only
    rw [hturn]
    unfold takeIn
    split
    case isTrue hfull =>
      refine .inr ⟨fun msg ⟨_, _, _, houtbox, _⟩ => ?_, rfl⟩
      rw [houtbox] at hfull
      cases hfull
    case isFalse hempty =>
      split
      case h_1 msg hphase hstimulus =>
        exact .inl ⟨msg, ⟨gone, turn, rfl, by simpa using hempty, hphase, hstimulus⟩, rfl⟩
      case h_2 hphase hstimulus =>
        refine .inr ⟨fun msg ⟨_, _, he, _, _, hs⟩ => ?_, rfl⟩
        cases he
        cases hstimulus.symm.trans hs
      case h_3 hphase hstimulus =>
        refine .inr ⟨fun msg ⟨_, _, he, _, _, hs⟩ => ?_, rfl⟩
        cases he
        cases hstimulus.symm.trans hs
      case h_4 hmessage _ _ =>
        refine .inr ⟨fun msg ⟨_, _, he, _, hp, hs⟩ => ?_, rfl⟩
        cases he
        exact hmessage msg hp hs
  | receive reply =>
    refine .inr ⟨by simp [Hears], ?_⟩
    dsimp only
    split
    case isTrue hopen =>
      simp only [Bool.and_eq_true] at hopen
      rw [receive_eq hopen.1.1]
      rfl
    case isFalse => rfl
  | taken =>
    refine .inr ⟨by simp [Hears], ?_⟩
    dsimp only
    split <;> rfl
  | refused =>
    refine .inr ⟨by simp [Hears], ?_⟩
    dsimp only
    split
    · rfl
    · rw [sendFailed_eq]
      split
      · exact (writes_finish (fun _ => True) _).extensions_eq
      · rfl
  | announce event => exact .inr ⟨by simp [Hears], rfl⟩

theorem extended_react (ctx : PeerContext) (sha1 : List UInt8 → Digest) (id : Nat)
    (hphase : s.phase ≠ .dialing) (input : SessionInput) (u : UploadSlots) :
    ∃ new, (s.react ctx sha1 id input u).1.sent = new ++ s.sent ∧
      ∀ remoteId payload, .extended remoteId payload ∈ new → ∃ turn currentPeers,
        s.Sees input turn (.activePeersSnapshot currentPeers) ∧ s.remotePexId = some remoteId := by
  have hnone {t : PeerSession} (ht : t.sent = s.sent) : ∃ new, t.sent = new ++ s.sent ∧
      ∀ remoteId payload, PeerMessage.extended remoteId payload ∈ new → ∃ turn currentPeers,
        s.Sees input turn (.activePeersSnapshot currentPeers) ∧ s.remotePexId = some remoteId :=
    ⟨[], ht, nofun⟩
  unfold react
  split
  case h_1 =>
    split
    case h_1 hdialing => exact absurd hdialing hphase
    case h_2 => exact hnone rfl
  case h_2 gone turn =>
    obtain ⟨new, hnew, hwritten⟩ := (writes_turn ctx sha1 id gone turn s u).sent
    rw [sent_takeIn] at hnew
    refine ⟨new, hnew, fun remoteId payload hm => ?_⟩
    by_cases houtbox : s.outbox = []
    · cases hwritten _ hm with
      | plain hplain => cases hplain
      | extended currentPeers events _ _ hp hstimulus hevents hremote _ =>
        exact ⟨turn, currentPeers, ⟨gone, events, rfl, houtbox, hp, hstimulus, hevents⟩, hremote⟩
    · have hidle : (s.turn ctx sha1 id gone turn u).1 = s := by
        unfold PeerSession.turn
        rw [if_pos (by simpa using houtbox)]
      rw [hidle, List.self_eq_append_left] at hnew
      rw [hnew] at hm
      cases hm
  case h_3 reply =>
    split
    case isTrue hopen =>
      simp only [Bool.and_eq_true] at hopen
      rw [receive_eq hopen.1.1]
      exact hnone rfl
    case isFalse => exact hnone rfl
  case h_4 => split <;> exact hnone rfl
  case h_5 =>
    split
    case h_1 => exact hnone rfl
    case h_2 msg rest houtbox =>
      apply hnone
      rw [sendFailed_eq]
      split
      · exact sent_finish _
      · rfl
  case h_6 => exact hnone rfl

theorem sent_handleSnapshot (ctx : PeerContext) (turn : Turn) (currentPeers : List SocketAddr)
    (s : PeerSession) : (s.handleSnapshot ctx turn currentPeers).sent =
      s.pexMessages ctx turn currentPeers ++ s.sent := by
  unfold handleSnapshot pexMessages
  cases s.remotePexId with
  | none => rfl
  | some remoteId =>
    dsimp only
    generalize s.peerChanges (turn.order.arrange currentPeers) = changes
    obtain ⟨added, dropped⟩ := changes
    dsimp only
    cases ctx.codec.encodePex (.fromPeers added dropped) with
    | none => split <;> rfl
    | some payload =>
      dsimp only [tryWrite, write]
      cases added.isEmpty && dropped.isEmpty <;> cases turn.writes 0 <;> rfl

theorem sent_snapshot {currentPeers : List SocketAddr}
    (h : s.Sees input turn (.activePeersSnapshot currentPeers)) :
    (s.react ctx sha1 id input u).1.sent = s.pexMessages ctx turn currentPeers ++ s.sent := by
  obtain ⟨gone, events, rfl, houtbox, hphase, hstimulus, hevents⟩ := h
  unfold react
  dsimp only
  rw [turn_of_event houtbox hphase hstimulus hevents]
  exact sent_handleSnapshot ctx turn currentPeers { s with phase := .looping, events := events }

/-- The message under the id of either side can be read as the other side means it: under our id
comes what we would take, and nothing is to be sent under the id that means disabled. -/
structure Unmistaken (ctx : PeerContext) (s : PeerSession) (input : SessionInput) : Prop where
  heard : ∀ extensionId payload, s.Hears input (.extended extensionId payload) →
    (addedPeers ctx payload).isSome →
      (s.ownPexId ctx = some extensionId ↔ extensionId ≠ 0 ∧ s.remotePexId = some extensionId ∧
        (checkBencodeDepth payload).isOk)
  told : ∀ turn currentPeers, s.Sees input turn (.activePeersSnapshot currentPeers) →
    s.remotePexId = some 0 → s.pexMessages ctx turn currentPeers = []

/-- A message under our id adds exactly its peers and nothing else adds any; once connected, the
session sends extended messages only under the id that the peer has told, which is not 0. -/
structure Routed (ctx : PeerContext) (s next : PeerSession) : Prop where
  heard : ∀ extensionId payload, next.received = .extended extensionId payload :: s.received →
    next.pexReceived = if s.ownPexId ctx = some extensionId then
      (addedPeers ctx payload).toList ++ s.pexReceived else s.pexReceived
  unheard : (∀ extensionId payload, next.received ≠ .extended extensionId payload :: s.received) →
    next.pexReceived = s.pexReceived
  told : s.phase ≠ .dialing → ∃ new, next.sent = new ++ s.sent ∧
    ∀ extensionId payload, .extended extensionId payload ∈ new →
      extensionId ≠ 0 ∧ theirPexId ctx s.received = some extensionId

theorem append_toList_eq_iff {α : Type} {A B : Prop} [Decidable A] [Decidable B] (o : Option α)
    (l : List α) :
    ((if A then o.toList ++ l else l) = if B then o.toList ++ l else l) ↔ (o.isSome → (B ↔ A)) := by
  cases o with
  | none => simp
  | some a => by_cases hA : A <;> by_cases hB : B <;> simp [hA, hB]

theorem Hears.eq {msg other : PeerMessage} (h : s.Hears input msg) (h' : s.Hears input other) :
    msg = other := by
  obtain ⟨_, _, hinput, -, -, hstimulus⟩ := h
  obtain ⟨_, _, hinput', -, -, hstimulus'⟩ := h'
  cases hinput.symm.trans hinput'
  cases hstimulus.symm.trans hstimulus'
  rfl

theorem received_hear (ctx : PeerContext) (msg : PeerMessage) (s : PeerSession) :
    (s.hear ctx msg).received = msg :: s.received := by
  unfold hear
  cases msg with
  | extended extensionId payload =>
    exact congrArg Prod.fst (extensions_handleExtended ctx extensionId payload _)
  | _ => rfl

/-- A message of the peer is handled as it should be when its id says the same to both sides. -/
theorem heard_iff (ctx : PeerContext) (sha1 : List UInt8 → Digest) (id : Nat)
    (input : SessionInput) (s : PeerSession) (u : UploadSlots) :
    let next := (s.react ctx sha1 id input u).1
    (∀ extensionId payload, next.received = .extended extensionId payload :: s.received →
      next.pexReceived = if s.ownPexId ctx = some extensionId then
        (addedPeers ctx payload).toList ++ s.pexReceived else s.pexReceived) ↔
    ∀ extensionId payload, s.Hears input (.extended extensionId payload) →
      (addedPeers ctx payload).isSome →
        (s.ownPexId ctx = some extensionId ↔ extensionId ≠ 0 ∧ s.remotePexId = some extensionId ∧
          (checkBencodeDepth payload).isOk) := by
  intro next
  refine forall₂_congr fun extensionId payload => ?_
  rcases extensions_react ctx sha1 id input s u with ⟨msg, hmsg, heq⟩ | ⟨hnone, heq⟩
  · have hreceived : next.received = msg :: s.received :=
      (congrArg Prod.fst heq).trans (received_hear ctx msg s)
    by_cases hext : msg = .extended extensionId payload
    · subst hext
      have hpex := congrArg (·.2.2) (heq.trans (extensions_handleExtended ctx extensionId payload
        { s with received := .extended extensionId payload :: s.received }))
      rw [show next.pexReceived = _ from hpex, append_toList_eq_iff]
      exact ⟨fun h _ => h hreceived, fun h _ => h hmsg⟩
    · constructor
      · exact fun _ hother => absurd (hmsg.eq hother) hext
      · intro _ hother
        rw [hreceived, List.cons.injEq] at hother
        exact absurd hother.1 hext
  · have hreceived : next.received = s.received := congrArg Prod.fst heq
    constructor
    · exact fun _ hother => absurd hother (hnone _)
    · intro _ hother
      exact absurd (hother.symm.trans hreceived) (List.cons_ne_self _ _)

theorem unheard_react (ctx : PeerContext) (sha1 : List UInt8 → Digest) (id : Nat)
    (input : SessionInput) (s : PeerSession) (u : UploadSlots) :
    let next := (s.react ctx sha1 id input u).1
    (∀ extensionId payload, next.received ≠ .extended extensionId payload :: s.received) →
      next.pexReceived = s.pexReceived := by
  intro next hunheard
  rcases extensions_react ctx sha1 id input s u with ⟨msg, hmsg, heq⟩ | ⟨-, heq⟩
  · have hreceived : next.received = msg :: s.received :=
      (congrArg Prod.fst heq).trans (received_hear ctx msg s)
    have hpex : next.pexReceived = (s.hear ctx msg).pexReceived := congrArg (·.2.2) heq
    cases msg with
    | extended extensionId payload => exact absurd hreceived (hunheard extensionId payload)
    | _ => exact hpex
  · exact congrArg (·.2.2) heq

theorem pexMessages_eq {remoteId : UInt8} (h : s.remotePexId = some remoteId) (ctx : PeerContext)
    (turn : Turn) (currentPeers : List SocketAddr) :
    s.pexMessages ctx turn currentPeers = [] ∨
      ∃ payload, s.pexMessages ctx turn currentPeers = [.extended remoteId payload] := by
  unfold pexMessages
  rw [h]
  dsimp only
  cases ctx.codec.encodePex _ with
  | none => exact .inl rfl
  | some payload =>
    dsimp only
    split
    · exact .inl rfl
    · exact .inr ⟨payload, rfl⟩

theorem told_iff (hphase : s.phase ≠ .dialing)
    (hagreed : s.remotePexId = theirPexId ctx s.received) :
    (∃ new, (s.react ctx sha1 id input u).1.sent = new ++ s.sent ∧
      ∀ extensionId payload, .extended extensionId payload ∈ new →
        extensionId ≠ 0 ∧ theirPexId ctx s.received = some extensionId) ↔
    ∀ turn currentPeers, s.Sees input turn (.activePeersSnapshot currentPeers) →
      s.remotePexId = some 0 → s.pexMessages ctx turn currentPeers = [] := by
  constructor
  · rintro ⟨new, hnew, hids⟩ turn currentPeers hsees hzero
    rw [sent_snapshot hsees, List.append_cancel_right_eq] at hnew
    rcases pexMessages_eq hzero ctx turn currentPeers with hnone | ⟨payload, hone⟩
    · exact hnone
    · have hmem : .extended 0 payload ∈ new := by
        rw [← hnew, hone]
        exact List.mem_singleton_self _
      exact absurd rfl (hids 0 payload hmem).1
  · intro hquiet
    obtain ⟨new, hnew, hextended⟩ := extended_react ctx sha1 id hphase input u
    refine ⟨new, hnew, fun extensionId payload hm => ?_⟩
    obtain ⟨turn, currentPeers, hsees, hremote⟩ := hextended extensionId payload hm
    refine ⟨fun hzero => ?_, hagreed.symm.trans hremote⟩
    have hnone := hquiet turn currentPeers hsees (hzero ▸ hremote)
    rw [sent_snapshot hsees, hnone, List.append_cancel_right_eq] at hnew
    rw [← hnew] at hm
    cases hm

theorem agreed_react (h : s.remotePexId = theirPexId ctx s.received) :
    let next := (s.react ctx sha1 id input u).1
    next.remotePexId = theirPexId ctx next.received := by
  intro next
  rcases extensions_react ctx sha1 id input s u with ⟨msg, -, heq⟩ | ⟨-, heq⟩
  · have hreceived : next.received = msg :: s.received :=
      (congrArg Prod.fst heq).trans (received_hear ctx msg s)
    have hremote : next.remotePexId = (s.hear ctx msg).remotePexId := congrArg (·.2.1) heq
    rw [hreceived, hremote]
    cases msg with
    | extended extensionId payload =>
      have hid := congrArg (·.2.1) (extensions_handleExtended ctx extensionId payload
        { s with received := .extended extensionId payload :: s.received })
      unfold theirPexId
      rw [← h]
      exact hid
    | _ => exact h
  · have hreceived : next.received = s.received := congrArg Prod.fst heq
    have hremote : next.remotePexId = s.remotePexId := congrArg (·.2.1) heq
    rw [hreceived, hremote, h]

theorem routed_iff (h : s.remotePexId = theirPexId ctx s.received) :
    Routed ctx s (s.react ctx sha1 id input u).1 ↔ Unmistaken ctx s input := by
  constructor
  · intro hrouted
    refine ⟨(heard_iff ctx sha1 id input s u).mp hrouted.heard, fun turn currentPeers hsees => ?_⟩
    have hphase : s.phase ≠ .dialing := by
      obtain ⟨_, _, -, -, hselecting, -⟩ := hsees
      rw [hselecting]
      nofun
    exact (told_iff hphase h).mp (hrouted.told hphase) turn currentPeers hsees
  · intro hunmistaken
    exact ⟨(heard_iff ctx sha1 id input s u).mpr hunmistaken.heard,
      unheard_react ctx sha1 id input s u,
      fun hphase => (told_iff hphase h).mpr hunmistaken.told⟩

/-- The session alone, with the upload slots in any state. -/
def next (ctx : PeerContext) (sha1 : List UInt8 → Digest) (id : Nat) (s : PeerSession)
    (input : SessionInput × UploadSlots) : PeerSession :=
  (s.react ctx sha1 id input.1 input.2).1

/-- All messages of the extensions in a run take the way that the two sides have agreed on if and
only if none of them can be mistaken. -/
theorem extensions_routed_iff (ctx : PeerContext) (sha1 : List UInt8 → Digest) (id : Nat)
    (peerAddr : SocketAddr) (inputs : List (SessionInput × UploadSlots)) :
    Along (next ctx sha1 id) (fun s input => Routed ctx s (s.next ctx sha1 id input))
        (.new ctx peerAddr) inputs ↔
      Along (next ctx sha1 id) (fun s input => Unmistaken ctx s input.1) (.new ctx peerAddr) inputs :=
  along_iff (P := fun s => s.remotePexId = theirPexId ctx s.received)
    (fun _ _ _ h => routed_iff h) (fun _ _ _ h _ => agreed_react h) rfl

namespace Misrouted

def ascii (text : String) : List UInt8 := text.toList.map fun c => .ofNat c.toNat

def handshake : List UInt8 := ascii "d1:md6:ut_pexi1eee"

def pex : List UInt8 := ascii "d5:added6:abcdefe"

def digestOf (_ : List UInt8) : Digest := ⟨List.replicate 20 1, rfl⟩

def codec : ExtensionCodec where
  encodeHandshake dict :=
    if dict.m = openingDict.m then some (ascii "d1:md11:ut_metadatai1e6:ut_pexi2eee") else none
  decodeHandshake payload := if payload = handshake then some ⟨[("ut_pex", 1)], none⟩ else none
  encodePex _ := none
  decodePex payload := if payload = pex then some ⟨ascii "abcdef", [], [], [], [], []⟩ else none

def peerContext : PeerContext := ⟨[], 1, none, codec⟩

def turnOf (stimulus : Stimulus) : SessionInput × UploadSlots :=
  (.turn false ⟨0, stimulus, fun _ => true, false, .dedup⟩, .new 8)

def inputs : List (SessionInput × UploadSlots) :=
  [(.connect true ⟨0, .tick, fun _ => true, false, .dedup⟩, .new 8),
    (.taken, .new 8), (.receive (.completedPieces []), .new 8), turnOf .tick, turnOf .tick,
    turnOf (.message (.extended 0 handshake)), turnOf .tick,
    turnOf (.message (.extended 2 pex))]

end Misrouted

/-- A peer that takes peer exchange under another id than we do sends us peers under ours. -/
theorem pex_misrouted : ¬ Along (next Misrouted.peerContext Misrouted.digestOf 0)
    (fun s input => Routed Misrouted.peerContext s (s.next Misrouted.peerContext Misrouted.digestOf 0 input))
    (.new Misrouted.peerContext (.v4 0 0)) Misrouted.inputs := by
  rintro ⟨-, -, -, -, -, -, -, hlast, -⟩
  have hheard := hlast.heard 2 Misrouted.pex rfl
  revert hheard
  decide

end PeerSession
end Tortor.Net
