import Mathlib.Data.Finset.Dedup
import Mathlib.Data.Finset.SDiff
import Tortor.Lib.Run
import Tortor.Net.CompactPeers
import Tortor.Net.ExtensionRouting

/-! The peer exchange tells a peer what has changed since the last message.  The peer adds the
changes up. -/

namespace Tortor.Net

open Tortor.Core

theorem subset_take_iff {α : Type} {l : List α} (h : l.Nodup) (n : Nat) :
    (∀ x ∈ l, x ∈ l.take n) ↔ l.length ≤ n := by
  constructor
  · intro hall
    have hle := (List.subperm_of_subset h hall).length_le
    rw [List.length_take] at hle
    omega
  · intro hle x hx
    rwa [List.take_of_length_le hle]

section Delta

variable {α : Type} [DecidableEq α] {known old new : Finset α} {added dropped : List α} {self : α}

/-- What a receiver makes of the lists of one message: it drops first. -/
def applyDelta (known : Finset α) (added dropped : List α) : Finset α :=
  known \ dropped.toFinset ∪ added.toFinset

/-- A receiver that knew the old set but for `self` knows the new one when the message left
nothing out and named nobody else. -/
theorem applyDelta_eq_iff : applyDelta (old.erase self) added dropped = new.erase self ↔
    (∀ x ∈ added, x ∈ new ∧ x ≠ self) ∧ (∀ x ∈ new, x ∉ old → x ≠ self → x ∈ added) ∧
      (∀ x ∈ old, x ∉ new → x ≠ self → x ∈ dropped) ∧
      ∀ x ∈ dropped, x ∈ old → x ∈ new → x ≠ self → x ∈ added := by
  simp only [applyDelta, Finset.ext_iff, Finset.mem_union, Finset.mem_sdiff, Finset.mem_erase,
    List.mem_toFinset]
  constructor
  · intro h
    refine ⟨fun x hx => ?_, fun x hnew hold hself => ?_, fun x hold hnew hself => ?_,
      fun x hx hold hnew hself => ?_⟩
    · exact ((h x).mp (.inr hx)).symm
    · have hmem := (h x).mpr ⟨hself, hnew⟩
      tauto
    · have hmem := (h x).mp
      tauto
    · have hmem := (h x).mpr ⟨hself, hnew⟩
      tauto
  · rintro ⟨hadded, hall, hgone, hkept⟩ x
    have hin := hadded x
    have hnew := hall x
    have hold := hgone x
    have hstay := hkept x
    by_cases hx : x ∈ old <;> tauto

theorem erase_eq_iff : old.erase self = new.erase self ↔
    (∀ x ∈ new, x ∉ old → x = self) ∧ ∀ x ∈ old, x ∉ new → x = self := by
  simp only [Finset.ext_iff, Finset.mem_erase]
  constructor
  · intro h
    refine ⟨fun x hnew hold => ?_, fun x hold hnew => ?_⟩ <;>
    · have hx := h x
      tauto
  · rintro ⟨hall, hgone⟩ x
    have hx := hall x
    have hx' := hgone x
    tauto

end Delta

/-- Every dropped peer, IPv4 and IPv6, as another client reads them; this one does not. -/
def PexMessage.decodeDropped (message : PexMessage) : List SocketAddr :=
  decodeCompactIpv4 message.dropped ++ decodeCompactIpv6 message.dropped6

namespace PeerSession

variable {ctx : PeerContext} {turn : Turn} {currentPeers currentSet : List SocketAddr}
  {s : PeerSession}

def joined (currentSet : List SocketAddr) (s : PeerSession) : List SocketAddr :=
  (currentSet.filter fun addr => !s.lastSentPeers.contains addr).filter (· != s.peerAddr)

def left (currentSet : List SocketAddr) (s : PeerSession) : List SocketAddr :=
  s.lastSentPeers.filter fun addr => !currentSet.contains addr

theorem peerChanges_eq (currentSet : List SocketAddr) (s : PeerSession) :
    s.peerChanges currentSet = ((s.joined currentSet).take 50, (s.left currentSet).take 50) := rfl

theorem mem_joined {x : SocketAddr} :
    x ∈ s.joined currentSet ↔ x ∈ currentSet ∧ x ∉ s.lastSentPeers ∧ x ≠ s.peerAddr := by
  simp [joined, and_comm (a := x ∉ s.lastSentPeers)]

theorem mem_left {x : SocketAddr} :
    x ∈ s.left currentSet ↔ x ∈ s.lastSentPeers ∧ x ∉ currentSet := by
  simp [left]

def sentDelta (ctx : PeerContext) (turn : Turn) (currentPeers : List SocketAddr)
    (s : PeerSession) : Option PexMessage :=
  let (added, dropped) := s.peerChanges (turn.order.arrange currentPeers)
  let message := PexMessage.fromPeers added dropped
  if s.remotePexId.isSome && !(added.isEmpty && dropped.isEmpty) &&
      (ctx.codec.encodePex message).isSome && turn.writes 0 then
    some message
  else none

theorem pexMessages_eq_sentDelta (ctx : PeerContext) (turn : Turn)
    (currentPeers : List SocketAddr) (s : PeerSession) :
    s.pexMessages ctx turn currentPeers = (s.sentDelta ctx turn currentPeers).toList.filterMap
      fun message => do
        let remoteId ← s.remotePexId
        let payload ← ctx.codec.encodePex message
        return .extended remoteId payload := by
  unfold pexMessages sentDelta
  generalize s.peerChanges (turn.order.arrange currentPeers) = changes
  obtain ⟨added, dropped⟩ := changes
  dsimp only
  cases hremote : s.remotePexId with
  | none => simp
  | some remoteId =>
    cases hpayload : ctx.codec.encodePex (.fromPeers added dropped) with
    | none => simp
    | some payload =>
      cases added.isEmpty && dropped.isEmpty <;> cases turn.writes 0 <;> simp [hpayload]

/-- A snapshot is taken over whole, unless nothing is new but the peer itself and nobody is gone. -/
theorem lastSentPeers_handleSnapshot (ctx : PeerContext) (turn : Turn)
    (currentPeers : List SocketAddr) (hknown : s.remotePexId.isSome) :
    (s.handleSnapshot ctx turn currentPeers).lastSentPeers =
      if s.joined (turn.order.arrange currentPeers) = [] ∧
          s.left (turn.order.arrange currentPeers) = [] then s.lastSentPeers
      else turn.order.arrange currentPeers := by
  obtain ⟨remoteId, hremote⟩ := Option.isSome_iff_exists.mp hknown
  simp only [handleSnapshot, hremote, peerChanges_eq, Bool.and_eq_true, List.isEmpty_iff,
    List.take_eq_nil_iff, OfNat.ofNat_ne_zero, false_or]
  split
  · rfl
  · split
    · unfold tryWrite
      split <;> rfl
    · rfl

theorem mem_arrange {x : SocketAddr} : x ∈ turn.order.arrange currentPeers ↔ x ∈ currentPeers := by
  rw [(turn.order.perm currentPeers).mem_iff, List.mem_dedup]

theorem joined_eq_nil_iff : s.joined currentSet = [] ↔
    ∀ x ∈ currentSet.toFinset, x ∉ s.lastSentPeers.toFinset → x = s.peerAddr := by
  simp only [List.eq_nil_iff_forall_not_mem, mem_joined, List.mem_toFinset]
  constructor
  · intro h x hnew hold
    by_contra hself
    exact h x ⟨hnew, hold, hself⟩
  · rintro h x ⟨hnew, hold, hself⟩
    exact hself (h x hnew hold)

theorem encoded_joined_iff (hnodup : currentSet.Nodup) :
    ((∀ x ∈ ((s.joined currentSet).take 50).map canonical, x ∈ currentSet ∧ x ≠ s.peerAddr) ∧
        ∀ x ∈ s.joined currentSet, x ∈ ((s.joined currentSet).take 50).map canonical) ↔
      (s.joined currentSet).length ≤ 50 ∧ ∀ x ∈ s.joined currentSet, canonical x = x := by
  have hjoined : (s.joined currentSet).Nodup := (hnodup.filter _).filter _
  constructor
  · rintro ⟨-, hall⟩
    have hplain : ∀ x ∈ s.joined currentSet, canonical x = x := fun x hx => by
      obtain ⟨y, -, rfl⟩ := List.mem_map.mp (hall x hx)
      exact canonical_canonical y
    have hsame : ((s.joined currentSet).take 50).map canonical = (s.joined currentSet).take 50 :=
      (List.map_congr_left fun x hx => hplain x (List.mem_of_mem_take hx)).trans (List.map_id _)
    exact ⟨(subset_take_iff hjoined 50).mp fun x hx => hsame ▸ hall x hx, hplain⟩
  · rintro ⟨hlen, hplain⟩
    have hsame : ((s.joined currentSet).take 50).map canonical = s.joined currentSet := by
      rw [List.take_of_length_le hlen]
      exact (List.map_congr_left hplain).trans (List.map_id _)
    rw [hsame]
    refine ⟨fun x hx => ?_, fun x hx => hx⟩
    obtain ⟨hnew, -, hself⟩ := mem_joined.mp hx
    exact ⟨hnew, hself⟩

theorem delta_whole_iff (hnodup : currentSet.Nodup) :
    let message := PexMessage.fromPeers ((s.joined currentSet).take 50) ((s.left currentSet).take 50)
    applyDelta (s.lastSentPeers.toFinset.erase s.peerAddr) message.decodeAdded
        message.decodeDropped = currentSet.toFinset.erase s.peerAddr ↔
      (s.joined currentSet).length ≤ 50 ∧ (∀ x ∈ s.joined currentSet, canonical x = x) ∧
        (∀ x ∈ s.left currentSet, x ≠ s.peerAddr →
          x ∈ ((s.left currentSet).take 50).map canonical) ∧
        ∀ x ∈ ((s.left currentSet).take 50).map canonical, x ∈ s.lastSentPeers → x ∈ currentSet →
          x = s.peerAddr := by
  intro message
  have hadded {x : SocketAddr} :
      x ∈ message.decodeAdded ↔ x ∈ ((s.joined currentSet).take 50).map canonical :=
    mem_decode_splitCompact
  have hdropped {x : SocketAddr} :
      x ∈ message.decodeDropped ↔ x ∈ ((s.left currentSet).take 50).map canonical :=
    mem_decode_splitCompact
  have hnew : (∀ x ∈ s.joined currentSet, x ∈ ((s.joined currentSet).take 50).map canonical) ↔
      ∀ x ∈ currentSet, x ∉ s.lastSentPeers → x ≠ s.peerAddr →
        x ∈ ((s.joined currentSet).take 50).map canonical := by
    simp only [mem_joined, and_imp]
  have hgone : (∀ x ∈ s.left currentSet, x ≠ s.peerAddr →
      x ∈ ((s.left currentSet).take 50).map canonical) ↔
      ∀ x ∈ s.lastSentPeers, x ∉ currentSet → x ≠ s.peerAddr →
        x ∈ ((s.left currentSet).take 50).map canonical := by
    simp only [mem_left, and_imp]
  simp only [applyDelta_eq_iff, hadded, hdropped, List.mem_toFinset]
  rw [← and_assoc, ← hnew, encoded_joined_iff hnodup, ← hgone, and_assoc]
  refine and_congr_right fun hlen => and_congr_right fun hplain => and_congr_right fun _ =>
    forall₄_congr fun x hx hold hstays => ⟨fun h => ?_, fun h hself => absurd h hself⟩
  -- nobody who was already known is among the added
  by_contra hself
  obtain ⟨y, hy, rfl⟩ := List.mem_map.mp (h hself)
  have hfresh := List.mem_of_mem_take hy
  rw [hplain y hfresh] at hold
  exact (mem_joined.mp hfresh).2.1 hold

theorem silent_iff : s.lastSentPeers.toFinset.erase s.peerAddr =
    currentSet.toFinset.erase s.peerAddr ↔
      s.joined currentSet = [] ∧ ∀ x ∈ s.left currentSet, x = s.peerAddr := by
  rw [erase_eq_iff, joined_eq_nil_iff]
  refine and_congr Iff.rfl ⟨fun h x hx => ?_, fun h x hold hnew => ?_⟩
  · obtain ⟨hold, hnew⟩ := mem_left.mp hx
    exact h x (List.mem_toFinset.mpr hold) (mt List.mem_toFinset.mp hnew)
  · exact h x (mem_left.mpr ⟨List.mem_toFinset.mp hold, mt List.mem_toFinset.mpr hnew⟩)

structure Told where
  session : PeerSession
  announced : Finset SocketAddr

namespace Told

/-- The session handles an event, and the message that it sends is received and decoded. -/
def step (ctx : PeerContext) (t : Told) (input : Turn × SessionEvent) : Told where
  session := t.session.handleEvent ctx input.1 input.2
  announced :=
    match input.2 with
    | .activePeersSnapshot currentPeers =>
      match t.session.sentDelta ctx input.1 currentPeers with
      | some message => applyDelta t.announced message.decodeAdded message.decodeDropped
      | none => t.announced
    | _ => t.announced

def AddsUp (t : Told) : Prop :=
  t.announced = t.session.lastSentPeers.toFinset.erase t.session.peerAddr

instance (t : Told) : Decidable t.AddsUp := by
  unfold AddsUp
  infer_instance

/-- The message of a snapshot goes out, has room for everything that is new or gone, and names it
all as it is, or without a message nobody is new or gone but the peer itself. -/
def Fits (ctx : PeerContext) (t : Told) (input : Turn × SessionEvent) : Prop :=
  match input.2 with
  | .activePeersSnapshot currentPeers =>
    let currentSet := input.1.order.arrange currentPeers
    let joined := t.session.joined currentSet
    let left := t.session.left currentSet
    if (ctx.codec.encodePex (.fromPeers (joined.take 50) (left.take 50))).isSome ∧
        input.1.writes 0 = true then
      joined.length ≤ 50 ∧ (∀ x ∈ joined, canonical x = x) ∧
        (∀ x ∈ left, x ≠ t.session.peerAddr → x ∈ (left.take 50).map canonical) ∧
        ∀ x ∈ (left.take 50).map canonical, x ∈ t.session.lastSentPeers → x ∈ currentSet →
          x = t.session.peerAddr
    else joined = [] ∧ ∀ x ∈ left, x = t.session.peerAddr
  | _ => True

instance (ctx : PeerContext) (t : Told) (input : Turn × SessionEvent) :
    Decidable (Fits ctx t input) := by
  unfold Fits
  split <;> infer_instance

theorem handleEvent_frame (ctx : PeerContext) (turn : Turn) (event : SessionEvent)
    (s : PeerSession) :
    (s.handleEvent ctx turn event).peerAddr = s.peerAddr ∧
      (s.handleEvent ctx turn event).remotePexId = s.remotePexId ∧
      ((∀ peers, event ≠ .activePeersSnapshot peers) →
        (s.handleEvent ctx turn event).lastSentPeers = s.lastSentPeers) := by
  cases event with
  | activePeersSnapshot peers =>
    obtain ⟨last, sent, heq⟩ := handleSnapshot_eq ctx turn peers { s with phase := .looping }
    rw [handleEvent, heq]
    exact ⟨rfl, rfl, fun h => absurd rfl (h peers)⟩
  | pieceCompleted index =>
    simp only [handleEvent, tryWrite]
    split <;> split <;> exact ⟨rfl, rfl, fun _ => rfl⟩
  | selectionChanged =>
    simp only [handleEvent, writeThen, finish]
    split
    · exact ⟨rfl, rfl, fun _ => rfl⟩
    · split
      · exact ⟨rfl, rfl, fun _ => rfl⟩
      · split <;> exact ⟨rfl, rfl, fun _ => rfl⟩
  | downloadComplete =>
    simp only [handleEvent, tryWrite]
    split
    · split <;> exact ⟨rfl, rfl, fun _ => rfl⟩
    · exact ⟨rfl, rfl, fun _ => rfl⟩

theorem lastSentPeers_snapshot (ctx : PeerContext) (turn : Turn) (currentPeers : List SocketAddr)
    (hknown : s.remotePexId.isSome) :
    (s.handleEvent ctx turn (.activePeersSnapshot currentPeers)).lastSentPeers.toFinset.erase
      s.peerAddr = currentPeers.toFinset.erase s.peerAddr := by
  have hlooping : ({ s with phase := .looping } : PeerSession).remotePexId.isSome := hknown
  rw [handleEvent, lastSentPeers_handleSnapshot ctx turn currentPeers hlooping]
  split
  case isTrue hsame =>
    refine erase_eq_iff.mpr ⟨fun x hnew hold => ?_, fun x hold hnew => ?_⟩
    · by_contra hself
      have hx : x ∈ s.joined (turn.order.arrange currentPeers) :=
        mem_joined.mpr ⟨mem_arrange.mpr (List.mem_toFinset.mp hnew),
          mt List.mem_toFinset.mpr hold, hself⟩
      exact absurd (hsame.1 ▸ hx) List.not_mem_nil
    · have hx : x ∈ s.left (turn.order.arrange currentPeers) :=
        mem_left.mpr ⟨List.mem_toFinset.mp hold, fun h => hnew (by
          rw [List.mem_toFinset]
          exact mem_arrange.mp h)⟩
      exact absurd (hsame.2 ▸ hx) List.not_mem_nil
  case isFalse =>
    congr 1
    ext x
    rw [List.mem_toFinset, List.mem_toFinset, mem_arrange]

theorem addsUp_snapshot_iff {t : Told} (hknown : t.session.remotePexId.isSome) (h : t.AddsUp)
    (turn : Turn) (currentPeers : List SocketAddr) :
    (t.step ctx (turn, .activePeersSnapshot currentPeers)).AddsUp ↔
      Fits ctx t (turn, .activePeersSnapshot currentPeers) := by
  obtain ⟨s, announced⟩ := t
  obtain rfl : announced = s.lastSentPeers.toFinset.erase s.peerAddr := h
  have hlooping : ({ s with phase := .looping } : PeerSession).remotePexId.isSome := hknown
  have hnodup : (turn.order.arrange currentPeers).Nodup :=
    (turn.order.perm currentPeers).nodup_iff.mpr (List.nodup_dedup _)
  have hlast := lastSentPeers_handleSnapshot ctx turn currentPeers hlooping
  obtain ⟨hself, -, -⟩ := handleEvent_frame ctx turn (.activePeersSnapshot currentPeers) s
  simp only [AddsUp, step, hself, Fits]
  rw [handleEvent, hlast]
  change _ = (if s.joined _ = [] ∧ s.left _ = [] then s.lastSentPeers
    else turn.order.arrange currentPeers).toFinset.erase s.peerAddr ↔ _
  simp only [sentDelta, peerChanges_eq, hknown, Bool.true_and]
  generalize turn.order.arrange currentPeers = currentSet at hnodup
  by_cases hsame : s.joined currentSet = [] ∧ s.left currentSet = []
  · rw [if_pos hsame, hsame.1, hsame.2]
    simp
  rw [if_neg hsame]
  have hchanged : (((s.joined currentSet).take 50).isEmpty &&
      ((s.left currentSet).take 50).isEmpty) = false := by
    simpa [List.take_eq_nil_iff] using hsame
  rw [hchanged]
  by_cases hsent : (ctx.codec.encodePex (.fromPeers ((s.joined currentSet).take 50)
      ((s.left currentSet).take 50))).isSome ∧ turn.writes 0 = true
  · rw [if_pos hsent]
    simp only [hsent.1, hsent.2, Bool.not_false, Bool.true_and, if_true]
    exact delta_whole_iff hnodup
  · rw [if_neg hsent]
    have hunsent : ¬ ((!false && (ctx.codec.encodePex (.fromPeers ((s.joined currentSet).take 50)
        ((s.left currentSet).take 50))).isSome && turn.writes 0) = true) := by
      simpa using hsent
    rw [if_neg hunsent]
    exact silent_iff

theorem addsUp_step_iff {t : Told} (hknown : t.session.remotePexId.isSome) (h : t.AddsUp)
    (input : Turn × SessionEvent) : (t.step ctx input).AddsUp ↔ Fits ctx t input := by
  obtain ⟨turn, event⟩ := input
  have hquiet (hevent : ∀ peers, event ≠ .activePeersSnapshot peers)
      (hannounced : (t.step ctx (turn, event)).announced = t.announced) :
      (t.step ctx (turn, event)).AddsUp := by
    obtain ⟨hself, -, hlast⟩ := handleEvent_frame ctx turn event t.session
    rw [AddsUp, hannounced, h]
    change _ = (t.session.handleEvent ctx turn event).lastSentPeers.toFinset.erase
      (t.session.handleEvent ctx turn event).peerAddr
    rw [hlast hevent, hself]
  cases event with
  | activePeersSnapshot currentPeers => exact addsUp_snapshot_iff hknown h turn currentPeers
  | pieceCompleted | selectionChanged | downloadComplete =>
    exact ⟨fun _ => trivial, fun _ => hquiet nofun rfl⟩

/-- Along every run of events what the peer has been told adds up to the last snapshot without
itself, exactly as long as every snapshot fits; and each snapshot replaces the one before. -/
theorem deltas_add_up_iff (ctx : PeerContext) (s : PeerSession) (hknown : s.remotePexId.isSome)
    (hfresh : s.lastSentPeers = []) (events : List (Turn × SessionEvent)) :
    ((∀ k, (Lib.exec (step ctx) ⟨s, ∅⟩ (events.take k)).AddsUp) ↔
      Lib.Along (step ctx) (Fits ctx) ⟨s, ∅⟩ events) ∧
    ∀ k turn currentPeers, events[k]? = some (turn, .activePeersSnapshot currentPeers) →
      (Lib.exec (step ctx) ⟨s, ∅⟩ (events.take (k + 1))).session.lastSentPeers.toFinset.erase
        s.peerAddr = currentPeers.toFinset.erase s.peerAddr := by
  have hframe (t : Told) (input : Turn × SessionEvent) :=
    handleEvent_frame ctx input.1 input.2 t.session
  have hstart : (⟨s, ∅⟩ : Told).AddsUp := by
    simp [AddsUp, hfresh]
  constructor
  · rw [Lib.forall_take_iff hstart]
    refine Lib.along_iff (P := fun t => t.session.remotePexId.isSome ∧ t.AddsUp)
      (fun t input _ ht => addsUp_step_iff ht.1 ht.2 input) (fun t input _ ht hadds => ⟨?_, hadds⟩)
      ⟨hknown, hstart⟩
    rw [step, (hframe t input).2.1]
    exact ht.1
  · intro k turn currentPeers hk
    obtain ⟨hlt, he⟩ := List.getElem?_eq_some_iff.mp hk
    have hkept : (Lib.exec (step ctx) ⟨s, ∅⟩ (events.take k)).session.remotePexId.isSome ∧
        (Lib.exec (step ctx) ⟨s, ∅⟩ (events.take k)).session.peerAddr = s.peerAddr :=
      Lib.exec_invariant (P := fun t => t.session.remotePexId.isSome ∧
          t.session.peerAddr = s.peerAddr)
        (fun t input ht => ⟨by rw [step, (hframe t input).2.1]; exact ht.1,
          (hframe t input).1.trans ht.2⟩) _ ⟨hknown, rfl⟩
    have hlast := lastSentPeers_snapshot ctx turn currentPeers hkept.1
    rw [List.take_add_one, hk, Lib.exec_append, ← hkept.2]
    exact hlast

def plainContext : PeerContext :=
  ⟨[], 1, none, ⟨fun _ => some [], fun _ => none, fun _ => some [], fun _ => none⟩⟩

def plainTurn : Turn := ⟨0, .event, fun _ => true, false, .dedup⟩

def knownPeer : PeerSession :=
  { PeerSession.new plainContext (.v4 0 0) with remotePexId := some 1 }

theorem deltas_add_up_one :
    (Lib.exec (step plainContext) ⟨knownPeer, ∅⟩
      [(plainTurn, .activePeersSnapshot [.v4 1 1, .v4 2 2]),
        (plainTurn, .activePeersSnapshot [.v4 2 2])]).AddsUp :=
  ((deltas_add_up_iff plainContext knownPeer rfl rfl
    [(plainTurn, .activePeersSnapshot [.v4 1 1, .v4 2 2]),
      (plainTurn, .activePeersSnapshot [.v4 2 2])]).1.mpr
    (by decide +kernel)) 2

def peersUpTo (n : Nat) : List SocketAddr :=
  (List.range n).map fun i => .v4 (.ofNat 32 (i + 1)) 6881

/-- Of fifty-one peers one is cut off the message but counts as told: the same snapshot once more
does not announce it either. -/
theorem hidden_peer :
    let t := Lib.exec (step plainContext) ⟨knownPeer, ∅⟩
      [(plainTurn, .activePeersSnapshot (peersUpTo 51)),
        (plainTurn, .activePeersSnapshot (peersUpTo 51))]
    .v4 51 6881 ∈ t.session.lastSentPeers ∧ SocketAddr.v4 51 6881 ≠ t.session.peerAddr ∧
      .v4 51 6881 ∉ t.announced ∧ ¬ t.AddsUp := by
  decide +kernel

end Told
end PeerSession
end Tortor.Net
