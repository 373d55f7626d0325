import Mathlib.Data.List.Basic
import Tortor.Lib.Run
import Tortor.Lib.Tally
import Tortor.Net.Handshake

/-! The torrents that an engine serves, and what it does with a peer that connects.  `R` stands for
`TorrentRegistration`, which nobody here looks into. -/

namespace Tortor.Net

open Tortor.Core Tortor.Lib

def MAX_INBOUND_PEERS : Nat := 100

structure Engine (R : Type) where
  peerId : Digest
  torrents : Digest → Option R

inductive RouteError
  | ourselves
  | notServed
  deriving DecidableEq

inductive InboundError
  | handshake (error : HandshakeError)
  | route (error : RouteError)
  | io
  deriving DecidableEq

def RouteError.message : RouteError → String
  | .ourselves => "connected to ourselves"
  | .notServed => "inbound peer asked for a torrent we do not serve"

variable {R : Type}

namespace Engine

def register (infoHash : Digest) (registration : R) (self : Engine R) : Engine R :=
  { self with torrents := fun h => if h = infoHash then some registration else self.torrents h }

def unregister (infoHash : Digest) (self : Engine R) : Engine R :=
  { self with torrents := fun h => if h = infoHash then none else self.torrents h }

def lookup (infoHash : Digest) (self : Engine R) : Option R := self.torrents infoHash

def route (self : Engine R) (remote : Handshake) : Except RouteError (R × Bool) :=
  if remote.peerId = self.peerId then .error .ourselves
  else match self.lookup remote.infoHash with
    | none => .error .notServed
    | some registration => .ok (registration, remote.supportsExtensionProtocol)

theorem route_eq_ok {self : Engine R} {remote : Handshake} {registration : R} {supportsExt : Bool} :
    self.route remote = .ok (registration, supportsExt) ↔ remote.peerId ≠ self.peerId ∧
      self.lookup remote.infoHash = some registration ∧
      remote.supportsExtensionProtocol = supportsExt := by
  unfold route
  split
  case isTrue h => simp [h]
  case isFalse h =>
    split
    case h_1 hnone => simp [hnone]
    case h_2 other hsome => simp [hsome, h]

end Engine

inductive Inbound (R : Type)
  | reading
  /-- Of the answer, `left` has still to be written. -/
  | replying (registration : R) (supportsExt : Bool) (left : List UInt8)
  | running (registration : R) (supportsExt : Bool)
  | failed (error : InboundError)
  | ended (registration : R) (supportsExt : Bool)

namespace Inbound

def receive (engine : Engine R) (incoming : List UInt8) : Inbound R :=
  match Handshake.fromBytes incoming with
  | .error error => .failed (.handshake error)
  | .ok remote =>
    match engine.route remote with
    | .error error => .failed (.route error)
    | .ok (registration, supportsExt) =>
      .replying registration supportsExt (Handshake.new remote.infoHash engine.peerId).asBytes

def session : Inbound R → Option (R × Bool)
  | .running registration supportsExt | .ended registration supportsExt =>
    some (registration, supportsExt)
  | _ => none

def isServing : Inbound R → Bool
  | .failed _ | .ended .. => false
  | _ => true

theorem receive_asBytes (engine : Engine R) (remote : Handshake) :
    receive engine remote.asBytes = match engine.route remote with
      | .error error => .failed (.route error)
      | .ok (registration, supportsExt) =>
        .replying registration supportsExt
          (Handshake.new remote.infoHash engine.peerId).asBytes := by
  rw [receive, Handshake.fromBytes_asBytes]

def wrote (n : Nat) : Inbound R → Inbound R
  | .replying registration supportsExt left =>
    if left.length ≤ n then .running registration supportsExt
    else .replying registration supportsExt (left.drop n)
  | self => self

def fail : Inbound R → Inbound R
  | .reading | .replying .. => .failed .io
  | .running registration supportsExt => .ended registration supportsExt
  | self => self

end Inbound

inductive Transport
  | tcp
  | quic
  deriving DecidableEq

/-- The engine with its two acceptors, which share a semaphore, and the tasks that they have
spawned; the place of a task in the list is its id. -/
structure Acceptors (R : Type) where
  engine : Engine R
  permits : Nat
  accepting : Transport → Bool
  tasks : List (Inbound R)

inductive AcceptorEvent (R : Type)
  | register (infoHash : Digest) (registration : R)
  | unregister (infoHash : Digest)
  | connect (via : Transport)
  | receive (id : Nat) (incoming : List UInt8)
  | wrote (id n : Nat)
  | fail (id : Nat)
  | stop (via : Transport)

namespace Acceptors

def start (engine : Engine R) : Acceptors R := ⟨engine, MAX_INBOUND_PEERS, fun _ => true, []⟩

/-- The permit of a task is given back with the task. -/
def update (id : Nat) (f : Inbound R → Inbound R) (s : Acceptors R) : Acceptors R :=
  match s.tasks[id]? with
  | none => s
  | some task =>
    { s with
      tasks := s.tasks.set id (f task)
      permits := if task.isServing && !(f task).isServing then s.permits + 1 else s.permits }

def step (s : Acceptors R) : AcceptorEvent R → Acceptors R
  | .register infoHash registration =>
    { s with engine := s.engine.register infoHash registration }
  | .unregister infoHash => { s with engine := s.engine.unregister infoHash }
  | .connect via =>
    if s.accepting via then
      -- without a permit the connection is dropped
      if s.permits = 0 then s
      else { s with permits := s.permits - 1, tasks := s.tasks ++ [.reading] }
    else s
  | .receive id incoming => s.update id fun
    | .reading => .receive s.engine incoming
    | task => task
  | .wrote id n => s.update id (·.wrote n)
  | .fail id => s.update id Inbound.fail
  | .stop via => { s with accepting := fun v => if v = via then false else s.accepting v }

def serving (s : Acceptors R) : Nat := tally (fun task => task.isServing.toNat) s.tasks

end Acceptors

def AcceptorEvent.tells (infoHash : Digest) : AcceptorEvent R → Option (Option R)
  | .register h registration => if h = infoHash then some (some registration) else none
  | .unregister h => if h = infoHash then some none else none
  | _ => none

def registered (engine : Engine R) (events : List (AcceptorEvent R)) (infoHash : Digest) :
    Option R :=
  (events.reverse.findSome? (·.tells infoHash)).getD (engine.lookup infoHash)

theorem registered_concat (engine : Engine R) (events : List (AcceptorEvent R))
    (event : AcceptorEvent R) (infoHash : Digest) :
    registered engine (events ++ [event]) infoHash =
      (event.tells infoHash).getD (registered engine events infoHash) := by
  rw [registered, List.reverse_append, List.reverse_singleton, List.singleton_append,
    List.findSome?_cons]
  cases event.tells infoHash <;> rfl

def Inbound.routed : Inbound R → Option (R × Bool)
  | .replying registration supportsExt _ | .running registration supportsExt
  | .ended registration supportsExt => some (registration, supportsExt)
  | _ => none

namespace Inbound

variable {task : Inbound R} {result : R × Bool}

theorem isServing_wrote (n : Nat) (task : Inbound R) :
    (task.wrote n).isServing = task.isServing := by
  cases task with
  | replying =>
    simp only [wrote]
    split <;> rfl
  | _ => rfl

theorem routed_wrote (n : Nat) (task : Inbound R) : (task.wrote n).routed = task.routed := by
  cases task with
  | replying =>
    simp only [wrote]
    split <;> rfl
  | _ => rfl

theorem routed_of_fail (h : task.fail.routed = some result) : task.routed = some result := by
  cases task <;> first | exact h | cases h

theorem receive_of_routed {engine : Engine R} {incoming : List UInt8}
    (h : (receive engine incoming).routed = some result) :
    ∃ remote, Handshake.fromBytes incoming = .ok remote ∧ remote.peerId ≠ engine.peerId ∧
      engine.lookup remote.infoHash = some result.1 ∧
      remote.supportsExtensionProtocol = result.2 := by
  unfold receive at h
  split at h
  case h_1 => cases h
  case h_2 remote hremote =>
    split at h
    case h_1 => cases h
    case h_2 hroute =>
      cases h
      exact ⟨remote, hremote, Engine.route_eq_ok.mp hroute⟩

end Inbound

namespace Acceptors

variable {s : Acceptors R} {event : AcceptorEvent R} {id : Nat} {task : Inbound R}

theorem engine_update (id : Nat) (f : Inbound R → Inbound R) (s : Acceptors R) :
    (s.update id f).engine = s.engine ∧ (s.update id f).accepting = s.accepting ∧
      (s.update id f).tasks.length = s.tasks.length := by
  unfold update
  split
  · exact ⟨rfl, rfl, rfl⟩
  · exact ⟨rfl, rfl, List.length_set ..⟩

theorem getElem?_update {f : Inbound R → Inbound R} {i : Nat}
    (h : (s.update id f).tasks[i]? = some task) :
    ∃ old, s.tasks[i]? = some old ∧ (task = old ∨ i = id ∧ task = f old) := by
  unfold update at h
  split at h
  case h_1 => exact ⟨task, h, .inl rfl⟩
  case h_2 old hold =>
    rw [List.getElem?_set] at h
    split at h
    case isTrue heq =>
      subst heq
      split at h <;> cases h
      exact ⟨old, hold, .inr ⟨rfl, rfl⟩⟩
    case isFalse => exact ⟨task, h, .inl rfl⟩

theorem permits_update {f : Inbound R → Inbound R}
    (hf : ∀ task, (f task).isServing → task.isServing) :
    (s.update id f).permits + (s.update id f).serving = s.permits + s.serving := by
  unfold update serving
  split
  case h_1 => rfl
  case h_2 task htask =>
    have htally := tally_set htask (fun task => task.isServing.toNat) (f task)
    have hback := hf task
    dsimp only at htally ⊢
    cases hbefore : task.isServing with
    | true =>
      cases hafter : (f task).isServing with
      | true => simp_all
      | false =>
        simp_all
        omega
    | false => cases hafter : (f task).isServing <;> simp_all

theorem isServing_of_receive {engine : Engine R} {incoming : List UInt8} (task : Inbound R)
    (h : (match task with
      | .reading => Inbound.receive engine incoming
      | task => task).isServing) : task.isServing := by
  cases task <;> first | rfl | exact h

theorem permits_step (s : Acceptors R) (event : AcceptorEvent R) :
    (s.step event).permits + (s.step event).serving = s.permits + s.serving := by
  cases event with
  | register | unregister | stop => rfl
  | connect via =>
    unfold step
    dsimp only
    split
    case isFalse => rfl
    case isTrue =>
      split
      case isTrue => rfl
      case isFalse hpermits =>
        have hnew : serving { s with permits := s.permits - 1, tasks := s.tasks ++ [.reading] } =
            s.serving + 1 := by
          simp [serving, Inbound.isServing]
        rw [hnew]
        dsimp only
        omega
  | receive id incoming => exact permits_update isServing_of_receive
  | wrote id n => exact permits_update fun task h => (Inbound.isServing_wrote n task).symm.trans h
  | fail id =>
    apply permits_update
    intro task h
    cases task <;> first | rfl | cases h

theorem lookup_step (s : Acceptors R) (event : AcceptorEvent R) (infoHash : Digest) :
    (s.step event).engine.lookup infoHash =
      (event.tells infoHash).getD (s.engine.lookup infoHash) := by
  cases event with
  | register h registration =>
    simp only [step, Engine.register, Engine.lookup, AcceptorEvent.tells, eq_comm (a := infoHash)]
    split <;> rfl
  | unregister h =>
    simp only [step, Engine.unregister, Engine.lookup, AcceptorEvent.tells, eq_comm (a := infoHash)]
    split <;> rfl
  | connect via =>
    simp only [step]
    split
    · split <;> rfl
    · rfl
  | receive id | wrote id | fail id => exact congrArg (·.lookup infoHash) (engine_update id _ s).1
  | stop => rfl

theorem peerId_step (s : Acceptors R) (event : AcceptorEvent R) :
    (s.step event).engine.peerId = s.engine.peerId := by
  cases event with
  | register | unregister | stop => rfl
  | connect via =>
    simp only [step]
    split
    · split <;> rfl
    · rfl
  | receive id | wrote id | fail id => exact congrArg Engine.peerId (engine_update id _ s).1

theorem routed_step {result : R × Bool} (htask : (s.step event).tasks[id]? = some task)
    (hrouted : task.routed = some result) :
    (∃ old, s.tasks[id]? = some old ∧ old.routed = some result) ∨
      ∃ incoming, event = .receive id incoming ∧
        (Inbound.receive s.engine incoming).routed = some result := by
  cases event with
  | register | unregister | stop => exact .inl ⟨task, htask, hrouted⟩
  | connect via =>
    simp only [step] at htask
    split at htask
    case isFalse => exact .inl ⟨task, htask, hrouted⟩
    case isTrue =>
      split at htask
      case isTrue => exact .inl ⟨task, htask, hrouted⟩
      case isFalse =>
        rcases Nat.lt_or_ge id s.tasks.length with hlt | hge
        · rw [List.getElem?_append_left hlt] at htask
          exact .inl ⟨task, htask, hrouted⟩
        · rw [List.getElem?_append_right hge, List.getElem?_singleton] at htask
          split at htask <;> cases htask
          cases hrouted
  | receive i incoming =>
    obtain ⟨old, hold, rfl | ⟨rfl, rfl⟩⟩ := getElem?_update htask
    · exact .inl ⟨task, hold, hrouted⟩
    · cases old with
      | reading => exact .inr ⟨incoming, rfl, hrouted⟩
      | _ => exact .inl ⟨_, hold, hrouted⟩
  | wrote i n =>
    obtain ⟨old, hold, rfl | ⟨-, rfl⟩⟩ := getElem?_update htask
    · exact .inl ⟨task, hold, hrouted⟩
    · exact .inl ⟨old, hold, (Inbound.routed_wrote n old).symm.trans hrouted⟩
  | fail i =>
    obtain ⟨old, hold, rfl | ⟨-, rfl⟩⟩ := getElem?_update htask
    · exact .inl ⟨task, hold, hrouted⟩
    · exact .inl ⟨old, hold, Inbound.routed_of_fail hrouted⟩

theorem engine_run (engine : Engine R) (events : List (AcceptorEvent R)) :
    (exec step (start engine) events).engine.peerId = engine.peerId ∧
      ∀ infoHash, (exec step (start engine) events).engine.lookup infoHash =
        registered engine events infoHash := by
  induction events using List.reverseRecOn with
  | nil => exact ⟨rfl, fun _ => rfl⟩
  | append_singleton events event ih =>
    rw [exec_append, exec_cons, exec_nil, peerId_step]
    refine ⟨ih.1, fun infoHash => ?_⟩
    rw [lookup_step, registered_concat, ih.2]

/-- A peer is let through to the torrent that was last registered under its info hash when its
handshake came. -/
theorem routed_run (engine : Engine R) (events : List (AcceptorEvent R)) {result : R × Bool}
    (htask : (exec step (start engine) events).tasks[id]? = some task)
    (hrouted : task.routed = some result) :
    ∃ k incoming remote, events[k]? = some (.receive id incoming) ∧
      Handshake.fromBytes incoming = .ok remote ∧ remote.peerId ≠ engine.peerId ∧
      registered engine (events.take k) remote.infoHash = some result.1 ∧
      remote.supportsExtensionProtocol = result.2 := by
  induction events using List.reverseRecOn generalizing task with
  | nil => simp [start] at htask
  | append_singleton events event ih =>
    rw [exec_append, exec_cons, exec_nil] at htask
    rcases routed_step htask hrouted with ⟨old, hold, hbefore⟩ | ⟨incoming, rfl, hnow⟩
    · obtain ⟨k, incoming, remote, hk, hrest⟩ := ih hold hbefore
      have hlt : k < events.length := (List.getElem?_eq_some_iff.mp hk).1
      refine ⟨k, incoming, remote, (List.getElem?_append_left hlt).trans hk, ?_⟩
      rwa [List.take_append_of_le_length (Nat.le_of_lt hlt)]
    · obtain ⟨hpeer, hlookup⟩ := engine_run engine events
      obtain ⟨remote, hremote, hne, hregistered, hsupports⟩ := Inbound.receive_of_routed hnow
      refine ⟨events.length, incoming, remote, List.getElem?_concat_length, hremote, hpeer ▸ hne, ?_,
        hsupports⟩
      rw [List.take_left, ← hlookup]
      exact hregistered

theorem accepting_step {via : Transport} (event : AcceptorEvent R)
    (h : s.accepting via = false ∨ event = .stop via) : (s.step event).accepting via = false := by
  cases event with
  | register | unregister => exact h.resolve_right nofun
  | stop other =>
    simp only [step]
    split
    case isTrue => rfl
    case isFalse hne => exact h.resolve_right fun he => hne (by cases he; rfl)
  | connect other =>
    have hold := h.resolve_right nofun
    simp only [step]
    split
    · split <;> exact hold
    · exact hold
  | receive id | wrote id | fail id =>
    exact (congrFun (engine_update id _ s).2.1 via).trans (h.resolve_right nofun)

theorem length_tasks_step (event : AcceptorEvent R) (h : ∀ via, s.accepting via = false) :
    (s.step event).tasks.length = s.tasks.length := by
  cases event with
  | register | unregister | stop => rfl
  | connect via => simp only [step, h via, Bool.false_eq_true, if_false]
  | receive id | wrote id | fail id => exact (engine_update id _ s).2.2

theorem accepting_run {via : Transport} {events : List (AcceptorEvent R)}
    (h : s.accepting via = false ∨ .stop via ∈ events) :
    (exec step s events).accepting via = false := by
  induction events generalizing s with
  | nil => exact h.resolve_right List.not_mem_nil
  | cons event events ih =>
    apply ih
    rcases h with h | h
    · exact .inl (accepting_step event (.inl h))
    · rcases List.mem_cons.mp h with rfl | h
      · exact .inl (accepting_step _ (.inr rfl))
      · exact .inr h

theorem length_tasks_stopped {events : List (AcceptorEvent R)} (h : ∀ via, s.accepting via = false) :
    (exec step s events).tasks.length = s.tasks.length := by
  refine (exec_invariant (P := fun t : Acceptors R => (∀ via, t.accepting via = false) ∧
    t.tasks.length = s.tasks.length) (fun t event ht => ?_) events ⟨h, rfl⟩).2
  exact ⟨fun via => accepting_step event (.inl (ht.1 via)),
    (length_tasks_step event ht.1).trans ht.2⟩

/-- However connections, handshakes, failures and torrents that come and go are interleaved: the
permits that are left and the tasks that hold one are a hundred together, a torrent is served as
the last call about it says, a peer gets to the torrent that was registered under its info hash
when its handshake was read, and after both acceptors have stopped nobody is taken any more. -/
theorem inbound_accounted (engine : Engine R) (events : List (AcceptorEvent R)) :
    let s := exec step (start engine) events
    s.permits + s.serving = MAX_INBOUND_PEERS ∧
    (∀ infoHash, s.engine.lookup infoHash = registered engine events infoHash) ∧
    (∀ (id : Nat) (task : Inbound R) registration supportsExt, s.tasks[id]? = some task →
      task.routed = some (registration, supportsExt) →
        ∃ k incoming remote, events[k]? = some (.receive id incoming) ∧
          Handshake.fromBytes incoming = .ok remote ∧ remote.peerId ≠ engine.peerId ∧
          registered engine (events.take k) remote.infoHash = some registration ∧
          remote.supportsExtensionProtocol = supportsExt) ∧
    ((∀ via, .stop via ∈ events) → ∀ later,
      (exec step (start engine) (events ++ later)).tasks.length = s.tasks.length) := by
  refine ⟨?_, (engine_run engine events).2, fun id task registration supportsExt htask hrouted =>
    routed_run engine events htask hrouted, fun hstop later => ?_⟩
  · exact exec_invariant (P := fun s : Acceptors R => s.permits + s.serving = MAX_INBOUND_PEERS)
      (fun s event h => (permits_step s event).trans h) events rfl
  · rw [exec_append]
    exact length_tasks_stopped fun via => accepting_run (.inr (hstop via))

end Acceptors

end Tortor.Net
