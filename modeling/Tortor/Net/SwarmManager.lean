import Mathlib.Data.List.AList
import Tortor.Core.Torrent
import Tortor.Net.Krpc

/-! The swarm of one torrent: the loop that dials peers and announces to the trackers, with the
tasks it spawns and the events they send back. -/

namespace Tortor.Net

open Tortor.Core (Digest SessionEvent SocketAddr)

def MAX_ACTIVE_PEERS : Nat := 30

def PEER_IDLE_TIMEOUT_SECS : Nat := 300

def MAX_QUEUED_PEERS : Nat := 2000

def PEER_THRESHOLD : Nat := 5

/-- In milliseconds, as every time here. -/
def MIN_ANNOUNCE_INTERVAL : Nat := 30000

structure AnnounceParams where
  infoHash : Digest
  peerId : List UInt8
  port : Nat
  uploaded : Nat
  downloaded : Nat
  left : Nat
  event : Option String
  deriving DecidableEq

def mergePeers (merged : List SocketAddr) : List SocketAddr → List SocketAddr
  | [] => merged
  | peer :: peers => mergePeers (if peer ∈ merged then merged else merged ++ [peer]) peers

def announceLoop : (answers : List (Option (List SocketAddr))) → (merged : List SocketAddr) →
    (anyOk : Bool) → Option (List SocketAddr)
  | [], merged, anyOk => if anyOk then some merged else none
  | some peers :: answers, merged, _ => announceLoop answers (mergePeers merged peers) true
  | none :: answers, merged, anyOk => announceLoop answers merged anyOk

/-- Merges the peers of all trackers, which answer or fail in this order.  Fails only when no
tracker answered. -/
def announceAll (answers : List (Option (List SocketAddr))) : Option (List SocketAddr) :=
  announceLoop answers [] false

def initialPeers (answers : List (Option (List SocketAddr))) : List SocketAddr :=
  (announceAll answers).getD []

inductive SwarmEvent
  | peerProgress (addr : SocketAddr) (delta : Nat)
  | peerExited (addr : SocketAddr)
  | trackerPeersReceived (addrs : List SocketAddr)
  | trackerAnnounceFailed (error : String)
  | pexPeersReceived (addrs : List SocketAddr)
  | dhtPeersReceived (addrs : List SocketAddr)
  deriving DecidableEq

/-- Who sent an event; the event itself does not tell. -/
inductive Origin
  | task (task : Nat)
  | announce (announce : Nat)
  | other
  deriving DecidableEq

structure Sent where
  event : SwarmEvent
  origin : Origin
  deriving DecidableEq

structure ActivePeer where
  downloadedBytes : Nat
  lastProgress : Nat
  handle : Nat

/-- A dialed peer.  It ends with the event that it has exited, unless it was aborted in time. -/
structure Task where
  addr : SocketAddr
  aborted : Bool
  ended : Bool
  deriving DecidableEq

/-- An announce under way, with the number of trackers that are still to answer or to fail. -/
structure Announce where
  params : AnnounceParams
  waiting : Nat
  answered : Bool
  ended : Bool
  deriving DecidableEq

structure SwarmState where
  lastAnnounce : Option Nat
  announceInProgress : Bool
  trackerUrls : List String
  infoHash : Digest
  peerId : List UInt8
  listenPort : Nat
  leftHint : Nat
  event : Option String

structure RoundEnv where
  now : Nat
  uploaded : Nat
  downloaded : Nat

structure SwarmManager where
  active : AList fun _ : SocketAddr => ActivePeer
  availablePeers : List SocketAddr
  swarmState : SwarmState
  stopped : Bool
  events : List Sent
  tasks : List Task
  announces : List Announce
  snapshots : List (List SocketAddr)
  farewell : Option AnnounceParams

inductive Branch
  | event
  | pexTick
  | session (event : SessionEvent)
  | tick

inductive SwarmInput
  | shutdown (env : RoundEnv)
  | round (branch : Branch) (env : RoundEnv)
  | progress (addr : SocketAddr) (delta : Nat)
  | pexPeers (addrs : List SocketAddr)
  | dhtPeers (addrs : List SocketAddr)
  | taskEnds (task : Nat)
  | trackerAnswers (announce : Nat) (addrs : List SocketAddr)
  | trackerFails (announce : Nat)
  | announceEnds (announce : Nat) (error : String)

def SwarmState.announceParams (self : SwarmState) (env : RoundEnv) (event : Option String) :
    AnnounceParams where
  infoHash := self.infoHash
  peerId := self.peerId
  port := self.listenPort
  uploaded := env.uploaded
  downloaded := env.downloaded
  left := if self.event = some "completed" then 0 else self.leftHint - env.downloaded
  event := event

def shouldReannounce (state : SwarmState) (availableLen activeLen now : Nat) : Bool :=
  if state.trackerUrls.isEmpty || state.announceInProgress then false
  else if PEER_THRESHOLD ≤ availableLen ∧ PEER_THRESHOLD ≤ activeLen then false
  else
    match state.lastAnnounce with
    | some t => decide (MIN_ANNOUNCE_INTERVAL ≤ now - t)
    | none => true

def enqueuePeers (active : AList fun _ : SocketAddr => ActivePeer) :
    (queue addrs : List SocketAddr) → List SocketAddr × Nat
  | queue, [] => (queue, 0)
  | queue, addr :: addrs =>
    if MAX_QUEUED_PEERS ≤ queue.length then (queue, 0)
    else if !isValidNodeAddr addr ∨ addr ∈ active ∨ addr ∈ queue then
      enqueuePeers active queue addrs
    else
      let (queue, added) := enqueuePeers active (queue ++ [addr]) addrs
      (queue, added + 1)

namespace SwarmManager

def new (availablePeers : List SocketAddr) (trackerUrls : List String) (infoHash : Digest)
    (peerId : List UInt8) (listenPort leftHint : Nat) : SwarmManager where
  active := ∅
  availablePeers := availablePeers
  swarmState := ⟨none, false, trackerUrls, infoHash, peerId, listenPort, leftHint, some "started"⟩
  stopped := false
  events := []
  tasks := []
  announces := []
  snapshots := []
  farewell := none

/-- The task takes what it announces from the state as it is now. -/
def startReannounce (self : SwarmManager) (env : RoundEnv) : SwarmManager :=
  let state := self.swarmState
  let announce : Announce :=
    ⟨state.announceParams env state.event, state.trackerUrls.length, false, false⟩
  { self with
    swarmState := { state with announceInProgress := true, lastAnnounce := some env.now }
    announces := self.announces ++ [announce] }

def enqueue (self : SwarmManager) (addrs : List SocketAddr) : SwarmManager :=
  { self with availablePeers := (enqueuePeers self.active self.availablePeers addrs).1 }

def handleEvent (self : SwarmManager) (env : RoundEnv) : SwarmEvent → SwarmManager
  | .peerProgress addr delta =>
    match self.active.lookup addr with
    | some peer =>
      let downloadedBytes := min (peer.downloadedBytes + delta) (2 ^ 64 - 1)
      let peer := { peer with downloadedBytes, lastProgress := env.now }
      { self with active := self.active.insert addr peer }
    | none => self
  | .peerExited addr => { self with active := self.active.erase addr }
  | .trackerPeersReceived addrs =>
    -- clear event after successful announce
    let swarmState := { self.swarmState with announceInProgress := false, event := none }
    { self with swarmState }.enqueue addrs
  | .pexPeersReceived addrs => self.enqueue addrs
  | .dhtPeersReceived addrs => self.enqueue addrs
  | .trackerAnnounceFailed _ =>
    { self with swarmState := { self.swarmState with announceInProgress := false } }

def abort (tasks : List Task) (handle : Nat) : List Task :=
  tasks.modify handle fun task => { task with aborted := true }

def idle (now : Nat) (peer : ActivePeer) : Bool :=
  decide (PEER_IDLE_TIMEOUT_SECS < (now - peer.lastProgress) / 1000)

def expire (self : SwarmManager) (now : Nat) : SwarmManager :=
  let expired := self.active.entries.filter fun entry => idle now entry.2
  let active : AList fun _ : SocketAddr => ActivePeer :=
    ⟨self.active.entries.filter fun entry => !idle now entry.2,
      self.active.nodupKeys.sublist List.filter_sublist⟩
  { self with active, tasks := (expired.map fun entry => entry.2.handle).foldl abort self.tasks }

def dial (self : SwarmManager) (addr : SocketAddr) (now : Nat) : SwarmManager :=
  { self with
    tasks := self.tasks ++ [⟨addr, false, false⟩]
    active := self.active.insert addr ⟨0, now, self.tasks.length⟩ }

/-- Dials from the front of the queue, which is given apart, as long as there is room. -/
def dialLoop (now : Nat) : SwarmManager → List SocketAddr → SwarmManager
  | self, [] => { self with availablePeers := [] }
  | self, addr :: rest =>
    if MAX_ACTIVE_PEERS ≤ self.active.entries.length then
      { self with availablePeers := addr :: rest }
    else if addr ∈ self.active then dialLoop now self rest
    else dialLoop now (self.dial addr now) rest

def select (self : SwarmManager) (env : RoundEnv) : Branch → Option SwarmManager
  | .event =>
    match self.events with
    | [] => none
    | sent :: events => some ({ self with events }.handleEvent env sent.event)
  | .pexTick =>
    let currentPeers := self.active.keys
    if currentPeers.isEmpty then some self
    else some { self with snapshots := self.snapshots ++ [currentPeers] }
  | .session .downloadComplete =>
    let swarmState := { self.swarmState with event := some "completed", leftHint := 0 }
    some ({ self with swarmState }.startReannounce env)
  | .session _ => some self
  | .tick =>
    let self := self.expire env.now
    some (dialLoop env.now self self.availablePeers)

def reannounce (self : SwarmManager) (env : RoundEnv) : SwarmManager :=
  if shouldReannounce self.swarmState self.availablePeers.length self.active.entries.length env.now
  then self.startReannounce env
  else self

def shutdown (self : SwarmManager) (env : RoundEnv) : SwarmManager :=
  let handles := self.active.entries.map fun entry => entry.2.handle
  let farewell :=
    if self.swarmState.trackerUrls.isEmpty then none
    else some (self.swarmState.announceParams env (some "stopped"))
  { self with active := ∅, tasks := handles.foldl abort self.tasks, stopped := true, farewell }

def send (self : SwarmManager) (origin : Origin) (event : SwarmEvent) : SwarmManager :=
  { self with events := self.events ++ [⟨event, origin⟩] }

def taskEnds (self : SwarmManager) (t : Nat) : SwarmManager :=
  match self.tasks[t]? with
  | some task =>
    if task.ended then self
    else
      let tasks := self.tasks.modify t fun task => { task with ended := true }
      { self with tasks }.send (.task t) (.peerExited task.addr)
  | none => self

/-- Hands peers over as soon as each tracker answers instead of waiting for the slowest one. -/
def trackerAnswers (self : SwarmManager) (k : Nat) (addrs : List SocketAddr) : SwarmManager :=
  match self.announces[k]? with
  | some announce =>
    if announce.waiting = 0 then self
    else
      let announces := self.announces.modify k fun announce =>
        { announce with waiting := announce.waiting - 1, answered := true }
      { self with announces }.send (.announce k) (.trackerPeersReceived addrs)
  | none => self

def trackerFails (self : SwarmManager) (k : Nat) : SwarmManager :=
  let announces := self.announces.modify k fun announce =>
    { announce with waiting := announce.waiting - 1 }
  { self with announces }

def announceEnds (self : SwarmManager) (k : Nat) (error : String) : SwarmManager :=
  match self.announces[k]? with
  | some announce =>
    if announce.waiting ≠ 0 ∨ announce.ended then self
    else
      let announces := self.announces.modify k fun announce => { announce with ended := true }
      let self := { self with announces }
      if announce.answered then self
      else self.send (.announce k) (.trackerAnnounceFailed error)
  | none => self

def step (self : SwarmManager) : SwarmInput → SwarmManager
  | .shutdown env => if self.stopped then self else self.shutdown env
  | .round branch env =>
    if self.stopped then self
    else
      match self.select env branch with
      | some next => next.reannounce env
      | none => self
  | .progress addr delta => self.send .other (.peerProgress addr delta)
  | .pexPeers addrs => self.send .other (.pexPeersReceived addrs)
  | .dhtPeers addrs => self.send .other (.dhtPeersReceived addrs)
  | .taskEnds t => self.taskEnds t
  | .trackerAnswers k addrs => self.trackerAnswers k addrs
  | .trackerFails k => self.trackerFails k
  | .announceEnds k error => self.announceEnds k error

theorem trackerAnswers_frame (s : SwarmManager) (k : Nat) (addrs : List SocketAddr) :
    ∃ announces events, s.trackerAnswers k addrs = { s with announces, events } := by
  unfold trackerAnswers
  split
  · split
    · exact ⟨s.announces, s.events, rfl⟩
    · exact ⟨_, _, rfl⟩
  · exact ⟨s.announces, s.events, rfl⟩

theorem announceEnds_frame (s : SwarmManager) (k : Nat) (error : String) :
    ∃ announces events, s.announceEnds k error = { s with announces, events } := by
  unfold announceEnds
  split
  · split
    · exact ⟨s.announces, s.events, rfl⟩
    · dsimp only
      split
      · exact ⟨_, s.events, rfl⟩
      · exact ⟨_, _, rfl⟩
  · exact ⟨s.announces, s.events, rfl⟩

theorem taskEnds_frame (s : SwarmManager) (t : Nat) :
    ∃ tasks events, s.taskEnds t = { s with tasks, events } := by
  unfold taskEnds
  split
  · split
    · exact ⟨s.tasks, s.events, rfl⟩
    · exact ⟨_, _, rfl⟩
  · exact ⟨s.tasks, s.events, rfl⟩

end SwarmManager
end Tortor.Net
