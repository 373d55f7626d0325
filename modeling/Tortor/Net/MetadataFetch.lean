import Tortor.Net.MetadataRestart
import Tortor.Net.SwarmManager

/-! The whole download of an info dictionary: which peers are tried, when, and how it ends.  The
lookups in the DHT and at the trackers are told by the events that they send. -/

namespace Tortor.Net

open Tortor.Core (Digest SocketAddr)
open Tortor.Lib

def MAX_PARALLEL_PEERS : Nat := 8

structure FetchOptions where
  infoHash : Digest
  initialPeers : List SocketAddr
  timeout : Nat

structure MetadataFetch where
  fetch : Fetch
  /-- The peers that tasks were spawned for, in this order. -/
  tried : List SocketAddr
  /-- The tasks that have left the `JoinSet`. -/
  joined : List Nat
  queue : List SocketAddr
  seen : List SocketAddr
  found : List SwarmEvent
  deadline : Nat
  reported : Nat
  statuses : List String
  result : Option (Except String (List UInt8))

inductive FetchBranch
  | found
  | joined (task : Nat)
  | tick

inductive FetchInput
  | sends (event : SwarmEvent)
  | turn (task : Nat) (turn : FetchTurn)
  | round (branch : FetchBranch) (now : Nat)

namespace MetadataFetch

/-- `seen.insert`, and the queue when the address is new. -/
def note (self : MetadataFetch) (addr : SocketAddr) : MetadataFetch :=
  if addr ∈ self.seen then self
  else { self with seen := self.seen ++ [addr], queue := self.queue ++ [addr] }

def start (options : FetchOptions) (now : Nat) : MetadataFetch :=
  options.initialPeers.foldl note
    { fetch := .start
      tried := []
      joined := []
      queue := []
      seen := []
      found := []
      deadline := now + options.timeout
      reported := 0
      statuses := []
      result := none }

def takeEvent (self : MetadataFetch) : SwarmEvent → MetadataFetch
  | .trackerPeersReceived addrs | .dhtPeersReceived addrs =>
    (addrs.filter fun addr => addr.port != 0).foldl note self
  | _ => self

/-- How many tasks the `JoinSet` holds, those that have ended among them. -/
def running (self : MetadataFetch) : Nat := self.tried.length - self.joined.length

def Joinable (self : MetadataFetch) (task : Nat) : Prop :=
  self.fetch.tasks[task]?.map FetchTask.phase = some .ended ∧ task ∉ self.joined

instance (self : MetadataFetch) (task : Nat) : Decidable (self.Joinable task) :=
  inferInstanceAs (Decidable (_ ∧ _))

def select (self : MetadataFetch) : FetchBranch → Option MetadataFetch
  | .found =>
    match self.found with
    | [] => none
    | event :: found => some ({ self with found := found }.takeEvent event)
  | .joined task =>
    if self.Joinable task then some { self with joined := task :: self.joined } else none
  | .tick => some self

def fill (ctx : FetchContext) (self : MetadataFetch) : List SocketAddr → MetadataFetch
  | [] => { self with queue := [] }
  | addr :: queue =>
    if self.running < MAX_PARALLEL_PEERS then
      fill ctx { self with fetch := self.fetch.step ctx .spawn, tried := self.tried ++ [addr] } queue
    else { self with queue := addr :: queue }

def report (self : MetadataFetch) : MetadataFetch :=
  let seen := self.seen.length
  if seen ≠ self.reported ∧ seen % 5 = 0 then
    { self with
      reported := seen
      statuses := self.statuses ++ [s!"Looking for metadata: {seen} peers found"] }
  else self

def settle (ctx : FetchContext) (self : MetadataFetch) (now : Nat) : MetadataFetch :=
  match self.fetch.shared.result with
  | some bytes =>
    { self with
      fetch := { self.fetch with shared := { self.fetch.shared with result := none } }
      result := some (.ok bytes) }
  | none =>
    if self.deadline ≤ now then
      { self with
        result := some (.error
          s!"timed out while fetching metadata ({self.seen.length} peers tried)") }
    else (self.fill ctx self.queue).report

/-- After the end the tasks are aborted and nothing is received any more. -/
def step (ctx : FetchContext) (self : MetadataFetch) (input : FetchInput) : MetadataFetch :=
  if self.result.isSome then self
  else match input with
    | .sends event => { self with found := self.found ++ [event] }
    | .turn task turn => { self with fetch := self.fetch.step ctx (.turn task turn) }
    | .round branch now =>
      match self.select branch with
      | none => self
      | some self => self.settle ctx now

end MetadataFetch
end Tortor.Net
