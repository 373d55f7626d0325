import Tortor.Net.Krpc

/-! A search of the DHT for the peers of a torrent.  Every step is one round of the loop that
sends queries, or it waits for one of the queries under way. -/

namespace Tortor.Net

open Tortor.Core (SocketAddr)

inductive NodeState
  | unqueried
  | inFlight
  | queried
  | failed
  deriving DecidableEq

structure SearchContact where
  contact : Contact
  state : NodeState
  token : List UInt8
  deriving DecidableEq

def SearchContact.new (contact : Contact) : SearchContact := ⟨contact, .unqueried, []⟩

def ALPHA : Nat := 3

/-- A get_peers message for the server, and whether the server has taken it. -/
structure SearchQuery where
  contact : Contact
  msg : KrpcMessage
  sent : Bool

inductive QueryOutcome
  | reply (response : KrpcMessage)
  | failed

structure SearchInput where
  sent : Bool
  next : Nat
  outcome : QueryOutcome
  announced : Nat → Bool

structure DhtSearch where
  infoHash : NodeId
  localId : NodeId
  announcePort : Option Nat
  shortList : List SearchContact
  tidCounter : Nat
  /-- The contacts with a query under way; the code keeps only their addresses. -/
  inFlight : List Contact
  ended : Bool
  queries : List SearchQuery
  forwarded : List (List SocketAddr)
  inserted : List Contact
  announcements : List (SocketAddr × KrpcMessage)
  /-- Every contact that was in the initial list or in a reply that was processed. -/
  learned : List Contact

namespace DhtSearch

def sortByDistance (infoHash : NodeId) (shortList : List SearchContact) : List SearchContact :=
  shortList.mergeSort fun a b =>
    decide (infoHash.distance a.contact.id ≤ infoHash.distance b.contact.id)

def new (infoHash localId : NodeId) (initialNodes : List Contact) (announcePort : Option Nat) :
    DhtSearch where
  infoHash := infoHash
  localId := localId
  announcePort := announcePort
  shortList := sortByDistance infoHash (initialNodes.map .new)
  tidCounter := 0
  inFlight := []
  ended := false
  queries := []
  forwarded := []
  inserted := []
  announcements := []
  learned := initialNodes

def query (self : DhtSearch) (name : String) (tid : List UInt8) (port : Option Nat)
    (token : List UInt8) : KrpcMessage :=
  { a := some ⟨self.localId.bytes, none, self.infoHash.bytes, port, [], token⟩
    q := some name
    r := none
    t := tid
    y := "q" }

def sendQuery (self : DhtSearch) (idx : Nat) (sc : SearchContact) (sent : Bool) : DhtSearch :=
  let tidCounter := (self.tidCounter + 1) % 2 ^ 16
  let msg := self.query "get_peers" (toBeBytes 2 tidCounter) none []
  { self with
    shortList := self.shortList.set idx { sc with state := .inFlight }
    tidCounter := tidCounter
    queries := self.queries ++ [⟨sc.contact, msg, sent⟩]
    inFlight := if sent then self.inFlight ++ [sc.contact] else self.inFlight }

def peersOf (args : ResponseArgs) : List SocketAddr := args.values.flatMap decodeCompactPeers

def foundIn (args : ResponseArgs) : List Contact :=
  decodeCompactNodes args.nodes ++ decodeCompactNodes6 args.nodes6

def validNodes (args : ResponseArgs) : List Contact :=
  (foundIn args).filter fun c => isValidNodeAddr c.addr

def addNodes (self : DhtSearch) (args : ResponseArgs) : DhtSearch :=
  if (foundIn args).isEmpty then self
  else
    let shortList := (validNodes args).foldl
      (fun shortList contact =>
        if shortList.any fun existing => existing.contact.id == contact.id then shortList
        else shortList ++ [.new contact])
      self.shortList
    { self with
      shortList := (sortByDistance self.infoHash shortList).take 50
      inserted := self.inserted ++ validNodes args
      learned := self.learned ++ validNodes args }

def takeOutcome (self : DhtSearch) (addr : SocketAddr) (outcome : QueryOutcome) : DhtSearch :=
  match self.shortList.findIdx? fun sc => sc.contact.addr == addr with
  | none => self
  | some idx =>
    match self.shortList[idx]?, outcome with
    | none, _ => self
    | some sc, .failed => { self with shortList := self.shortList.set idx { sc with state := .failed } }
    | some sc, .reply response =>
      match response.r with
      | none => { self with shortList := self.shortList.set idx { sc with state := .queried } }
      | some args =>
        let sc := { sc with state := .queried, token := args.token }
        let self := { self with
          shortList := self.shortList.set idx sc
          forwarded := if (peersOf args).isEmpty then self.forwarded
            else self.forwarded ++ [peersOf args] }
        self.addNodes args

def announceLoop (self : DhtSearch) (port : Nat) (taken : Nat → Bool) :
    List SearchContact → Nat → List (SocketAddr × KrpcMessage)
  | [], _ => []
  | sc :: rest, announced =>
    if 8 ≤ announced then []
    else if sc.state ≠ .queried ∨ sc.token.isEmpty then announceLoop self port taken rest announced
    else if taken rest.length then
      (sc.contact.addr, self.query "announce_peer" [] (some port) sc.token) ::
        announceLoop self port taken rest (announced + 1)
    else announceLoop self port taken rest announced

def announceToClosest (self : DhtSearch) (taken : Nat → Bool) : List (SocketAddr × KrpcMessage) :=
  match self.announcePort with
  | none => []
  | some port => self.announceLoop port taken self.shortList 0

def nextUnqueried (self : DhtSearch) : Option Nat :=
  self.shortList.findIdx? fun sc => sc.state == .unqueried

def joinNext (self : DhtSearch) (input : SearchInput) : DhtSearch :=
  let i := input.next % self.inFlight.length
  match self.inFlight[i]? with
  | none => self
  | some contact =>
    { self with inFlight := self.inFlight.eraseIdx i }.takeOutcome contact.addr input.outcome

/-- Nothing is left to query: wait for what is under way, or end. -/
def join (self : DhtSearch) (input : SearchInput) : DhtSearch :=
  if self.inFlight.isEmpty then
    { self with ended := true, announcements := self.announceToClosest input.announced }
  else self.joinNext input

def step (self : DhtSearch) (input : SearchInput) : DhtSearch :=
  if self.ended then self
  else if self.inFlight.length < ALPHA then
    match self.nextUnqueried with
    | none => self.join input
    | some idx =>
      match self.shortList[idx]? with
      | none => self
      | some sc => self.sendQuery idx sc input.sent
  else self.join input

end DhtSearch
end Tortor.Net
