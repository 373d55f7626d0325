import Mathlib.Data.List.AList
import Tortor.Core.Torrent
import Tortor.Net.Krpc

/-! The part of the DHT node that answers other nodes: its peer store, its announce tokens and
its replies. -/

namespace Tortor.Net

open Tortor.Core (Digest IpAddr SocketAddr)

def K : Nat := 8

def MAX_STORED_TORRENTS : Nat := 500

def MAX_PEERS_PER_TORRENT : Nat := 100

/-- In milliseconds, as every time here. -/
def PEER_TTL : Nat := 30 * 60 * 1000

def TOKEN_ROTATION : Nat := 5 * 60 * 1000

def MAX_VALUES_PER_REPLY : Nat := 50

structure PeerStore where
  peers : AList fun _ : NodeId => List (SocketAddr × Nat)

namespace PeerStore

def touch (addr : SocketAddr) (now : Nat) : List (SocketAddr × Nat) → List (SocketAddr × Nat)
  | [] => []
  | (a, seen) :: rest => if a = addr then (a, now) :: rest else (a, seen) :: touch addr now rest

def add (self : PeerStore) (infoHash : NodeId) (addr : SocketAddr) (now : Nat) : PeerStore :=
  if infoHash ∉ self.peers ∧ MAX_STORED_TORRENTS ≤ self.peers.entries.length then self
  else
    let entry := (self.peers.lookup infoHash).getD []
    let entry :=
      if entry.any fun (a, _) => a == addr then touch addr now entry
      else
        (if MAX_PEERS_PER_TORRENT ≤ entry.length then entry.tail else entry) ++ [(addr, now)]
    ⟨self.peers.insert infoHash entry⟩

def get (self : PeerStore) (infoHash : NodeId) (now : Nat) : List SocketAddr :=
  match self.peers.lookup infoHash with
  | some list =>
    ((list.filter fun (_, seen) => decide (now - seen < PEER_TTL)).map Prod.fst).take
      MAX_VALUES_PER_REPLY
  | none => []

def purge (self : PeerStore) (now : Nat) : PeerStore where
  peers :=
    { entries :=
        (self.peers.entries.map fun e =>
          ⟨e.1, e.2.filter fun (_, seen) => decide (now - seen < PEER_TTL)⟩).filter
            fun e => !e.2.isEmpty
      nodupKeys := by
        refine List.NodupKeys.sublist List.filter_sublist ?_
        have hkeys := self.peers.nodupKeys
        rw [List.NodupKeys, List.keys, List.map_map] at *
        exact hkeys }

end PeerStore

structure Secret where
  bytes : List UInt8
  size : bytes.length = 16
  deriving DecidableEq

structure Tokens where
  current : Secret
  previous : Secret
  rotated : Nat

namespace Tokens

def due (self : Tokens) (now : Nat) : Prop := TOKEN_ROTATION ≤ now - self.rotated

instance (self : Tokens) (now : Nat) : Decidable (self.due now) :=
  inferInstanceAs (Decidable (_ ≤ _))

/-- `fresh` is what the generator of random numbers gives if it is asked. -/
def rotateIfDue (self : Tokens) (now : Nat) (fresh : Secret) : Tokens :=
  if self.due now then ⟨fresh, self.current, now⟩ else self

def octets : IpAddr → List UInt8
  | .v4 ip => toBeBytes 4 ip.toNat
  | .v6 ip => toBeBytes 16 ip.toNat

def make (sha1 : List UInt8 → Digest) (secret : Secret) (ip : IpAddr) : List UInt8 :=
  (sha1 (secret.bytes ++ octets ip)).bytes.take 8

def issue (sha1 : List UInt8 → Digest) (self : Tokens) (ip : IpAddr) : List UInt8 :=
  make sha1 self.current ip

def isValid (sha1 : List UInt8 → Digest) (self : Tokens) (token : List UInt8) (ip : IpAddr) :
    Bool :=
  token == make sha1 self.current ip || token == make sha1 self.previous ip

end Tokens

structure KrpcReply extends KrpcMessage where
  e : Option (Int × String)
  deriving DecidableEq

def KrpcReply.response (tid : List UInt8) (args : ResponseArgs) : KrpcReply where
  a := none
  e := none
  q := none
  r := some args
  t := tid
  y := "r"

def KrpcReply.error (tid : List UInt8) (code : Int) (message : String) : KrpcReply where
  a := none
  e := some (code, message)
  q := none
  r := none
  t := tid
  y := "e"

def RoutingTable.closestWhere (self : RoutingTable) (target : NodeId) (count : Nat)
    (keep : Contact → Bool) : List Contact :=
  let all := (self.buckets.flatMap fun bucket => bucket.nodes).filter keep
  (all.mergeSort fun a b => decide ((a.id.xor target).key ≤ (b.id.xor target).key)).take count

/-- Splits contacts into the compact IPv4 list (26 bytes per node) and the compact IPv6 list of
BEP 32 (38 bytes per node). -/
def encodeNodes : List Contact → List UInt8 × List UInt8
  | [] => ([], [])
  | contact :: contacts =>
    let (v4, v6) := encodeNodes contacts
    match canonical contact.addr with
    | .v4 ip port => (contact.id.bytes ++ toBeBytes 4 ip.toNat ++ toBeBytes 2 port.toNat ++ v4, v6)
    | .v6 ip port => (v4, contact.id.bytes ++ toBeBytes 16 ip.toNat ++ toBeBytes 2 port.toNat ++ v6)

def encodeValue (addr : SocketAddr) : Option (List UInt8) :=
  let (v4, v6) := splitCompact [addr]
  let raw := if v4.isEmpty then v6 else v4
  if raw.isEmpty then none else some raw

structure DhtManager where
  localId : NodeId
  routingTable : RoutingTable
  peerStore : PeerStore
  tokens : Tokens

inductive ManagerInput
  | query (src : SocketAddr) (msg : KrpcMessage) (now : Nat)
  | insertNode (contact : Contact)
  | maintenance (now : Nat) (fresh : Secret)

namespace DhtManager

def new (localId : NodeId) (routingTable : RoutingTable) (current previous : Secret) (now : Nat) :
    DhtManager :=
  ⟨localId, routingTable, ⟨∅⟩, ⟨current, previous, now⟩⟩

/-- The nodes to put in a reply: IPv4 contacts for an IPv4 requester and IPv6 contacts (`nodes6`)
for an IPv6 requester (BEP 32). -/
def nodesFor (self : DhtManager) (target : NodeId) (requester : SocketAddr) :
    List UInt8 × List UInt8 :=
  let wantV6 := requester.isIpv6
  let contacts :=
    self.routingTable.closestWhere target K fun c => (canonical c.addr).isIpv6 == wantV6
  encodeNodes contacts

def handleGetPeers (sha1 : List UInt8 → Digest) (self : DhtManager) (src : SocketAddr)
    (args : QueryArgs) (tid : List UInt8) (base : ResponseArgs) (now : Nat) : KrpcReply :=
  match NodeId.ofBytes args.infoHash with
  | none => .error tid 203 "Invalid info_hash"
  | some infoHash =>
    let values := (self.peerStore.get infoHash now).filterMap encodeValue
    let (nodes, nodes6) := if values.isEmpty then self.nodesFor infoHash src else ([], [])
    let token := self.tokens.issue sha1 src.ip
    .response tid { base with nodes, nodes6, token, values }

def announcedPort (src : SocketAddr) (args : QueryArgs) : Option (BitVec 16) :=
  let port := if args.impliedPort = some 1 then some src.port else args.port.map (BitVec.ofNat 16)
  port.filter fun p => p != 0

def handleAnnounce (sha1 : List UInt8 → Digest) (self : DhtManager) (src : SocketAddr)
    (args : QueryArgs) (tid : List UInt8) (base : ResponseArgs) (now : Nat) :
    DhtManager × KrpcReply :=
  match NodeId.ofBytes args.infoHash with
  | none => (self, .error tid 203 "Invalid info_hash")
  | some infoHash =>
    if ¬ self.tokens.isValid sha1 args.token src.ip then (self, .error tid 203 "Bad token")
    else
      match announcedPort src args with
      | none => (self, .error tid 203 "Invalid port")
      | some port =>
        ({ self with peerStore := self.peerStore.add infoHash (.new src.ip port) now },
          .response tid base)

def noteSender (self : DhtManager) (senderId : NodeId) (src : SocketAddr) : DhtManager :=
  if isValidNodeAddr src then
    { self with routingTable := self.routingTable.insert ⟨senderId, src⟩ }
  else self

/-- Answers a query from another node (BEP 5, BEP 32): ping, find_node, get_peers and
announce_peer.  Returns the reply to send, if any. -/
def handleQuery (sha1 : List UInt8 → Digest) (self : DhtManager) (src : SocketAddr)
    (msg : KrpcMessage) (now : Nat) : DhtManager × Option KrpcReply :=
  let src := canonical src
  let tid := msg.t
  match msg.q, msg.a with
  | some name, some args =>
    match NodeId.ofBytes args.id with
    | none => (self, some (.error tid 203 "Invalid node id"))
    | some senderId =>
      let self := self.noteSender senderId src
      let base : ResponseArgs := ⟨self.localId.bytes, [], [], [], []⟩
      match name with
      | "ping" => (self, some (.response tid base))
      | "find_node" =>
        match NodeId.ofBytes args.target with
        | none => (self, none)
        | some target =>
          let (nodes, nodes6) := self.nodesFor target src
          (self, some (.response tid { base with nodes, nodes6 }))
      | "get_peers" => (self, some (self.handleGetPeers sha1 src args tid base now))
      | "announce_peer" =>
        let (self, reply) := self.handleAnnounce sha1 src args tid base now
        (self, some reply)
      | _ => (self, some (.error tid 204 "Method Unknown"))
  | _, _ => (self, some (.error tid 203 "Protocol Error"))

def step (sha1 : List UInt8 → Digest) (self : DhtManager) : ManagerInput → DhtManager
  | .query src msg now => (self.handleQuery sha1 src msg now).1
  | .insertNode contact => { self with routingTable := self.routingTable.insert contact }
  | .maintenance now fresh =>
    { self with
      tokens := self.tokens.rotateIfDue now fresh
      peerStore := self.peerStore.purge now }

end DhtManager
end Tortor.Net
