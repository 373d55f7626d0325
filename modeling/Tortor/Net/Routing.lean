import Tortor.Core.Command
import Tortor.Net.NodeId

namespace Tortor.Net

open Tortor.Core (SocketAddr)

structure Contact where
  id : NodeId
  addr : SocketAddr
  deriving DecidableEq

structure KBucket where
  nodes : List Contact
  prefixLen : Nat
  deriving DecidableEq

namespace KBucket

def new (prefixLen : Nat) : KBucket := ⟨[], prefixLen⟩

def isFull (self : KBucket) : Bool := decide (8 ≤ self.nodes.length)

/-- A known node moves to the tail and takes the new address. -/
def insert (self : KBucket) (contact : Contact) : Bool × KBucket :=
  match self.nodes.findIdx? (fun c => c.id == contact.id) with
  | some pos =>
    match self.nodes[pos]? with
    | some existing =>
      (true, { self with
        nodes := self.nodes.eraseIdx pos ++ [{ existing with addr := contact.addr }] })
    | none => (true, self)
  | none =>
    if !self.isFull then (true, { self with nodes := self.nodes ++ [contact] })
    else (false, self)

end KBucket

structure RoutingTable where
  localId : NodeId
  buckets : List KBucket
  deriving DecidableEq

namespace RoutingTable

def new (localId : NodeId) : RoutingTable := ⟨localId, [.new 0]⟩

/-- The last bucket whose `prefixLen` the distance reaches, else the first one. -/
def bucketIndexLoop (zeros : Nat) : List KBucket → (i targetIdx : Nat) → Nat
  | [], _, targetIdx => targetIdx
  | bucket :: rest, i, targetIdx =>
    bucketIndexLoop zeros rest (i + 1) (if bucket.prefixLen ≤ zeros then i else targetIdx)

def bucketIndex (self : RoutingTable) (target : NodeId) : Nat :=
  bucketIndexLoop (self.localId.xor target).leadingZeros self.buckets 0 0

def bucketCoversLocal (self : RoutingTable) (idx : Nat) : Bool := idx == self.buckets.length - 1

def splitBucket (self : RoutingTable) (idx : Nat) : RoutingTable :=
  match self.buckets[idx]? with
  | none => self
  | some bucket =>
    let splitBitIdx := bucket.prefixLen
    let localBit := self.localId.bitAt splitBitIdx
    let towardsLocal (node : Contact) : Bool := node.id.bitAt splitBitIdx == localBit
    let kept : KBucket :=
      ⟨bucket.nodes.filter fun node => !towardsLocal node, bucket.prefixLen + 1⟩
    let newBucket : KBucket := ⟨bucket.nodes.filter towardsLocal, splitBitIdx + 1⟩
    { self with buckets := self.buckets.set idx kept ++ [newBucket] }

/-- The loop of `insert`; every round but the last one splits a bucket. -/
def insertLoop : Nat → RoutingTable → Contact → Nat → RoutingTable
  | 0, self, _, _ => self
  | fuel + 1, self, contact, bucketIdx =>
    match self.buckets[bucketIdx]? with
    | none => self
    | some bucket =>
      match bucket.insert contact with
      | (true, bucket') => { self with buckets := self.buckets.set bucketIdx bucket' }
      | (false, _) =>
        if self.bucketCoversLocal bucketIdx && decide (bucket.prefixLen < 160) then
          let self := self.splitBucket bucketIdx
          insertLoop fuel self contact (self.bucketIndex contact.id)
        else self

/-- The prefix grows with every split and stays within 160, which bounds the rounds. -/
def insert (self : RoutingTable) (contact : Contact) : RoutingTable :=
  if contact.id = self.localId then self
  else insertLoop 161 self contact (self.bucketIndex contact.id)

end RoutingTable
end Tortor.Net
