import Mathlib.Data.List.AList
import Tortor.Core.BencodeScan
import Tortor.Net.Krpc

/-! The socket of the DHT: queries of this node go out and wait for their answers, queries of
other nodes come in. -/

namespace Tortor.Net

open Tortor.Core (SocketAddr checkBencodeDepth)

/-- In milliseconds. -/
def TRANSACTION_TTL : Nat := 20000

def MAX_PENDING : Nat := 4096

def RECV_BUFFER : Nat := 4096

/-- `serde_bencode` with what it derives for `KrpcMessage`. -/
structure KrpcCodec where
  encode : KrpcMessage → Option (List UInt8)
  decode : List UInt8 → Option KrpcMessage

inductive ServerError
  /-- "invalid DHT node address {target}" -/
  | invalidAddress (target : SocketAddr)
  /-- "too many pending DHT queries" -/
  | tooManyPending
  | socket
  deriving DecidableEq

structure Pending where
  target : SocketAddr
  reply : Nat
  sent : Nat
  deriving DecidableEq

/-- A `SendQuery` that the server took up, with the transaction id it got.  Its place in the
list of all of them stands for its reply channel. -/
structure ServerQuery where
  target : SocketAddr
  tid : Option (List UInt8)
  deriving DecidableEq

structure Answer where
  reply : Nat
  result : Except ServerError KrpcMessage

inductive ServerInput
  | sendQuery (target : SocketAddr) (msg : KrpcMessage) (sent : Bool) (now : Nat)
  | sendReply (target : SocketAddr) (msg : KrpcMessage) (sent : Bool)
  | closed
  /-- `room` tells whether the channel of incoming queries takes another one. -/
  | datagram (data : List UInt8) (src : SocketAddr) (room : Bool)
  | recvError
  | cleanup (now : Nat)

structure DhtServer where
  /-- The socket is IPv6, so IPv4 targets must be sent as IPv4-mapped addresses. -/
  dualStack : Bool
  transactions : AList fun _ : List UInt8 => Pending
  nextTid : UInt32
  ended : Bool
  packets : List (SocketAddr × List UInt8)
  incoming : List (SocketAddr × KrpcMessage)
  queries : List ServerQuery
  answers : List Answer

namespace DhtServer

def new (dualStack : Bool) (nextTid : UInt32) : DhtServer :=
  ⟨dualStack, ∅, nextTid, false, [], [], [], []⟩

def wireAddr (self : DhtServer) : SocketAddr → SocketAddr
  | .v4 ip port =>
    if self.dualStack then .v6 (.ofNat 128 (0xffff * 2 ^ 32 + ip.toNat)) port else .v4 ip port
  | other => other

def retain (keep : Pending → Bool) (table : AList fun _ : List UInt8 => Pending) :
    AList fun _ : List UInt8 => Pending where
  entries := table.entries.filter fun entry => keep entry.2
  nodupKeys := table.nodupKeys.sublist List.filter_sublist

def asked (self : DhtServer) (target : SocketAddr) (tid : Option (List UInt8)) : DhtServer :=
  { self with queries := self.queries ++ [⟨target, tid⟩] }

def answer (self : DhtServer) (reply : Nat) (result : Except ServerError KrpcMessage) : DhtServer :=
  { self with answers := self.answers ++ [⟨reply, result⟩] }

def sendQuery (self : DhtServer) (codec : KrpcCodec) (target : SocketAddr) (msg : KrpcMessage)
    (sent : Bool) (now : Nat) : DhtServer :=
  let reply := self.queries.length
  if ¬ isValidNodeAddr (canonical target) then
    (self.asked target none).answer reply (.error (.invalidAddress (canonical target)))
  else if MAX_PENDING ≤ self.transactions.entries.length then
    (self.asked target none).answer reply (.error .tooManyPending)
  else
    -- Transaction ids are allocated here so concurrent searches never collide.
    let nextTid := self.nextTid + 1
    let tid := toBeBytes 4 nextTid.toNat
    let self := { self.asked target (some tid) with nextTid := nextTid }
    match codec.encode { msg with t := tid } with
    | none => self
    | some payload =>
      if sent then
        { self with
          packets := self.packets ++ [(self.wireAddr (canonical target), payload)]
          transactions := self.transactions.insert tid ⟨canonical target, reply, now⟩ }
      else self.answer reply (.error .socket)

def sendReply (self : DhtServer) (codec : KrpcCodec) (target : SocketAddr) (msg : KrpcMessage)
    (sent : Bool) : DhtServer :=
  match codec.encode msg with
  | none => self
  | some payload =>
    if sent then
      { self with packets := self.packets ++ [(self.wireAddr (canonical target), payload)] }
    else self

def handleDatagram (self : DhtServer) (codec : KrpcCodec) (data : List UInt8) (src : SocketAddr)
    (room : Bool) : DhtServer :=
  match checkBencodeDepth data, codec.decode data with
  | .ok (), some msg =>
    if msg.y = "r" ∨ msg.y = "e" then
      -- Only the node we asked may answer; otherwise anyone could forge replies.
      match self.transactions.lookup msg.t with
      | none => self
      | some pending =>
        if pending.target = src then
          { self with transactions := self.transactions.erase msg.t }.answer pending.reply (.ok msg)
        else self
    else if msg.y = "q" ∧ room then { self with incoming := self.incoming ++ [(src, msg)] }
    else self
  | _, _ => self

def step (codec : KrpcCodec) (self : DhtServer) (input : ServerInput) : DhtServer :=
  if self.ended then self
  else
    match input with
    | .sendQuery target msg sent now => self.sendQuery codec target msg sent now
    | .sendReply target msg sent => self.sendReply codec target msg sent
    | .closed => { self with ended := true }
    | .datagram data src room =>
      self.handleDatagram codec (data.take RECV_BUFFER) (canonical src) room
    | .recvError => self
    | .cleanup now =>
      let transactions :=
        retain (fun p => decide (now - p.sent < TRANSACTION_TTL)) self.transactions
      { self with transactions }

end DhtServer
end Tortor.Net
