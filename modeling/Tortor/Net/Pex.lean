import Mathlib.Algebra.Group.Nat.Defs
import Tortor.Core.Command

/-! Compact peer lists and the messages of the peer exchange. -/

namespace Tortor.Net

open Tortor.Core (SocketAddr)

def beNat : List UInt8 → Nat
  | [] => 0
  | byte :: rest => byte.toNat * 256 ^ rest.length + beNat rest

/-- `chunks_exact`: a shorter rest is dropped. -/
def chunksExact (n : Nat) (bytes : List UInt8) : List (List UInt8) :=
  (List.range (bytes.length / n)).map fun i => (bytes.drop (n * i)).take n

def decodeCompactIpv4 (bytes : List UInt8) : List SocketAddr :=
  (chunksExact 6 bytes).map fun chunk =>
    .v4 (.ofNat 32 (beNat (chunk.take 4))) (.ofNat 16 (beNat (chunk.drop 4)))

def decodeCompactIpv6 (bytes : List UInt8) : List SocketAddr :=
  (chunksExact 18 bytes).map fun chunk =>
    .v6 (.ofNat 128 (beNat (chunk.take 16))) (.ofNat 16 (beNat (chunk.drop 16)))

/-- One DHT `values` entry: 6 bytes for an IPv4 peer, 18 for an IPv6 peer.  Several concatenated
IPv4 peers are accepted as well. -/
def decodeCompactPeers (bytes : List UInt8) : List SocketAddr :=
  if bytes.length = 18 then decodeCompactIpv6 bytes else decodeCompactIpv4 bytes

def toBeBytes : Nat → Nat → List UInt8
  | 0, _ => []
  | n + 1, value => UInt8.ofNat (value / 256 ^ n) :: toBeBytes n value

def toIpv4Mapped (ip : BitVec 128) : Option (BitVec 32) :=
  if ip.toNat / 2 ^ 32 = 0xffff then some (.ofNat 32 ip.toNat) else none

/-- Dual-stack sockets report IPv4 peers as IPv4-mapped IPv6 addresses; this turns them back
into plain IPv4. -/
def canonical : SocketAddr → SocketAddr
  | .v4 ip port => .v4 ip port
  | .v6 ip port =>
    match toIpv4Mapped ip with
    | some ip => .v4 ip port
    | none => .v6 ip port

def splitCompact : List SocketAddr → List UInt8 × List UInt8
  | [] => ([], [])
  | peer :: peers =>
    let (v4, v6) := splitCompact peers
    match canonical peer with
    | .v4 ip port => (toBeBytes 4 ip.toNat ++ toBeBytes 2 port.toNat ++ v4, v6)
    | .v6 ip port => (v4, toBeBytes 16 ip.toNat ++ toBeBytes 2 port.toNat ++ v6)

structure PexMessage where
  added : List UInt8
  addedF : List UInt8
  added6 : List UInt8
  added6F : List UInt8
  dropped : List UInt8
  dropped6 : List UInt8
  deriving DecidableEq

namespace PexMessage

def fromPeers (added dropped : List SocketAddr) : PexMessage :=
  let (added4, added6) := splitCompact added
  let (dropped4, dropped6) := splitCompact dropped
  { added := added4
    addedF := List.replicate (added4.length / 6) 0
    added6 := added6
    added6F := List.replicate (added6.length / 18) 0
    dropped := dropped4
    dropped6 := dropped6 }

def decodeAdded (self : PexMessage) : List SocketAddr :=
  decodeCompactIpv4 self.added ++ decodeCompactIpv6 self.added6

end PexMessage
end Tortor.Net
