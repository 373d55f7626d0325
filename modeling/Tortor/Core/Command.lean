namespace Tortor.Core

inductive SocketAddr
  | v4 (ip : BitVec 32) (port : BitVec 16)
  | v6 (ip : BitVec 128) (port : BitVec 16)
  deriving DecidableEq

inductive IpAddr
  | v4 (ip : BitVec 32)
  | v6 (ip : BitVec 128)
  deriving DecidableEq

namespace SocketAddr

def new (ip : IpAddr) (port : BitVec 16) : SocketAddr :=
  match ip with
  | .v4 ip => .v4 ip port
  | .v6 ip => .v6 ip port

def ip : SocketAddr → IpAddr
  | .v4 ip _ => .v4 ip
  | .v6 ip _ => .v6 ip

def port : SocketAddr → BitVec 16
  | .v4 _ port => port
  | .v6 _ port => port

def isIpv6 : SocketAddr → Bool
  | .v4 .. => false
  | .v6 .. => true

@[simp] theorem ip_new (ip : IpAddr) (port : BitVec 16) : (new ip port).ip = ip := by
  cases ip <;> rfl

@[simp] theorem port_new (ip : IpAddr) (port : BitVec 16) : (new ip port).port = port := by
  cases ip <;> rfl

end SocketAddr

/-- What the core tells the user interface, numbers and rendered errors left out. -/
inductive CoreMessage
  | status (text : String)
  | downloadComplete
  | error (text : String)
  | pausedState (paused : Bool)
  deriving DecidableEq

inductive SessionEvent
  | pieceCompleted (index : Nat)
  | activePeersSnapshot (peers : List SocketAddr)
  | downloadComplete
  | selectionChanged
  deriving DecidableEq

end Tortor.Core
