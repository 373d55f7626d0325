import Tortor.Lib.Layout
import Tortor.Lib.Run
import Tortor.Net.CompactPeers
import Tortor.Net.SwarmManager

/-! Announcing over UDP: two exchanges of datagrams with a tracker, over a network that may lose,
repeat, delay and reorder them. -/

namespace Tortor.Net.Tracker

open Tortor.Core (Digest SocketAddr)
open Tortor.Lib

def UDP_ATTEMPTS : Nat := 2

/-- The length of the buffer that answers are received into; what is longer is cut off. -/
def UDP_BUFFER : Nat := 8192

def PROTOCOL_ID : Nat := 0x41727101980

def eventNum : Option String → Nat
  | some "completed" => 1
  | some "started" => 2
  | some "stopped" => 3
  | _ => 0

def connectReq (transactionId : BitVec 32) : List UInt8 :=
  toBeBytes 8 PROTOCOL_ID ++ (toBeBytes 4 0 ++ toBeBytes 4 transactionId.toNat)

def announceReq (params : AnnounceParams) (connectionId : BitVec 64)
    (announceTxId key : BitVec 32) : List UInt8 :=
  toBeBytes 8 connectionId.toNat ++ (toBeBytes 4 1 ++ (toBeBytes 4 announceTxId.toNat ++
    (params.infoHash.bytes ++ (params.peerId ++ (toBeBytes 8 params.downloaded ++
      (toBeBytes 8 params.left ++ (toBeBytes 8 params.uploaded ++
        (toBeBytes 4 (eventNum params.event) ++ (toBeBytes 4 0 ++ (toBeBytes 4 key.toNat ++
          (toBeBytes 4 (2 ^ 32 - 1) ++ toBeBytes 2 params.port)))))))))))

inductive UdpError
  | send (error : String)
  | receive (error : String)
  | timedOut
  | connectLength
  | tracker (message : List UInt8)
  | connectAction (action : Nat)
  | transactionId
  | announceLength
  | announceAction (action : Nat)
  | announceTransactionId
  | peers (error : String)
  deriving DecidableEq

/-- `lossy` is `String::from_utf8_lossy`. -/
def UdpError.message (lossy : List UInt8 → String) : UdpError → String
  | .send error => error
  | .receive error => s!"failed to receive udp tracker response: {error}"
  | .timedOut => "udp tracker timed out"
  | .connectLength => "invalid connect response length"
  | .tracker message => s!"tracker error: {lossy message}"
  | .connectAction action => s!"unexpected action in connect response: {action}"
  | .transactionId => "transaction id mismatch"
  | .announceLength => "invalid announce response length"
  | .announceAction action => s!"unexpected action in announce response: {action}"
  | .announceTransactionId => "transaction id mismatch in announce"
  | .peers error => error

def beAt (buf : List UInt8) (start width : Nat) : Nat := beNat (slice buf start width)

def readConnect (transactionId : BitVec 32) (buf : List UInt8) :
    Except UdpError (BitVec 64) :=
  let action := beAt buf 0 4
  if buf.length < 16 then .error .connectLength
  else if action = 3 then .error (.tracker (buf.drop 8))
  else if action ≠ 0 then .error (.connectAction action)
  else if beAt buf 4 4 ≠ transactionId.toNat then .error .transactionId
  else .ok (.ofNat 64 (beAt buf 8 8))

def readAnnounce (isIpv4 : Bool) (announceTxId : BitVec 32) (buf : List UInt8) :
    Except UdpError (List PeerInfo) :=
  let action := beAt buf 0 4
  if buf.length < 20 then .error .announceLength
  else if action = 3 then .error (.tracker (buf.drop 8))
  else if action ≠ 1 then .error (.announceAction action)
  else if beAt buf 4 4 ≠ announceTxId.toNat then .error .announceTransactionId
  else
    (if isIpv4 then decodeCompactPeers (buf.drop 20)
      else decodeCompactPeers6 (buf.drop 20)).mapError .peers

/-- One call of `announce_udp` after its socket was connected, with the random numbers it draws. -/
structure UdpCall where
  isIpv4 : Bool
  params : AnnounceParams
  transactionId : BitVec 32
  announceTxId : BitVec 32
  key : BitVec 32

inductive UdpStage
  | connecting
  | announcing (connectionId : BitVec 64)
  deriving DecidableEq

inductive UdpPhase
  | sending (stage : UdpStage) (attempt : Nat)
  | waiting (stage : UdpStage) (attempt : Nat)
  | done (result : Except UdpError (List PeerInfo))
  deriving DecidableEq

namespace UdpCall

def request (self : UdpCall) : UdpStage → List UInt8
  | .connecting => connectReq self.transactionId
  | .announcing connectionId =>
    announceReq self.params connectionId self.announceTxId self.key

def receive (self : UdpCall) (buf : List UInt8) : UdpStage → UdpPhase
  | .connecting =>
    match readConnect self.transactionId buf with
    | .ok connectionId => .sending (.announcing connectionId) 1
    | .error err => .done (.error err)
  | .announcing _ => .done (readAnnounce self.isIpv4 self.announceTxId buf)

def timeout (stage : UdpStage) (attempt : Nat) : UdpPhase :=
  if attempt < UDP_ATTEMPTS then .sending stage (attempt + 1) else .done (.error .timedOut)

end UdpCall

structure UdpAnnounce where
  infoHash : List UInt8
  peerId : List UInt8
  downloaded : Nat
  left : Nat
  uploaded : Nat
  event : Nat
  ip : Nat
  key : Nat
  numWant : Nat
  port : Nat
  deriving DecidableEq

inductive UdpRequest
  | connect (transactionId : BitVec 32)
  | announce (connectionId : BitVec 64) (transactionId : BitVec 32) (announce : UdpAnnounce)
  deriving DecidableEq

def UdpRequest.parse (bytes : List UInt8) : Option UdpRequest :=
  if 98 ≤ bytes.length ∧ beAt bytes 8 4 = 1 then
    some (.announce (.ofNat 64 (beAt bytes 0 8)) (.ofNat 32 (beAt bytes 12 4))
      { infoHash := slice bytes 16 20
        peerId := slice bytes 36 20
        downloaded := beAt bytes 56 8
        left := beAt bytes 64 8
        uploaded := beAt bytes 72 8
        event := beAt bytes 80 4
        ip := beAt bytes 84 4
        key := beAt bytes 88 4
        numWant := beAt bytes 92 4
        port := beAt bytes 96 2 })
  else if 16 ≤ bytes.length ∧ beAt bytes 0 8 = PROTOCOL_ID ∧ beAt bytes 8 4 = 0 then
    some (.connect (.ofNat 32 (beAt bytes 12 4)))
  else none

abbrev UdpPeers (isIpv4 : Bool) := { peers : List SocketAddr // ∀ addr ∈ peers, addr.isIpv6 = !isIpv4 }

inductive UdpResponse (isIpv4 : Bool)
  | connect (transactionId : BitVec 32) (connectionId : BitVec 64)
  | announce (transactionId interval leechers seeders : BitVec 32) (peers : UdpPeers isIpv4)
  | error (transactionId : BitVec 32) (message : List UInt8)

def UdpResponse.encode {isIpv4 : Bool} : UdpResponse isIpv4 → List UInt8
  | .connect transactionId connectionId =>
    toBeBytes 4 0 ++ (toBeBytes 4 transactionId.toNat ++ toBeBytes 8 connectionId.toNat)
  | .announce transactionId interval leechers seeders peers =>
    toBeBytes 4 1 ++ (toBeBytes 4 transactionId.toNat ++ (toBeBytes 4 interval.toNat ++
      (toBeBytes 4 leechers.toNat ++ (toBeBytes 4 seeders.toNat ++
        peers.val.flatMap compactAddr))))
  | .error transactionId message =>
    toBeBytes 4 3 ++ (toBeBytes 4 transactionId.toNat ++ message)

structure UdpTracker (σ : Type) (isIpv4 : Bool) where
  connect : σ → σ × Option (Except (List UInt8) (BitVec 64))
  announce : σ → BitVec 64 → UdpAnnounce →
    σ × Option (Except (List UInt8) (BitVec 32 × BitVec 32 × BitVec 32 × UdpPeers isIpv4))

namespace UdpTracker

variable {σ : Type} {isIpv4 : Bool}

def answer (self : UdpTracker σ isIpv4) (state : σ) :
    UdpRequest → σ × Option (UdpResponse isIpv4)
  | .connect transactionId =>
    let (state, granted) := self.connect state
    (state, granted.map fun
      | .ok connectionId => .connect transactionId connectionId
      | .error message => .error transactionId message)
  | .announce connectionId transactionId announce =>
    let (state, granted) := self.announce state connectionId announce
    (state, granted.map fun
      | .ok (interval, leechers, seeders, peers) =>
        .announce transactionId interval leechers seeders peers
      | .error message => .error transactionId message)

end UdpTracker

/-- The call, its socket and the tracker.  A datagram that was sent may get through any number of
times, at any time. -/
structure UdpExchange (σ : Type) (isIpv4 : Bool) where
  phase : UdpPhase
  queue : List (List UInt8)
  sent : List (List UInt8)
  tracker : σ
  answered : List (UdpRequest × UdpResponse isIpv4)

inductive UdpEvent (σ : Type)
  | send
  | sendFails (error : String)
  | receive
  | receiveFails (error : String)
  | timeout
  | reach (index : Nat)
  | others (tracker : σ)
  | arrive (index : Nat)

namespace UdpExchange

variable {σ : Type} {isIpv4 : Bool}

def start (state : σ) : UdpExchange σ isIpv4 where
  phase := .sending .connecting 1
  queue := []
  sent := []
  tracker := state
  answered := []

def reach (tracker : UdpTracker σ isIpv4) (self : UdpExchange σ isIpv4) (datagram : List UInt8) :
    UdpExchange σ isIpv4 :=
  match UdpRequest.parse datagram with
  | none => self
  | some request =>
    let (state, response) := tracker.answer self.tracker request
    { self with
      tracker := state
      answered := self.answered ++ (response.map fun response => (request, response)).toList }

/-- The timer does not end the wait for as long as there is something to receive. -/
def step (call : UdpCall) (tracker : UdpTracker σ call.isIpv4)
    (self : UdpExchange σ call.isIpv4) : UdpEvent σ → UdpExchange σ call.isIpv4
  | .send =>
    match self.phase with
    | .sending stage attempt =>
      { self with phase := .waiting stage attempt, sent := self.sent ++ [call.request stage] }
    | _ => self
  | .sendFails error =>
    match self.phase with
    | .sending _ _ => { self with phase := .done (.error (.send error)) }
    | _ => self
  | .receive =>
    match self.phase, self.queue with
    | .waiting stage _, datagram :: queue =>
      { self with phase := call.receive (datagram.take UDP_BUFFER) stage, queue := queue }
    | _, _ => self
  | .receiveFails error =>
    match self.phase with
    | .waiting _ _ => { self with phase := .done (.error (.receive error)) }
    | _ => self
  | .timeout =>
    match self.phase, self.queue with
    | .waiting stage attempt, [] => { self with phase := UdpCall.timeout stage attempt }
    | _, _ => self
  | .reach index =>
    match self.sent[index]? with
    | some datagram => self.reach tracker datagram
    | none => self
  | .others state => { self with tracker := state }
  | .arrive index =>
    match self.answered[index]? with
    | some (_, response) => { self with queue := self.queue ++ [response.encode] }
    | none => self

end UdpExchange

end Tortor.Net.Tracker
