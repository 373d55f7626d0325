import Tortor.Net.Session
import Tortor.System.Torrent

/-! The swarm of one torrent: the coordinator with its mailbox, the peer sessions, and the part of
the swarm manager that starts and aborts them. -/

namespace Tortor.System

open Tortor.Core Tortor.Net Tortor.Lib

def PEER_IDLE_TIMEOUT_SECS : Nat := 300

def peerContext (codec : ExtensionCodec) (info : TorrentMeta) : PeerContext :=
  ⟨info.pieces, info.pieceLength, info.totalLength, codec⟩

def isCommand : CoordinatorMsg → Bool
  | .pause | .resume | .setSelection .. => true
  | _ => false

structure ActivePeer where
  session : PeerSession
  lastProgress : Nat

structure Swarm where
  coordinator : Coordinator
  stopped : Bool
  mailbox : List CoordinatorMsg
  /-- Every session there has been; its place in the list is its id. -/
  peers : List ActivePeer
  uploadSlots : UploadSlots
  closing : Bool

inductive Action
  /-- A peer is dialed, or connects to us. -/
  | dial (peerAddr : SocketAddr) (now : Nat)
  | connect (id : Nat) (supportsExtensions : Bool) (turn : Turn)
  | dialFailed (id : Nat)
  | turn (id : Nat) (turn : Turn)
  | send (id : Nat)
  | deliver (env : Env)
  | tick (env : Env)
  | command (msg : CoordinatorMsg)
  | progress (id now : Nat)
  | abort (id now : Nat)
  | closeSwarm
  | shutdown (env : Env)

namespace Swarm

def start (coordinator : Coordinator) : Swarm where
  coordinator := coordinator
  stopped := false
  mailbox := []
  peers := []
  uploadSlots := .new MAX_UPLOAD_SLOTS
  closing := false

def withSession (id : Nat) (peer : ActivePeer) (session : PeerSession) (s : Swarm) : Swarm :=
  { s with peers := s.peers.set id { peer with session := session } }

def answer (id : Nat) (reply : Reply) (s : Swarm) : Swarm :=
  match s.peers[id]? with
  | none => s
  | some peer => s.withSession id peer (peer.session.receive reply)

def perform (s : Swarm) : Effect → Swarm
  | .work id piece => s.answer id (.work piece)
  | .completedPieces id pieces => s.answer id (.completedPieces pieces)
  | .block id data => s.answer id (.block data)
  | .announce event =>
    { s with
      peers := s.peers.map fun peer => { peer with session := peer.session.announce event } }
  | .ui _ => s

def resume (s : Swarm) (result : Coordinator × List Effect) : Swarm :=
  result.2.foldl perform { s with coordinator := result.1 }

def sendNext (id : Nat) (s : Swarm) : Swarm :=
  match s.peers[id]? with
  | none => s
  | some peer =>
    match peer.session.outbox with
    | [] => s
    | msg :: outbox =>
      let session := { peer.session with outbox := outbox }
      if s.stopped then s.withSession id peer (session.sendFailed msg)
      else { s.withSession id peer session with mailbox := s.mailbox ++ [msg] }

def expired (now : Nat) (peer : ActivePeer) : Bool :=
  decide (PEER_IDLE_TIMEOUT_SECS < (now - peer.lastProgress) / 1000)

/-- An action that is not enabled changes nothing. -/
def step (sha1 : List UInt8 → Digest) (codec : ExtensionCodec) (info : TorrentMeta) (s : Swarm)
    (action : Action) : Swarm :=
  match action with
  | .dial peerAddr now =>
    { s with peers := s.peers ++ [⟨.new (peerContext codec info) peerAddr, now⟩] }
  | .connect id supportsExtensions turn =>
    match s.peers[id]? with
    | some peer =>
      match peer.session.phase with
      | .dialing =>
        s.withSession id peer
          (peer.session.connect (peerContext codec info) id supportsExtensions turn)
      | _ => s
    | none => s
  | .dialFailed id =>
    match s.peers[id]? with
    | some peer =>
      match peer.session.phase with
      | .dialing => s.withSession id peer peer.session.drop
      | _ => s
    | none => s
  | .turn id turn =>
    match s.peers[id]? with
    | none => s
    | some peer =>
      let (session, uploadSlots) :=
        peer.session.turn (peerContext codec info) sha1 id s.stopped turn s.uploadSlots
      { s.withSession id peer session with uploadSlots := uploadSlots }
  | .send id => s.sendNext id
  | .deliver env =>
    match s.stopped, s.mailbox with
    | false, msg :: mailbox => { s with mailbox := mailbox }.resume (s.coordinator.handle env msg)
    | _, _ => s
  | .tick env => if s.stopped then s else s.resume (s.coordinator.checkTick sha1 env)
  | .command msg =>
    if !s.stopped && isCommand msg then { s with mailbox := s.mailbox ++ [msg] } else s
  | .progress id now =>
    match s.peers[id]? with
    | none => s
    | some peer => { s with peers := s.peers.set id { peer with lastProgress := now } }
  | .abort id now =>
    match s.peers[id]? with
    | none => s
    | some peer => if s.closing || expired now peer then s.withSession id peer peer.session.drop else s
  | .closeSwarm => { s with closing := true }
  | .shutdown env =>
    if s.stopped then s
    else
      { s with coordinator := s.coordinator.shutdown env, stopped := true, mailbox := [] }

end Swarm
end Tortor.System
