import Tortor.Core.MetadataAssembler
import Tortor.Core.Torrent
import Tortor.Net.Wire

/-! The download of the info dictionary for a magnet link.  Tasks, one a peer, share an
assembler behind a lock; a turn of a task is its code from one await or one use of the lock to
the next.  The tracker and DHT lookups that find the peers are left out.  Instants are
milliseconds. -/

namespace Tortor.Net

open Tortor.Core

def PIECE_TIMEOUT : Nat := 15000
def EXT_HANDSHAKE_TIMEOUT : Nat := 30000

def LOCAL_UT_METADATA_ID : UInt8 := 1

def MSG_REQUEST : UInt8 := 0
def MSG_DATA : UInt8 := 1
def MSG_REJECT : UInt8 := 2

structure MetadataHeader where
  msgType : UInt8
  piece : Nat

/-- The struct `Inner` behind the lock of `Shared`. -/
structure Shared where
  assembler : Option MetadataAssembler
  inFlight : Finset Nat
  result : Option (List UInt8)
  deriving DecidableEq

namespace Shared

def new : Shared := ⟨none, ∅, none⟩

def isDone (self : Shared) : Bool := self.result.isSome

/-- Records the metadata size a peer announced; peers that disagree are rejected. -/
def initSize (self : Shared) (size : Nat) : Except String Shared :=
  match self.assembler with
  | some assembler =>
    if assembler.metadataSize ≠ size then .error "peer announced a different metadata size"
    else .ok self
  | none =>
    match MetadataAssembler.new size with
    | .error error => .error error
    | .ok assembler => .ok { self with assembler := some assembler }

def claimPiece (self : Shared) : Option (Nat × Shared) :=
  match self.assembler with
  | none => none
  | some assembler =>
    match assembler.nextPieceWhere fun p => decide (p ∈ self.inFlight) with
    | none => none
    | some piece => some (piece, { self with inFlight := insert piece self.inFlight })

def releasePiece (self : Shared) (piece : Nat) : Shared :=
  { self with inFlight := self.inFlight.erase piece }

def addPiece (sha1 : List UInt8 → Digest) (infoHash : Digest) (self : Shared) (piece : Nat)
    (data : List UInt8) : Bool × Shared :=
  let self := { self with inFlight := self.inFlight.erase piece }
  match self.assembler with
  | none => (false, self)
  | some assembler =>
    match assembler.addPiece piece data with
    | .error _ => (false, self)
    | .ok (false, assembler) => (true, { self with assembler := some assembler })
    | .ok (true, assembler) =>
      if sha1 assembler.buffer = infoHash then
        (true, { self with assembler := some assembler, result := some assembler.buffer })
      else
        -- The assembled metadata does not match the info hash: starting over.
        match MetadataAssembler.new assembler.metadataSize with
        | .error _ => (false, { self with assembler := some assembler })
        | .ok assembler => (true, { self with assembler := some assembler, inFlight := ∅ })

end Shared

inductive FetchPhase
  | connecting
  | checking
  | claiming
  | requesting (piece : Nat)
  | receiving
  | releasing
  | ended
  deriving DecidableEq

structure FetchTask where
  phase : FetchPhase
  remoteId : Option UInt8
  claimed : Option Nat
  started : Nat
  requestedAt : Nat

inductive Received
  | message (msg : PeerMessage)
  | failed
  | timeout

structure FetchTurn where
  now : Nat
  received : Received
  succeeds : Bool

/-- The decoder for messages of the extension protocol, `serde_bencode`. -/
structure FetchCodec where
  extendedHandshake : List UInt8 → Option ExtendedHandshakeDict
  metadataHeader : List UInt8 → Option MetadataHeader

structure FetchContext where
  infoHash : Digest
  sha1 : List UInt8 → Digest
  codec : FetchCodec

namespace FetchTask

def new : FetchTask := ⟨.connecting, none, none, 0, 0⟩

def leave (self : FetchTask) : FetchTask := { self with phase := .releasing }

def again (self : FetchTask) : FetchTask := { self with phase := .checking }

def takeHandshake (ctx : FetchContext) (payload : List UInt8) (self : FetchTask)
    (shared : Shared) : FetchTask × Shared :=
  match checkBencodeDepth payload with
  | .error _ => (self.leave, shared)
  | .ok () =>
    match ctx.codec.extendedHandshake payload with
    | none => (self.leave, shared)
    | some dict =>
      match dict.m.lookup "ut_metadata", dict.metadataSize with
      | some utMetadata, some size =>
        if utMetadata = 0 then (self.leave, shared)
        else match shared.initSize size with
          | .error _ => (self.leave, shared)
          | .ok shared => ({ self with remoteId := some utMetadata }.again, shared)
      | _, _ => (self.leave, shared)

def takeMetadata (ctx : FetchContext) (turn : FetchTurn) (payload : List UInt8) (self : FetchTask)
    (shared : Shared) : FetchTask × Shared :=
  match bencodeValueLen payload with
  | .error _ => (self.leave, shared)
  | .ok headerLen =>
    match ctx.codec.metadataHeader (payload.take headerLen) with
    | none => (self.leave, shared)
    | some header =>
      if header.msgType = MSG_DATA then
        match shared.addPiece ctx.sha1 ctx.infoHash header.piece (payload.drop headerLen) with
        | (false, shared) => (self.leave, shared)
        | (true, shared) =>
          if self.claimed = some header.piece then
            ({ self with claimed := none }.again, shared)
          else (self.again, shared)
      else if header.msgType = MSG_REJECT then (self.leave, shared)
      else if header.msgType = MSG_REQUEST then
        if self.remoteId.isSome && !turn.succeeds then (self.leave, shared)
        else (self.again, shared)
      else (self.again, shared)

def receive (ctx : FetchContext) (turn : FetchTurn) (self : FetchTask) (shared : Shared) :
    FetchTask × Shared :=
  match turn.received with
  | .failed => (self.leave, shared)
  | .timeout =>
    if self.claimed.isSome && decide (PIECE_TIMEOUT < turn.now - self.requestedAt) then
      (self.leave, shared)
    else if self.remoteId.isNone && decide (EXT_HANDSHAKE_TIMEOUT < turn.now - self.started) then
      (self.leave, shared)
    else (self.again, shared)
  | .message (.extended id payload) =>
    if id = 0 then self.takeHandshake ctx payload shared
    else if id = LOCAL_UT_METADATA_ID then self.takeMetadata ctx turn payload shared
    else (self.again, shared)
  | .message _ => (self.again, shared)

def turn (ctx : FetchContext) (turn : FetchTurn) (self : FetchTask) (shared : Shared) :
    FetchTask × Shared :=
  match self.phase with
  | .connecting =>
    if turn.succeeds then
      ({ self with started := turn.now, requestedAt := turn.now }.again, shared)
    else ({ self with phase := .ended }, shared)
  | .checking =>
    if shared.isDone then (self.leave, shared) else ({ self with phase := .claiming }, shared)
  | .claiming =>
    match self.remoteId, self.claimed with
    | some _, none =>
      match shared.claimPiece with
      | some (piece, shared) => ({ self with phase := .requesting piece }, shared)
      | none => ({ self with phase := .receiving }, shared)
    | _, _ => ({ self with phase := .receiving }, shared)
  | .requesting piece =>
    if turn.succeeds then
      ({ self with phase := .receiving, claimed := some piece, requestedAt := turn.now }, shared)
    else (self.leave, shared)
  | .receiving => self.receive ctx turn shared
  | .releasing =>
    match self.claimed with
    | some piece => ({ self with phase := .ended }, shared.releasePiece piece)
    | none => ({ self with phase := .ended }, shared)
  | .ended => (self, shared)

end FetchTask

structure Fetch where
  shared : Shared
  tasks : List FetchTask

namespace Fetch

def start : Fetch := ⟨.new, []⟩

inductive Action
  | spawn
  | turn (task : Nat) (turn : FetchTurn)

def step (ctx : FetchContext) (s : Fetch) : Action → Fetch
  | .spawn => { s with tasks := s.tasks ++ [.new] }
  | .turn i turn =>
    match s.tasks[i]? with
    | none => s
    | some task =>
      let (task, shared) := task.turn ctx turn s.shared
      ⟨shared, s.tasks.set i task⟩

end Fetch
end Tortor.Net
