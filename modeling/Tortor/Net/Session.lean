import Mathlib.Data.List.Dedup
import Tortor.Core.Assembler
import Tortor.Core.BencodeScan
import Tortor.Core.Coordinator
import Tortor.Net.Pex

/-! One peer connection.  A session runs on its own between two awaits, so one turn is the code
from one await to the next; messages to the coordinator wait in `outbox` until the mailbox
takes them, and nothing else happens in the session before it is empty.  Instants and durations
are milliseconds.  The telemetry and the transfer statistics are left out. -/

namespace Tortor.Net

open Tortor.Core

def REQUEST_RETRY_TIMEOUT : Nat := 5000
def PIPELINE_DEPTH : Nat := 16
def WORK_POLL_INTERVAL : Nat := 2000
def KEEPALIVE_INTERVAL : Nat := 90000
def PEER_SILENCE_TIMEOUT : Nat := 150000

def USELESS_TIMEOUT : Nat := 120000

def BLOCK_STALL_TIMEOUT : Nat := 60000

/-- A piece reserved while the peer keeps us choked is given back after this long. -/
def CHOKED_JOB_TIMEOUT : Nat := 30000

def MAX_UPLOAD_SLOTS : Nat := 8

structure UploadSlots where
  max : Nat
  used : Nat

namespace UploadSlots

def new (max : Nat) : UploadSlots := ⟨max, 0⟩

def tryAcquire (self : UploadSlots) : Bool × UploadSlots :=
  if self.used < self.max then (true, { self with used := self.used + 1 }) else (false, self)

def release (self : UploadSlots) : UploadSlots := { self with used := self.used - 1 }

end UploadSlots

/-- `serde_bencode` with what it derives for the messages of the extension protocol. -/
structure ExtensionCodec where
  encodeHandshake : ExtendedHandshakeDict → Option (List UInt8)
  decodeHandshake : List UInt8 → Option ExtendedHandshakeDict
  encodePex : PexMessage → Option (List UInt8)
  decodePex : List UInt8 → Option PexMessage

structure PeerContext where
  expectedHashes : List Digest
  pieceLength : Nat
  totalLength : Option Nat
  codec : ExtensionCodec

structure Job where
  index : Nat
  expectedHash : Digest
  assembler : PieceAssembler
  lastBlock : Nat

def pieceLenAt (index pieceLength : Nat) (totalLength : Option Nat) : Option Nat :=
  match totalLength with
  | some total =>
    let start := index * pieceLength
    if 2 ^ 64 ≤ start then none
    else if total ≤ start then none
    else some (min pieceLength (total - start) % 2 ^ 32)
  | none => some pieceLength

inductive Reply
  | work (piece : Option Nat)
  | completedPieces (pieces : List Nat)
  | block (data : Option (List UInt8))

/-- The await that a session has come to. -/
inductive Phase
  | dialing
  | opening
  | looping
  | requesting
  | selecting
  | serving (index begin : Nat)
  /-- The job has been taken out of the session, a blocking task hashes its piece. -/
  | hashing (job : Job) (buffer : List UInt8)
  | tending (now : Nat)
  | closing
  | ended

inductive Stimulus
  | shutdown
  | event
  /-- The broadcast channel has overwritten the oldest `missed` events. -/
  | lagged (missed : Nat)
  | message (msg : PeerMessage)
  | readFailed
  | tick

/-- In which order a new `HashSet` goes through its members. -/
structure SetOrder where
  arrange : List SocketAddr → List SocketAddr
  perm : ∀ l, (arrange l).Perm l.dedup

def SetOrder.dedup : SetOrder := ⟨List.dedup, fun _ => .refl _⟩

/-- Everything outside the session that a turn depends on. -/
structure Turn where
  now : Nat
  stimulus : Stimulus
  /-- Whether each write to the peer succeeds in time, the writes of one turn numbered. -/
  writes : Nat → Bool
  hashFails : Bool
  order : SetOrder

structure PeerSession where
  peerAddr : SocketAddr
  supportsExtensions : Bool
  phase : Phase
  amChoking : Bool
  amInterested : Bool
  peerChoking : Bool
  peerInterested : Bool
  holdsUploadSlot : Bool
  remotePexId : Option UInt8
  lastSentPeers : List SocketAddr
  peerHas : Bitfield
  job : Option Job
  nextWorkPoll : Nat
  lastRecv : Nat
  lastUseful : Nat
  lastKeepalive : Nat
  /-- Messages to the coordinator that its mailbox has not taken yet. -/
  outbox : List CoordinatorMsg
  reply : Option Reply
  events : List SessionEvent
  received : List PeerMessage
  sent : List PeerMessage
  pexReceived : List (List SocketAddr)

namespace PeerSession

def new (ctx : PeerContext) (peerAddr : SocketAddr) : PeerSession where
  peerAddr := peerAddr
  supportsExtensions := false
  phase := .dialing
  amChoking := true
  amInterested := false
  peerChoking := true
  peerInterested := false
  holdsUploadSlot := false
  remotePexId := none
  lastSentPeers := []
  peerHas := .new ctx.expectedHashes.length
  job := none
  nextWorkPoll := 0
  lastRecv := 0
  lastUseful := 0
  lastKeepalive := 0
  outbox := []
  reply := none
  events := []
  received := []
  sent := []
  pexReceived := []

/-- Releases everything the session reserved, whatever way it ended; the upload slot follows
once the messages have been sent. -/
def finish (self : PeerSession) : PeerSession :=
  let failed := (self.job.map fun job => CoordinatorMsg.pieceFailed job.index).toList
  if 0 < self.peerHas.count then
    { self with
      phase := .closing
      job := none
      peerHas := .new self.peerHas.len
      outbox := self.outbox ++ failed ++ [.peerGone self.peerHas] }
  else { self with phase := .closing, job := none, outbox := self.outbox ++ failed }

def post (msg : CoordinatorMsg) (self : PeerSession) : PeerSession :=
  { self with outbox := self.outbox ++ [msg] }

def write (msg : PeerMessage) (self : PeerSession) : PeerSession :=
  { self with sent := msg :: self.sent }

def tryWrite (turn : Turn) (msg : PeerMessage) (self : PeerSession) : PeerSession :=
  if turn.writes 0 then self.write msg else self

def writeThen (turn : Turn) (n : Nat) (msg : PeerMessage) (next : PeerSession → PeerSession)
    (self : PeerSession) : PeerSession :=
  if turn.writes n then next (self.write msg) else self.finish

def openingDict : ExtendedHandshakeDict := ⟨[("ut_metadata", 1), ("ut_pex", 2)], none⟩

def sendHandshake (ctx : PeerContext) (turn : Turn) (self : PeerSession) : PeerSession :=
  match ctx.codec.encodeHandshake openingDict with
  | some payload => self.tryWrite turn (.extended 0 payload)
  | none => self

/-- `run_peer_session` begins.  `id` names the channels for the replies. -/
def connect (ctx : PeerContext) (id : Nat) (supportsExtensions : Bool) (turn : Turn)
    (self : PeerSession) : PeerSession :=
  let self := { self with
    supportsExtensions := supportsExtensions
    phase := .opening
    nextWorkPoll := turn.now
    lastRecv := turn.now
    lastUseful := turn.now
    lastKeepalive := turn.now }
  (if supportsExtensions then self.sendHandshake ctx turn else self).post (.getCompletedPieces id)

def opened (ctx : PeerContext) (turn : Turn) (completed : List Nat) (self : PeerSession) :
    PeerSession :=
  let interested := writeThen turn 1 .interested fun self =>
    { self with phase := .looping, amInterested := true }
  if completed.isEmpty then interested self
  else
    let bitfield := Bitfield.fromIndices ctx.expectedHashes.length completed
    writeThen turn 0 (.bitfield bitfield.bytes) interested self

/-- The rounds of `fill_pipeline`.  Each one adds a block to those in flight, so
`PIPELINE_DEPTH` rounds are enough; the flag is `false` when a write has failed. -/
def requestLoop (turn : Turn) (index : Nat) :
    Nat → PieceAssembler → List PeerMessage → Bool × PieceAssembler × List PeerMessage
  | 0, assembler, sent => (true, assembler, sent)
  | rounds + 1, assembler, sent =>
    if assembler.inFlightCount turn.now REQUEST_RETRY_TIMEOUT < PIPELINE_DEPTH then
      match assembler.nextRequest turn.now REQUEST_RETRY_TIMEOUT with
      | none => (true, assembler, sent)
      | some ((begin, len, _), assembler) =>
        if turn.writes rounds then
          requestLoop turn index rounds assembler (.request index begin len :: sent)
        else (false, assembler, sent)
    else (true, assembler, sent)

def fillPipeline (turn : Turn) (self : PeerSession) : PeerSession :=
  let self := { self with phase := .selecting }
  if self.peerChoking then self
  else match self.job with
    | none => self
    | some job =>
      let (ok, assembler, sent) := requestLoop turn job.index PIPELINE_DEPTH job.assembler self.sent
      let self := { self with job := some { job with assembler := assembler }, sent := sent }
      if ok then self else self.finish

def maybeRequestWork (id : Nat) (turn : Turn) (self : PeerSession) : PeerSession :=
  if self.job.isSome || self.peerChoking || self.peerHas.count == 0 ||
      decide (turn.now < self.nextWorkPoll) then
    self.fillPipeline turn
  else { self with phase := .requesting }.post (.requestWork self.peerHas id)

def takeWork (ctx : PeerContext) (turn : Turn) (piece : Option Nat) (self : PeerSession) :
    PeerSession :=
  match piece with
  | none => { self with nextWorkPoll := turn.now + WORK_POLL_INTERVAL }.fillPipeline turn
  | some index =>
    match ctx.expectedHashes[index]?, pieceLenAt index ctx.pieceLength ctx.totalLength with
    | some expectedHash, some length =>
      { self with job := some ⟨index, expectedHash, .new index length, turn.now⟩ }.fillPipeline turn
    | _, _ => (self.post (.pieceFailed index)).finish

def peerChanges (currentSet : List SocketAddr) (self : PeerSession) :
    List SocketAddr × List SocketAddr :=
  let added := currentSet.filter fun addr => !self.lastSentPeers.contains addr
  (((added.filter (· != self.peerAddr)).take 50),
    (self.lastSentPeers.filter fun addr => !currentSet.contains addr).take 50)

def handleSnapshot (ctx : PeerContext) (turn : Turn) (currentPeers : List SocketAddr)
    (self : PeerSession) : PeerSession :=
  match self.remotePexId with
  | none => self
  | some remoteId =>
    let currentSet := turn.order.arrange currentPeers
    let (added, dropped) := self.peerChanges currentSet
    if added.isEmpty && dropped.isEmpty then self
    else
      let self := { self with lastSentPeers := currentSet }
      match ctx.codec.encodePex (.fromPeers added dropped) with
      | some payload => self.tryWrite turn (.extended remoteId payload)
      | none => self

def handleEvent (ctx : PeerContext) (turn : Turn) (event : SessionEvent) (self : PeerSession) :
    PeerSession :=
  let self := { self with phase := .looping }
  match event with
  | .pieceCompleted index =>
    let self := self.tryWrite turn (.have index)
    -- Another peer finished the piece we were still fetching (endgame).
    if self.job.any (·.index == index) then { self with job := none } else self
  | .selectionChanged =>
    if self.amInterested then { self with nextWorkPoll := turn.now }
    else self.writeThen turn 0 .interested fun self =>
      { self with amInterested := true, nextWorkPoll := turn.now }
  | .downloadComplete =>
    if self.amInterested then { self.tryWrite turn .notInterested with amInterested := false }
    else self
  | .activePeersSnapshot currentPeers => self.handleSnapshot ctx turn currentPeers

/-- The flag is `false` when the write has failed. -/
def tryUnchoke (turn : Turn) (self : PeerSession) (slots : UploadSlots) :
    Bool × PeerSession × UploadSlots :=
  if self.amChoking && self.peerInterested then
    match slots.tryAcquire with
    | (true, slots) =>
      let self := { self with holdsUploadSlot := true }
      if turn.writes 0 then (true, { self.write .unchoke with amChoking := false }, slots)
      else (false, self, slots)
    | (false, slots) => (true, self, slots)
  else (true, self, slots)

def releaseUploadSlot (self : PeerSession) (slots : UploadSlots) : PeerSession × UploadSlots :=
  if self.holdsUploadSlot then ({ self with holdsUploadSlot := false }, slots.release)
  else (self, slots)

def choke (turn : Turn) (self : PeerSession) (slots : UploadSlots) : PeerSession × UploadSlots :=
  if self.amChoking then self.releaseUploadSlot slots
  else if turn.writes 0 then
    { self.write .choke with amChoking := true }.releaseUploadSlot slots
  else (self.finish, slots)

def handleHave (turn : Turn) (index : Nat) (self : PeerSession) : PeerSession :=
  if self.peerHas.len ≤ index then self.finish
  else
    let (isSet, peerHas) := self.peerHas.set index
    let self := { self with peerHas := peerHas }
    if isSet then { self with nextWorkPoll := turn.now }.post (.peerHave index) else self

def handleBitfield (turn : Turn) (payload : List UInt8) (self : PeerSession) : PeerSession :=
  match Bitfield.fromWire self.peerHas.len payload with
  | none => self.finish
  | some peerHas =>
    let old := self.peerHas
    let self := { self with peerHas := peerHas, nextWorkPoll := turn.now }
    if 0 < old.count then (self.post (.peerGone old)).post (.peerBitfield peerHas)
    else self.post (.peerBitfield peerHas)

def handleExtended (ctx : PeerContext) (id : UInt8) (payload : List UInt8) (self : PeerSession) :
    PeerSession :=
  match checkBencodeDepth payload with
  | .error _ => self
  | .ok () =>
    if id = 0 then
      match (ctx.codec.decodeHandshake payload).bind (·.m.lookup "ut_pex") with
      | some remotePex => { self with remotePexId := some remotePex }
      | none => self
    else if some id = self.remotePexId then
      match ctx.codec.decodePex payload with
      | some pex =>
        if pex.decodeAdded.isEmpty then self
        else { self with pexReceived := pex.decodeAdded :: self.pexReceived }
      | none => self
    else self

def handleRequest (ctx : PeerContext) (id index begin length : Nat) (self : PeerSession) :
    PeerSession :=
  if self.amChoking then self
  else
    let valid := decide (0 < length) && decide (length ≤ MAX_BLOCK_REQUEST) &&
      (pieceLenAt index ctx.pieceLength ctx.totalLength).any (decide <| begin + length ≤ ·)
    if valid then
      { self with phase := .serving index begin }.post (.readPiece index begin length id)
    else self.finish

def takeBlock (turn : Turn) (index begin : Nat) (data : Option (List UInt8)) (self : PeerSession) :
    PeerSession :=
  match data with
  | none => { self with phase := .looping }
  | some block => self.writeThen turn 0 (.piece index begin block) fun self =>
    { self with phase := .looping, lastUseful := turn.now }

def handlePiece (turn : Turn) (index begin : Nat) (block : List UInt8) (self : PeerSession) :
    PeerSession :=
  match self.job with
  | none => self
  | some job =>
    if job.index = index then
      match job.assembler.classifyBlock begin (block.length % 2 ^ 32) with
      | .duplicate | .unexpected => self
      | .expectedNew =>
        let (state, assembler) := job.assembler.addBlock begin block
        let job := { job with assembler := assembler, lastBlock := turn.now }
        let self := { self with job := some job, lastUseful := turn.now }
        match state with
        | .inProgress => self
        | .error _ => self.finish
        | .complete buffer => { self with job := none, phase := .hashing job buffer }
    else self

def takeHash (sha1 : List UInt8 → Digest) (turn : Turn) (job : Job) (buffer : List UInt8)
    (self : PeerSession) : PeerSession :=
  if turn.hashFails then self.finish
  else if sha1 buffer = job.expectedHash then
    { self with phase := .looping }.post (.pieceDownloaded job.index buffer)
  else (self.post (.pieceFailed job.index)).finish

def handleMessage (ctx : PeerContext) (id : Nat) (turn : Turn) (msg : PeerMessage)
    (self : PeerSession) (slots : UploadSlots) : PeerSession × UploadSlots :=
  let self :=
    { self with phase := .looping, lastRecv := turn.now, received := msg :: self.received }
  match msg with
  | .keepAlive => (self, slots)
  | .choke =>
    -- The peer discards our outstanding requests when it chokes us.
    ({ self with
      peerChoking := true
      job := self.job.map fun job => { job with assembler := job.assembler.resetRequests } }, slots)
  | .unchoke => ({ self with peerChoking := false, nextWorkPoll := turn.now }, slots)
  | .interested =>
    match { self with peerInterested := true }.tryUnchoke turn slots with
    | (true, self, slots) => (self, slots)
    | (false, self, slots) => (self.finish, slots)
  | .notInterested => { self with peerInterested := false }.choke turn slots
  | .have index => (self.handleHave turn index, slots)
  | .bitfield payload => (self.handleBitfield turn payload, slots)
  | .extended id payload => (self.handleExtended ctx id payload, slots)
  | .request index begin length => (self.handleRequest ctx id index begin length, slots)
  | .piece index begin block => (self.handlePiece turn index begin block, slots)

def tend (now : Nat) (turn : Turn) (self : PeerSession) (slots : UploadSlots) :
    PeerSession × UploadSlots :=
  match self.tryUnchoke turn slots with
  | (false, self, slots) => (self.finish, slots)
  | (true, self, slots) =>
    let rest (self : PeerSession) : PeerSession :=
      if self.job.isNone && decide (USELESS_TIMEOUT < now - self.lastUseful) &&
          (!self.peerInterested || self.amChoking) then
        self.finish
      else { self with phase := .looping }
    if KEEPALIVE_INTERVAL ≤ now - self.lastKeepalive then
      (self.writeThen turn 1 .keepAlive fun self => rest { self with lastKeepalive := now }, slots)
    else (rest self, slots)

def housekeeping (turn : Turn) (self : PeerSession) (slots : UploadSlots) :
    PeerSession × UploadSlots :=
  if PEER_SILENCE_TIMEOUT < turn.now - self.lastRecv then (self.finish, slots)
  else match self.job with
    | none => self.tend turn.now turn slots
    | some job =>
      let silent := turn.now - job.lastBlock
      if self.peerChoking && decide (CHOKED_JOB_TIMEOUT < silent) then
        ({ self with job := none, phase := .tending turn.now }.post (.pieceFailed job.index), slots)
      else if !self.peerChoking && decide (BLOCK_STALL_TIMEOUT < silent) then (self.finish, slots)
      else self.tend turn.now turn slots

def select (ctx : PeerContext) (id : Nat) (turn : Turn) (self : PeerSession) (slots : UploadSlots) :
    PeerSession × UploadSlots :=
  match turn.stimulus with
  | .shutdown => (self.finish, slots)
  | .event =>
    match self.events with
    | [] => (self, slots)
    | event :: events => ({ self with events := events }.handleEvent ctx turn event, slots)
  | .lagged missed =>
    ({ self with events := self.events.drop missed, phase := .looping }, slots)
  | .message msg => self.handleMessage ctx id turn msg slots
  | .readFailed => (self.finish, slots)
  | .tick => self.housekeeping turn slots

/-- One turn.  Without a coordinator (`gone`) every reply that is still missing is an error. -/
def turn (ctx : PeerContext) (sha1 : List UInt8 → Digest) (id : Nat) (gone : Bool) (turn : Turn)
    (self : PeerSession) (slots : UploadSlots) : PeerSession × UploadSlots :=
  if !self.outbox.isEmpty then (self, slots)
  else match self.phase, self.reply with
    | .opening, some (.completedPieces pieces) =>
      ({ self with reply := none }.opened ctx turn pieces, slots)
    | .opening, none => (if gone then self.opened ctx turn [] else self, slots)
    | .looping, _ => (self.maybeRequestWork id turn, slots)
    | .requesting, some (.work piece) =>
      ({ self with reply := none }.takeWork ctx turn piece, slots)
    | .requesting, none => (if gone then self.takeWork ctx turn none else self, slots)
    | .selecting, _ => self.select ctx id turn slots
    | .serving index begin, some (.block data) =>
      ({ self with reply := none }.takeBlock turn index begin data, slots)
    | .serving index begin, none =>
      (if gone then self.takeBlock turn index begin none else self, slots)
    | .hashing job buffer, _ => (self.takeHash sha1 turn job buffer, slots)
    | .tending now, _ => self.tend now turn slots
    | .closing, _ =>
      let (self, slots) := self.releaseUploadSlot slots
      ({ self with phase := .ended }, slots)
    | _, _ => (self, slots)

def receive (reply : Reply) (self : PeerSession) : PeerSession :=
  match self.phase with
  | .ended => self
  | _ => { self with reply := some reply }

def announce (event : SessionEvent) (self : PeerSession) : PeerSession :=
  { self with events := self.events ++ [event] }

/-- The mailbox is closed: some messages are dropped without notice, for others the session
ends. -/
def sendFailed (msg : CoordinatorMsg) (self : PeerSession) : PeerSession :=
  match msg with
  | .requestWork .. | .pieceDownloaded .. | .getCompletedPieces .. | .readPiece .. => self.finish
  | _ => self

/-- The task is aborted, and everything in it dropped without a call of `finish`. -/
def drop (self : PeerSession) : PeerSession :=
  { self with
    phase := .ended
    holdsUploadSlot := false
    peerHas := .new self.peerHas.len
    job := none
    outbox := []
    reply := none
    events := [] }

end PeerSession
end Tortor.Net
