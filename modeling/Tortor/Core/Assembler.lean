import Mathlib.Algebra.Group.Nat.Defs

namespace Tortor.Core

def BLOCK_SIZE : Nat := 16 * 1024

inductive BlockClass
  | expectedNew
  | duplicate
  | unexpected
  deriving DecidableEq

inductive AssemblerState
  | inProgress
  | complete (buffer : List UInt8)
  | error (text : String)
  deriving DecidableEq

/-- An `Instant` is a number of milliseconds. -/
structure BlockRequest where
  begin : Nat
  length : Nat
  requestedAt : Option Nat
  completed : Bool
  deriving DecidableEq

def BlockRequest.inFlight (now timeout : Nat) (block : BlockRequest) : Bool :=
  !block.completed && block.requestedAt.any fun t => now - t ≤ timeout

/-- Whether the block may be requested, and if so whether that is a retry. -/
def BlockRequest.due (now timeout : Nat) (block : BlockRequest) : Option Bool :=
  if block.completed then none
  else match block.requestedAt with
    | none => some false
    | some t => if timeout < now - t then some true else none

structure PieceAssembler where
  pieceIndex : Nat
  expectedLength : Nat
  buffer : List UInt8
  blocks : List BlockRequest
  receivedBytes : Nat
  deriving DecidableEq

namespace PieceAssembler

def new (pieceIndex expectedLength : Nat) : PieceAssembler :=
  let numBlocks :=
    if expectedLength = 0 then 0 else (expectedLength + BLOCK_SIZE - 1) / BLOCK_SIZE
  { pieceIndex := pieceIndex
    expectedLength := expectedLength
    buffer := List.replicate expectedLength 0
    blocks := (List.range numBlocks).map fun i =>
      let begin := i * BLOCK_SIZE
      ⟨begin, min BLOCK_SIZE (expectedLength - begin), none, false⟩
    receivedBytes := 0 }

def inFlightCount (now timeout : Nat) (self : PieceAssembler) : Nat :=
  self.blocks.countP (·.inFlight now timeout)

def nextRequestLoop (now timeout : Nat) :
    List BlockRequest → Option ((Nat × Nat × Bool) × List BlockRequest)
  | [] => none
  | block :: rest =>
    match block.due now timeout with
    | some isRetry =>
      some ((block.begin, block.length, isRetry), { block with requestedAt := some now } :: rest)
    | none => (nextRequestLoop now timeout rest).map fun (request, rest) => (request, block :: rest)

def nextRequest (now timeout : Nat) (self : PieceAssembler) :
    Option ((Nat × Nat × Bool) × PieceAssembler) :=
  (nextRequestLoop now timeout self.blocks).map fun (request, blocks) =>
    (request, { self with blocks := blocks })

def findBlock (begin length : Nat) (self : PieceAssembler) : Option BlockRequest :=
  self.blocks.find? fun block => block.begin == begin && block.length == length

def classifyBlock (self : PieceAssembler) (begin dataLen : Nat) : BlockClass :=
  if self.expectedLength < begin + dataLen then .unexpected
  else match self.findBlock begin dataLen with
    | some block => if block.completed then .duplicate else .expectedNew
    | none => .unexpected

/-- Forgets which blocks were requested so they are requested again, e.g. after the peer
choked us and dropped our pending requests. -/
def resetRequests (self : PieceAssembler) : PieceAssembler :=
  { self with
    blocks := self.blocks.map fun block =>
      if block.completed then block else { block with requestedAt := none } }

def markBlock (begin length : Nat) : List BlockRequest → List BlockRequest
  | [] => []
  | block :: rest =>
    if block.begin == begin && block.length == length then { block with completed := true } :: rest
    else block :: markBlock begin length rest

def addBlock (self : PieceAssembler) (begin : Nat) (data : List UInt8) :
    AssemblerState × PieceAssembler :=
  if self.expectedLength < begin + data.length then
    (.error "block exceeds piece boundary", self)
  else match self.findBlock begin (data.length % 2 ^ 32) with
    | none => (.error "received unexpected block", self)
    | some block =>
      if block.completed then (.inProgress, self)
      else
        let buffer := self.buffer.take begin ++ data ++ self.buffer.drop (begin + data.length)
        let receivedBytes := self.receivedBytes + data.length
        let next :=
          { self with
            buffer := buffer
            blocks := markBlock begin (data.length % 2 ^ 32) self.blocks
            receivedBytes := receivedBytes }
        (if receivedBytes = self.expectedLength then .complete buffer else .inProgress, next)

end PieceAssembler
end Tortor.Core
