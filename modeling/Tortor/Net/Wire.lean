import Mathlib.Algebra.Group.Nat.Defs

namespace Tortor.Net

structure ExtendedHandshakeDict where
  m : List (String × UInt8)
  metadataSize : Option Nat
  deriving DecidableEq

inductive PeerMessage
  | keepAlive
  | choke
  | unchoke
  | interested
  | notInterested
  | have (index : Nat)
  | bitfield (payload : List UInt8)
  | request (index begin length : Nat)
  | piece (index begin : Nat) (block : List UInt8)
  | extended (id : UInt8) (payload : List UInt8)
  deriving DecidableEq

def MAX_MESSAGE_LEN : Nat := 1024 * 1024

def MAX_BLOCK_REQUEST : Nat := 32 * 1024

def COMPACT_THRESHOLD : Nat := 64 * 1024

def be32 (bytes : List UInt8) (offset : Nat) : Nat :=
  let byte (i : Nat) : Nat := (bytes.getD (offset + i) 0).toNat
  ((byte 0 * 256 + byte 1) * 256 + byte 2) * 256 + byte 3

/-- `none` is a message with an unknown id. -/
def PeerMessage.parse (id : UInt8) (payload : List UInt8) : Except String (Option PeerMessage) :=
  let length := payload.length
  match id.toNat with
  | 0 => .ok (some .choke)
  | 1 => .ok (some .unchoke)
  | 2 => .ok (some .interested)
  | 3 => .ok (some .notInterested)
  | 4 =>
    if length ≠ 4 then .error s!"invalid HAVE payload length: {length}"
    else .ok (some (.have (be32 payload 0)))
  | 5 => .ok (some (.bitfield payload))
  | 6 =>
    if length ≠ 12 then .error s!"invalid REQUEST payload length: {length}"
    else .ok (some (.request (be32 payload 0) (be32 payload 4) (be32 payload 8)))
  | 7 =>
    if length < 8 then .error s!"invalid PIECE payload length: {length}"
    else .ok (some (.piece (be32 payload 0) (be32 payload 4) (payload.drop 8)))
  | 20 =>
    match payload with
    | [] => .error "invalid EXTENDED payload length: 0"
    | id :: payload => .ok (some (.extended id payload))
  | _ => .ok none

def toBe32 (n : Nat) : List UInt8 :=
  [n / 2 ^ 24, n / 2 ^ 16, n / 2 ^ 8, n].map UInt8.ofNat

/-! What each `send_` function writes to the stream. -/

namespace PeerMessage

def sendKeepAlive : List UInt8 := [0, 0, 0, 0]

def sendNotInterested : List UInt8 := [0, 0, 0, 1, 3]

def sendChoke : List UInt8 := [0, 0, 0, 1, 0]

def sendUnchoke : List UInt8 := [0, 0, 0, 1, 1]

def sendInterested : List UInt8 := [0, 0, 0, 1, 2]

def sendRequest (index begin length : Nat) : List UInt8 :=
  toBe32 13 ++ [6] ++ toBe32 index ++ toBe32 begin ++ toBe32 length

def sendHave (pieceIndex : Nat) : List UInt8 := toBe32 5 ++ [4] ++ toBe32 pieceIndex

def sendBitfield (bitfield : List UInt8) : List UInt8 :=
  toBe32 (1 + bitfield.length) ++ [5] ++ bitfield

def sendPiece (index begin : Nat) (block : List UInt8) : List UInt8 :=
  toBe32 (9 + block.length) ++ [7] ++ toBe32 index ++ toBe32 begin ++ block

def sendExtended (extendedId : UInt8) (payload : List UInt8) : List UInt8 :=
  toBe32 (2 + payload.length) ++ [20] ++ [extendedId] ++ payload

def send : PeerMessage → List UInt8
  | .keepAlive => sendKeepAlive
  | .choke => sendChoke
  | .unchoke => sendUnchoke
  | .interested => sendInterested
  | .notInterested => sendNotInterested
  | .have index => sendHave index
  | .bitfield payload => sendBitfield payload
  | .request index begin length => sendRequest index begin length
  | .piece index begin block => sendPiece index begin block
  | .extended id payload => sendExtended id payload

/-- The arguments are of their type `u32`, and the message is no longer than one may be. -/
def Sendable : PeerMessage → Prop
  | .have index => index < 2 ^ 32
  | .bitfield payload => 1 + payload.length ≤ MAX_MESSAGE_LEN
  | .request index begin length => index < 2 ^ 32 ∧ begin < 2 ^ 32 ∧ length < 2 ^ 32
  | .piece index begin block =>
    index < 2 ^ 32 ∧ begin < 2 ^ 32 ∧ 9 + block.length ≤ MAX_MESSAGE_LEN
  | .extended _ payload => 2 + payload.length ≤ MAX_MESSAGE_LEN
  | _ => True

end PeerMessage

/-- The bytes of `buf` before `pos` are used up. -/
structure MessageDecoder where
  buf : List UInt8
  pos : Nat
  deriving DecidableEq

namespace MessageDecoder

def new : MessageDecoder := ⟨[], 0⟩

def feed (self : MessageDecoder) (data : List UInt8) : MessageDecoder :=
  { self with buf := self.buf ++ data }

def compact (self : MessageDecoder) : MessageDecoder :=
  if self.pos = self.buf.length then ⟨[], 0⟩
  else if COMPACT_THRESHOLD ≤ self.pos then ⟨self.buf.drop self.pos, 0⟩
  else self

def decodeLoop : Nat → MessageDecoder → Except String (Option PeerMessage) × MessageDecoder
  | 0, self => (.ok none, self)
  | fuel + 1, self =>
    let available := self.buf.drop self.pos
    if available.length < 4 then (.ok none, self.compact)
    else
      let len := be32 available 0
      if MAX_MESSAGE_LEN < len then (.error s!"peer message too large: {len} bytes", self)
      else if available.length < 4 + len then (.ok none, self.compact)
      else
        let parsed :=
          if len = 0 then .ok (some .keepAlive)
          else PeerMessage.parse (available.getD 4 0) ((available.take (4 + len)).drop 5)
        match parsed with
        | .error error => (.error error, self)
        | .ok parsed =>
          let self := { self with pos := self.pos + (4 + len) }
          match parsed with
          | some msg => (.ok (some msg), self)
          | none => decodeLoop fuel self

/-- Every round uses at least four bytes, so the buffer's length is fuel enough. -/
def decode (self : MessageDecoder) : Except String (Option PeerMessage) × MessageDecoder :=
  decodeLoop (self.buf.length + 1) self

end MessageDecoder
end Tortor.Net
