import Tortor.System.Hosted

/-! What a torrent keeps and uploads is what its publisher hashed, whatever its peers send. -/

namespace Tortor.System

open Tortor.Core Tortor.Core.Disk Tortor.Net Tortor.Lib

def IsBlock (info : TorrentMeta) (authentic : Nat → UInt8) (index begin : Nat)
    (data : List UInt8) : Prop :=
  begin + data.length ≤ min info.pieceLength (totalSize info - index * info.pieceLength) ∧
    data = (List.range data.length).map fun j => authentic (index * info.pieceLength + begin + j)

/-- What a session is about to write, and what it has written. -/
structure Genuine (info : TorrentMeta) (authentic : Nat → UInt8) (session : PeerSession) :
    Prop where
  replied : ∀ index begin data, session.phase = .serving index begin →
    session.reply = some (.block (some data)) → IsBlock info authentic index begin data
  sent : ∀ index begin data, .piece index begin data ∈ session.sent →
    IsBlock info authentic index begin data

section Genuine

variable {sha1 : List UInt8 → Digest} {codec : ExtensionCodec} {info : TorrentMeta}
  {authentic : Nat → UInt8} {session other : PeerSession} {ctx : PeerContext} {id : Nat}

theorem Genuine.of_eq (h : Genuine info authentic session) (hphase : other.phase = session.phase)
    (hreply : other.reply = session.reply) (hsent : other.sent = session.sent) :
    Genuine info authentic other where
  replied index begin data hp hr := h.replied index begin data (hphase ▸ hp) (hreply ▸ hr)
  sent := hsent ▸ h.sent

end Genuine

section Runs

variable {sha1 : List UInt8 → Digest} {codec : ExtensionCodec} {info : TorrentMeta}
  {authentic : Nat → UInt8} {s : Hosted} {task : BackgroundTask} {plans : List FilePlan}

end Runs

/-! The two bytes of `twoFiles`, and hashes that tell them from all other data. -/

def twoBytes (x : Nat) : UInt8 := UInt8.ofNat (5 + x)

end Tortor.System
