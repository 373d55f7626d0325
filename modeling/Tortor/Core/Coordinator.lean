import Tortor.Core.Command
import Tortor.Core.Disk
import Tortor.Core.Resume
import Tortor.Net.Wire

namespace Tortor.Core

open Tortor.Lib (FileStore)

inductive CoordinatorMsg
  | requestWork (peerHas : Bitfield) (reply : Nat)
  | peerBitfield (pieces : Bitfield)
  | peerHave (index : Nat)
  | peerGone (pieces : Bitfield)
  | pieceDownloaded (index : Nat) (data : List UInt8)
  | pieceFailed (index : Nat)
  | getCompletedPieces (reply : Nat)
  | readPiece (index begin length : Nat) (reply : Nat)
  | pause
  | resume
  | setSelection (selection : Selection) (selectedFiles : List Bool) (refetch : Bitfield)
  deriving DecidableEq

inductive CoordinatorState
  | checkingFiles (manager : TorrentManager) (disk : Disk) (expectedHashes : List Digest)
      (pieceLength totalLength nextPiece : Nat)
  | downloadingData (manager : TorrentManager) (disk : Disk) (paused hasCompleted : Bool)

namespace CoordinatorState

def manager : CoordinatorState → TorrentManager
  | checkingFiles manager .. => manager
  | downloadingData manager .. => manager

def disk : CoordinatorState → Disk
  | checkingFiles _ disk .. => disk
  | downloadingData _ disk .. => disk

def withManager (manager : TorrentManager) : CoordinatorState → CoordinatorState
  | checkingFiles _ disk hashes pieceLength totalLength nextPiece =>
    checkingFiles manager disk hashes pieceLength totalLength nextPiece
  | downloadingData _ disk paused hasCompleted => downloadingData manager disk paused hasCompleted

def withDisk (disk : Disk) : CoordinatorState → CoordinatorState
  | checkingFiles manager _ hashes pieceLength totalLength nextPiece =>
    checkingFiles manager disk hashes pieceLength totalLength nextPiece
  | downloadingData manager _ paused hasCompleted => downloadingData manager disk paused hasCompleted

end CoordinatorState

/-- Everything outside the coordinator that a step depends on. -/
structure Env where
  io : Io
  persistFails : Bool
  /-- `RESUME_PERSIST_INTERVAL` has passed since the last time. -/
  elapsed : Bool
  /-- The blocking task that hashes a piece is lost. -/
  hashFails : Bool
  rng : Nat → Nat

def Env.calm : Env := ⟨.calm, false, false, false, fun _ => 0⟩

inductive Effect
  | work (reply : Nat) (piece : Option Nat)
  | completedPieces (reply : Nat) (pieces : List Nat)
  | block (reply : Nat) (data : Option (List UInt8))
  | announce (event : SessionEvent)
  | ui (message : CoreMessage)
  deriving DecidableEq

structure Coordinator where
  state : CoordinatorState
  fs : FileStore Path
  /-- The contents that the resume file has had; the first one is in place. -/
  resumeFile : List (List UInt8)

def persistResume (env : Env) (manager : TorrentManager) (resumeFile : List (List UInt8)) :
    List (List UInt8) :=
  if env.persistFails then resumeFile
  else (FastResumeState.fromManager manager).encode :: resumeFile

/-- Progress may only be recorded once the data is on disk. -/
def flushThenPersist (env : Env) (manager : TorrentManager) (disk : Disk) (fs : FileStore Path)
    (resumeFile : List (List UInt8)) : Disk × FileStore Path × List (List UInt8) :=
  match disk.flush env.io fs with
  | (true, disk, fs) => (disk, fs, persistResume env manager resumeFile)
  | (false, disk, fs) => (disk, fs, resumeFile)

namespace Coordinator

def checkLength (totalPieces pieceLength totalLength index : Nat) : Nat :=
  if index = totalPieces - 1 then
    let rem := totalLength % pieceLength
    if rem = 0 then pieceLength else rem
  else pieceLength

def enterDownloading (manager : TorrentManager) (disk : Disk) : CoordinatorState × List Effect :=
  let hasCompleted := manager.isDone
  (.downloadingData manager disk false hasCompleted,
    (if hasCompleted then [.ui .downloadComplete, .announce .downloadComplete] else []) ++
      [.ui (.status "File check complete")])

def verified (sha1 : List UInt8 → Digest) (env : Env) (manager : TorrentManager) (disk : Disk)
    (hashes : List Digest) (pieceLength totalLength index : Nat) (fs : FileStore Path) : Bool :=
  let length := checkLength manager.totalPieces pieceLength totalLength index
  let read := if manager.isWanted index then disk.readPiece env.io index 0 length fs else none
  match read, hashes[index]? with
  | some data, some expected => !env.hashFails && decide (sha1 data = expected)
  | _, _ => false

/-- One tick of the file check.  In the other states the timer is off. -/
def checkTick (sha1 : List UInt8 → Digest) (env : Env) (self : Coordinator) :
    Coordinator × List Effect :=
  match self.state with
  | .downloadingData .. => (self, [])
  | .checkingFiles manager disk hashes pieceLength totalLength index =>
    if manager.totalPieces ≤ index then
      let (state, effects) := enterDownloading manager disk
      ({ self with state := state }, effects)
    else
      let verified := verified sha1 env manager disk hashes pieceLength totalLength index self.fs
      let manager := if verified then manager.markCompleted index else manager
      let announced := if verified && manager.isServable index then
        [Effect.announce (.pieceCompleted index)] else []
      if manager.totalPieces ≤ index + 1 then
        let (state, effects) := enterDownloading manager disk
        ({ self with state := state }, announced ++ effects)
      else
        ({ self with
          state := .checkingFiles manager disk hashes pieceLength totalLength (index + 1) },
          announced)

def handleRequestWork (env : Env) (self : Coordinator) (peerHas : Bitfield) (reply : Nat) :
    Coordinator × List Effect :=
  match self.state with
  | .downloadingData manager disk paused hasCompleted =>
    if paused then (self, [.work reply none])
    else
      let (work, manager) := manager.nextWorkFor peerHas env.rng
      ({ self with state := .downloadingData manager disk paused hasCompleted },
        [.work reply work])
  | .checkingFiles .. => (self, [.work reply none])

def handlePieceDownloaded (env : Env) (self : Coordinator) (index : Nat) (data : List UInt8) :
    Coordinator × List Effect :=
  match self.state with
  | .checkingFiles .. => (self, [])
  | .downloadingData manager disk paused hasCompleted =>
    if manager.isCompleted index then (self, [])
    else
      match disk.writePiece env.io index data self.fs with
      | (false, disk, fs) =>
        ({ self with
          state := .downloadingData (manager.returnWork index) disk paused hasCompleted
          fs := fs }, [])
      | (true, disk, fs) =>
        let manager := manager.markCompleted index
        let announced := if manager.isServable index then
          [Effect.announce (.pieceCompleted index)] else []
        let (disk, fs, resumeFile) := if manager.isDone || env.elapsed then
          flushThenPersist env manager disk fs self.resumeFile else (disk, fs, self.resumeFile)
        if manager.isDone && !hasCompleted then
          (⟨.downloadingData manager disk paused true, fs, resumeFile⟩,
            announced ++ [.ui .downloadComplete, .announce .downloadComplete])
        else (⟨.downloadingData manager disk paused hasCompleted, fs, resumeFile⟩, announced)

def handleReadPiece (env : Env) (self : Coordinator) (index begin length reply : Nat) :
    List Effect :=
  match self.state with
  | .checkingFiles .. => [.block reply none]
  | .downloadingData manager disk _ _ =>
    let shouldServe := decide (0 < length) && decide (length ≤ Net.MAX_BLOCK_REQUEST) &&
      manager.isServable index
    [.block reply (if shouldServe then disk.readPiece env.io index begin length self.fs else none)]

/-- After a failed change of files the manager keeps its selection. -/
def handleSetSelection (env : Env) (self : Coordinator) (selection : Selection)
    (selectedFiles : List Bool) (refetch : Bitfield) : Coordinator × List Effect :=
  match self.state.disk.setSelection env.io selectedFiles self.fs with
  | (false, disk, fs) =>
    ({ self with state := self.state.withDisk disk, fs := fs },
      [.ui (.error "Failed to change the file selection")])
  | (true, disk, fs) =>
    let updated := Effect.ui (.status "File selection updated")
    match self.state with
    | .checkingFiles manager _ hashes pieceLength totalLength nextPiece =>
      ({ self with
        state := .checkingFiles (manager.applySelection selection refetch) disk hashes
          pieceLength totalLength nextPiece
        fs := fs }, [updated])
    | .downloadingData manager _ paused hasCompleted =>
      let manager := manager.applySelection selection refetch
      let (disk, fs, resumeFile) := flushThenPersist env manager disk fs self.resumeFile
      let done := manager.isDone
      (⟨.downloadingData manager disk paused done, fs, resumeFile⟩,
        updated ::
          if done && !hasCompleted then [.ui .downloadComplete, .announce .downloadComplete]
          else if !done then [.announce .selectionChanged]
          else [])

def mapManager (self : Coordinator) (f : TorrentManager → TorrentManager) : Coordinator :=
  { self with state := self.state.withManager (f self.state.manager) }

def handle (env : Env) (self : Coordinator) : CoordinatorMsg → Coordinator × List Effect
  | .requestWork peerHas reply => self.handleRequestWork env peerHas reply
  | .peerBitfield pieces => (self.mapManager (·.addPeerPieces pieces), [])
  | .peerHave index => (self.mapManager (·.addPeerPiece index), [])
  | .peerGone pieces => (self.mapManager (·.removePeerPieces pieces), [])
  | .pieceDownloaded index data => self.handlePieceDownloaded env index data
  | .pieceFailed index =>
    match self.state with
    | .downloadingData .. => (self.mapManager (·.returnWork index), [])
    | .checkingFiles .. => (self, [])
  | .getCompletedPieces reply =>
    match self.state with
    | .downloadingData manager .. => (self, [.completedPieces reply manager.servablePieces])
    | .checkingFiles .. => (self, [.completedPieces reply []])
  | .readPiece index begin length reply =>
    (self, self.handleReadPiece env index begin length reply)
  | .pause =>
    match self.state with
    | .downloadingData manager disk _ hasCompleted =>
      ({ self with state := .downloadingData manager disk true hasCompleted },
        [.ui (.pausedState true)])
    | .checkingFiles .. => (self, [])
  | .resume =>
    match self.state with
    | .downloadingData manager disk _ hasCompleted =>
      ({ self with state := .downloadingData manager disk false hasCompleted },
        [.ui (.pausedState false)])
    | .checkingFiles .. => (self, [])
  | .setSelection selection selectedFiles refetch =>
    self.handleSetSelection env selection selectedFiles refetch

def shutdown (env : Env) (self : Coordinator) : Coordinator :=
  match self.state with
  | .checkingFiles .. => self
  | .downloadingData manager disk paused hasCompleted =>
    let (disk, fs, resumeFile) := flushThenPersist env manager disk self.fs self.resumeFile
    ⟨.downloadingData manager disk paused hasCompleted, fs, resumeFile⟩

end Coordinator
end Tortor.Core
