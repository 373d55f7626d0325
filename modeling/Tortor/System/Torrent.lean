import Tortor.Core.Coordinator

/-! One torrent between its start and its end: the coordinator, and the part of the
dashboard's background task that starts it and tells it about selected files. -/

namespace Tortor.System

open Tortor.Core Tortor.Lib

def totalSize (info : TorrentMeta) : Nat :=
  info.totalLength.getD (info.pieceLength * info.piecesCount)

def torrentFiles (info : TorrentMeta) : List TorrentFile :=
  info.files.getD [⟨totalSize info, [info.name]⟩]

/-- Only meaningful for multi-file torrents; otherwise everything is wanted. -/
def fileSelection (info : TorrentMeta) (chosen : Option (List Bool)) : Selection :=
  match info.files, chosen with
  | some files, some flags => .fromFiles files flags info.pieceLength info.pieces.length
  | _, _ => .all info.pieces.length

/-- A request must name every file and keep at least one. -/
def validFlags (info : TorrentMeta) (flags : List Bool) : Bool :=
  match info.files with
  | some files => flags.length == files.length && flags.any id
  | none => false

/-- A selection that covers everything is stored as `none`. -/
def chosenFiles (info : TorrentMeta) (requested : Option (List Bool)) : Option (List Bool) :=
  (requested.filter (validFlags info)).filter fun flags =>
    !(fileSelection info (some flags)).isAll

def initialCoordinatorState (manager : TorrentManager) (disk : Disk) (requiresCheck : Bool)
    (pieces : List Digest) (pieceLength totalLength : Nat) (startPaused : Bool) :
    CoordinatorState :=
  if requiresCheck && !pieces.isEmpty then
    .checkingFiles manager disk pieces pieceLength totalLength 0
  else .downloadingData manager disk startPaused false

/-- `background_task` with the coordinator it has started. -/
structure BackgroundTask where
  coordinator : Coordinator
  currentFlags : List Bool
  stopped : Bool

structure Launch where
  backend : Backend
  windows : Bool
  outputDir : Path
  chosen : Option (List Bool)
  completed : List Nat
  selection : Selection
  requiresCheck : Bool
  startPaused : Bool
  io : Io
  resumeFile : List (List UInt8)

/-- Without a disk no coordinator is started. -/
def launch (info : TorrentMeta) (l : Launch) (fs : FileStore Path) : Option BackgroundTask :=
  match Disk.initWithSelection l.backend l.windows l.outputDir (totalSize info) info.pieceLength
    info.files info.name l.chosen l.io fs with
  | (none, _) => none
  | (some disk, fs) =>
    let manager := TorrentManager.withSelection info.piecesCount l.completed l.selection
    some
      { coordinator :=
          { state := initialCoordinatorState manager disk l.requiresCheck info.pieces
              info.pieceLength (totalSize info) l.startPaused
            fs := fs
            resumeFile := l.resumeFile }
        currentFlags := l.chosen.getD ((info.files.map fun files =>
          List.replicate files.length true).getD [])
        stopped := false }

def loadFastresume (json : List UInt8 → Option FastResumeState) :
    (resumeFile : List (List UInt8)) → Except ResumeError (Option FastResumeState)
  | [] => .ok none
  | content :: _ => (FastResumeState.decode json content).map some

/-- What `background_task` starts from a resume file; `isValid` tells whether the target is
there at all. -/
def resumed (info : TorrentMeta) (requested : Option (List Bool))
    (loaded : Except ResumeError (Option FastResumeState)) (isValid : Bool) (l : Launch) :
    Launch :=
  let selection := fileSelection info (requested.filter (validFlags info))
  let l := { l with chosen := chosenFiles info requested, selection := selection }
  match loaded with
  | .ok (some state) =>
    if isValid then
      { l with completed := state.completed, requiresCheck := false, startPaused := false }
    else { l with completed := [], requiresCheck := false, startPaused := true }
  | .ok none => { l with completed := [], requiresCheck := isValid, startPaused := false }
  | .error _ => { l with completed := [], requiresCheck := isValid, startPaused := false }

inductive Input
  | message (env : Env) (msg : CoordinatorMsg)
  | tick (env : Env)
  /-- The file selection handle of the session changed to `after`. -/
  | selectionChanged (env : Env) (after : List Bool)
  | shutdown (env : Env)

namespace BackgroundTask

def setSelectionMsg (info : TorrentMeta) (files : List TorrentFile) (current after : List Bool) :
    CoordinatorMsg :=
  .setSelection (Selection.fromFiles files after info.pieceLength info.pieces.length) after
    (Selection.piecesToRefetch files current after info.pieceLength info.pieces.length)

def requests (info : TorrentMeta) (s : BackgroundTask) (after : List Bool) : Bool :=
  validFlags info after && after != s.currentFlags

def select (info : TorrentMeta) (s : BackgroundTask) (env : Env) (after : List Bool) :
    BackgroundTask :=
  match info.files with
  | none => s
  | some files =>
    if s.requests info after then
      { s with
        coordinator :=
          (s.coordinator.handle env (setSelectionMsg info files s.currentFlags after)).1
        currentFlags := after }
    else s

def step (sha1 : List UInt8 → Digest) (info : TorrentMeta) (s : BackgroundTask) (input : Input) :
    BackgroundTask :=
  if s.stopped then s
  else match input with
    | .message env msg => { s with coordinator := (s.coordinator.handle env msg).1 }
    | .tick env => { s with coordinator := (s.coordinator.checkTick sha1 env).1 }
    | .selectionChanged env after => s.select info env after
    | .shutdown env => { s with coordinator := s.coordinator.shutdown env, stopped := true }

end BackgroundTask
end Tortor.System
