import Tortor.Core.Command
import Tortor.Core.TorrentFile
import Tortor.Lib.Run
import Tortor.Net.Magnet
import Tortor.System.Torrent

/-! The dashboard and the background tasks of its torrents.  They run side by side: commands go to
each task, and what all the tasks tell comes back in the order it was sent in. -/

namespace Tortor.System

open Tortor.Core Tortor.Lib
open Tortor.Net (LinkError Magnet)

inductive TorrentSource
  | file (path : Path)
  | magnet (uri : String)
  deriving DecidableEq

structure SessionEntry where
  source : TorrentSource
  outputDir : Path
  isPaused : Bool
  selectedFiles : Option (List Bool)
  deriving DecidableEq

inductive CoreCommand
  | probePeer (addr : SocketAddr)
  | startSwarm
  | stopAll
  | pause
  | resume
  | selectionChanged
  | remove (files : Bool)
  deriving DecidableEq

inductive TaskError
  | link (err : LinkError)
  | io (error : String)
  | torrent (err : TorrentParseError)
  | fetch (error : String)
  | metadata (err : TorrentParseError)
  deriving DecidableEq

inductive TaskMessage
  | core (msg : CoreMessage)
  | torrentLoaded (info : AnnouncedMeta)
  | metadataReady (info : AnnouncedMeta)
  | failed (err : TaskError)
  | returned (err : TaskError)
  | shutdownComplete
  deriving DecidableEq

structure TaskContext where
  windows : Bool
  decoder : BencodeDecoder
  sha1 : List UInt8 → Digest
  url : String → Option (String × List (String × String))
  hexDecode : String → Option (List UInt8)

/-- Stands for the torrent of a link until its metadata has been fetched. -/
def Magnet.placeholder (magnet : Magnet) : AnnouncedMeta :=
  (AnnouncedMeta.new "" (.new (magnet.name.getD "Magnet Download") (256 * 1024) 0 [] none none
    magnet.infoHash)).withExtraTrackers magnet.trackers

/-- `file` is what reading the torrent file gives; a link needs none. -/
def loadSource (ctx : TaskContext) (source : TorrentSource) (file : Except String (List UInt8)) :
    Except TaskError AnnouncedMeta :=
  match source with
  | .magnet uri =>
    match Magnet.parse ctx.url ctx.hexDecode uri with
    | .error err => .error (.link err)
    | .ok magnet => .ok (Magnet.placeholder magnet)
  | .file _ =>
    match file with
    | .error error => .error (.io error)
    | .ok bytes => (parseTorrentBytes ctx.decoder ctx.sha1 ctx.windows bytes).mapError .torrent

inductive TaskStage
  | loading
  | waiting (info : AnnouncedMeta)
  | fetching (info : AnnouncedMeta)
  | choosing (info : AnnouncedMeta)
  | announcing (info : AnnouncedMeta) (requested : Option (List Bool))
  /-- `started` is the selection the coordinator was started with. -/
  | running (info : AnnouncedMeta) (started : Selection) (currentFlags : List Bool)
  /-- Waits for the coordinator to end, for five seconds at most. -/
  | stopping
  | ended
  deriving DecidableEq

structure TorrentSessionState where
  info : Option AnnouncedMeta
  isShuttingDown : Bool
  deleteRequested : Bool
  swarmStarted : Bool
  isPaused : Bool
  hasError : Bool
  removeRequested : Bool
  deriving DecidableEq

structure TorrentSlot where
  source : TorrentSource
  outputDir : Path
  session : Option TorrentSessionState
  /-- The selection handle, which the dashboard and the task share. -/
  selection : Option (List Bool)
  commands : List CoreCommand
  task : TaskStage
  sent : List CoordinatorMsg

inductive TaskEvent
  | load (file : Except String (List UInt8))
  /-- `full` tells whether the channel to the coordinator is. -/
  | receive (full : Bool)
  | fetched (result : Except String (List UInt8))
  | choose
  /-- `missing` tells whether there is a resume file but nothing that was downloaded. -/
  | announced (missing : Bool)
  | stopped

namespace TorrentSlot

def new (source : TorrentSource) (outputDir : Path) (selectedFiles : Option (List Bool)) :
    TorrentSlot where
  source := source
  outputDir := outputDir
  session := some ⟨none, false, false, false, false, false, false⟩
  selection := selectedFiles
  commands := []
  task := .loading
  sent := []

def send (self : TorrentSlot) (command : CoreCommand) : TorrentSlot :=
  if self.task = .ended then self else { self with commands := self.commands ++ [command] }

def shutDown (self : TorrentSlot) : TorrentSlot :=
  match self.session with
  | some session =>
    if session.isShuttingDown then self
    else { self with session := some { session with isShuttingDown := true } }.send .stopAll
  | none => self

def finish (self : TorrentSlot) : TorrentSlot := { self with task := .ended, commands := [] }

def fail (self : TorrentSlot) (err : TaskError) : TorrentSlot × List TaskMessage :=
  (self.finish, [.failed err, .returned err])

def handle (self : TorrentSlot) (full : Bool) (info : AnnouncedMeta) (started : Selection)
    (currentFlags : List Bool) : CoreCommand → TorrentSlot × List TaskMessage
  | .selectionChanged =>
    match info.files, self.selection.filter (validFlags info.toTorrentMeta) with
    | some files, some after =>
      if after = currentFlags then (self, [])
      else
        ({ self with
            sent := self.sent ++
              [BackgroundTask.setSelectionMsg info.toTorrentMeta files currentFlags after]
            task := .running info started after }, [])
    | _, _ => (self, [])
  | .stopAll =>
    ({ self with task := .stopping },
      [.core (.status "Stop requested: shutting down workers")])
  | .pause => (if full then self else { self with sent := self.sent ++ [.pause] }, [])
  | .resume => (if full then self else { self with sent := self.sent ++ [.resume] }, [])
  | _ => (self, [])

def receive (self : TorrentSlot) (full : Bool) : TorrentSlot × List TaskMessage :=
  match self.commands with
  | [] =>
    match self.task, self.session with
    | .waiting _, none | .fetching _, none | .running .., none => (self.finish, [])
    | _, _ => (self, [])
  | command :: commands =>
    let taken := { self with commands := commands }
    match self.task with
    | .waiting info =>
      match command with
      | .startSwarm =>
        if info.pieces.isEmpty then
          ({ taken with task := .fetching info },
            [.core (.status "Fetching metadata from peers...")])
        else ({ taken with task := .choosing info }, [])
      | .stopAll => (taken.finish, [.shutdownComplete])
      | _ => (taken, [])
    | .fetching _ =>
      match command with
      | .stopAll => (taken.finish, [.shutdownComplete])
      | _ => (taken, [])
    | .running info started currentFlags => taken.handle full info started currentFlags command
    | _ => (self, [])

def fetched (self : TorrentSlot) (ctx : TaskContext) (info : AnnouncedMeta) :
    Except String (List UInt8) → TorrentSlot × List TaskMessage
  | .error error => self.fail (.fetch error)
  | .ok bytes =>
    match parseTorrentMetadataBytes ctx.decoder ctx.sha1 ctx.windows bytes info.infoHash with
    | .error err => self.fail (.metadata err)
    | .ok fetched =>
      let info := fetched.withExtraTrackers info.trackers
      ({ self with task := .choosing info }, [.metadataReady info])

def announced (self : TorrentSlot) (info : AnnouncedMeta) (requested : Option (List Bool))
    (missing : Bool) : TorrentSlot × List TaskMessage :=
  let ready := .core (.status "Core worker is ready for probe commands")
  if info.pieces.isEmpty then
    (self.finish,
      [ready, .core (.status "Torrent has no piece hashes; download data-path disabled")])
  else
    let chosen := chosenFiles info.toTorrentMeta requested
    let started :=
      fileSelection info.toTorrentMeta (requested.filter (validFlags info.toTorrentMeta))
    let currentFlags := chosen.getD ((info.files.map fun files =>
      List.replicate files.length true).getD [])
    ({ self with task := .running info started currentFlags },
      ready :: if missing then
        [.core (.status "[ERROR: Missing]"), .core (.error "Files missing. Torrent paused."),
          .core (.pausedState true)]
      else [])

def step (ctx : TaskContext) (self : TorrentSlot) (event : TaskEvent) :
    TorrentSlot × List TaskMessage :=
  match self.task, event with
  | .loading, .load file =>
    match loadSource ctx self.source file with
    | .error err => self.fail err
    | .ok info =>
      ({ self with task := .waiting info },
        [.torrentLoaded info, .core (.status
          "Ready to start. Press Start Swarm to begin allocation and download.")])
  | _, .receive full => self.receive full
  | .fetching info, .fetched result => self.fetched ctx info result
  | .choosing info, .choose =>
    ({ self with task := .announcing info self.selection },
      [.core (.status (if info.trackers.isEmpty then "No trackers in torrent; relying on DHT and PEX"
        else s!"Announcing to {info.trackers.length} tracker(s)"))])
  | .announcing info requested, .announced missing => self.announced info requested missing
  | .stopping, .stopped => (self.finish, [.shutdownComplete])
  | _, _ => (self, [])

end TorrentSlot

inductive Deletion
  /-- `output_dir.join(&meta.name)`, a directory with all that is in it or a file. -/
  | target (outputDir : Path) (name : String)
  | resumeFile (infoHash : Digest)
  | sibling (path : Path) (extension : String)
  deriving DecidableEq

/-- The dashboard; the torrent with the id `id` is `slots[id - 1]`. -/
structure TorTorApp where
  slots : List TorrentSlot
  entries : List SessionEntry
  messages : List (Nat × TaskMessage)
  quitRequested : Bool
  closed : Bool
  deleted : List (Nat × Deletion)

inductive Click
  | startSwarm
  | pause
  | resume
  | remove (files : Bool)
  | pick (flags : List Bool)

inductive DashboardEvent
  /-- `update` until it draws the torrents. -/
  | frame (closeRequested : Bool)
  | add (source : TorrentSource) (outputDir : Path)
  | click (id : Nat) (click : Click)
  | task (id : Nat) (event : TaskEvent)
  | tells (id : Nat) (msg : CoreMessage)

def TorrentSessionState.pump (self : TorrentSessionState) : TaskMessage → TorrentSessionState
  | .core (.pausedState paused) => { self with isPaused := paused }
  | .torrentLoaded info | .metadataReady info => { self with info := some info }
  | .core (.error _) | .failed _ | .returned _ => { self with hasError := true }
  | _ => self

namespace TorTorApp

def requestQuit (self : TorTorApp) : TorTorApp :=
  { self with quitRequested := true, slots := self.slots.map TorrentSlot.shutDown }

def pumpMessage (slots : List TorrentSlot) (message : Nat × TaskMessage) : List TorrentSlot :=
  slots.modify message.1 fun slot =>
    { slot with session := slot.session.map (·.pump message.2) }

def pumpMessages (self : TorTorApp) : TorTorApp × List Nat :=
  ({ self with slots := self.messages.foldl pumpMessage self.slots, messages := [] },
    self.messages.filterMap fun (id, msg) => if msg = .shutdownComplete then some id else none)

def deletions (slot : TorrentSlot) (session : TorrentSessionState) : List Deletion :=
  (match session.info with
    | some info => [.target slot.outputDir info.name, .resumeFile info.infoHash]
    | none => []) ++
  match slot.source with
  | .file path => [.sibling path "fastresume", .sibling path "download.part"]
  | .magnet _ => []

def leave (self : TorTorApp) (id : Nat) : TorTorApp :=
  match self.slots[id]? with
  | none => self
  | some slot =>
    match slot.session with
    | none => self
    | some session =>
      { self with
        slots := self.slots.set id { slot with session := none }
        entries :=
          if session.removeRequested || session.deleteRequested then
            self.entries.filter fun entry => entry.source ≠ slot.source
          else self.entries
        deleted :=
          if session.deleteRequested then
            self.deleted ++ (deletions slot session).map fun deletion => (id, deletion)
          else self.deleted }

def closeEmpty (self : TorTorApp) : TorTorApp :=
  if self.quitRequested && self.slots.all (·.session.isNone) then { self with closed := true }
  else self

def frame (self : TorTorApp) (closeRequested : Bool) : TorTorApp :=
  let asked := if closeRequested then self.requestQuit else self
  let (pumped, completed) := asked.pumpMessages
  (completed.foldl leave pumped).closeEmpty

/-- What a click does to its torrent; a button that is greyed out takes none. -/
def clicked (slot : TorrentSlot) (session : TorrentSessionState) : Click → TorrentSlot
  | .startSwarm =>
    if session.swarmStarted || session.isShuttingDown || session.hasError then slot
    else { slot with session := some { session with swarmStarted := true } }.send .startSwarm
  | .pause =>
    if !session.swarmStarted || session.isPaused || session.isShuttingDown then slot
    else { slot with session := some { session with isPaused := true } }.send .pause
  | .resume =>
    if !session.swarmStarted || !session.isPaused || session.isShuttingDown then slot
    else { slot with session := some { session with isPaused := false } }.send .resume
  | .remove files =>
    if session.isShuttingDown then slot
    else
      { slot with
        session := some
          { session with
            removeRequested := true
            deleteRequested := session.deleteRequested || files
            isShuttingDown := true } }.send .stopAll
  | .pick flags =>
    if session.swarmStarted then { slot with selection := some flags }.send .selectionChanged
    else { slot with selection := some flags }

/-- `file_picker`: whether the flags are taken over; at least one file must stay selected. -/
def picks (slot : TorrentSlot) (session : TorrentSessionState) (flags : List Bool) : Bool :=
  match session.info.bind (·.files) with
  | none => false
  | some files =>
    let before := (slot.selection.filter fun flags => flags.length == files.length).getD
      (List.replicate files.length true)
    !session.isShuttingDown && flags.length == files.length && flags != before && flags.any id

def remember (source : TorrentSource) (flags : List Bool) : List SessionEntry → List SessionEntry
  | [] => []
  | entry :: entries =>
    if entry.source = source then
      { entry with selectedFiles := if flags.all id then none else some flags } :: entries
    else entry :: remember source flags entries

def click (self : TorTorApp) (id : Nat) (click : Click) : TorTorApp :=
  match self.slots[id]? with
  | none => self
  | some slot =>
    match slot.session with
    | none => self
    | some session =>
      match click with
      | .pick flags =>
        if picks slot session flags then
          { self with
            slots := self.slots.set id (clicked slot session click)
            entries := remember slot.source flags self.entries }
        else self
      | _ => { self with slots := self.slots.set id (clicked slot session click) }

def new (entries : List SessionEntry) (initial : List (TorrentSource × Path)) : TorTorApp where
  slots := entries.map (fun entry => .new entry.source entry.outputDir entry.selectedFiles) ++
    initial.map fun (source, outputDir) => .new source outputDir none
  entries := entries
  messages := []
  quitRequested := false
  closed := false
  deleted := []

def step (ctx : TaskContext) (self : TorTorApp) : DashboardEvent → TorTorApp
  | .frame closeRequested => if self.closed then self else self.frame closeRequested
  | .add source outputDir =>
    if self.closed then self
    else
      { self with
        entries := self.entries ++ [⟨source, outputDir, false, none⟩]
        slots := self.slots ++ [.new source outputDir none] }
  | .click id click => if self.closed then self else self.click id click
  | .task id event =>
    match self.slots[id]? with
    | none => self
    | some slot =>
      let (slot, told) := slot.step ctx event
      { self with
        slots := self.slots.set id slot
        messages := self.messages ++ told.map fun msg => (id, msg) }
  | .tells id msg => { self with messages := self.messages ++ [(id, .core msg)] }

end TorTorApp
end Tortor.System
