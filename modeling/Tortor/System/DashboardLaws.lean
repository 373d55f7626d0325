import Tortor.Core.ResumeLaws
import Tortor.Core.SafePaths
import Tortor.System.Dashboard
import Tortor.System.SelectionChange

/-! What holds between the dashboard and the tasks of its torrents, however their steps follow on
one another. -/

namespace Tortor.System

open Tortor.Core Tortor.Lib

def TaskContext.Known (ctx : TaskContext) (info : AnnouncedMeta) : Prop :=
  ∃ accepted, Accepted ctx.decoder ctx.sha1 ctx.windows accepted ∧
    info.toTorrentMeta = accepted.toTorrentMeta

variable {ctx : TaskContext}

theorem built_of_known {info : AnnouncedMeta} (h : ctx.Known info) :
    ∃ raw infoHash, buildMeta ctx.windows raw infoHash = .ok info.toTorrentMeta := by
  obtain ⟨accepted, ⟨bytes, hparse⟩ | ⟨bytes, hash, hparse⟩, hsame⟩ := h
  · obtain ⟨raw, slice, -, -, -, -, hbuilt⟩ := parseTorrentBytes_ok hparse
    exact ⟨raw.info, _, hsame ▸ hbuilt⟩
  · obtain ⟨raw, -, -, -, hbuilt⟩ := parseTorrentMetadataBytes_ok hparse
    exact ⟨raw, _, hsame ▸ hbuilt⟩

theorem pieces_of_known {info : AnnouncedMeta} (h : ctx.Known info) :
    info.pieces.isEmpty = false := by
  obtain ⟨raw, hash, hbuilt⟩ := built_of_known h
  obtain ⟨total, hw⟩ := wellFormed_of_buildMeta hbuilt
  have hpos : 0 < info.pieces.length := by
    rw [hw.pieces_length]
    exact Nat.div_pos (by have := hw.total_pos; omega) hw.pieceLength_pos
  exact List.isEmpty_eq_false_iff.mpr (List.length_pos_iff.mp hpos)

/-- The torrent stands for a link; it has neither pieces nor files. -/
def TaskContext.Linked (ctx : TaskContext) (source : TorrentSource) (info : AnnouncedMeta) : Prop :=
  ∃ uri magnet, source = .magnet uri ∧ Net.Magnet.parse ctx.url ctx.hexDecode uri = .ok magnet ∧
    info = Magnet.placeholder magnet

theorem TaskContext.Linked.empty {source : TorrentSource} {info : AnnouncedMeta}
    (h : ctx.Linked source info) : info.pieces = [] ∧ info.files = none := by
  obtain ⟨uri, magnet, -, -, rfl⟩ := h
  exact ⟨rfl, rfl⟩

theorem loadSource_ok {source : TorrentSource} {file : Except String (List UInt8)}
    {info : AnnouncedMeta} (h : loadSource ctx source file = .ok info) :
    ctx.Known info ∨ ctx.Linked source info := by
  cases source with
  | magnet uri =>
    simp only [loadSource] at h
    split at h
    · cases h
    case h_2 magnet hparse =>
      cases h
      exact .inr ⟨uri, magnet, rfl, hparse, rfl⟩
  | file path =>
    simp only [loadSource] at h
    split at h
    · cases h
    case h_2 bytes =>
      cases hparse : parseTorrentBytes ctx.decoder ctx.sha1 ctx.windows bytes with
      | error err =>
        rw [hparse] at h
        cases h
      | ok accepted =>
        rw [hparse] at h
        cases h
        exact .inl ⟨_, .inl ⟨bytes, hparse⟩, rfl⟩

def TaskMessage.info? : TaskMessage → Option AnnouncedMeta
  | .torrentLoaded info | .metadataReady info => some info
  | _ => none

namespace TorrentSlot

inductive Moves (ctx : TaskContext) (slot : TorrentSlot) :
    TaskEvent → TorrentSlot → List TaskMessage → Prop
  | stays {event : TaskEvent} : Moves ctx slot event slot []
  | fails {event : TaskEvent} (err : TaskError) :
      (slot.task = .loading ∨ ∃ info, slot.task = .fetching info) →
      Moves ctx slot event slot.finish [.failed err, .returned err]
  | loads {file : Except String (List UInt8)} {info : AnnouncedMeta} (text : String) :
      slot.task = .loading → loadSource ctx slot.source file = .ok info →
      Moves ctx slot (.load file) { slot with task := .waiting info }
        [.torrentLoaded info, .core (.status text)]
  | leaves {event : TaskEvent} : slot.session = none → Moves ctx slot event slot.finish []
  | drops {command : CoreCommand} {commands : List CoreCommand} {event : TaskEvent} :
      slot.commands = command :: commands → command ≠ .stopAll →
      ((∃ info, slot.task = .waiting info ∧ command ≠ .startSwarm) ∨
        ∃ info, slot.task = .fetching info) →
      Moves ctx slot event { slot with commands := commands } []
  | fetches {info : AnnouncedMeta} {commands : List CoreCommand} {event : TaskEvent}
      (text : String) :
      slot.commands = .startSwarm :: commands → slot.task = .waiting info → info.pieces = [] →
      Moves ctx slot event { slot with commands := commands, task := .fetching info }
        [.core (.status text)]
  | starts {info : AnnouncedMeta} {commands : List CoreCommand} {event : TaskEvent} :
      slot.commands = .startSwarm :: commands → slot.task = .waiting info → info.pieces ≠ [] →
      Moves ctx slot event { slot with commands := commands, task := .choosing info } []
  | stops {commands : List CoreCommand} {event : TaskEvent} :
      slot.commands = .stopAll :: commands →
      ((∃ info, slot.task = .waiting info) ∨ ∃ info, slot.task = .fetching info) →
      Moves ctx slot event slot.finish [.shutdownComplete]
  | handles {command : CoreCommand} {commands : List CoreCommand} {info : AnnouncedMeta}
      {started : Selection} {currentFlags : List Bool} {event : TaskEvent} (full : Bool) :
      slot.commands = command :: commands → slot.task = .running info started currentFlags →
      Moves ctx slot event
        ({ slot with commands := commands }.handle full info started currentFlags command).1
        ({ slot with commands := commands }.handle full info started currentFlags command).2
  | fetched {info fetched : AnnouncedMeta} {bytes : List UInt8} : slot.task = .fetching info →
      parseTorrentMetadataBytes ctx.decoder ctx.sha1 ctx.windows bytes info.infoHash =
        .ok fetched →
      Moves ctx slot (.fetched (.ok bytes))
        { slot with task := .choosing (fetched.withExtraTrackers info.trackers) }
        [.metadataReady (fetched.withExtraTrackers info.trackers)]
  | chooses {info : AnnouncedMeta} {event : TaskEvent} (text : String) :
      slot.task = .choosing info →
      Moves ctx slot event { slot with task := .announcing info slot.selection }
        [.core (.status text)]
  | announced {info : AnnouncedMeta} {requested : Option (List Bool)} {event : TaskEvent}
      (missing : Bool) : slot.task = .announcing info requested →
      Moves ctx slot event (slot.announced info requested missing).1
        (slot.announced info requested missing).2
  | stopped {event : TaskEvent} : slot.task = .stopping →
      Moves ctx slot event slot.finish [.shutdownComplete]

theorem moves_receive (slot : TorrentSlot) (full : Bool) :
    Moves ctx slot (.receive full) (slot.receive full).1 (slot.receive full).2 := by
  unfold receive
  split
  · split
    · exact .leaves ‹_›
    · exact .leaves ‹_›
    · exact .leaves ‹_›
    · exact .stays
  case h_2 command commands hcommands =>
    dsimp only
    split
    case h_1 info htask =>
      split
      · split
        case isTrue hpieces => exact .fetches _ hcommands htask (List.isEmpty_iff.mp hpieces)
        case isFalse hpieces =>
          exact .starts hcommands htask fun he => hpieces (List.isEmpty_iff.mpr he)
      · exact .stops hcommands (.inl ⟨info, htask⟩)
      case h_3 hstart hstop => exact .drops hcommands hstop (.inl ⟨info, htask, hstart⟩)
    case h_2 info htask =>
      split
      · exact .stops hcommands (.inr ⟨info, htask⟩)
      case h_2 hstop => exact .drops hcommands hstop (.inr ⟨info, htask⟩)
    case h_3 htask => exact .handles full hcommands htask
    case h_4 => exact .stays

theorem moves_fetched {slot : TorrentSlot} {info : AnnouncedMeta} (htask : slot.task = .fetching info)
    (result : Except String (List UInt8)) :
    Moves ctx slot (.fetched result) (slot.fetched ctx info result).1
      (slot.fetched ctx info result).2 := by
  unfold TorrentSlot.fetched
  split
  · exact .fails _ (.inr ⟨info, htask⟩)
  · split
    · exact .fails _ (.inr ⟨info, htask⟩)
    case h_2 hparse => exact .fetched htask hparse

theorem moves_step (slot : TorrentSlot) (event : TaskEvent) :
    Moves ctx slot event (slot.step ctx event).1 (slot.step ctx event).2 := by
  unfold step
  split
  case h_1 file htask =>
    split
    · exact .fails _ (.inl htask)
    case h_2 info hload => exact .loads _ htask hload
  case h_2 full => exact moves_receive slot full
  case h_3 htask => exact moves_fetched htask _
  case h_4 htask => exact .chooses _ htask
  case h_5 htask => exact .announced _ htask
  case h_6 htask => exact .stopped htask
  case h_7 => exact .stays

theorem Moves.kept {slot slot' : TorrentSlot} {event : TaskEvent}
    {told : List TaskMessage} (h : Moves ctx slot event slot' told) :
    slot'.session = slot.session ∧
      slot'.selection = slot.selection ∧ slot'.source = slot.source ∧
      slot'.outputDir = slot.outputDir := by
  cases h with
  | @handles command =>
    cases command with
    | selectionChanged =>
      simp only [handle]
      split
      · split <;> exact ⟨rfl, rfl, rfl, rfl⟩
      · exact ⟨rfl, rfl, rfl, rfl⟩
    | pause | resume =>
      simp only [handle]
      split <;> exact ⟨rfl, rfl, rfl, rfl⟩
    | _ => exact ⟨rfl, rfl, rfl, rfl⟩
  | announced =>
    unfold TorrentSlot.announced
    dsimp only
    split <;> exact ⟨rfl, rfl, rfl, rfl⟩
  | _ => exact ⟨rfl, rfl, rfl, rfl⟩

theorem handle_task {slot : TorrentSlot} {full : Bool} {info : AnnouncedMeta} {started : Selection}
    {currentFlags : List Bool} {command : CoreCommand} (hstop : command ≠ .stopAll)
    (htask : slot.task = .running info started currentFlags) :
    ∃ flags, (slot.handle full info started currentFlags command).1.task =
      .running info started flags := by
  cases command with
  | selectionChanged =>
    simp only [handle]
    split
    · split
      · exact ⟨currentFlags, htask⟩
      · exact ⟨_, rfl⟩
    · exact ⟨currentFlags, htask⟩
  | pause | resume =>
    refine ⟨currentFlags, ?_⟩
    simp only [handle]
    split <;> exact htask
  | stopAll => exact absurd rfl hstop
  | _ => exact ⟨currentFlags, htask⟩

theorem handle_commands (slot : TorrentSlot) (full : Bool) (info : AnnouncedMeta)
    (started : Selection) (currentFlags : List Bool) (command : CoreCommand) :
    (slot.handle full info started currentFlags command).1.commands = slot.commands := by
  cases command with
  | selectionChanged =>
    simp only [handle]
    split
    · split <;> rfl
    · rfl
  | pause | resume =>
    simp only [handle]
    split <;> rfl
  | _ => rfl

theorem handle_told (slot : TorrentSlot) (full : Bool) (info : AnnouncedMeta)
    (started : Selection) (currentFlags : List Bool) (command : CoreCommand) :
    ∀ msg ∈ (slot.handle full info started currentFlags command).2, ∃ text,
      msg = .core (.status text) := by
  cases command with
  | selectionChanged =>
    simp only [handle]
    split
    · split <;> exact fun msg hmsg => absurd hmsg List.not_mem_nil
    · exact fun msg hmsg => absurd hmsg List.not_mem_nil
  | stopAll =>
    intro msg hmsg
    exact ⟨_, List.mem_singleton.mp hmsg⟩
  | _ => exact fun msg hmsg => absurd hmsg List.not_mem_nil

theorem announced_of_known {slot : TorrentSlot} {info : AnnouncedMeta} (h : ctx.Known info)
    (requested : Option (List Bool)) (missing : Bool) :
    (slot.announced info requested missing).1 =
      { slot with
        task := .running info
          (fileSelection info.toTorrentMeta (requested.filter (validFlags info.toTorrentMeta)))
          ((chosenFiles info.toTorrentMeta requested).getD ((info.files.map fun files =>
            List.replicate files.length true).getD [])) } := by
  rw [announced, pieces_of_known h]
  rfl

theorem announced_told (slot : TorrentSlot) (info : AnnouncedMeta)
    (requested : Option (List Bool)) (missing : Bool) :
    ∀ msg ∈ (slot.announced info requested missing).2, ∃ core, msg = .core core := by
  unfold announced
  dsimp only
  split
  · intro msg hmsg
    simp only [List.mem_cons, List.not_mem_nil, or_false] at hmsg
    obtain rfl | rfl := hmsg <;> exact ⟨_, rfl⟩
  · intro msg hmsg
    obtain rfl | hmsg := List.mem_cons.mp hmsg
    · exact ⟨_, rfl⟩
    · split at hmsg
      · simp only [List.mem_cons, List.not_mem_nil, or_false] at hmsg
        obtain rfl | rfl | rfl := hmsg <;> exact ⟨_, rfl⟩
      · exact absurd hmsg List.not_mem_nil

theorem Moves.acknowledges {slot slot' : TorrentSlot} {event : TaskEvent}
    {told : List TaskMessage} (h : Moves ctx slot event slot' told)
    (hack : .shutdownComplete ∈ told) : slot'.task = .ended := by
  cases h with
  | stops | stopped => rfl
  | handles full =>
    obtain ⟨text, he⟩ := handle_told _ _ _ _ _ _ _ hack
    cases he
  | announced =>
    obtain ⟨core, he⟩ := announced_told _ _ _ _ _ hack
    cases he
  | _ => simp at hack

theorem Moves.ended {slot slot' : TorrentSlot} {event : TaskEvent}
    {told : List TaskMessage} (h : Moves ctx slot event slot' told)
    (hended : slot.task = .ended) : slot'.task = .ended := by
  cases h with
  | stays => exact hended
  | fails _ htask | drops _ _ htask =>
    obtain htask | ⟨info, htask⟩ := htask
    all_goals simp_all
  | leaves | stops | stopped => rfl
  | loads _ htask | fetches _ _ htask | starts _ htask | handles _ _ htask | fetched htask
  | chooses _ htask | announced _ htask => cases htask.symm.trans hended

end TorrentSlot

def TaskStage.Known (ctx : TaskContext) : TaskStage → Prop
  | .waiting info => ctx.Known info ∨ info.pieces = []
  | .choosing info | .announcing info _ | .running info _ _ => ctx.Known info
  | _ => True

namespace TorrentSlot

/-- A task that has to stop will find out. -/
structure Sound (ctx : TaskContext) (slot : TorrentSlot) : Prop where
  known : slot.task.Known ctx
  gone : slot.session = none → slot.task = .ended
  stops : ∀ session, slot.session = some session → session.isShuttingDown = true →
    slot.task ≠ .stopping → slot.task ≠ .ended → .stopAll ∈ slot.commands

variable {slot : TorrentSlot}

theorem sound_finish (slot : TorrentSlot) : slot.finish.Sound ctx :=
  ⟨trivial, fun _ => rfl, fun _ _ _ _ hne => absurd rfl hne⟩

theorem sound_new (source : TorrentSource) (outputDir : Path) (selected : Option (List Bool)) :
    (new source outputDir selected).Sound ctx := by
  refine ⟨trivial, by rintro ⟨⟩, fun session hsession hdown => ?_⟩
  cases hsession
  cases hdown

theorem Sound.present (h : slot.Sound ctx) (htask : slot.task ≠ .ended) : slot.session ≠ none :=
  fun hnone => htask (h.gone hnone)

theorem Sound.go (h : slot.Sound ctx) {task : TaskStage} (htask : slot.task ≠ .ended)
    (hstopping : slot.task ≠ .stopping) (hknown : task.Known ctx) :
    { slot with task := task }.Sound ctx :=
  ⟨hknown, fun hnone => absurd hnone (h.present htask),
    fun session hsession hdown _ _ => h.stops session hsession hdown hstopping htask⟩

theorem Sound.take (h : slot.Sound ctx) {command : CoreCommand} {commands : List CoreCommand}
    (hcommands : slot.commands = command :: commands) (hstop : command ≠ .stopAll) :
    { slot with commands := commands }.Sound ctx := by
  refine ⟨h.known, h.gone, fun session hsession hdown hstopping hended => ?_⟩
  have hmem := h.stops session hsession hdown hstopping hended
  rw [hcommands] at hmem
  exact (List.mem_cons.mp hmem).resolve_left fun he => hstop he.symm

theorem Sound.moves {slot' : TorrentSlot} {event : TaskEvent} {told : List TaskMessage}
    (h : slot.Sound ctx) (hmoves : Moves ctx slot event slot' told) : slot'.Sound ctx := by
  have hknown := h.known
  cases hmoves with
  | stays => exact h
  | fails | leaves | stops | stopped => exact sound_finish slot
  | loads _ htask hload =>
    refine h.go (by rw [htask]; rintro ⟨⟩) (by rw [htask]; rintro ⟨⟩) ?_
    exact (loadSource_ok hload).imp_right fun hlinked => hlinked.empty.1
  | drops hcommands hstop _ => exact h.take hcommands hstop
  | fetches _ hcommands htask _ =>
    exact (h.take hcommands (by rintro ⟨⟩)).go (by rw [htask]; rintro ⟨⟩) (by rw [htask]; rintro ⟨⟩) trivial
  | starts hcommands htask hpieces =>
    rw [htask] at hknown
    exact (h.take hcommands (by rintro ⟨⟩)).go (by rw [htask]; rintro ⟨⟩) (by rw [htask]; rintro ⟨⟩)
      (hknown.resolve_right hpieces)
  | @handles command commands info started currentFlags _ full hcommands htask =>
    rw [htask] at hknown
    have htask' : { slot with commands := commands }.task = .running info started currentFlags :=
      htask
    have hkept := (Moves.handles full hcommands htask : Moves ctx slot event _ _).kept
    have hpresent := h.present (by rw [htask]; rintro ⟨⟩)
    by_cases hstop : command = .stopAll
    · subst hstop
      exact ⟨trivial, fun hnone => absurd hnone hpresent, fun _ _ _ hne => absurd rfl hne⟩
    · obtain ⟨flags, hrun⟩ := @handle_task _ full _ _ _ _ hstop htask'
      refine ⟨by rw [hrun]; exact hknown, fun hnone => absurd (hkept.1 ▸ hnone) hpresent,
        fun session hsession hdown _ _ => ?_⟩
      rw [handle_commands]
      exact (h.take hcommands hstop).stops session (hkept.1 ▸ hsession) hdown (by rw [htask']; rintro ⟨⟩)
        (by rw [htask']; rintro ⟨⟩)
  | fetched htask hparse =>
    refine h.go (by rw [htask]; rintro ⟨⟩) (by rw [htask]; rintro ⟨⟩) ?_
    exact ⟨_, .inr ⟨_, _, hparse⟩, rfl⟩
  | chooses _ htask =>
    rw [htask] at hknown
    exact h.go (by rw [htask]; rintro ⟨⟩) (by rw [htask]; rintro ⟨⟩) hknown
  | announced _ htask =>
    rw [htask] at hknown
    rw [announced_of_known hknown]
    exact h.go (by rw [htask]; rintro ⟨⟩) (by rw [htask]; rintro ⟨⟩) hknown

@[simp] theorem send_session (slot : TorrentSlot) (command : CoreCommand) :
    (slot.send command).session = slot.session := by
  unfold send
  split <;> rfl

@[simp] theorem send_task (slot : TorrentSlot) (command : CoreCommand) :
    (slot.send command).task = slot.task := by
  unfold send
  split <;> rfl

@[simp] theorem send_selection (slot : TorrentSlot) (command : CoreCommand) :
    (slot.send command).selection = slot.selection := by
  unfold send
  split <;> rfl

@[simp] theorem send_sent (slot : TorrentSlot) (command : CoreCommand) :
    (slot.send command).sent = slot.sent := by
  unfold send
  split <;> rfl

@[simp] theorem send_source (slot : TorrentSlot) (command : CoreCommand) :
    (slot.send command).source = slot.source := by
  unfold send
  split <;> rfl

@[simp] theorem send_outputDir (slot : TorrentSlot) (command : CoreCommand) :
    (slot.send command).outputDir = slot.outputDir := by
  unfold send
  split <;> rfl

theorem send_commands (htask : slot.task ≠ .ended) (command : CoreCommand) :
    (slot.send command).commands = slot.commands ++ [command] := by
  rw [send, if_neg htask]

theorem mem_send {command other : CoreCommand} (h : other ∈ (slot.send command).commands) :
    other ∈ slot.commands ∨ other = command := by
  unfold send at h
  split at h
  · exact .inl h
  · exact (List.mem_append.mp h).imp_right List.mem_singleton.mp

theorem mem_send_of_mem {command other : CoreCommand} (h : other ∈ slot.commands) :
    other ∈ (slot.send command).commands := by
  unfold send
  split
  · exact h
  · exact List.mem_append_left _ h

theorem Sound.send (h : slot.Sound ctx) (command : CoreCommand) :
    (slot.send command).Sound ctx := by
  refine ⟨?_, ?_, fun session hsession hdown hstopping hended => ?_⟩
  · rw [send_task]
    exact h.known
  · rw [send_session, send_task]
    exact h.gone
  · rw [send_session] at hsession
    rw [send_task] at hstopping hended
    exact mem_send_of_mem (h.stops session hsession hdown hstopping hended)

theorem Sound.stop (h : slot.Sound ctx) (session : TorrentSessionState) :
    ({ slot with session := some session }.send .stopAll).Sound ctx := by
  refine ⟨?_, ?_, fun session' hsession hdown hstopping hended => ?_⟩
  · rw [send_task]
    exact h.known
  · rw [send_session]
    rintro ⟨⟩
  · rw [send_task] at hended
    rw [send_commands hended]
    exact List.mem_append_right _ (List.mem_singleton.mpr rfl)

theorem Sound.keep (h : slot.Sound ctx) {session session' : TorrentSessionState}
    (hsession : slot.session = some session)
    (hdown : session'.isShuttingDown = session.isShuttingDown) :
    { slot with session := some session' }.Sound ctx := by
  refine ⟨h.known, by rintro ⟨⟩, fun other hother hshut => ?_⟩
  cases hother
  exact h.stops session hsession (hdown ▸ hshut)

theorem Sound.shutDown (h : slot.Sound ctx) : slot.shutDown.Sound ctx := by
  unfold TorrentSlot.shutDown
  split
  case h_1 session hsession =>
    split
    · exact h
    · exact h.stop _
  case h_2 => exact h

theorem pump_kept (session : TorrentSessionState) (msg : TaskMessage) :
    (session.pump msg).isShuttingDown = session.isShuttingDown ∧
      (session.pump msg).swarmStarted = session.swarmStarted ∧
      (session.pump msg).removeRequested = session.removeRequested ∧
      (session.pump msg).deleteRequested = session.deleteRequested ∧
      ((session.pump msg).info = session.info ∨ (session.pump msg).info = msg.info?) := by
  cases msg with
  | core msg => cases msg <;> exact ⟨rfl, rfl, rfl, rfl, .inl rfl⟩
  | torrentLoaded | metadataReady => exact ⟨rfl, rfl, rfl, rfl, .inr rfl⟩
  | _ => exact ⟨rfl, rfl, rfl, rfl, .inl rfl⟩

theorem Sound.pump (h : slot.Sound ctx) (msg : TaskMessage) :
    { slot with session := slot.session.map (TorrentSessionState.pump · msg) }.Sound ctx := by
  cases hsession : slot.session with
  | none => exact ⟨h.known, fun _ => h.gone hsession, fun _ hnone => by cases hnone⟩
  | some session => exact h.keep hsession (pump_kept session msg).1

theorem Sound.leave (h : slot.Sound ctx) (htask : slot.task = .ended) :
    { slot with session := none }.Sound ctx :=
  ⟨h.known, fun _ => htask, fun _ hnone => by cases hnone⟩

theorem Sound.clicked (h : slot.Sound ctx) {session : TorrentSessionState}
    (hsession : slot.session = some session) (click : Click) :
    (TorTorApp.clicked slot session click).Sound ctx := by
  cases click with
  | startSwarm =>
    simp only [TorTorApp.clicked]
    split
    · exact h
    · apply Sound.send
      exact h.keep hsession rfl
  | pause =>
    simp only [TorTorApp.clicked]
    split
    · exact h
    · apply Sound.send
      exact h.keep hsession rfl
  | resume =>
    simp only [TorTorApp.clicked]
    split
    · exact h
    · apply Sound.send
      exact h.keep hsession rfl
  | remove files =>
    simp only [TorTorApp.clicked]
    split
    · exact h
    · exact h.stop _
  | pick flags =>
    have hpicked : { slot with selection := some flags }.Sound ctx := ⟨h.known, h.gone, h.stops⟩
    simp only [TorTorApp.clicked]
    split
    · exact hpicked.send _
    · exact hpicked

end TorrentSlot

namespace TorTorApp

def pumpedSlot (messages : List (Nat × TaskMessage)) (closeRequested : Bool) (id : Nat)
    (slot : TorrentSlot) : TorrentSlot :=
  (messages.filter (·.1 = id)).foldl
    (fun slot message => { slot with session := slot.session.map (·.pump message.2) })
    (if closeRequested then slot.shutDown else slot)

def looked (messages : List (Nat × TaskMessage)) (closeRequested : Bool) (id : Nat)
    (slot : TorrentSlot) : TorrentSlot :=
  let pumped := pumpedSlot messages closeRequested id slot
  if (id, .shutdownComplete) ∈ messages then { pumped with session := none } else pumped

theorem foldl_pumpMessage (messages : List (Nat × TaskMessage)) (slots : List TorrentSlot)
    (id : Nat) : (messages.foldl pumpMessage slots)[id]? = slots[id]?.map fun slot =>
      (messages.filter (·.1 = id)).foldl
        (fun slot message => { slot with session := slot.session.map (·.pump message.2) })
        slot := by
  induction messages generalizing slots with
  | nil => simp
  | cons message messages ih =>
    rw [List.foldl_cons, ih, pumpMessage, List.getElem?_modify]
    by_cases hid : message.1 = id
    · cases hslot : slots[id]? <;> simp [hid]
    · cases hslot : slots[id]? <;> simp [hid]

theorem leave_slots (self : TorTorApp) (id other : Nat) :
    (self.leave id).slots[other]? = self.slots[other]?.map fun slot =>
      if other = id then { slot with session := none } else slot := by
  unfold leave
  by_cases hother : other = id
  · subst hother
    cases hslot : self.slots[other]? with
    | none => simp [hslot]
    | some slot =>
      cases hsession : slot.session with
      | none =>
        have hsame : { slot with session := none } = slot := by rw [← hsession]
        simp [hslot, hsession, hsame]
      | some session =>
        have hlt := (List.getElem?_eq_some_iff.mp hslot).1
        simp [hsession, hlt]
  · have hkeep (slots : List TorrentSlot) : slots[other]?.map (fun slot =>
        if other = id then { slot with session := none } else slot) = slots[other]? := by
      cases slots[other]? <;> simp [hother]
    rw [hkeep]
    split
    · rfl
    · split
      · rfl
      · exact List.getElem?_set_ne (Ne.symm hother)

theorem foldl_leave_slots (ids : List Nat) (self : TorTorApp) (id : Nat) :
    (ids.foldl leave self).slots[id]? = self.slots[id]?.map fun slot =>
      if id ∈ ids then { slot with session := none } else slot := by
  induction ids generalizing self with
  | nil => simp
  | cons first ids ih =>
    rw [List.foldl_cons, ih, leave_slots, Option.map_map]
    congr 1
    funext slot
    by_cases hfirst : id = first
    · simp [hfirst]
    · simp [hfirst]

theorem closeEmpty_kept (self : TorTorApp) : self.closeEmpty.slots = self.slots ∧
    self.closeEmpty.entries = self.entries ∧ self.closeEmpty.messages = self.messages ∧
    self.closeEmpty.deleted = self.deleted := by
  unfold closeEmpty
  split <;> exact ⟨rfl, rfl, rfl, rfl⟩

theorem leave_kept (self : TorTorApp) (id : Nat) : (self.leave id).messages = self.messages ∧
    (self.leave id).closed = self.closed ∧
    (self.leave id).quitRequested = self.quitRequested := by
  unfold leave
  split
  · exact ⟨rfl, rfl, rfl⟩
  · split <;> exact ⟨rfl, rfl, rfl⟩

theorem foldl_leave_kept (ids : List Nat) (self : TorTorApp) :
    (ids.foldl leave self).messages = self.messages ∧
      (ids.foldl leave self).closed = self.closed ∧
      (ids.foldl leave self).quitRequested = self.quitRequested := by
  induction ids generalizing self with
  | nil => exact ⟨rfl, rfl, rfl⟩
  | cons id ids ih =>
    obtain ⟨hmessages, hclosed, hquit⟩ := leave_kept self id
    obtain ⟨hmessages', hclosed', hquit'⟩ := ih (self.leave id)
    exact ⟨hmessages'.trans hmessages, hclosed'.trans hclosed, hquit'.trans hquit⟩

def pumped (self : TorTorApp) (closeRequested : Bool) : TorTorApp :=
  (if closeRequested then self.requestQuit else self).pumpMessages.1

theorem pumped_slots (self : TorTorApp) (closeRequested : Bool) (id : Nat) :
    (self.pumped closeRequested).slots[id]? =
      self.slots[id]?.map (pumpedSlot self.messages closeRequested id) := by
  cases closeRequested with
  | false => exact foldl_pumpMessage _ _ id
  | true =>
    simp only [pumped, if_true, pumpMessages]
    rw [foldl_pumpMessage]
    simp only [requestQuit, List.getElem?_map, Option.map_map]
    rfl

theorem pumped_kept (self : TorTorApp) (closeRequested : Bool) :
    (self.pumped closeRequested).messages = [] ∧
      (self.pumped closeRequested).entries = self.entries ∧
      (self.pumped closeRequested).deleted = self.deleted ∧
      (self.pumped closeRequested).closed = self.closed ∧
      ((self.pumped closeRequested).quitRequested = true ↔
        closeRequested = true ∨ self.quitRequested = true) := by
  cases closeRequested with
  | false => exact ⟨rfl, rfl, rfl, rfl, by simp [pumped, pumpMessages]⟩
  | true => exact ⟨rfl, rfl, rfl, rfl, by simp [pumped, pumpMessages, requestQuit]⟩

theorem frame_eq (self : TorTorApp) (closeRequested : Bool) : ∃ ids : List Nat,
    self.frame closeRequested = (ids.foldl leave (self.pumped closeRequested)).closeEmpty ∧
      ∀ id, id ∈ ids ↔ (id, .shutdownComplete) ∈ self.messages := by
  have hmessages : (if closeRequested then self.requestQuit else self).messages = self.messages := by
    cases closeRequested <;> rfl
  refine ⟨_, rfl, fun id => ?_⟩
  simp [hmessages, List.mem_filterMap]

theorem frame_slots (self : TorTorApp) (closeRequested : Bool) (id : Nat) :
    (self.frame closeRequested).slots[id]? =
      self.slots[id]?.map (looked self.messages closeRequested id) := by
  obtain ⟨ids, hframe, hids⟩ := frame_eq self closeRequested
  rw [hframe, (closeEmpty_kept _).1, foldl_leave_slots, pumped_slots, Option.map_map]
  congr 1
  funext slot
  simp only [Function.comp_apply, looked, hids]

theorem frame_messages (self : TorTorApp) (closeRequested : Bool) :
    (self.frame closeRequested).messages = [] := by
  obtain ⟨ids, hframe, -⟩ := frame_eq self closeRequested
  rw [hframe, (closeEmpty_kept _).2.2.1, (foldl_leave_kept _ _).1, (pumped_kept _ _).1]

theorem all_isNone_iff (slots : List TorrentSlot) : slots.all (·.session.isNone) = true ↔
    ∀ (id : Nat) (slot : TorrentSlot), slots[id]? = some slot → slot.session = none := by
  rw [List.all_eq_true]
  constructor
  · intro hall id slot hslot
    exact Option.isNone_iff_eq_none.mp (hall slot (List.mem_of_getElem? hslot))
  · intro hall slot hmem
    obtain ⟨id, hslot⟩ := List.mem_iff_getElem?.mp hmem
    exact Option.isNone_iff_eq_none.mpr (hall id slot hslot)

theorem closeEmpty_closed (self : TorTorApp) : self.closeEmpty.closed = true ↔
    self.closed = true ∨ self.quitRequested = true ∧ self.slots.all (·.session.isNone) = true := by
  unfold closeEmpty
  rw [← Bool.and_eq_true]
  split
  case isTrue hempty => exact ⟨fun _ => .inr hempty, fun _ => rfl⟩
  case isFalse hno => rw [or_iff_left hno]

theorem frame_closed (self : TorTorApp) (closeRequested : Bool) :
    (self.frame closeRequested).closed = true ↔ self.closed = true ∨
      (closeRequested = true ∨ self.quitRequested = true) ∧
        ∀ (id : Nat) (slot : TorrentSlot),
          (self.frame closeRequested).slots[id]? = some slot → slot.session = none := by
  obtain ⟨ids, hframe, -⟩ := frame_eq self closeRequested
  obtain ⟨-, -, -, hclosed, hquit⟩ := pumped_kept self closeRequested
  rw [← all_isNone_iff, hframe, (closeEmpty_kept _).1, closeEmpty_closed,
    (foldl_leave_kept _ _).2.1, (foldl_leave_kept _ _).2.2, hclosed, hquit]

section Looked

variable (messages : List (Nat × TaskMessage)) (closeRequested : Bool) (id : Nat)
  (slot : TorrentSlot)

theorem pumped_induction {P : TorrentSlot → Prop} (hshut : ∀ slot, P slot → P slot.shutDown)
    (hsession : ∀ slot msg, (id, msg) ∈ messages → P slot →
      P { slot with session := slot.session.map (TorrentSessionState.pump · msg) })
    (h : P slot) : P (pumpedSlot messages closeRequested id slot) := by
  have hasked : P (if closeRequested then slot.shutDown else slot) := by
    split
    · exact hshut slot h
    · exact h
  have hpumped (own : List (Nat × TaskMessage)) (hown : ∀ message ∈ own, (id, message.2) ∈ messages)
      (slot : TorrentSlot) (h : P slot) : P (own.foldl
        (fun slot message => { slot with session := slot.session.map (·.pump message.2) })
        slot) := by
    induction own generalizing slot with
    | nil => exact h
    | cons message own ih =>
      obtain ⟨hhead, hrest⟩ := List.forall_mem_cons.mp hown
      exact ih hrest _ (hsession slot message.2 hhead h)
  refine hpumped _ (fun message hmem => ?_) _ hasked
  obtain ⟨hmem, hid⟩ := List.mem_filter.mp hmem
  rwa [← of_decide_eq_true hid]

theorem looked_induction {P : TorrentSlot → Prop} (hshut : ∀ slot, P slot → P slot.shutDown)
    (hsession : ∀ slot msg, (id, msg) ∈ messages → P slot →
      P { slot with session := slot.session.map (TorrentSessionState.pump · msg) })
    (hleave : (id, .shutdownComplete) ∈ messages → ∀ slot, P slot →
      P { slot with session := none }) (h : P slot) :
    P (looked messages closeRequested id slot) := by
  have hpumped := pumped_induction messages closeRequested id slot hshut hsession h
  unfold looked
  dsimp only
  split
  case isTrue hack => exact hleave hack _ hpumped
  case isFalse => exact hpumped

theorem shutDown_kept : slot.shutDown.task = slot.task ∧ slot.shutDown.selection = slot.selection ∧
    slot.shutDown.sent = slot.sent ∧ slot.shutDown.source = slot.source ∧
    slot.shutDown.outputDir = slot.outputDir := by
  unfold TorrentSlot.shutDown
  split
  · split
    · exact ⟨rfl, rfl, rfl, rfl, rfl⟩
    · simp
  · exact ⟨rfl, rfl, rfl, rfl, rfl⟩

theorem looked_kept : (looked messages closeRequested id slot).task = slot.task ∧
    (looked messages closeRequested id slot).selection = slot.selection ∧
    (looked messages closeRequested id slot).sent = slot.sent ∧
    (looked messages closeRequested id slot).source = slot.source ∧
    (looked messages closeRequested id slot).outputDir = slot.outputDir := by
  apply looked_induction (P := fun other => other.task = slot.task ∧
    other.selection = slot.selection ∧ other.sent = slot.sent ∧ other.source = slot.source ∧
    other.outputDir = slot.outputDir)
  · intro other h
    obtain ⟨h₁, h₂, h₃, h₄, h₅⟩ := shutDown_kept other
    rw [h₁, h₂, h₃, h₄, h₅]
    exact h
  · exact fun _ _ _ h => h
  · exact fun _ _ h => h
  · exact ⟨rfl, rfl, rfl, rfl, rfl⟩

/-- A torrent leaves the dashboard when its task has acknowledged, and not before. -/
theorem looked_session : (looked messages closeRequested id slot).session = none ↔
    slot.session = none ∨ (id, .shutdownComplete) ∈ messages := by
  have hasked : (if closeRequested then slot.shutDown else slot).session = none ↔
      slot.session = none := by
    split
    · unfold TorrentSlot.shutDown
      split
      case h_1 session hsession => split <;> simp [hsession]
      case h_2 => exact Iff.rfl
    · exact Iff.rfl
  have hpumped (messages : List (Nat × TaskMessage)) (slot : TorrentSlot) :
      (messages.foldl
        (fun slot message => { slot with session := slot.session.map (·.pump message.2) })
        slot).session = none ↔ slot.session = none := by
    induction messages generalizing slot with
    | nil => exact Iff.rfl
    | cons message messages ih => rw [List.foldl_cons, ih, Option.map_eq_none_iff]
  unfold looked
  dsimp only
  split
  case isTrue hack => exact ⟨fun _ => .inr hack, fun _ => rfl⟩
  case isFalse hack => rw [pumpedSlot, hpumped, hasked, or_iff_left hack]

end Looked

structure Sound (ctx : TaskContext) (s : TorTorApp) : Prop where
  slots : ∀ (id : Nat) (slot : TorrentSlot), s.slots[id]? = some slot → slot.Sound ctx
  acknowledged : ∀ id, (id, .shutdownComplete) ∈ s.messages →
    ∃ slot, s.slots[id]? = some slot ∧ slot.task = .ended
  closed : s.closed = true → ∀ (id : Nat) (slot : TorrentSlot), s.slots[id]? = some slot →
    slot.session = none

theorem sound_new (entries : List SessionEntry) (initial : List (TorrentSource × Path)) :
    (new entries initial).Sound ctx := by
  refine ⟨fun id slot hslot => ?_, fun id hack => absurd hack List.not_mem_nil,
    fun hclosed => by cases hclosed⟩
  have hmem := List.mem_of_getElem? hslot
  obtain hmem | hmem := List.mem_append.mp hmem
  · obtain ⟨entry, -, rfl⟩ := List.mem_map.mp hmem
    exact TorrentSlot.sound_new ..
  · obtain ⟨⟨source, outputDir⟩, -, rfl⟩ := List.mem_map.mp hmem
    exact TorrentSlot.sound_new ..

theorem Sound.frame {s : TorTorApp} (h : s.Sound ctx) (closeRequested : Bool) :
    (s.frame closeRequested).Sound ctx := by
  refine ⟨fun id slot hslot => ?_, fun id hack => ?_, fun hclosed => ?_⟩
  · rw [frame_slots] at hslot
    obtain ⟨before, hbefore, rfl⟩ := Option.map_eq_some_iff.mp hslot
    have hended (hack : (id, .shutdownComplete) ∈ s.messages) : before.task = .ended := by
      obtain ⟨other, hother, hended⟩ := h.acknowledged id hack
      cases hbefore.symm.trans hother
      exact hended
    have hkept : (looked s.messages closeRequested id before).Sound ctx ∧
        (looked s.messages closeRequested id before).task = before.task := by
      apply looked_induction (P := fun slot => slot.Sound ctx ∧ slot.task = before.task)
      · exact fun slot hslot => ⟨hslot.1.shutDown, (shutDown_kept slot).1.trans hslot.2⟩
      · exact fun slot msg _ hslot => ⟨hslot.1.pump msg, hslot.2⟩
      · exact fun hack slot hslot => ⟨hslot.1.leave (hslot.2.trans (hended hack)), hslot.2⟩
      · exact ⟨h.slots id before hbefore, rfl⟩
    exact hkept.1
  · rw [frame_messages] at hack
    exact absurd hack List.not_mem_nil
  · intro id slot hslot
    obtain hclosed | ⟨-, hall⟩ := (frame_closed s closeRequested).mp hclosed
    · rw [frame_slots] at hslot
      obtain ⟨before, hbefore, rfl⟩ := Option.map_eq_some_iff.mp hslot
      exact (looked_session ..).mpr (.inl (h.closed hclosed id before hbefore))
    · exact hall id slot hslot

theorem Sound.set {s : TorTorApp} (h : s.Sound ctx) {id : Nat} {slot slot' : TorrentSlot}
    (hslot : s.slots[id]? = some slot) (hslot' : slot'.Sound ctx)
    (hended : slot.task = .ended → slot'.task = .ended)
    (hsession : slot.session = none → slot'.session = none) (entries : List SessionEntry)
    (told : List (Nat × TaskMessage))
    (htold : ∀ other, (other, .shutdownComplete) ∈ told → other = id ∧ slot'.task = .ended) :
    { s with
      slots := s.slots.set id slot'
      entries := entries
      messages := s.messages ++ told }.Sound ctx := by
  have hlt := (List.getElem?_eq_some_iff.mp hslot).1
  have hget (other : Nat) : (s.slots.set id slot')[other]? =
      if other = id then some slot' else s.slots[other]? := by
    by_cases hother : other = id
    · subst hother
      simp [hlt]
    · rw [List.getElem?_set_ne (Ne.symm hother), if_neg hother]
  refine ⟨fun other after hafter => ?_, fun other hack => ?_, fun hclosed other after hafter => ?_⟩
  · rw [hget] at hafter
    split at hafter
    · cases hafter
      exact hslot'
    · exact h.slots other after hafter
  · have hno : other ≠ id → ∃ slot, s.slots[other]? = some slot ∧ slot.task = .ended := by
      intro hne
      obtain hack | hack := List.mem_append.mp hack
      · exact h.acknowledged other hack
      · exact absurd (htold other hack).1 hne
    by_cases hother : other = id
    · refine ⟨slot', by rw [hget, if_pos hother], ?_⟩
      obtain hack | hack := List.mem_append.mp hack
      · obtain ⟨before, hbefore, htask⟩ := h.acknowledged other hack
        rw [hother] at hbefore
        cases hslot.symm.trans hbefore
        exact hended htask
      · exact (htold other hack).2
    · obtain ⟨before, hbefore, htask⟩ := hno hother
      exact ⟨before, by rw [hget, if_neg hother, hbefore], htask⟩
  · rw [hget] at hafter
    split at hafter
    · cases hafter
      exact hsession (h.closed hclosed id slot hslot)
    · exact h.closed hclosed other after hafter

theorem clicked_task (slot : TorrentSlot) (session : TorrentSessionState) (click : Click) :
    (clicked slot session click).task = slot.task := by
  cases click <;> simp only [clicked] <;> split <;> simp

theorem Sound.click {s : TorTorApp} (h : s.Sound ctx) (id : Nat) (click : Click) :
    (s.click id click).Sound ctx := by
  unfold TorTorApp.click
  split
  · exact h
  case h_2 slot hslot =>
    split
    · exact h
    case h_2 session hsession =>
      have hclicked (entries : List SessionEntry) :
          { s with slots := s.slots.set id (clicked slot session click), entries := entries }.Sound
            ctx := by
        have hset := h.set hslot ((h.slots id slot hslot).clicked hsession click)
          (fun hended => (clicked_task slot session click).trans hended)
          (fun hnone => absurd hnone (by rw [hsession]; rintro ⟨⟩)) entries []
          (fun _ hack => absurd hack List.not_mem_nil)
        rwa [List.append_nil] at hset
      split
      · split
        · exact hclicked _
        · exact h
      · exact hclicked _

theorem Sound.step {s : TorTorApp} (h : s.Sound ctx) (event : DashboardEvent) :
    (s.step ctx event).Sound ctx := by
  cases event with
  | frame closeRequested =>
    simp only [TorTorApp.step]
    split
    · exact h
    · exact h.frame closeRequested
  | add source outputDir =>
    simp only [TorTorApp.step]
    split
    · exact h
    case isFalse hopen =>
      refine ⟨fun id slot hslot => ?_, fun id hack => ?_, fun hclosed => absurd hclosed hopen⟩
      · obtain hmem | hmem := List.mem_append.mp (List.mem_of_getElem? hslot)
        · obtain ⟨other, hother⟩ := List.mem_iff_getElem?.mp hmem
          exact h.slots other slot hother
        · rw [List.mem_singleton.mp hmem]
          exact TorrentSlot.sound_new ..
      · obtain ⟨slot, hslot, hended⟩ := h.acknowledged id hack
        refine ⟨slot, ?_, hended⟩
        rw [List.getElem?_append_left (List.getElem?_eq_some_iff.mp hslot).1]
        exact hslot
  | click id click =>
    simp only [TorTorApp.step]
    split
    · exact h
    · exact h.click id click
  | task id event =>
    simp only [TorTorApp.step]
    split
    · exact h
    case h_2 slot hslot =>
      have hmoves := @TorrentSlot.moves_step ctx slot event
      refine h.set hslot ((h.slots id slot hslot).moves hmoves) hmoves.ended
        (fun hnone => hmoves.kept.1.trans hnone) s.entries _ fun other hack => ?_
      obtain ⟨msg, hmsg, he⟩ := List.mem_map.mp hack
      cases he
      exact ⟨rfl, hmoves.acknowledges hmsg⟩
  | tells id msg =>
    refine ⟨h.slots, fun other hack => ?_, h.closed⟩
    obtain hack | hack := List.mem_append.mp hack
    · exact h.acknowledged other hack
    · cases List.mem_singleton.mp hack

/-- The task of the torrent has given up, or is going to: nothing will answer when the torrent is
told to stop. -/
def Stuck (ctx : TaskContext) (s : TorTorApp) (id : Nat) : Prop :=
  ∃ slot, s.slots[id]? = some slot ∧ slot.session ≠ none ∧
    (slot.task = .ended ∧ (id, .shutdownComplete) ∉ s.messages ∨
      slot.task = .loading ∧ ∀ file info, loadSource ctx slot.source file ≠ .ok info)

end TorTorApp

namespace TorrentSlot

theorem Moves.of_ended {slot slot' : TorrentSlot} {event : TaskEvent}
    {told : List TaskMessage} (h : Moves ctx slot event slot' told)
    (hended : slot.task = .ended) : told = [] := by
  cases h with
  | stays | leaves | drops | starts => rfl
  | fails _ htask | stops _ htask =>
    obtain htask | ⟨info, htask⟩ := htask
    all_goals simp_all
  | loads _ htask | fetches _ _ htask | handles _ _ htask | fetched htask | chooses _ htask
  | announced _ htask | stopped htask => cases htask.symm.trans hended

theorem Moves.of_loading {slot slot' : TorrentSlot} {event : TaskEvent}
    {told : List TaskMessage} (h : Moves ctx slot event slot' told) (hloading : slot.task = .loading)
    (hload : ∀ file info, loadSource ctx slot.source file ≠ .ok info)
    (hpresent : slot.session ≠ none) :
    .shutdownComplete ∉ told ∧ (slot'.task = .ended ∨ slot' = slot) := by
  cases h with
  | stays => exact ⟨List.not_mem_nil, .inr rfl⟩
  | fails => exact ⟨by simp, .inl rfl⟩
  | loads _ _ hok => exact absurd hok (hload _ _)
  | leaves hnone => exact absurd hnone hpresent
  | drops _ _ htask | stops _ htask =>
    obtain ⟨info, htask⟩ | ⟨info, htask⟩ := htask
    all_goals simp_all
  | fetches _ _ htask | starts _ htask | handles _ _ htask | fetched htask | chooses _ htask
  | announced _ htask | stopped htask => cases htask.symm.trans hloading

end TorrentSlot

namespace TorTorApp

theorem click_slots (s : TorTorApp) (id other : Nat) (click : Click) (slot : TorrentSlot)
    (hslot : s.slots[other]? = some slot) : ∃ slot', (s.click id click).slots[other]? = some slot' ∧
      slot'.task = slot.task ∧ slot'.source = slot.source ∧
      (slot'.session = none ↔ slot.session = none) := by
  have hsame : ∃ slot', s.slots[other]? = some slot' ∧ slot'.task = slot.task ∧
      slot'.source = slot.source ∧ (slot'.session = none ↔ slot.session = none) :=
    ⟨slot, hslot, rfl, rfl, Iff.rfl⟩
  unfold TorTorApp.click
  split
  · exact hsame
  case h_2 before hbefore =>
    split
    · exact hsame
    case h_2 session hsession =>
      have hclicked : ∃ slot', (s.slots.set id (clicked before session click))[other]? =
          some slot' ∧ slot'.task = slot.task ∧ slot'.source = slot.source ∧
          (slot'.session = none ↔ slot.session = none) := by
        by_cases hother : other = id
        · subst hother
          cases hslot.symm.trans hbefore
          refine ⟨clicked slot session click, by simp [(List.getElem?_eq_some_iff.mp hslot).1],
            clicked_task .., ?_, ?_⟩
          · cases click <;> simp only [clicked] <;> split <;> simp
          · rw [hsession]
            cases click <;> simp only [clicked] <;> split <;> simp [hsession]
        · rw [List.getElem?_set_ne (Ne.symm hother)]
          exact hsame
      split
      · split
        · exact hclicked
        · exact hsame
      · exact hclicked

theorem Stuck.step {s : TorTorApp} {id : Nat} (hsound : s.Sound ctx) (h : Stuck ctx s id)
    (event : DashboardEvent) : Stuck ctx (s.step ctx event) id := by
  have hstuck := h
  obtain ⟨slot, hslot, hpresent, hcase⟩ := h
  have hack : (id, .shutdownComplete) ∉ s.messages := by
    intro hack
    obtain ⟨hended, hno⟩ | ⟨hloading, -⟩ := hcase
    · exact hno hack
    · obtain ⟨other, hother, hended⟩ := hsound.acknowledged id hack
      cases hslot.symm.trans hother
      cases hloading.symm.trans hended
  cases event with
  | frame closeRequested =>
    simp only [TorTorApp.step]
    split
    · exact hstuck
    · obtain ⟨htask, -, -, hsource, -⟩ := looked_kept s.messages closeRequested id slot
      refine ⟨looked s.messages closeRequested id slot, by rw [frame_slots, hslot]; rfl, ?_, ?_⟩
      · rw [ne_eq, looked_session]
        exact not_or.mpr ⟨hpresent, hack⟩
      · rw [frame_messages, htask, hsource]
        exact hcase.imp_left fun hended => ⟨hended.1, List.not_mem_nil⟩
  | add source outputDir =>
    simp only [TorTorApp.step]
    split
    · exact hstuck
    · refine ⟨slot, ?_, hpresent, hcase⟩
      rw [List.getElem?_append_left (List.getElem?_eq_some_iff.mp hslot).1]
      exact hslot
  | click other click =>
    simp only [TorTorApp.step]
    split
    · exact hstuck
    · obtain ⟨slot', hslot', htask, hsource, hsession⟩ := click_slots s other id click slot hslot
      refine ⟨slot', hslot', fun hnone => hpresent (hsession.mp hnone), ?_⟩
      rw [htask, hsource]
      refine hcase.imp_left fun hended => ⟨hended.1, ?_⟩
      unfold TorTorApp.click
      repeat' split
      all_goals exact hack
  | task other event =>
    simp only [TorTorApp.step]
    split
    · exact hstuck
    case h_2 moved hmoved =>
      have hmoves := @TorrentSlot.moves_step ctx moved event
      by_cases hother : other = id
      · subst hother
        cases hslot.symm.trans hmoved
        have hget : (s.slots.set other (slot.step ctx event).1)[other]? =
            some (slot.step ctx event).1 := by
          simp [(List.getElem?_eq_some_iff.mp hslot).1]
        refine ⟨_, hget, hmoves.kept.1 ▸ hpresent, ?_⟩
        obtain ⟨hended, -⟩ | ⟨hloading, hload⟩ := hcase
        · rw [hmoves.of_ended hended]
          exact .inl ⟨hmoves.ended hended, by simpa using hack⟩
        · obtain ⟨htold, hended | hsame⟩ := hmoves.of_loading hloading hload hpresent
          · exact .inl ⟨hended, by simp [hack, htold]⟩
          · exact .inr (by rw [hsame]; exact ⟨hloading, hload⟩)
      · refine ⟨slot, ?_, hpresent, ?_⟩
        · rw [← hslot]
          exact List.getElem?_set_ne hother
        · refine hcase.imp_left fun hended => ⟨hended.1, ?_⟩
          simp [hack, hother]
  | tells other msg => exact ⟨slot, hslot, hpresent, hcase.imp_left fun hended =>
      ⟨hended.1, by simp [TorTorApp.step, hack]⟩⟩

end TorTorApp

end Tortor.System
