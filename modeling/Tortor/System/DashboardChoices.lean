import Tortor.System.DashboardLaws

/-! The files that the user chooses, from the picker to the coordinator. -/

namespace Tortor.System

open Tortor.Core Tortor.Lib

variable {ctx : TaskContext}

theorem fileSelection_currentFlags {info : TorrentMeta} (hw : info.WellFormed (totalSize info))
    (hcount : info.pieces.length < 2 ^ 32) (requested : Option (List Bool)) :
    fileSelection info (requested.filter (validFlags info)) =
      fileSelection info (some ((chosenFiles info requested).getD ((info.files.map fun files =>
        List.replicate files.length true).getD []))) := by
  cases hfiles : info.files with
  | none => simp [fileSelection, hfiles]
  | some files =>
    have hfrom (flags : List Bool) : fileSelection info (some flags) =
        .fromFiles files flags info.pieceLength info.pieces.length := by
      simp only [fileSelection, hfiles]
    have hall : fileSelection info (some (List.replicate files.length true)) =
        .all info.pieces.length := by
      rw [hfrom]
      refine fromFiles_eq_all hfiles hw hcount List.length_replicate fun p => ?_
      rw [Bool.eq_false_iff, ne_eq, Selection.unservable_fromFiles hw.pieceLength_pos]
      rintro ⟨-, i, hi, -⟩
      simp [List.getElem?_replicate] at hi
    cases hrequested : requested.filter (validFlags info) with
    | none =>
      rw [chosenFiles, hrequested]
      simp only [Option.filter_none, Option.getD_none, Option.map_some, Option.getD_some]
      rw [hall]
      simp [fileSelection]
    | some flags =>
      rw [chosenFiles, hrequested, Option.filter_some]
      cases hisAll : (fileSelection info (some flags)).isAll with
      | false => simp
      | true =>
        -- the flags are dropped: they leave out nothing that holds a byte
        have hlen := length_of_validFlags hfiles (Option.filter_eq_some_iff.mp hrequested).2
        simp only [Bool.not_true, Bool.false_eq_true, if_false, Option.getD_none, Option.map_some,
          Option.getD_some]
        rw [hall, hfrom]
        rw [hfrom, Selection.isAll, Bool.and_eq_true, beq_iff_eq, beq_iff_eq] at hisAll
        exact fromFiles_eq_all hfiles hw hcount hlen (Bitfield.count_eq_zero.mp hisAll.2)

theorem wellFormed_of_known {info : AnnouncedMeta} (h : ctx.Known info) :
    info.WellFormed (totalSize info.toTorrentMeta) := by
  obtain ⟨raw, hash, hbuilt⟩ := built_of_known h
  obtain ⟨total, hw⟩ := wellFormed_of_buildMeta hbuilt
  rwa [WellFormed.totalSize_eq hw]

theorem length_pieces_of_known (hbounded : ctx.decoder.Bounded) {info : AnnouncedMeta}
    (h : ctx.Known info) : info.pieces.length < 2 ^ 32 := by
  obtain ⟨accepted, haccepted, hsame⟩ := h
  obtain ⟨raw, hash, hle, hbuilt⟩ := built_of_accepted hbounded haccepted
  obtain ⟨_, _, -, -, -, -, -, -, -, he⟩ := buildMeta_ok hbuilt
  have hlength : info.pieces.length = raw.pieces.length / 20 := by
    rw [hsame, he]
    simp [TorrentMeta.new, digests]
  unfold MAX_TORRENT_SIZE at hle
  omega

namespace TaskStage

def info? : TaskStage → Option AnnouncedMeta
  | .waiting info | .fetching info | .choosing info | .announcing info _ | .running info _ _ =>
    some info
  | _ => none

def Shows (stage : TaskStage) (files : List TorrentFile) : Prop :=
  stage = .stopping ∨ stage = .ended ∨ ∃ info, stage.info? = some info ∧ info.files = some files

def Started : TaskStage → Prop
  | .fetching _ | .choosing _ | .announcing .. | .running .. => True
  | _ => False

end TaskStage

namespace TorrentSlot

def given (slot : TorrentSlot) (started : Selection) : Selection :=
  slot.sent.foldl (fun selection msg =>
    match msg with
    | .setSelection selection _ _ => selection
    | _ => selection) started

/-- The coordinator has what is chosen, or the task is still to be told about it. -/
def Fits (slot : TorrentSlot) : Prop :=
  match slot.task with
  | .loading => slot.sent = []
  | .waiting info => slot.sent = [] ∧ (info.pieces = [] → info.files = none)
  | .fetching info => slot.sent = [] ∧ info.files = none
  | .choosing _ => slot.sent = []
  | .announcing _ requested =>
    slot.sent = [] ∧ (.selectionChanged ∈ slot.commands ∨ requested = slot.selection)
  | .running info started currentFlags =>
    slot.given started = fileSelection info.toTorrentMeta (some currentFlags) ∧
      (.selectionChanged ∈ slot.commands ∨ slot.given started =
        fileSelection info.toTorrentMeta (slot.selection.filter (validFlags info.toTorrentMeta)))
  | .stopping | .ended => True

structure Chosen (slot : TorrentSlot) : Prop where
  started : ∀ session, slot.session = some session →
    .startSwarm ∈ slot.commands ∨ slot.task.Started → session.swarmStarted = true
  shown : ∀ session info files, slot.session = some session → session.info = some info →
    info.files = some files → slot.task.Shows files
  picked : .selectionChanged ∈ slot.commands → slot.task = .stopping ∨ slot.task = .ended ∨
    ∃ info flags, slot.task.info? = some info ∧ slot.selection = some flags ∧
      validFlags info.toTorrentMeta flags = true
  fits : slot.Fits

variable {slot slot' : TorrentSlot} {event : TaskEvent} {told : List TaskMessage}

theorem chosen_new (source : TorrentSource) (outputDir : Path) (selected : Option (List Bool)) :
    (new source outputDir selected).Chosen := by
  refine ⟨fun session _ hstart => ?_, fun session info files hsession hinfo => ?_,
    fun hmem => absurd hmem List.not_mem_nil, rfl⟩
  · obtain hmem | hstarted := hstart
    · exact absurd hmem List.not_mem_nil
    · exact hstarted.elim
  · cases hsession
    cases hinfo

theorem Chosen.shows {files : List TorrentFile} (h : slot.Chosen)
    (hmoves : Moves ctx slot event slot' told) (hshows : slot.task.Shows files) :
    slot'.task.Shows files := by
  have hfits := h.fits
  unfold TaskStage.Shows at hshows ⊢
  cases hmoves with
  | stays | drops => exact hshows
  | fails | leaves | stops | stopped => exact .inr (.inl rfl)
  | loads _ htask => simp [htask, TaskStage.info?] at hshows
  | fetches _ _ htask => simpa [htask, TaskStage.info?] using hshows
  | starts _ htask => simpa [htask, TaskStage.info?] using hshows
  | @handles command commands info started currentFlags _ full hcommands htask =>
    simp only [htask, TaskStage.info?, reduceCtorEq, Option.some.injEq, exists_eq_left',
      false_or] at hshows
    by_cases hstop : command = .stopAll
    · subst hstop
      exact .inl rfl
    · obtain ⟨flags, hrun⟩ :=
        @handle_task { slot with commands := commands } full _ _ _ _ hstop htask
      exact .inr (.inr ⟨info, by rw [hrun]; rfl, hshows⟩)
  | fetched htask =>
    rw [Fits, htask] at hfits
    simp [htask, TaskStage.info?, hfits.2] at hshows
  | chooses _ htask => simpa [htask, TaskStage.info?] using hshows
  | @announced info requested _ missing htask =>
    simp only [htask, TaskStage.info?, reduceCtorEq, Option.some.injEq, exists_eq_left',
      false_or] at hshows
    unfold TorrentSlot.announced
    dsimp only
    split
    · exact .inr (.inl rfl)
    · exact .inr (.inr ⟨info, rfl, hshows⟩)

theorem Moves.shows {info : AnnouncedMeta} {files : List TorrentFile}
    (hmoves : Moves ctx slot event slot' told) {msg : TaskMessage} (hmsg : msg ∈ told)
    (hinfo : msg.info? = some info) (hfiles : info.files = some files) :
    slot'.task.Shows files := by
  cases hmoves with
  | loads | fetched =>
    simp only [List.mem_cons, List.not_mem_nil, or_false] at hmsg
    first
    | obtain rfl | rfl := hmsg
      · cases hinfo
        exact .inr (.inr ⟨_, rfl, hfiles⟩)
      · cases hinfo
    | obtain rfl := hmsg
      cases hinfo
      exact .inr (.inr ⟨_, rfl, hfiles⟩)
  | handles =>
    obtain ⟨text, rfl⟩ := handle_told _ _ _ _ _ _ _ hmsg
    cases hinfo
  | announced =>
    obtain ⟨core, rfl⟩ := announced_told _ _ _ _ _ hmsg
    cases hinfo
  | fails =>
    simp only [List.mem_cons, List.not_mem_nil, or_false] at hmsg
    obtain rfl | rfl := hmsg <;> cases hinfo
  | fetches | stops | chooses | stopped =>
    rw [List.mem_singleton.mp hmsg] at hinfo
    cases hinfo
  | stays | leaves | drops | starts => cases hmsg

theorem Moves.started (hmoves : Moves ctx slot event slot' told)
    (h : .startSwarm ∈ slot'.commands ∨ slot'.task.Started) :
    .startSwarm ∈ slot.commands ∨ slot.task.Started := by
  cases hmoves with
  | stays => exact h
  | fails | leaves | stops | stopped =>
    obtain hmem | hstarted := h
    · exact absurd hmem List.not_mem_nil
    · exact hstarted.elim
  | loads => exact h.imp_right False.elim
  | drops hcommands => exact h.imp_left fun hmem => hcommands ▸ List.mem_cons_of_mem _ hmem
  | fetches _ hcommands | starts hcommands =>
    exact .inl (hcommands ▸ List.mem_cons_self)
  | handles _ _ htask | fetched htask | chooses _ htask | announced _ htask =>
    exact .inr (by rw [htask]; trivial)

theorem validFlags_of_none {info : TorrentMeta} (hfiles : info.files = none) (flags : List Bool) :
    validFlags info flags = false := by
  rw [validFlags, hfiles]

theorem Chosen.picks (h : slot.Chosen) (hmoves : Moves ctx slot event slot' told)
    (hmem : .selectionChanged ∈ slot'.commands) :
    slot'.task = .stopping ∨ slot'.task = .ended ∨
      ∃ info flags, slot'.task.info? = some info ∧ slot'.selection = some flags ∧
        validFlags info.toTorrentMeta flags = true := by
  have hpicked := h.picked
  have hfits := h.fits
  cases hmoves with
  | stays => exact hpicked hmem
  | fails | leaves | stops | stopped => exact .inr (.inl rfl)
  | loads _ htask => simp [htask, TaskStage.info?] at hpicked; exact absurd hmem hpicked
  | drops hcommands => exact hpicked (hcommands ▸ List.mem_cons_of_mem _ hmem)
  | fetches _ hcommands htask =>
    simpa [htask, TaskStage.info?] using hpicked (hcommands ▸ List.mem_cons_of_mem _ hmem)
  | starts hcommands htask =>
    simpa [htask, TaskStage.info?] using hpicked (hcommands ▸ List.mem_cons_of_mem _ hmem)
  | @handles command commands info started currentFlags _ full hcommands htask =>
    by_cases hstop : command = .stopAll
    · subst hstop
      exact .inl rfl
    · have hkept := (Moves.handles full hcommands htask : Moves ctx slot event _ _).kept
      rw [handle_commands] at hmem
      obtain ⟨flags, hrun⟩ :=
        @handle_task { slot with commands := commands } full _ _ _ _ hstop htask
      rw [hrun, hkept.2.1]
      simpa [htask, TaskStage.info?] using hpicked (hcommands ▸ List.mem_cons_of_mem _ hmem)
  | fetched htask =>
    rw [Fits, htask] at hfits
    have hno := hpicked hmem
    simp [htask, TaskStage.info?, validFlags_of_none hfits.2] at hno
  | chooses _ htask => simpa [htask, TaskStage.info?] using hpicked hmem
  | @announced info requested _ missing htask =>
    unfold TorrentSlot.announced
    dsimp only
    split
    · exact .inr (.inl rfl)
    case isFalse hpieces =>
      have hmem' : .selectionChanged ∈ slot.commands := by
        simpa [TorrentSlot.announced, hpieces] using hmem
      simpa [htask, TaskStage.info?] using hpicked hmem'

@[simp] theorem given_append (sent : List CoordinatorMsg) (msg : CoordinatorMsg)
    (started : Selection) :
    { slot with sent := sent ++ [msg] }.given started =
      match msg with
      | .setSelection selection _ _ => selection
      | _ => { slot with sent := sent }.given started := by
  simp [given]

theorem fits_handle {info : AnnouncedMeta} {started : Selection} {currentFlags : List Bool}
    {command : CoreCommand} (full : Bool) (htask : slot.task = .running info started currentFlags)
    (hgiven : slot.given started = fileSelection info.toTorrentMeta (some currentFlags))
    (hpicked : command = .selectionChanged ∨ .selectionChanged ∈ slot.commands →
      ∃ flags, slot.selection = some flags ∧ validFlags info.toTorrentMeta flags = true)
    (hcurrent : (command = .selectionChanged ∨ .selectionChanged ∈ slot.commands) ∨
      slot.given started =
        fileSelection info.toTorrentMeta (slot.selection.filter (validFlags info.toTorrentMeta))) :
    (slot.handle full info started currentFlags command).1.Fits := by
  have hkeep (slot' : TorrentSlot) (hsame : slot'.task = slot.task)
      (hgiven' : slot'.given started = slot.given started)
      (hselection : slot'.selection = slot.selection) (hcommands : slot'.commands = slot.commands)
      (hother : command ≠ .selectionChanged) : slot'.Fits := by
    rw [Fits, hsame, htask]
    dsimp only
    rw [hgiven', hselection, hcommands]
    exact ⟨hgiven, hcurrent.imp_left fun h => h.resolve_left hother⟩
  cases command with
  | selectionChanged =>
    obtain ⟨flags, hselection, hvalid⟩ := hpicked (.inl rfl)
    have hfilter : slot.selection.filter (validFlags info.toTorrentMeta) = some flags := by
      rw [hselection, Option.filter_some, if_pos hvalid]
    cases hfiles : info.files with
    | none => rw [validFlags_of_none hfiles] at hvalid; cases hvalid
    | some files =>
      simp only [handle, hfiles, hfilter]
      split
      case isTrue hsame =>
        rw [Fits, htask]
        exact ⟨hgiven, .inr (by rw [hgiven, hfilter, hsame])⟩
      case isFalse =>
        have hfrom : fileSelection info.toTorrentMeta (some flags) =
            .fromFiles files flags info.pieceLength info.pieces.length := by
          simp only [fileSelection, hfiles]
        have hlast : { slot with
            sent := slot.sent ++
              [BackgroundTask.setSelectionMsg info.toTorrentMeta files currentFlags flags]
            task := .running info started flags }.given started =
            fileSelection info.toTorrentMeta (some flags) := by
          rw [hfrom]
          simp [given, BackgroundTask.setSelectionMsg]
        exact ⟨hlast, .inr (by rw [hlast, hfilter])⟩
  | stopAll => trivial
  | pause | resume =>
    simp only [handle]
    split
    · exact hkeep slot rfl rfl rfl rfl (by rintro ⟨⟩)
    · exact hkeep _ rfl (by simp [given]) rfl rfl (by rintro ⟨⟩)
  | _ => exact hkeep slot rfl rfl rfl rfl (by rintro ⟨⟩)

theorem Chosen.moves (hbounded : ctx.decoder.Bounded) (hsound : slot.Sound ctx) (h : slot.Chosen)
    (hmoves : Moves ctx slot event slot' told) : slot'.Chosen := by
  refine ⟨fun session hsession hstart => h.started session (hmoves.kept.1 ▸ hsession)
      (hmoves.started hstart),
    fun session info files hsession hinfo hfiles => h.shows hmoves
      (h.shown session info files (hmoves.kept.1 ▸ hsession) hinfo hfiles), h.picks hmoves, ?_⟩
  have hfits := h.fits
  have hpicked := h.picked
  have hknown := hsound.known
  cases hmoves with
  | stays => exact hfits
  | fails | leaves | stops | stopped => trivial
  | loads _ htask hload =>
    rw [Fits, htask] at hfits
    refine ⟨hfits, fun hpieces => ?_⟩
    obtain hknown' | hlinked := loadSource_ok hload
    · exact absurd hpieces (List.isEmpty_eq_false_iff.mp (pieces_of_known hknown'))
    · exact hlinked.empty.2
  | @drops command commands _ hcommands _ htask =>
    obtain ⟨info, htask, -⟩ | ⟨info, htask⟩ := htask
    · rw [Fits, htask] at hfits
      rw [Fits]
      simp only [htask]
      exact hfits
    · rw [Fits, htask] at hfits
      rw [Fits]
      simp only [htask]
      exact hfits
  | fetches _ hcommands htask hpieces =>
    rw [Fits, htask] at hfits
    exact ⟨hfits.1, hfits.2 hpieces⟩
  | starts hcommands htask =>
    rw [Fits, htask] at hfits
    exact hfits.1
  | @handles command commands info started currentFlags _ full hcommands htask =>
    rw [Fits, htask] at hfits
    have hmem : command = .selectionChanged ∨ .selectionChanged ∈ commands ↔
        .selectionChanged ∈ slot.commands := by
      rw [hcommands, List.mem_cons, eq_comm]
    have hflags (hchanged : command = .selectionChanged ∨ .selectionChanged ∈ commands) :
        ∃ flags, slot.selection = some flags ∧ validFlags info.toTorrentMeta flags = true := by
      simpa [htask, TaskStage.info?] using hpicked (hmem.mp hchanged)
    exact @fits_handle { slot with commands := commands } _ _ _ _ full htask hfits.1 hflags
      (hfits.2.imp_left hmem.mpr)
  | fetched htask =>
    rw [Fits, htask] at hfits
    exact hfits.1
  | chooses _ htask =>
    rw [Fits, htask] at hfits
    exact ⟨hfits, .inr rfl⟩
  | @announced info requested _ missing htask =>
    rw [Fits, htask] at hfits
    rw [htask] at hknown
    rw [announced_of_known hknown, Fits]
    have hstart := fileSelection_currentFlags (wellFormed_of_known hknown)
      (length_pieces_of_known hbounded hknown) requested
    dsimp only
    simp only [given, hfits.1, List.foldl_nil]
    exact ⟨hstart, hfits.2.imp_right fun hsame => by rw [hsame]⟩

theorem Fits.more (h : slot.Fits) (htask : slot'.task = slot.task) (hsent : slot'.sent = slot.sent)
    (hcurrent : slot.task.Started → .selectionChanged ∈ slot'.commands ∨
      slot'.selection = slot.selection ∧
        (.selectionChanged ∈ slot.commands → .selectionChanged ∈ slot'.commands)) :
    slot'.Fits := by
  have hgiven : slot'.given = slot.given := by
    funext started
    rw [given, given, hsent]
  rw [Fits, htask, hsent]
  rw [Fits] at h
  cases hstage : slot.task with
  | announcing info requested =>
    rw [hstage] at h hcurrent
    obtain hmem | ⟨hsame, hmore⟩ := hcurrent trivial
    · exact ⟨h.1, .inl hmem⟩
    · exact ⟨h.1, hsame ▸ h.2.imp_left hmore⟩
  | running info started currentFlags =>
    rw [hstage] at h hcurrent
    dsimp only
    rw [hgiven]
    obtain hmem | ⟨hsame, hmore⟩ := hcurrent trivial
    · exact ⟨h.1, .inl hmem⟩
    · exact ⟨h.1, hsame ▸ h.2.imp_left hmore⟩
  | _ =>
    rw [hstage] at h
    exact h

theorem Chosen.send (h : slot.Chosen) {session session' : TorrentSessionState}
    (hsession : slot.session = some session) (hinfo : session'.info = session.info)
    {command : CoreCommand} (hchanged : command ≠ .selectionChanged)
    (hstarted : session.swarmStarted = true ∨ command = .startSwarm → session'.swarmStarted = true) :
    ({ slot with session := some session' }.send command).Chosen := by
  refine ⟨fun other hother hstart => ?_, fun other info files hother hof hfiles => ?_,
    fun hmem => ?_, ?_⟩
  · rw [send_session] at hother
    cases hother
    rw [send_task] at hstart
    obtain hmem | htask := hstart
    · obtain hmem | he := mem_send hmem
      · exact hstarted (.inl (h.started session hsession (.inl hmem)))
      · exact hstarted (.inr he.symm)
    · exact hstarted (.inl (h.started session hsession (.inr htask)))
  · rw [send_session] at hother
    cases hother
    rw [send_task]
    exact h.shown session info files hsession (hinfo ▸ hof) hfiles
  · rw [send_task, send_selection]
    exact h.picked ((mem_send hmem).resolve_right fun he => hchanged he.symm)
  · exact h.fits.more (send_task _ _) (send_sent _ _) fun _ =>
      .inr ⟨send_selection _ _, fun hmem => mem_send_of_mem hmem⟩

theorem Chosen.shutDown (h : slot.Chosen) : slot.shutDown.Chosen := by
  unfold TorrentSlot.shutDown
  split
  case h_1 session hsession =>
    split
    · exact h
    · refine h.send hsession ?_ ?_ fun hstart => hstart.resolve_right ?_
      · rfl
      · rintro ⟨⟩
      · rintro ⟨⟩
  case h_2 => exact h

theorem Chosen.leave (h : slot.Chosen) : { slot with session := none }.Chosen := by
  refine ⟨fun session hsession => ?_, fun session info files hsession => ?_, h.picked, h.fits⟩
  · cases hsession
  · cases hsession

theorem Chosen.pump (h : slot.Chosen) {msg : TaskMessage}
    (hmsg : ∀ info files, msg.info? = some info → info.files = some files →
      slot.task.Shows files) :
    { slot with session := slot.session.map (TorrentSessionState.pump · msg) }.Chosen := by
  refine ⟨fun session hsession hstart => ?_, fun session info files hsession hinfo hfiles => ?_,
    h.picked, h.fits⟩
  · obtain ⟨before, hbefore, rfl⟩ := Option.map_eq_some_iff.mp hsession
    rw [(pump_kept before msg).2.1]
    exact h.started before hbefore hstart
  · obtain ⟨before, hbefore, rfl⟩ := Option.map_eq_some_iff.mp hsession
    obtain hsame | hnew := (pump_kept before msg).2.2.2.2
    · exact h.shown before info files hbefore (hsame ▸ hinfo) hfiles
    · exact hmsg info files (hnew ▸ hinfo) hfiles

theorem valid_of_picks {session : TorrentSessionState} {flags : List Bool}
    (h : TorTorApp.picks slot session flags = true) : ∃ info files, session.info = some info ∧
      info.files = some files ∧ flags.length = files.length ∧ flags.any id = true := by
  unfold TorTorApp.picks at h
  split at h
  · cases h
  case h_2 files hshown =>
    obtain ⟨info, hinfo, hfiles⟩ := Option.bind_eq_some_iff.mp hshown
    simp only [Bool.and_eq_true, beq_iff_eq] at h
    exact ⟨info, files, hinfo, hfiles, h.1.1.2, h.2⟩

theorem Chosen.pick (h : slot.Chosen) {session : TorrentSessionState} {flags : List Bool}
    (hsession : slot.session = some session) (hpicks : TorTorApp.picks slot session flags = true) :
    (TorTorApp.clicked slot session (.pick flags)).Chosen := by
  obtain ⟨shown, files, hshown, hfiles, hlen, hany⟩ := valid_of_picks hpicks
  have hshows := h.shown session shown files hsession hshown hfiles
  have hvalid : slot.task = .stopping ∨ slot.task = .ended ∨ ∃ info flags',
      slot.task.info? = some info ∧ some flags = some flags' ∧
        validFlags info.toTorrentMeta flags' = true := by
    obtain hstopping | hended | ⟨info, hinfo, hsame⟩ := hshows
    · exact .inl hstopping
    · exact .inr (.inl hended)
    · refine .inr (.inr ⟨info, flags, hinfo, rfl, ?_⟩)
      simp [validFlags, hsame, hlen, hany]
  simp only [TorTorApp.clicked]
  split
  case isTrue hstarted =>
    refine ⟨fun other hother hstart => ?_, fun other info files hother hof hfiles => ?_,
      fun hmem => ?_, ?_⟩
    · rw [send_session] at hother
      cases hsession.symm.trans hother
      exact hstarted
    · rw [send_session] at hother
      rw [send_task]
      exact h.shown other info files hother hof hfiles
    · rw [send_task, send_selection]
      exact hvalid
    · refine h.fits.more (send_task _ _) (send_sent _ _) fun htask => ?_
      have hended : { slot with selection := some flags }.task ≠ .ended := by
        intro hended
        rw [show slot.task = .ended from hended] at htask
        exact htask
      rw [send_commands hended]
      exact .inl (List.mem_append_right _ (List.mem_singleton.mpr rfl))
  case isFalse hstarted =>
    refine ⟨fun other hother hstart => h.started other hother hstart, h.shown, fun _ => hvalid, ?_⟩
    refine h.fits.more ?_ ?_ fun htask => absurd (h.started session hsession (.inr htask)) hstarted
    · rfl
    · rfl

theorem Chosen.clicked (h : slot.Chosen) {session : TorrentSessionState}
    (hsession : slot.session = some session) {click : Click}
    (hpicks : ∀ flags, click = .pick flags → TorTorApp.picks slot session flags = true) :
    (TorTorApp.clicked slot session click).Chosen := by
  cases click with
  | startSwarm =>
    simp only [TorTorApp.clicked]
    split
    · exact h
    · refine h.send hsession ?_ ?_ fun _ => ?_
      · rfl
      · rintro ⟨⟩
      · rfl
  | pause | resume | remove =>
    simp only [TorTorApp.clicked]
    split
    · exact h
    · refine h.send hsession ?_ ?_ fun hstart => hstart.resolve_right ?_
      · rfl
      · rintro ⟨⟩
      · rintro ⟨⟩
  | pick flags => exact h.pick hsession (hpicks flags rfl)

end TorrentSlot

namespace TorTorApp

structure Agreed (s : TorTorApp) : Prop where
  slots : ∀ (id : Nat) (slot : TorrentSlot), s.slots[id]? = some slot → slot.Chosen
  told : ∀ id msg, (id, msg) ∈ s.messages → ∀ info files, msg.info? = some info →
    info.files = some files → ∃ slot, s.slots[id]? = some slot ∧ slot.task.Shows files

theorem agreed_new (entries : List SessionEntry) (initial : List (TorrentSource × Path)) :
    (new entries initial).Agreed := by
  refine ⟨fun id slot hslot => ?_, fun id msg hmem => absurd hmem List.not_mem_nil⟩
  obtain hmem | hmem := List.mem_append.mp (List.mem_of_getElem? hslot)
  · obtain ⟨entry, -, rfl⟩ := List.mem_map.mp hmem
    exact TorrentSlot.chosen_new ..
  · obtain ⟨⟨source, outputDir⟩, -, rfl⟩ := List.mem_map.mp hmem
    exact TorrentSlot.chosen_new ..

theorem Agreed.frame {s : TorTorApp} (h : s.Agreed) (closeRequested : Bool) :
    (s.frame closeRequested).Agreed := by
  refine ⟨fun id slot hslot => ?_, fun id msg hmem => ?_⟩
  · rw [frame_slots] at hslot
    obtain ⟨before, hbefore, rfl⟩ := Option.map_eq_some_iff.mp hslot
    have hkept : (looked s.messages closeRequested id before).Chosen ∧
        (looked s.messages closeRequested id before).task = before.task := by
      apply looked_induction (P := fun slot => slot.Chosen ∧ slot.task = before.task)
      · exact fun slot hslot => ⟨hslot.1.shutDown, (shutDown_kept slot).1.trans hslot.2⟩
      · refine fun slot msg hmsg hslot => ⟨hslot.1.pump fun info files hinfo hfiles => ?_, hslot.2⟩
        obtain ⟨other, hother, hshows⟩ := h.told id msg hmsg info files hinfo hfiles
        cases hbefore.symm.trans hother
        exact hslot.2 ▸ hshows
      · exact fun _ slot hslot => ⟨hslot.1.leave, hslot.2⟩
      · exact ⟨h.slots id before hbefore, rfl⟩
    exact hkept.1
  · rw [frame_messages] at hmem
    exact absurd hmem List.not_mem_nil

theorem Agreed.set {s : TorTorApp} (h : s.Agreed) {id : Nat} {slot slot' : TorrentSlot}
    (hslot : s.slots[id]? = some slot) (hslot' : slot'.Chosen)
    (hshows : ∀ files, slot.task.Shows files → slot'.task.Shows files)
    (entries : List SessionEntry) (told : List TaskMessage)
    (htold : ∀ msg ∈ told, ∀ info files, msg.info? = some info → info.files = some files →
      slot'.task.Shows files) :
    { s with
      slots := s.slots.set id slot'
      entries := entries
      messages := s.messages ++ told.map fun msg => (id, msg) }.Agreed := by
  have hlt := (List.getElem?_eq_some_iff.mp hslot).1
  have hget (other : Nat) : (s.slots.set id slot')[other]? =
      if other = id then some slot' else s.slots[other]? := by
    by_cases hother : other = id
    · subst hother
      simp [hlt]
    · rw [List.getElem?_set_ne (Ne.symm hother), if_neg hother]
  refine ⟨fun other after hafter => ?_, fun other msg hmem info files hinfo hfiles => ?_⟩
  · rw [hget] at hafter
    split at hafter
    · cases hafter
      exact hslot'
    · exact h.slots other after hafter
  · dsimp only
    rw [hget]
    obtain hmem | hmem := List.mem_append.mp hmem
    · obtain ⟨before, hbefore, hshown⟩ := h.told other msg hmem info files hinfo hfiles
      split
      case isTrue hother =>
        rw [hother] at hbefore
        cases hslot.symm.trans hbefore
        exact ⟨slot', rfl, hshows files hshown⟩
      case isFalse => exact ⟨before, hbefore, hshown⟩
    · obtain ⟨own, hown, he⟩ := List.mem_map.mp hmem
      cases he
      rw [if_pos rfl]
      exact ⟨slot', rfl, htold msg hown info files hinfo hfiles⟩

theorem Agreed.click {s : TorTorApp} (h : s.Agreed) (id : Nat) (click : Click) :
    (s.click id click).Agreed := by
  unfold TorTorApp.click
  split
  · exact h
  case h_2 slot hslot =>
    split
    · exact h
    case h_2 session hsession =>
      have hclicked (entries : List SessionEntry)
          (hpicks : ∀ flags, click = .pick flags → picks slot session flags = true) :
          { s with
            slots := s.slots.set id (clicked slot session click)
            entries := entries }.Agreed := by
        have hset := h.set hslot ((h.slots id slot hslot).clicked hsession hpicks)
          (fun files => by rw [clicked_task]; exact fun hshows => hshows) entries []
          (fun _ hmsg => absurd hmsg List.not_mem_nil)
        rwa [List.map_nil, List.append_nil] at hset
      split
      case h_1 flags =>
        split
        case isTrue hpicks => exact hclicked _ fun other he => by cases he; exact hpicks
        case isFalse => exact h
      case h_2 hother => exact hclicked _ fun flags he => absurd he (hother flags)

theorem Agreed.step (hbounded : ctx.decoder.Bounded) {s : TorTorApp} (hsound : s.Sound ctx)
    (h : s.Agreed) (event : DashboardEvent) : (s.step ctx event).Agreed := by
  cases event with
  | frame closeRequested =>
    simp only [TorTorApp.step]
    split
    · exact h
    · exact h.frame closeRequested
  | add source outputDir =>
    simp only [TorTorApp.step]
    split
    · exact h
    · refine ⟨fun id slot hslot => ?_, fun id msg hmem info files hinfo hfiles => ?_⟩
      · obtain hmem | hmem := List.mem_append.mp (List.mem_of_getElem? hslot)
        · obtain ⟨other, hother⟩ := List.mem_iff_getElem?.mp hmem
          exact h.slots other slot hother
        · rw [List.mem_singleton.mp hmem]
          exact TorrentSlot.chosen_new ..
      · obtain ⟨slot, hslot, hshows⟩ := h.told id msg hmem info files hinfo hfiles
        refine ⟨slot, ?_, hshows⟩
        rw [List.getElem?_append_left (List.getElem?_eq_some_iff.mp hslot).1]
        exact hslot
  | click id click =>
    simp only [TorTorApp.step]
    split
    · exact h
    · exact h.click id click
  | task id event =>
    simp only [TorTorApp.step]
    split
    · exact h
    case h_2 slot hslot =>
      have hmoves := @TorrentSlot.moves_step ctx slot event
      have hchosen := h.slots id slot hslot
      exact h.set hslot (hchosen.moves hbounded (hsound.slots id slot hslot) hmoves)
        (fun files => hchosen.shows hmoves) s.entries _
        fun msg hmsg info files hinfo hfiles => hmoves.shows hmsg hinfo hfiles
  | tells id msg =>
    refine ⟨h.slots, fun other msg' hmem info files hinfo hfiles => ?_⟩
    obtain hmem | hmem := List.mem_append.mp hmem
    · exact h.told other msg' hmem info files hinfo hfiles
    · cases List.mem_singleton.mp hmem
      cases hinfo

/-- No choice of files is lost on its way, whenever it is made: while the trackers are asked, while
the metadata is fetched or while the coordinator runs.  Once a task has received what it was sent,
its coordinator was started with, or told last, the selection that stands for what is chosen. -/
theorem choice_reaches_coordinator (ctx : TaskContext) (hbounded : ctx.decoder.Bounded)
    (entries : List SessionEntry) (initial : List (TorrentSource × Path))
    (events : List DashboardEvent) {id : Nat} {slot : TorrentSlot}
    (hslot : (exec (step ctx) (new entries initial) events).slots[id]? = some slot)
    {info : AnnouncedMeta} {started : Selection} {currentFlags : List Bool}
    (htask : slot.task = .running info started currentFlags)
    (hreceived : .selectionChanged ∉ slot.commands) :
    slot.given started =
      fileSelection info.toTorrentMeta (slot.selection.filter (validFlags info.toTorrentMeta)) := by
  have hrun := exec_invariant (P := fun s : TorTorApp => s.Sound ctx ∧ s.Agreed)
    (fun _ event h => ⟨h.1.step event, h.2.step hbounded h.1 event⟩) events
    ⟨sound_new entries initial, agreed_new entries initial⟩
  have hfits := (hrun.2.slots id slot hslot).fits
  rw [TorrentSlot.Fits, htask] at hfits
  exact hfits.2.resolve_left hreceived

/-! A link to a torrent with two files, one of which is left out while the tracker is asked. -/

def linkedBytes : List UInt8 :=
  ascii "d5:filesld6:lengthi3e4:pathl1:aeed6:lengthi2e4:pathl1:beee4:name1:t12:piece lengthi3e" ++
    ascii "6:pieces40:1234567890123456789012345678901234567890e"

def linkedRaw : RawInfo where
  name := "t"
  pieceLength := 3
  pieces := ascii "1234567890123456789012345678901234567890"
  length := none
  files := some [⟨3, ["a"]⟩, ⟨2, ["b"]⟩]

def linkedContext : TaskContext where
  windows := false
  decoder := ⟨fun _ => none, fun bytes => if bytes = linkedBytes then some linkedRaw else none⟩
  sha1 _ := zeroDigest
  url _ := some ("magnet", [("xt", "urn:btih:0000000000000000000000000000000000000000")])
  hexDecode text := Net.decodeHexPairs text.toList

theorem bounded_linkedDecoder : linkedContext.decoder.Bounded where
  torrent _ _ h := by cases h
  info bytes info h := by
    simp only [linkedContext] at h
    split at h
    case isTrue hbytes =>
      subst hbytes
      cases h
      decide +kernel
    · cases h

def linkedEvents : List DashboardEvent :=
  [.task 0 (.load (.error "")), .frame false, .click 0 .startSwarm, .task 0 (.receive false),
    .task 0 (.fetched (.ok linkedBytes)), .frame false, .task 0 .choose,
    .click 0 (.pick [true, false]), .task 0 (.announced false), .task 0 (.receive false)]

def linkedApp : TorTorApp :=
  exec (step linkedContext) (new [] [(.magnet "magnet:?xt=urn:btih:0", ["home"])]) linkedEvents

def linkedSlot : TorrentSlot := (linkedApp.slots[0]?).getD (.new (.file []) [] none)

theorem choice_reaches_coordinator_linked : ∃ info started flags,
    linkedSlot.task = .running info started flags ∧ linkedSlot.given started =
      fileSelection info.toTorrentMeta
        (linkedSlot.selection.filter (validFlags info.toTorrentMeta)) := by
  have hrunning : (match linkedSlot.task with | .running .. => true | _ => false) = true := by
    decide +kernel
  have hpresent : linkedApp.slots[0]?.isSome = true := by decide +kernel
  obtain ⟨slot, hpresent⟩ := Option.isSome_iff_exists.mp hpresent
  have hslot : linkedApp.slots[0]? = some linkedSlot := by
    rw [linkedSlot, hpresent]
    rfl
  split at hrunning
  case h_2 => cases hrunning
  case h_1 info started flags htask =>
  exact ⟨info, started, flags, htask, choice_reaches_coordinator linkedContext
    bounded_linkedDecoder [] _ linkedEvents hslot htask (by decide +kernel)⟩

end TorTorApp
end Tortor.System
