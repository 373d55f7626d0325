import Tortor.System.DashboardLaws

/-! What is removed from the session store and from the disk. -/

namespace Tortor.System

open Tortor.Core Tortor.Lib

variable {ctx : TaskContext}

theorem safeComponent_of_known {info : AnnouncedMeta} (h : ctx.Known info) :
    SafeComponent ctx.windows info.name := by
  obtain ⟨raw, hash, hbuilt⟩ := built_of_known h
  obtain ⟨name, _, hname, -, -, -, -, -, -, he⟩ := buildMeta_ok hbuilt
  rw [he]
  exact safeComponent_of_sanitize hname

/-- The torrent is what the task with this id has made of its own source, or of the metadata that it
has fetched for that.  `past` tells which event came to which state. -/
inductive Own (ctx : TaskContext) (past : TorTorApp → DashboardEvent → Prop) (id : Nat)
    (source : TorrentSource) : AnnouncedMeta → Prop
  | loaded {s : TorTorApp} {slot : TorrentSlot} {file : Except String (List UInt8)}
      {info : AnnouncedMeta} : past s (.task id (.load file)) → s.slots[id]? = some slot →
      slot.task = .loading → loadSource ctx source file = .ok info → Own ctx past id source info
  | fetched {s : TorTorApp} {slot : TorrentSlot} {bytes : List UInt8} {info fetched : AnnouncedMeta} :
      past s (.task id (.fetched (.ok bytes))) → s.slots[id]? = some slot →
      slot.task = .fetching info → Own ctx past id source info →
      parseTorrentMetadataBytes ctx.decoder ctx.sha1 ctx.windows bytes info.infoHash =
        .ok fetched → Own ctx past id source (fetched.withExtraTrackers info.trackers)

theorem Own.known_or_linked {past : TorTorApp → DashboardEvent → Prop} {id : Nat}
    {source : TorrentSource} {info : AnnouncedMeta} (h : Own ctx past id source info) :
    ctx.Known info ∨ ctx.Linked source info := by
  cases h with
  | loaded _ _ _ hload => exact loadSource_ok hload
  | fetched _ _ _ _ hparse => exact .inl ⟨_, .inr ⟨_, _, hparse⟩, rfl⟩

/-- What may be removed from the disk with a torrent: the one file or directory that is named after
it, its resume files, and for a link what its unchecked name leads to. -/
inductive Owns (ctx : TaskContext) (past : TorTorApp → DashboardEvent → Prop) (id : Nat)
    (source : TorrentSource) (outputDir : Path) : Deletion → Prop
  | known {info : AnnouncedMeta} : Own ctx past id source info → ctx.Known info →
      pushComponent ctx.windows outputDir info.name = some (outputDir ++ [info.name]) →
      Owns ctx past id source outputDir (.target outputDir info.name)
  | linked {info : AnnouncedMeta} : Own ctx past id source info → ctx.Linked source info →
      Owns ctx past id source outputDir (.target outputDir info.name)
  | resumeFile {info : AnnouncedMeta} : Own ctx past id source info →
      Owns ctx past id source outputDir (.resumeFile info.infoHash)
  | sibling {path : Path} (extension : String) : source = .file path →
      Owns ctx past id source outputDir (.sibling path extension)

def TaskStage.early? : TaskStage → Option AnnouncedMeta
  | .waiting info | .fetching info => some info
  | _ => none

namespace TorrentSlot

structure Recorded (ctx : TaskContext) (past : TorTorApp → DashboardEvent → Prop) (id : Nat)
    (slot : TorrentSlot) : Prop where
  early : ∀ info, slot.task.early? = some info → Own ctx past id slot.source info
  info : ∀ session info, slot.session = some session → session.info = some info →
    Own ctx past id slot.source info
  removes : ∀ session, slot.session = some session → session.removeRequested = true →
    ∃ files s, past s (.click id (.remove files))
  deletes : ∀ session, slot.session = some session → session.deleteRequested = true →
    ∃ s, past s (.click id (.remove true))

variable {past : TorTorApp → DashboardEvent → Prop} {id : Nat} {slot : TorrentSlot}

theorem recorded_new (source : TorrentSource) (outputDir : Path) (selected : Option (List Bool)) :
    (new source outputDir selected).Recorded ctx past id := by
  refine ⟨fun info hearly => ?_, fun session info hsession hinfo => ?_,
    fun session hsession hremove => ?_, fun session hsession hdelete => ?_⟩
  · cases hearly
  · cases hsession
    cases hinfo
  · cases hsession
    cases hremove
  · cases hsession
    cases hdelete

theorem Recorded.note (h : slot.Recorded ctx past id) {slot' : TorrentSlot}
    {session session' : TorrentSessionState} (hsession : slot.session = some session)
    (hslot' : slot'.session = some session') (hsource : slot'.source = slot.source)
    (htask : slot'.task = slot.task) (hinfo : session'.info = session.info)
    (hremove : session'.removeRequested = true → session.removeRequested = true ∨
      ∃ files s, past s (.click id (.remove files)))
    (hdelete : session'.deleteRequested = true → session.deleteRequested = true ∨
      ∃ s, past s (.click id (.remove true))) : slot'.Recorded ctx past id := by
  refine ⟨fun info hearly => ?_, fun other info hother hof => ?_, fun other hother hr => ?_,
    fun other hother hd => ?_⟩
  · rw [hsource]
    exact h.early info (htask ▸ hearly)
  · cases hslot'.symm.trans hother
    rw [hsource]
    exact h.info session info hsession (hinfo ▸ hof)
  · cases hslot'.symm.trans hother
    exact (hremove hr).elim (h.removes session hsession) fun hasked => hasked
  · cases hslot'.symm.trans hother
    exact (hdelete hd).elim (h.deletes session hsession) fun hasked => hasked

theorem Recorded.shutDown (h : slot.Recorded ctx past id) :
    slot.shutDown.Recorded ctx past id := by
  unfold TorrentSlot.shutDown
  split
  case h_1 session hsession =>
    split
    · exact h
    · exact h.note hsession (send_session _ _) (send_source _ _) (send_task _ _) rfl .inl .inl
  case h_2 => exact h

theorem Recorded.pump (h : slot.Recorded ctx past id) {msg : TaskMessage}
    (hmsg : ∀ info, msg.info? = some info → Own ctx past id slot.source info) :
    { slot with session := slot.session.map (TorrentSessionState.pump · msg) }.Recorded ctx past
      id := by
  refine ⟨h.early, fun session info hsession hinfo => ?_, fun session hsession hremove => ?_,
    fun session hsession hdelete => ?_⟩ <;>
    obtain ⟨before, hbefore, rfl⟩ := Option.map_eq_some_iff.mp hsession <;>
    obtain ⟨-, -, hremoves, hdeletes, hshown⟩ := pump_kept before msg
  · obtain hsame | hnew := hshown
    · exact h.info before info hbefore (hsame ▸ hinfo)
    · exact hmsg info (hnew ▸ hinfo)
  · exact h.removes before hbefore (hremoves ▸ hremove)
  · exact h.deletes before hbefore (hdeletes ▸ hdelete)

theorem Recorded.left (h : slot.Recorded ctx past id) :
    { slot with session := none }.Recorded ctx past id := by
  refine ⟨h.early, fun session info hsession => ?_, fun session hsession => ?_,
    fun session hsession => ?_⟩
  · cases hsession
  · cases hsession
  · cases hsession

theorem Recorded.clicked (h : slot.Recorded ctx past id) {session : TorrentSessionState}
    (hsession : slot.session = some session) {click : Click} {s : TorTorApp} (hclick : past s (.click id click)) :
    (TorTorApp.clicked slot session click).Recorded ctx past id := by
  cases click with
  | startSwarm | pause | resume =>
    simp only [TorTorApp.clicked]
    split
    · exact h
    · exact h.note hsession (send_session _ _) (send_source _ _) (send_task _ _) rfl .inl .inl
  | remove files =>
    simp only [TorTorApp.clicked]
    split
    · exact h
    · refine h.note hsession (send_session _ _) (send_source _ _) (send_task _ _) rfl
        (fun _ => .inr ⟨files, s, hclick⟩) fun hdelete => ?_
      obtain hdelete | rfl := Bool.or_eq_true_iff.mp hdelete
      · exact .inl hdelete
      · exact .inr ⟨s, hclick⟩
  | pick flags =>
    simp only [TorTorApp.clicked]
    split
    · refine h.note hsession ((send_session _ _).trans hsession) (send_source _ _)
        (send_task _ _) rfl .inl .inl
    · exact h.note hsession hsession rfl rfl rfl .inl .inl

theorem Recorded.tells (h : slot.Recorded ctx past id) {slot' : TorrentSlot} {event : TaskEvent}
    {told : List TaskMessage} (hmoves : Moves ctx slot event slot' told) {s : TorTorApp}
    (hpast : past s (.task id event)) (hslot : s.slots[id]? = some slot) {msg : TaskMessage}
    (hmsg : msg ∈ told) {info : AnnouncedMeta} (hinfo : msg.info? = some info) :
    Own ctx past id slot.source info := by
  cases hmoves with
  | loads _ htask hload =>
    simp only [List.mem_cons, List.not_mem_nil, or_false] at hmsg
    obtain rfl | rfl := hmsg
    · cases hinfo
      exact .loaded hpast hslot htask hload
    · cases hinfo
  | fetched htask hparse =>
    rw [List.mem_singleton.mp hmsg] at hinfo
    cases hinfo
    exact .fetched hpast hslot htask (h.early _ (by rw [htask]; rfl)) hparse
  | handles =>
    obtain ⟨text, rfl⟩ := handle_told _ _ _ _ _ _ _ hmsg
    cases hinfo
  | announced =>
    obtain ⟨core, rfl⟩ := announced_told _ _ _ _ _ hmsg
    cases hinfo
  | fails =>
    simp only [List.mem_cons, List.not_mem_nil, or_false] at hmsg
    obtain rfl | rfl := hmsg <;> cases hinfo
  | fetches | stops | chooses | stopped =>
    rw [List.mem_singleton.mp hmsg] at hinfo
    cases hinfo
  | stays | leaves | drops | starts => cases hmsg

theorem early?_handle (slot : TorrentSlot) (full : Bool) (command : CoreCommand)
    {info : AnnouncedMeta} {started : Selection} {currentFlags : List Bool}
    (htask : slot.task = .running info started currentFlags) :
    (slot.handle full info started currentFlags command).1.task.early? = none := by
  by_cases hstop : command = .stopAll
  · rw [hstop]
    rfl
  · obtain ⟨flags, hrunning⟩ : ∃ flags,
        (slot.handle full info started currentFlags command).1.task =
          .running info started flags := handle_task hstop htask
    rw [hrunning]
    rfl

theorem early?_announced (slot : TorrentSlot) (info : AnnouncedMeta)
    (requested : Option (List Bool)) (missing : Bool) :
    (slot.announced info requested missing).1.task.early? = none := by
  unfold TorrentSlot.announced
  dsimp only
  split <;> rfl

theorem Recorded.early_moves (h : slot.Recorded ctx past id) {slot' : TorrentSlot}
    {event : TaskEvent} {told : List TaskMessage} (hmoves : Moves ctx slot event slot' told)
    {s : TorTorApp} (hpast : past s (.task id event)) (hslot : s.slots[id]? = some slot)
    {info : AnnouncedMeta} (hearly : slot'.task.early? = some info) :
    Own ctx past id slot.source info := by
  cases hmoves with
  | stays | drops => exact h.early info hearly
  | loads _ htask hload =>
    cases hearly
    exact .loaded hpast hslot htask hload
  | fetches _ _ htask =>
    cases hearly
    exact h.early info (by rw [htask]; rfl)
  | @handles command commands _ _ _ _ full _ htask =>
    have hnone := early?_handle { slot with commands := commands } full command htask
    rw [hnone] at hearly
    cases hearly
  | announced =>
    rw [early?_announced] at hearly
    cases hearly
  | fails | leaves | starts | stops | fetched | chooses | stopped => cases hearly

theorem Recorded.moves (h : slot.Recorded ctx past id) {slot' : TorrentSlot}
    {event : TaskEvent} {told : List TaskMessage} (hmoves : Moves ctx slot event slot' told)
    {s : TorTorApp} (hpast : past s (.task id event)) (hslot : s.slots[id]? = some slot) :
    slot'.Recorded ctx past id := by
  obtain ⟨hsession, -, hsource, -⟩ := hmoves.kept
  refine ⟨fun info hearly => ?_, fun session info hs hinfo => ?_, fun session hs => ?_,
    fun session hs => ?_⟩
  · rw [hsource]
    exact h.early_moves hmoves hpast hslot hearly
  · rw [hsource]
    exact h.info session info (hsession ▸ hs) hinfo
  · exact h.removes session (hsession ▸ hs)
  · exact h.deletes session (hsession ▸ hs)

theorem Recorded.owns (h : slot.Recorded ctx past id) {session : TorrentSessionState}
    (hsession : slot.session = some session) {deletion : Deletion}
    (hmem : deletion ∈ TorTorApp.deletions slot session) :
    Owns ctx past id slot.source slot.outputDir deletion := by
  unfold TorTorApp.deletions at hmem
  obtain hmem | hmem := List.mem_append.mp hmem
  · split at hmem
    case h_1 info hinfo =>
      have hshown := h.info session info hsession hinfo
      simp only [List.mem_cons, List.not_mem_nil, or_false] at hmem
      obtain rfl | rfl := hmem
      · obtain hknown | hlinked := hshown.known_or_linked
        · exact .known hshown hknown ((safeComponent_of_known hknown).push _)
        · exact .linked hshown hlinked
      · exact .resumeFile hshown
    case h_2 => cases hmem
  · split at hmem
    case h_1 path hsource =>
      simp only [List.mem_cons, List.not_mem_nil, or_false] at hmem
      obtain rfl | rfl := hmem
      · exact .sibling _ hsource
      · exact .sibling _ hsource
    case h_2 => cases hmem

end TorrentSlot

namespace TorTorApp

def Deleted (ctx : TaskContext) (past : TorTorApp → DashboardEvent → Prop) (s : TorTorApp) : Prop :=
  ∀ id deletion, (id, deletion) ∈ s.deleted → (∃ t, past t (.click id (.remove true))) ∧
    ∃ slot, s.slots[id]? = some slot ∧ slot.session = none ∧
      Owns ctx past id slot.source slot.outputDir deletion

/-- The source is listed, or one of its torrents was removed. -/
def Listed (past : TorTorApp → DashboardEvent → Prop) (source : TorrentSource) (s : TorTorApp) : Prop :=
  (∃ entry ∈ s.entries, entry.source = source) ∨ ∃ id slot files, s.slots[id]? = some slot ∧
    slot.source = source ∧ slot.session = none ∧ ∃ t, past t (.click id (.remove files))

def Stays (s s' : TorTorApp) : Prop :=
  ∀ (id : Nat) (slot : TorrentSlot), s.slots[id]? = some slot → slot.session = none →
    ∃ slot', s'.slots[id]? = some slot' ∧ slot'.session = none ∧ slot'.source = slot.source ∧
      slot'.outputDir = slot.outputDir

variable {past : TorTorApp → DashboardEvent → Prop} {source : TorrentSource} {s s' : TorTorApp}

theorem Deleted.stays (h : Deleted ctx past s) (hstays : Stays s s')
    (hsame : s'.deleted = s.deleted) : Deleted ctx past s' := by
  intro id deletion hmem
  obtain ⟨hasked, slot, hslot, hnone, howns⟩ := h id deletion (hsame ▸ hmem)
  obtain ⟨slot', hslot', hnone', hsource, hdir⟩ := hstays id slot hslot hnone
  exact ⟨hasked, slot', hslot', hnone', by rwa [hsource, hdir]⟩

theorem Listed.stays (h : Listed past source s) (hstays : Stays s s')
    (hsame : ∀ entry ∈ s.entries, ∃ entry' ∈ s'.entries, entry'.source = entry.source) :
    Listed past source s' := by
  obtain ⟨entry, hentry, rfl⟩ | ⟨id, slot, files, hslot, rfl, hnone, hasked⟩ := h
  · exact .inl (hsame entry hentry)
  · obtain ⟨slot', hslot', hnone', hsource, -⟩ := hstays id slot hslot hnone
    exact .inr ⟨id, slot', files, hslot', hsource, hnone', hasked⟩

theorem stays_leave (s : TorTorApp) (id : Nat) : Stays s (s.leave id) := by
  intro other slot hslot hnone
  refine ⟨_, by rw [leave_slots, hslot]; rfl, ?_, ?_, ?_⟩ <;> split <;>
    first | rfl | exact hnone

structure Recorded (ctx : TaskContext) (past : TorTorApp → DashboardEvent → Prop) (s : TorTorApp) : Prop where
  slots : ∀ (id : Nat) (slot : TorrentSlot), s.slots[id]? = some slot →
    slot.Recorded ctx past id
  deleted : Deleted ctx past s
  told : ∀ id msg, (id, msg) ∈ s.messages → ∀ info, msg.info? = some info →
    ∃ slot, s.slots[id]? = some slot ∧ Own ctx past id slot.source info

theorem leave_present {id : Nat} {slot : TorrentSlot} {session : TorrentSessionState}
    (hslot : s.slots[id]? = some slot) (hsession : slot.session = some session) :
    s.leave id =
      { s with
        slots := s.slots.set id { slot with session := none }
        entries :=
          if session.removeRequested || session.deleteRequested then
            s.entries.filter fun entry => entry.source ≠ slot.source
          else s.entries
        deleted :=
          if session.deleteRequested then
            s.deleted ++ (deletions slot session).map fun deletion => (id, deletion)
          else s.deleted } := by
  simp only [TorTorApp.leave, hslot, hsession]

theorem leave_absent {id : Nat}
    (h : ∀ slot, s.slots[id]? = some slot → slot.session = none) : s.leave id = s := by
  unfold TorTorApp.leave
  split
  · rfl
  case h_2 slot hslot =>
    rw [h slot hslot]

theorem present_or_absent (s : TorTorApp) (id : Nat) :
    (∃ slot session, s.slots[id]? = some slot ∧ slot.session = some session) ∨
      ∀ slot, s.slots[id]? = some slot → slot.session = none := by
  cases hslot : s.slots[id]? with
  | none => exact .inr fun other hother => by cases hother
  | some slot =>
    cases hsession : slot.session with
    | none => exact .inr fun other hother => by cases hother; exact hsession
    | some session => exact .inl ⟨slot, session, rfl, hsession⟩

theorem Recorded.leave (h : s.Recorded ctx past) (hmessages : s.messages = []) (id : Nat) :
    (s.leave id).Recorded ctx past := by
  refine ⟨fun other slot hslot => ?_, ?_, fun other msg hmem => ?_⟩
  · rw [leave_slots] at hslot
    obtain ⟨before, hbefore, rfl⟩ := Option.map_eq_some_iff.mp hslot
    split
    · exact (h.slots other before hbefore).left
    · exact h.slots other before hbefore
  · obtain ⟨slot, session, hslot, hsession⟩ | habsent := present_or_absent s id
    · have hold : Deleted ctx past { s.leave id with deleted := s.deleted } :=
        h.deleted.stays (stays_leave s id) rfl
      have hrecorded := h.slots id slot hslot
      intro other deletion hmem
      have hnew := congrArg TorTorApp.deleted (leave_present hslot hsession)
      rw [hnew] at hmem
      dsimp only at hmem
      split at hmem
      case isTrue hdelete =>
        obtain hmem | hmem := List.mem_append.mp hmem
        · exact hold other deletion hmem
        · obtain ⟨own, hown, he⟩ := List.mem_map.mp hmem
          cases he
          exact ⟨hrecorded.deletes session hsession hdelete, { slot with session := none },
            by rw [leave_slots, hslot]; simp, rfl, hrecorded.owns hsession hown⟩
      case isFalse => exact hold other deletion hmem
    · rw [leave_absent habsent]
      exact h.deleted
  · rw [(leave_kept s id).1, hmessages] at hmem
    exact absurd hmem List.not_mem_nil

theorem Listed.leave (h : Listed past source s) (hrecorded : s.Recorded ctx past) (id : Nat) :
    Listed past source (s.leave id) := by
  obtain ⟨slot, session, hslot, hsession⟩ | habsent := present_or_absent s id
  · obtain ⟨entry, hentry, rfl⟩ | hgone := h
    · have hentries := congrArg TorTorApp.entries (leave_present hslot hsession)
      dsimp only at hentries
      by_cases hasked : (session.removeRequested || session.deleteRequested) = true
      · by_cases hown : entry.source = slot.source
        · have hleft : (s.leave id).slots[id]? = some { slot with session := none } := by
            rw [leave_slots, hslot]
            simp
          obtain hremove | hdelete := Bool.or_eq_true_iff.mp hasked
          · obtain ⟨files, hclick⟩ := (hrecorded.slots id slot hslot).removes session hsession hremove
            exact .inr ⟨id, _, files, hleft, hown.symm, rfl, hclick⟩
          · exact .inr ⟨id, _, true, hleft, hown.symm, rfl,
              (hrecorded.slots id slot hslot).deletes session hsession hdelete⟩
        · refine .inl ⟨entry, ?_, rfl⟩
          rw [hentries, if_pos hasked]
          exact List.mem_filter.mpr ⟨hentry, by simpa using hown⟩
      · refine .inl ⟨entry, ?_, rfl⟩
        rw [hentries, if_neg hasked]
        exact hentry
    · obtain ⟨other, before, files, hbefore, hsource, hnone, hclick⟩ := hgone
      obtain ⟨after, hafter, hnone', hsource', -⟩ := stays_leave s id other before hbefore hnone
      exact .inr ⟨other, after, files, hafter, hsource'.trans hsource, hnone', hclick⟩
  · rw [leave_absent habsent]
    exact h

theorem stays_pumped (s : TorTorApp) (closeRequested : Bool) :
    Stays s (s.pumped closeRequested) := by
  intro id slot hslot hnone
  have hkept : (pumpedSlot s.messages closeRequested id slot).session = none ∧
      (pumpedSlot s.messages closeRequested id slot).source = slot.source ∧
      (pumpedSlot s.messages closeRequested id slot).outputDir = slot.outputDir := by
    apply pumped_induction (P := fun other => other.session = none ∧
      other.source = slot.source ∧ other.outputDir = slot.outputDir)
    · rintro other ⟨hgone, hsource, hdir⟩
      obtain ⟨-, -, -, hsource', hdir'⟩ := shutDown_kept other
      refine ⟨?_, hsource'.trans hsource, hdir'.trans hdir⟩
      rw [TorrentSlot.shutDown, hgone]
      exact hgone
    · rintro other msg - ⟨hgone, hsource, hdir⟩
      refine ⟨?_, hsource, hdir⟩
      dsimp only
      rw [hgone]
      rfl
    · exact ⟨hnone, rfl, rfl⟩
  exact ⟨_, by rw [pumped_slots, hslot]; rfl, hkept⟩

theorem Recorded.pumped (h : s.Recorded ctx past) (closeRequested : Bool) :
    (s.pumped closeRequested).Recorded ctx past := by
  obtain ⟨hmessages, -, hdeleted, -⟩ := pumped_kept s closeRequested
  refine ⟨fun id slot hslot => ?_, h.deleted.stays (stays_pumped s closeRequested) hdeleted,
    fun id msg hmem => ?_⟩
  · rw [pumped_slots] at hslot
    obtain ⟨before, hbefore, rfl⟩ := Option.map_eq_some_iff.mp hslot
    have hkept : (pumpedSlot s.messages closeRequested id before).Recorded ctx past id ∧
        (pumpedSlot s.messages closeRequested id before).source = before.source := by
      apply pumped_induction (P := fun other => other.Recorded ctx past id ∧
        other.source = before.source)
      · exact fun other hother => ⟨hother.1.shutDown,
          (shutDown_kept other).2.2.2.1.trans hother.2⟩
      · refine fun other msg hmsg hother => ⟨hother.1.pump fun info hinfo => ?_, hother.2⟩
        obtain ⟨told, htold, hshown⟩ := h.told id msg hmsg info hinfo
        cases hbefore.symm.trans htold
        exact hother.2 ▸ hshown
      · exact ⟨h.slots id before hbefore, rfl⟩
    exact hkept.1
  · rw [hmessages] at hmem
    exact absurd hmem List.not_mem_nil

theorem Listed.pumped (h : Listed past source s) (closeRequested : Bool) :
    Listed past source (s.pumped closeRequested) := by
  refine h.stays (stays_pumped s closeRequested) fun entry hentry => ⟨entry, ?_, rfl⟩
  rw [(pumped_kept s closeRequested).2.1]
  exact hentry

theorem Recorded.frame (h : s.Recorded ctx past) (closeRequested : Bool) :
    (s.frame closeRequested).Recorded ctx past ∧
      ∀ source, Listed past source s → Listed past source (s.frame closeRequested) := by
  obtain ⟨ids, hframe, -⟩ := frame_eq s closeRequested
  have hleft (ids : List Nat) (t : TorTorApp) (ht : t.Recorded ctx past)
      (hmessages : t.messages = []) : (ids.foldl TorTorApp.leave t).Recorded ctx past ∧
        ∀ source, Listed past source t → Listed past source (ids.foldl TorTorApp.leave t) := by
    induction ids generalizing t with
    | nil => exact ⟨ht, fun _ hlisted => hlisted⟩
    | cons id ids ih =>
      have hrest := ih (t.leave id) (ht.leave hmessages id)
        ((leave_kept t id).1.trans hmessages)
      exact ⟨hrest.1, fun source hlisted => hrest.2 source (hlisted.leave ht id)⟩
  obtain ⟨hrecorded, hlisted⟩ := hleft ids _ (h.pumped closeRequested)
    (pumped_kept s closeRequested).1
  obtain ⟨hslots, hentries, hmessages, hdeleted⟩ :=
    closeEmpty_kept (ids.foldl TorTorApp.leave (s.pumped closeRequested))
  rw [hframe]
  refine ⟨⟨?_, ?_, ?_⟩, fun source hbefore => ?_⟩
  · rw [hslots]
    exact hrecorded.slots
  · rw [Deleted, hdeleted, hslots]
    exact hrecorded.deleted
  · rw [hmessages, hslots]
    exact hrecorded.told
  · rw [Listed, hentries, hslots]
    exact hlisted source (hbefore.pumped closeRequested)

theorem source_of_remember (source : TorrentSource) (flags : List Bool)
    (entries : List SessionEntry) :
    (remember source flags entries).map (·.source) = entries.map (·.source) := by
  induction entries with
  | nil => rfl
  | cons entry entries ih =>
    rw [remember]
    split
    · rfl
    · rw [List.map_cons, ih, List.map_cons]

theorem stays_set {id : Nat} {slot slot' : TorrentSlot} (hslot : s.slots[id]? = some slot)
    (hsession : slot.session = none → slot'.session = none) (hsource : slot'.source = slot.source)
    (hdir : slot'.outputDir = slot.outputDir) {s' : TorTorApp}
    (hslots : s'.slots = s.slots.set id slot') : Stays s s' := by
  intro other before hbefore hnone
  rw [hslots]
  by_cases hother : other = id
  · subst hother
    cases hslot.symm.trans hbefore
    exact ⟨slot', by simp [(List.getElem?_eq_some_iff.mp hslot).1], hsession hnone, hsource, hdir⟩
  · rw [List.getElem?_set_ne (Ne.symm hother)]
    exact ⟨before, hbefore, hnone, rfl, rfl⟩

theorem Recorded.set (h : s.Recorded ctx past) {id : Nat} {slot slot' : TorrentSlot}
    (hslot : s.slots[id]? = some slot) (hslot' : slot'.Recorded ctx past id)
    (hsession : slot.session = none → slot'.session = none) (hsource : slot'.source = slot.source)
    (hdir : slot'.outputDir = slot.outputDir) (entries : List SessionEntry)
    (told : List TaskMessage)
    (htold : ∀ msg ∈ told, ∀ info, msg.info? = some info →
      Own ctx past id slot'.source info) :
    { s with
      slots := s.slots.set id slot'
      entries := entries
      messages := s.messages ++ told.map fun msg => (id, msg) }.Recorded ctx past := by
  have hlt := (List.getElem?_eq_some_iff.mp hslot).1
  refine ⟨fun other after hafter => ?_,
    h.deleted.stays (stays_set hslot hsession hsource hdir rfl) rfl, fun other msg hmem info hinfo => ?_⟩
  · dsimp only at hafter
    by_cases hother : other = id
    · subst hother
      rw [List.getElem?_set_self hlt] at hafter
      cases hafter
      exact hslot'
    · rw [List.getElem?_set_ne (Ne.symm hother)] at hafter
      exact h.slots other after hafter
  · dsimp only
    by_cases hother : other = id
    · subst hother
      refine ⟨slot', List.getElem?_set_self hlt, ?_⟩
      obtain hmem | hmem := List.mem_append.mp hmem
      · obtain ⟨before, hbefore, hshown⟩ := h.told other msg hmem info hinfo
        cases hslot.symm.trans hbefore
        exact hsource ▸ hshown
      · obtain ⟨own, hown, he⟩ := List.mem_map.mp hmem
        cases he
        exact htold msg hown info hinfo
    · rw [List.getElem?_set_ne (Ne.symm hother)]
      obtain hmem | hmem := List.mem_append.mp hmem
      · exact h.told other msg hmem info hinfo
      · obtain ⟨own, hown, he⟩ := List.mem_map.mp hmem
        cases he
        exact absurd rfl hother

theorem clicked_kept (slot : TorrentSlot) (session : TorrentSessionState) (click : Click) :
    (clicked slot session click).source = slot.source ∧
      (clicked slot session click).outputDir = slot.outputDir := by
  cases click <;> simp only [clicked] <;> split <;> simp

theorem Recorded.click (h : s.Recorded ctx past) {id : Nat} {click : Click}
    {t : TorTorApp} (hclick : past t (.click id click)) : (s.click id click).Recorded ctx past ∧
      ∀ source, Listed past source s → Listed past source (s.click id click) := by
  have hsame : s.Recorded ctx past ∧
      ∀ source, Listed past source s → Listed past source s := ⟨h, fun _ hlisted => hlisted⟩
  unfold TorTorApp.click
  split
  · exact hsame
  case h_2 slot hslot =>
    split
    · exact hsame
    case h_2 session hsession =>
      obtain ⟨hsource, hdir⟩ := clicked_kept slot session click
      have hpresent : slot.session = none → (clicked slot session click).session = none :=
        fun hnone => absurd (hsession.symm.trans hnone) (by rintro ⟨⟩)
      have hclicked (entries : List SessionEntry)
          (hentries : entries.map (·.source) = s.entries.map (·.source)) :
          { s with
            slots := s.slots.set id (clicked slot session click)
            entries := entries }.Recorded ctx past ∧
          ∀ source, Listed past source s → Listed past source
            { s with slots := s.slots.set id (clicked slot session click), entries := entries } := by
        have hset := h.set hslot ((h.slots id slot hslot).clicked hsession hclick) hpresent hsource
          hdir entries [] fun _ hmsg => absurd hmsg List.not_mem_nil
        rw [List.map_nil, List.append_nil] at hset
        refine ⟨hset, fun _ hlisted => hlisted.stays
          (stays_set hslot hpresent hsource hdir rfl) fun entry hentry => ?_⟩
        have hmem := List.mem_map_of_mem (f := (·.source)) hentry
        rw [← hentries] at hmem
        obtain ⟨entry', hentry', he⟩ := List.mem_map.mp hmem
        exact ⟨entry', hentry', he⟩
      split
      · split
        · exact hclicked _ (source_of_remember ..)
        · exact hsame
      · exact hclicked _ rfl

theorem Recorded.step (h : s.Recorded ctx past) {event : DashboardEvent}
    (hevent : past s event) : (s.step ctx event).Recorded ctx past ∧
      ∀ source, Listed past source s → Listed past source (s.step ctx event) := by
  have hsame : s.Recorded ctx past ∧
      ∀ source, Listed past source s → Listed past source s := ⟨h, fun _ hlisted => hlisted⟩
  cases event with
  | frame closeRequested =>
    simp only [TorTorApp.step]
    split
    · exact hsame
    · exact h.frame closeRequested
  | add added outputDir =>
    simp only [TorTorApp.step]
    split
    · exact hsame
    · have hmore {id : Nat} {slot : TorrentSlot} (hslot : s.slots[id]? = some slot) :
          (s.slots ++ [.new added outputDir none])[id]? = some slot := by
        rw [List.getElem?_append_left (List.getElem?_eq_some_iff.mp hslot).1]
        exact hslot
      have hstays (t : TorTorApp) (ht : t.slots = s.slots ++ [.new added outputDir none]) :
          Stays s t := fun id slot hslot hnone => ⟨slot, ht ▸ hmore hslot, hnone, rfl, rfl⟩
      refine ⟨⟨fun id slot hslot => ?_, h.deleted.stays (hstays _ rfl) rfl,
        fun id msg hmem info hinfo => ?_⟩, fun _ hlisted => hlisted.stays (hstays _ rfl)
          fun entry hentry => ⟨entry, List.mem_append_left _ hentry, rfl⟩⟩
      · obtain hlt | hge := Nat.lt_or_ge id s.slots.length
        · rw [List.getElem?_append_left hlt] at hslot
          exact h.slots id slot hslot
        · rw [List.getElem?_append_right hge] at hslot
          rw [List.mem_singleton.mp (List.mem_of_getElem? hslot)]
          exact TorrentSlot.recorded_new ..
      · obtain ⟨slot, hslot, hshown⟩ := h.told id msg hmem info hinfo
        exact ⟨slot, hmore hslot, hshown⟩
  | click id click =>
    simp only [TorTorApp.step]
    split
    · exact hsame
    · exact h.click hevent
  | task id event =>
    simp only [TorTorApp.step]
    split
    · exact hsame
    case h_2 slot hslot =>
      have hmoves := @TorrentSlot.moves_step ctx slot event
      obtain ⟨hsession, -, hsource, hdir⟩ := hmoves.kept
      have hgone : slot.session = none → (slot.step ctx event).1.session = none :=
        fun hnone => hsession.trans hnone
      have hrecorded := h.slots id slot hslot
      refine ⟨h.set hslot (hrecorded.moves hmoves hevent hslot) hgone hsource hdir s.entries _
        fun msg hmsg info hinfo => ?_, fun _ hlisted => ?_⟩
      · rw [hsource]
        exact hrecorded.tells hmoves hevent hslot hmsg hinfo
      exact hlisted.stays (stays_set hslot hgone hsource hdir rfl)
        fun entry hentry => ⟨entry, hentry, rfl⟩
  | tells id msg =>
    refine ⟨⟨h.slots, h.deleted, fun other msg' hmem info hinfo => ?_⟩, fun _ hlisted => hlisted⟩
    obtain hmem | hmem := List.mem_append.mp hmem
    · exact h.told other msg' hmem info hinfo
    · cases List.mem_singleton.mp hmem
      cases hinfo

theorem recorded_new (entries : List SessionEntry) (initial : List (TorrentSource × Path)) :
    (new entries initial).Recorded ctx past := by
  refine ⟨fun id slot hslot => ?_, fun id deletion hmem => absurd hmem List.not_mem_nil,
    fun id msg hmem => absurd hmem List.not_mem_nil⟩
  obtain hmem | hmem := List.mem_append.mp (List.mem_of_getElem? hslot)
  · obtain ⟨entry, -, rfl⟩ := List.mem_map.mp hmem
    exact TorrentSlot.recorded_new ..
  · obtain ⟨⟨source, outputDir⟩, -, rfl⟩ := List.mem_map.mp hmem
    exact TorrentSlot.recorded_new ..

def climbingContext : TaskContext where
  windows := false
  decoder := ⟨fun _ => none, fun _ => none⟩
  sha1 _ := zeroDigest
  url _ := some ("magnet",
    [("xt", "urn:btih:0000000000000000000000000000000000000000"), ("dn", "..")])
  hexDecode text := Net.decodeHexPairs text.toList

-- With such a link goes the directory above the one it was to be downloaded to.
example : ((exec (step climbingContext)
    (new [] [(.magnet "", ["home", "down"])]) [.task 0 (.load (.error "")), .frame false,
      .click 0 (.remove true), .task 0 (.receive false), .frame false]).deleted.head?) =
    some (0, .target ["home", "down"] "..") := by
  decide +kernel

end TorTorApp
end Tortor.System
