import Tortor.System.DashboardLaws

/-! When a torrent can leave the dashboard, and when the window can be closed. -/

namespace Tortor.System

open Tortor.Core Tortor.Lib

variable {ctx : TaskContext}

def TaskStage.Going : TaskStage → Prop
  | .loading | .stopping | .ended => False
  | _ => True

namespace TorrentSlot

def run (ctx : TaskContext) (slot : TorrentSlot) : List TaskEvent → TorrentSlot × List TaskMessage
  | [] => (slot, [])
  | event :: events =>
    let (next, told) := slot.step ctx event
    let (last, more) := next.run ctx events
    (last, told ++ more)

def CanEnd (ctx : TaskContext) (slot : TorrentSlot) : Prop :=
  ∃ events, .shutdownComplete ∈ (slot.run ctx events).2

variable {slot : TorrentSlot}

theorem canEnd_now (event : TaskEvent) (h : .shutdownComplete ∈ (slot.step ctx event).2) :
    slot.CanEnd ctx :=
  ⟨[event], List.mem_append_left _ h⟩

theorem canEnd_step (event : TaskEvent) (h : (slot.step ctx event).1.CanEnd ctx) :
    slot.CanEnd ctx := by
  obtain ⟨events, hack⟩ := h
  exact ⟨event :: events, List.mem_append_right _ hack⟩

theorem canEnd_stopping (htask : slot.task = .stopping) : slot.CanEnd ctx := by
  apply canEnd_now .stopped
  simp [step, htask]

theorem step_receive (ctx : TaskContext) (slot : TorrentSlot) (full : Bool) :
    slot.step ctx (.receive full) = slot.receive full := by
  unfold step
  cases slot.task <;> rfl

theorem receive_other {command : CoreCommand} {commands : List CoreCommand}
    (hcommands : slot.commands = command :: commands) (hstop : command ≠ .stopAll)
    (htask : (∃ info, slot.task = .waiting info) ∨ (∃ info, slot.task = .fetching info) ∨
      ∃ info started flags, slot.task = .running info started flags) (full : Bool) :
    (slot.receive full).1.commands = commands ∧ (slot.receive full).1.task.Going := by
  unfold receive
  rw [hcommands]
  obtain ⟨info, htask⟩ | ⟨info, htask⟩ | ⟨info, started, flags, htask⟩ := htask <;>
    simp only [htask]
  · cases command with
    | stopAll => exact absurd rfl hstop
    | startSwarm =>
      dsimp only
      split <;> exact ⟨rfl, trivial⟩
    | _ => exact ⟨rfl, trivial⟩
  · cases command with
    | stopAll => exact absurd rfl hstop
    | _ => exact ⟨trivial, trivial⟩
  · refine ⟨handle_commands .., ?_⟩
    obtain ⟨after, hrun⟩ := @handle_task { slot with commands := commands } full _ _ _ _ hstop htask
    rw [htask] at hrun
    rw [hrun]
    trivial

theorem canEnd_of_mem {commands : List CoreCommand} (h : slot.Sound ctx)
    (hcommands : slot.commands = commands) (hmem : .stopAll ∈ commands)
    (htask : slot.task.Going) : slot.CanEnd ctx := by
  induction commands generalizing slot with
  | nil => cases hmem
  | cons command commands ih =>
    have hreceive (slot : TorrentSlot) (h : slot.Sound ctx)
        (hcommands : slot.commands = command :: commands)
        (htask : (∃ info, slot.task = .waiting info) ∨ (∃ info, slot.task = .fetching info) ∨
          ∃ info started flags, slot.task = .running info started flags) : slot.CanEnd ctx := by
      by_cases hstop : command = .stopAll
      · subst hstop
        obtain ⟨info, htask⟩ | ⟨info, htask⟩ | ⟨info, started, flags, htask⟩ := htask
        · apply canEnd_now (.receive false)
          simp [step_receive, receive, hcommands, htask]
        · apply canEnd_now (.receive false)
          simp [step_receive, receive, hcommands, htask]
        · apply canEnd_step (.receive false)
          apply canEnd_stopping
          simp [step_receive, receive, hcommands, htask, handle]
      · obtain ⟨hrest, hgoing⟩ := receive_other hcommands hstop htask false
        apply canEnd_step (.receive false)
        rw [step_receive]
        exact ih (h.moves (moves_receive slot false)) hrest
          ((List.mem_cons.mp hmem).resolve_left fun he => hstop he.symm) hgoing
    have hannounced (slot : TorrentSlot) (h : slot.Sound ctx)
        (hcommands : slot.commands = command :: commands) {info : AnnouncedMeta}
        {requested : Option (List Bool)} (htask : slot.task = .announcing info requested) :
        slot.CanEnd ctx := by
      have hknown := h.known
      rw [htask] at hknown
      have hnext : (slot.step ctx (.announced false)).1 = (slot.announced info requested false).1 := by
        simp [step, htask]
      apply canEnd_step (.announced false)
      apply hreceive
      · exact h.moves (moves_step slot _)
      · rw [hnext, announced_of_known hknown]
        exact hcommands
      · rw [hnext, announced_of_known hknown]
        exact .inr (.inr ⟨_, _, _, rfl⟩)
    cases hstage : slot.task with
    | loading | stopping | ended => simp [hstage, TaskStage.Going] at htask
    | waiting info => exact hreceive slot h hcommands (.inl ⟨info, hstage⟩)
    | fetching info => exact hreceive slot h hcommands (.inr (.inl ⟨info, hstage⟩))
    | running info started flags =>
      exact hreceive slot h hcommands (.inr (.inr ⟨info, started, flags, hstage⟩))
    | announcing info requested => exact hannounced slot h hcommands hstage
    | choosing info =>
      have hnext : (slot.step ctx .choose).1 =
          { slot with task := .announcing info slot.selection } := by
        simp [step, hstage]
      apply canEnd_step .choose
      rw [hnext]
      exact hannounced _ (hnext ▸ h.moves (moves_step slot _)) hcommands rfl

/-- A task that is told to stop can acknowledge, unless it has ended or its torrent cannot be
loaded. -/
theorem canEnd (h : slot.Sound ctx) (hmem : .stopAll ∈ slot.commands ∨ slot.task = .stopping)
    (hended : slot.task ≠ .ended)
    (hload : slot.task = .loading → ∃ file info, loadSource ctx slot.source file = .ok info) :
    slot.CanEnd ctx := by
  obtain hmem | hstopping := hmem
  · cases hstage : slot.task with
    | stopping => exact canEnd_stopping hstage
    | ended => exact absurd hstage hended
    | loading =>
      obtain ⟨file, info, hok⟩ := hload hstage
      have hnext : (slot.step ctx (.load file)).1 = { slot with task := .waiting info } := by
        simp [step, hstage, hok]
      apply canEnd_step (.load file)
      rw [hnext]
      exact canEnd_of_mem (hnext ▸ h.moves (moves_step slot _)) rfl hmem trivial
    | _ => exact canEnd_of_mem h rfl hmem (by rw [hstage]; trivial)
  · exact canEnd_stopping hstopping

end TorrentSlot

namespace TorTorApp

/-- What the others of the dashboard keep from one state to a later one. -/
structure Spares (ctx : TaskContext) (id : Nat) (s s' : TorTorApp) : Prop where
  length : s'.slots.length = s.slots.length
  gone : ∀ (other : Nat) (slot : TorrentSlot), s.slots[other]? = some slot → slot.session = none →
    ∃ slot', s'.slots[other]? = some slot' ∧ slot'.session = none
  stuck : ∀ other, other ≠ id → Stuck ctx s' other → Stuck ctx s other

theorem Spares.refl (id : Nat) (s : TorTorApp) : Spares ctx id s s :=
  ⟨rfl, fun _ slot hslot hnone => ⟨slot, hslot, hnone⟩, fun _ _ h => h⟩

theorem Spares.trans {id : Nat} {s t u : TorTorApp} (h : Spares ctx id s t)
    (h' : Spares ctx id t u) : Spares ctx id s u := by
  refine ⟨h'.length.trans h.length, fun other slot hslot hnone => ?_,
    fun other hother hstuck => h.stuck other hother (h'.stuck other hother hstuck)⟩
  obtain ⟨next, hnext, hnone⟩ := h.gone other slot hslot hnone
  exact h'.gone other next hnext hnone

theorem length_of_getElem? {s s' : TorTorApp} {f : Nat → TorrentSlot → TorrentSlot}
    (h : ∀ id, s'.slots[id]? = s.slots[id]?.map (f id)) : s'.slots.length = s.slots.length := by
  apply Nat.le_antisymm
  · have hend := h s.slots.length
    rw [List.getElem?_eq_none_iff.mpr (Nat.le_refl _), Option.map_none,
      List.getElem?_eq_none_iff] at hend
    exact hend
  · have hend := h s'.slots.length
    rw [List.getElem?_eq_none_iff.mpr (Nat.le_refl _), eq_comm, Option.map_eq_none_iff,
      List.getElem?_eq_none_iff] at hend
    exact hend

theorem spares_frame (id : Nat) (s : TorTorApp) (closeRequested : Bool) :
    Spares ctx id s (s.frame closeRequested) := by
  refine ⟨length_of_getElem? (frame_slots s closeRequested), fun other slot hslot hnone => ?_,
    fun other _ hstuck => ?_⟩
  · refine ⟨looked s.messages closeRequested other slot, by rw [frame_slots, hslot]; rfl, ?_⟩
    exact (looked_session ..).mpr (.inl hnone)
  · obtain ⟨slot', hslot', hpresent, hcase⟩ := hstuck
    rw [frame_slots] at hslot'
    obtain ⟨slot, hslot, rfl⟩ := Option.map_eq_some_iff.mp hslot'
    rw [ne_eq, looked_session, not_or] at hpresent
    obtain ⟨htask, -, -, hsource, -⟩ := looked_kept s.messages closeRequested other slot
    rw [htask, hsource] at hcase
    exact ⟨slot, hslot, hpresent.1, hcase.imp_left fun hended => ⟨hended.1, hpresent.2⟩⟩

theorem spares_task (id : Nat) (s : TorTorApp) (event : TaskEvent) :
    Spares ctx id s (s.step ctx (.task id event)) := by
  simp only [TorTorApp.step]
  split
  · exact .refl id s
  case h_2 moved hmoved =>
    have hkept := (@TorrentSlot.moves_step ctx moved event).kept
    refine ⟨List.length_set, fun other slot hslot hnone => ?_, fun other hother hstuck => ?_⟩
    · by_cases hother : other = id
      · subst hother
        cases hmoved.symm.trans hslot
        exact ⟨_, by simp [(List.getElem?_eq_some_iff.mp hslot).1], hkept.1.trans hnone⟩
      · exact ⟨slot, by rw [← hslot]; exact List.getElem?_set_ne (Ne.symm hother), hnone⟩
    · obtain ⟨slot, hslot, hpresent, hcase⟩ := hstuck
      refine ⟨slot, ?_, hpresent, hcase.imp_left fun hended => ⟨hended.1, fun hack => ?_⟩⟩
      · rw [← hslot]
        exact (List.getElem?_set_ne (Ne.symm hother)).symm
      · exact hended.2 (List.mem_append_left _ hack)

theorem exec_tasks (id : Nat) (events : List TaskEvent) {s : TorTorApp} {slot : TorrentSlot}
    (hslot : s.slots[id]? = some slot) :
    let s' := exec (step ctx) s (events.map (.task id))
    s'.slots[id]? = some (slot.run ctx events).1 ∧
      s'.messages = s.messages ++ (slot.run ctx events).2.map (fun msg => (id, msg)) ∧
      s'.closed = s.closed ∧ Spares ctx id s s' := by
  induction events generalizing s slot with
  | nil => exact ⟨hslot, by simp [TorrentSlot.run], rfl, .refl id s⟩
  | cons event events ih =>
    have hstep : s.step ctx (.task id event) =
        { s with
          slots := s.slots.set id (slot.step ctx event).1
          messages := s.messages ++ (slot.step ctx event).2.map fun msg => (id, msg) } := by
      simp only [TorTorApp.step, hslot]
    have hnext : (s.step ctx (.task id event)).slots[id]? = some (slot.step ctx event).1 := by
      rw [hstep]
      exact List.getElem?_set_self (List.getElem?_eq_some_iff.mp hslot).1
    obtain ⟨hlast, hmore, hclosed', hspares⟩ := ih hnext
    refine ⟨hlast, ?_, hclosed'.trans (by rw [hstep]), (spares_task id s event).trans hspares⟩
    rw [List.map_cons, exec_cons, hmore, hstep, TorrentSlot.run, List.map_append,
      List.append_assoc]

theorem shutDown_down (slot : TorrentSlot) : ∀ session, slot.shutDown.session = some session →
    session.isShuttingDown = true := by
  intro session hsession
  unfold TorrentSlot.shutDown at hsession
  split at hsession
  case h_1 before hbefore =>
    split at hsession
    case isTrue hdown =>
      cases hbefore.symm.trans hsession
      exact hdown
    case isFalse =>
      rw [TorrentSlot.send_session] at hsession
      cases hsession
      rfl
  case h_2 hnone => cases hnone.symm.trans hsession

theorem looked_down (messages : List (Nat × TaskMessage)) (id : Nat) (slot : TorrentSlot) :
    ∀ session, (looked messages true id slot).session = some session →
      session.isShuttingDown = true := by
  have hpumped (messages : List (Nat × TaskMessage)) (slot : TorrentSlot)
      (h : ∀ session, slot.session = some session → session.isShuttingDown = true) :
      ∀ session, (messages.foldl
        (fun slot message => { slot with session := slot.session.map (·.pump message.2) })
        slot).session = some session → session.isShuttingDown = true := by
    induction messages generalizing slot with
    | nil => exact h
    | cons message messages ih =>
      refine ih _ fun session hsession => ?_
      obtain ⟨before, hbefore, rfl⟩ := Option.map_eq_some_iff.mp hsession
      rw [(TorrentSlot.pump_kept _ _).1]
      exact h before hbefore
  intro session hsession
  unfold looked at hsession
  dsimp only [pumpedSlot, if_true] at hsession
  split at hsession
  · cases hsession
  · exact hpumped _ _ (shutDown_down slot) session hsession

/-- A torrent that is not stuck can leave, and no other gets stuck for that. -/
theorem can_leave {s : TorTorApp} (h : s.Sound ctx) {id : Nat} {slot : TorrentSlot}
    (hslot : s.slots[id]? = some slot) (hstuck : ¬ Stuck ctx s id) :
    ∃ later slot', (exec (step ctx) s later).slots[id]? = some slot' ∧ slot'.session = none ∧
      Spares ctx id s (exec (step ctx) s later) := by
  cases hclosed : s.closed with
  | true => exact ⟨[], slot, hslot, h.closed hclosed id slot hslot, .refl id s⟩
  | false =>
    have hframe (s : TorTorApp) (hclosed : s.closed = false) (closeRequested : Bool) :
        s.step ctx (.frame closeRequested) = s.frame closeRequested := by
      simp [TorTorApp.step, hclosed]
    have hasked : (s.frame true).slots[id]? = some (looked s.messages true id slot) := by
      rw [frame_slots, hslot]
      rfl
    by_cases hgone : (looked s.messages true id slot).session = none
    · refine ⟨[.frame true], _, ?_, hgone, ?_⟩
      · rw [exec_cons, exec_nil, hframe s hclosed, hasked]
      · rw [exec_cons, exec_nil, hframe s hclosed]
        exact spares_frame id s true
    · have hsound := h.frame true
      have hopen : (s.frame true).closed = false := by
        rw [Bool.eq_false_iff]
        exact fun hclosed' => hgone (hsound.closed hclosed' id _ hasked)
      obtain ⟨htask, -, -, hsource, -⟩ := looked_kept s.messages true id slot
      rw [looked_session, not_or] at hgone
      have hslotSound := hsound.slots id _ hasked
      obtain ⟨session, hsession⟩ := Option.ne_none_iff_exists'.mp
        (fun hnone => (not_or.mpr hgone) ((looked_session s.messages true id slot).mp hnone))
      have hended : slot.task ≠ .ended := fun hended =>
        hstuck ⟨slot, hslot, hgone.1, .inl ⟨hended, hgone.2⟩⟩
      have hload : slot.task = .loading →
          ∃ file info, loadSource ctx slot.source file = .ok info := by
        intro hloading
        by_contra hno
        push Not at hno
        exact hstuck ⟨slot, hslot, hgone.1, .inr ⟨hloading, hno⟩⟩
      have hcan : (looked s.messages true id slot).CanEnd ctx := by
        apply TorrentSlot.canEnd hslotSound
        · by_cases hstopping : slot.task = .stopping
          · exact .inr (htask.trans hstopping)
          · exact .inl (hslotSound.stops session hsession (looked_down _ _ _ session hsession)
              (htask ▸ hstopping) (htask ▸ hended))
        · rwa [htask]
        · rwa [htask, hsource]
      obtain ⟨events, hack⟩ := hcan
      obtain ⟨hlast, hmessages, hclosed', hspares⟩ :=
        @exec_tasks ctx id events (s.frame true) _ hasked
      have hdone : (id, .shutdownComplete) ∈
          (exec (step ctx) (s.frame true) (events.map (.task id))).messages := by
        rw [hmessages]
        exact List.mem_append_right _ (List.mem_map_of_mem hack)
      have hrun : exec (step ctx) s (.frame true :: events.map (.task id) ++ [.frame false]) =
          (exec (step ctx) (s.frame true) (events.map (.task id))).frame false := by
        rw [exec_append, exec_cons s, hframe s hclosed]
        exact hframe _ (hclosed'.trans hopen) false
      generalize exec (step ctx) (s.frame true) (events.map (.task id)) = t at *
      have hleft : (t.frame false).slots[id]? =
          some (looked t.messages false id ((looked s.messages true id slot).run ctx events).1) := by
        rw [frame_slots, hlast]
        rfl
      refine ⟨.frame true :: events.map (.task id) ++ [.frame false], _, hrun ▸ hleft,
        (looked_session ..).mpr (.inr hdone), ?_⟩
      rw [hrun]
      exact ((spares_frame id s true).trans hspares).trans (spares_frame id _ false)

theorem can_empty {s : TorTorApp} (h : s.Sound ctx) (hstuck : ∀ id, ¬ Stuck ctx s id) :
    ∀ count ≤ s.slots.length, ∃ later,
      (exec (step ctx) s later).slots.length = s.slots.length ∧
      (∀ id, ¬ Stuck ctx (exec (step ctx) s later) id) ∧
      ∀ id < count, ∃ slot, (exec (step ctx) s later).slots[id]? = some slot ∧
        slot.session = none := by
  intro count hcount
  induction count with
  | zero => exact ⟨[], rfl, hstuck, fun id hid => absurd hid (Nat.not_lt_zero id)⟩
  | succ count ih =>
    obtain ⟨later, hlength, hfree, hgone⟩ := ih (by omega)
    have hsound : (exec (step ctx) s later).Sound ctx :=
      exec_invariant (P := Sound ctx) (fun _ event h => h.step event) later h
    obtain ⟨slot, hslot⟩ : ∃ slot, (exec (step ctx) s later).slots[count]? = some slot :=
      ⟨_, List.getElem?_eq_getElem (by omega)⟩
    obtain ⟨more, slot', hslot', hnone, hspares⟩ := can_leave hsound hslot (hfree count)
    refine ⟨later ++ more, ?_, fun id => ?_, fun id hid => ?_⟩
    · rw [exec_append, hspares.length, hlength]
    · rw [exec_append]
      by_cases hid : id = count
      · rintro ⟨other, hother, hpresent, -⟩
        rw [hid, hslot'] at hother
        cases hother
        exact hpresent hnone
      · exact fun hstuck => hfree id (hspares.stuck id hid hstuck)
    · rw [exec_append]
      obtain hid | rfl := Nat.lt_succ_iff_lt_or_eq.mp hid
      · obtain ⟨other, hother, hnone⟩ := hgone id hid
        exact hspares.gone id other hother hnone
      · exact ⟨slot', hslot', hnone⟩

theorem Stuck.exec {s : TorTorApp} {id : Nat} (hsound : s.Sound ctx) (h : Stuck ctx s id)
    (later : List DashboardEvent) : Stuck ctx (exec (TorTorApp.step ctx) s later) id :=
  (exec_invariant (P := fun s => s.Sound ctx ∧ Stuck ctx s id)
    (fun _ event h => ⟨h.1.step event, h.2.step h.1 event⟩) later ⟨hsound, h⟩).2

end TorTorApp

namespace TorrentSlot

/-- The torrent cannot be loaded from what was read, or its metadata was not fetched. -/
def GivesUp (ctx : TaskContext) (slot : TorrentSlot) : TaskEvent → Prop
  | .load file => slot.task = .loading ∧ ∀ info, loadSource ctx slot.source file ≠ .ok info
  | .fetched result => ∃ info, slot.task = .fetching info ∧ ∀ bytes, result = .ok bytes →
      ∀ fetched, parseTorrentMetadataBytes ctx.decoder ctx.sha1 ctx.windows bytes info.infoHash ≠
        .ok fetched
  | _ => False

theorem GivesUp.not_ended {slot : TorrentSlot} {event : TaskEvent} (h : slot.GivesUp ctx event) :
    slot.task ≠ .ended := by
  cases event with
  | load file => exact fun hended => nomatch h.1.symm.trans hended
  | fetched result =>
    obtain ⟨info, htask, -⟩ := h
    exact fun hended => nomatch htask.symm.trans hended
  | receive | choose | announced | stopped => exact h.elim

theorem GivesUp.step {slot : TorrentSlot} {event : TaskEvent} (h : slot.GivesUp ctx event) :
    ∃ err, slot.step ctx event = slot.fail err := by
  cases event with
  | load file =>
    obtain ⟨htask, hload⟩ := h
    cases hsource : loadSource ctx slot.source file with
    | error err => exact ⟨err, by simp [TorrentSlot.step, htask, hsource]⟩
    | ok info => exact absurd hsource (hload info)
  | fetched result =>
    obtain ⟨info, htask, hfetch⟩ := h
    have hstep : slot.step ctx (.fetched result) = slot.fetched ctx info result := by
      simp only [TorrentSlot.step, htask]
    rw [hstep]
    cases result with
    | error error => exact ⟨.fetch error, rfl⟩
    | ok bytes =>
      cases hparse : parseTorrentMetadataBytes ctx.decoder ctx.sha1 ctx.windows bytes
          info.infoHash with
      | error err => exact ⟨.metadata err, by simp [TorrentSlot.fetched, hparse]⟩
      | ok fetched => exact absurd hparse (hfetch bytes rfl fetched)
  | receive | choose | announced | stopped => exact h.elim

end TorrentSlot

namespace TorTorApp

theorem stuck_of_givesUp {s : TorTorApp} (hsound : s.Sound ctx) {id : Nat} {slot : TorrentSlot}
    (hslot : s.slots[id]? = some slot) {event : TaskEvent} (h : slot.GivesUp ctx event) :
    Stuck ctx (s.step ctx (.task id event)) id := by
  obtain ⟨err, hfail⟩ := h.step
  have hlt : id < s.slots.length := (List.getElem?_eq_some_iff.mp hslot).1
  have hstep : s.step ctx (.task id event) = { s with
      slots := s.slots.set id slot.finish
      messages := s.messages ++ [(id, .failed err), (id, .returned err)] } := by
    simp only [TorTorApp.step, hslot, hfail, TorrentSlot.fail, List.map_cons, List.map_nil]
  have hack : (id, .shutdownComplete) ∉ s.messages := by
    intro hack
    obtain ⟨other, hother, hended⟩ := hsound.acknowledged id hack
    cases hslot.symm.trans hother
    exact h.not_ended hended
  refine ⟨slot.finish, ?_, fun hnone => h.not_ended ((hsound.slots id slot hslot).gone hnone),
    .inl ⟨rfl, ?_⟩⟩
  · rw [hstep]
    exact List.getElem?_set_self hlt
  · rw [hstep]
    simp [hack]

/-- Whatever the user and the tasks have done: a closed window has left no task behind; a torrent
can still leave the dashboard, and the window can still be closed, exactly when the task of that
torrent, or of each, is there to acknowledge it.  A task that gives up, because its torrent could
not be loaded or its metadata not be fetched, keeps its torrent and the window. -/
theorem window_closes_iff (ctx : TaskContext) (entries : List SessionEntry)
    (initial : List (TorrentSource × Path)) (events : List DashboardEvent) :
    let s := exec (step ctx) (new entries initial) events
    (s.closed = true → ∀ slot ∈ s.slots, slot.session = none ∧ slot.task = .ended) ∧
    (∀ (id : Nat) (slot : TorrentSlot), s.slots[id]? = some slot →
      ((∃ later slot', (exec (step ctx) s later).slots[id]? = some slot' ∧
          slot'.session = none) ↔ ¬ Stuck ctx s id)) ∧
    ((∃ later, (exec (step ctx) s later).closed = true) ↔ ∀ id, ¬ Stuck ctx s id) ∧
    ∀ (id : Nat) (slot : TorrentSlot) (event : TaskEvent), s.slots[id]? = some slot →
      slot.GivesUp ctx event → ∀ later,
        Stuck ctx (exec (step ctx) (s.step ctx (.task id event)) later) id := by
  intro s
  have hsound : s.Sound ctx :=
    exec_invariant (P := Sound ctx) (fun _ event h => h.step event) events
      (sound_new entries initial)
  refine ⟨fun hclosed slot hmem => ?_, fun id slot hslot => ⟨?_, fun hstuck => ?_⟩,
    ⟨?_, fun hstuck => ?_⟩, fun id slot event hslot hgives later =>
      (stuck_of_givesUp hsound hslot hgives).exec (hsound.step (.task id event)) later⟩
  · obtain ⟨id, hslot⟩ := List.mem_iff_getElem?.mp hmem
    have hnone := hsound.closed hclosed id slot hslot
    exact ⟨hnone, (hsound.slots id slot hslot).gone hnone⟩
  · rintro ⟨later, slot', hslot', hnone⟩ hstuck
    obtain ⟨other, hother, hpresent, -⟩ := hstuck.exec hsound later
    cases hslot'.symm.trans hother
    exact hpresent hnone
  · obtain ⟨later, slot', hslot', hnone, -⟩ := can_leave hsound hslot hstuck
    exact ⟨later, slot', hslot', hnone⟩
  · rintro ⟨later, hclosed⟩ id hstuck
    have hlater : (exec (step ctx) s later).Sound ctx :=
      exec_invariant (P := Sound ctx) (fun _ event h => h.step event) later hsound
    obtain ⟨slot, hslot, hpresent, -⟩ := hstuck.exec hsound later
    exact hpresent (hlater.closed hclosed id slot hslot)
  · obtain ⟨later, hlength, -, hgone⟩ := can_empty hsound hstuck s.slots.length (Nat.le_refl _)
    cases hclosed : (exec (step ctx) s later).closed with
    | true => exact ⟨later, hclosed⟩
    | false =>
      have hframe : exec (step ctx) s (later ++ [.frame true]) =
          (exec (step ctx) s later).frame true := by
        rw [exec_append, exec_cons, exec_nil, step, if_neg (by rw [hclosed]; rintro ⟨⟩)]
      refine ⟨later ++ [.frame true], ?_⟩
      rw [hframe, frame_closed]
      refine .inr ⟨.inl rfl, fun id slot hslot => ?_⟩
      rw [frame_slots] at hslot
      obtain ⟨before, hbefore, rfl⟩ := Option.map_eq_some_iff.mp hslot
      have hlt : id < s.slots.length := hlength ▸ (List.getElem?_eq_some_iff.mp hbefore).1
      obtain ⟨other, hother, hnone⟩ := hgone id hlt
      cases hbefore.symm.trans hother
      exact (looked_session ..).mpr (.inl hnone)

end TorTorApp
end Tortor.System
