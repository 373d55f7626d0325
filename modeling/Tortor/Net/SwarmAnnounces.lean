import Tortor.Lib.Run
import Tortor.Net.SwarmManager

/-! The event a swarm has for its trackers, and which announces bring it to one. -/

namespace Tortor.Net

open Tortor.Core (Digest SessionEvent SocketAddr)
open Tortor.Lib

namespace SwarmManager

def Backed (s : SwarmManager) (sent : Sent) : Prop :=
  ∀ addrs, sent.event = .trackerPeersReceived addrs →
    ∃ (k : Nat) (announce : Announce), sent.origin = .announce k ∧ s.announces[k]? = some announce ∧
      announce.answered = true

structure Extends (s t : SwarmManager) : Prop where
  params : ∀ (k : Nat) (announce : Announce), t.announces[k]? = some announce →
    (∃ before, s.announces[k]? = some before ∧ announce.params = before.params) ∨
    (s.announces.length ≤ k ∧ announce.params.event = t.swarmState.event)
  length : s.announces.length ≤ t.announces.length
  answered : ∀ (k : Nat) (before : Announce), s.announces[k]? = some before → before.answered = true →
    ∃ announce : Announce, t.announces[k]? = some announce ∧ announce.answered = true
  events : ∀ sent ∈ t.events, sent ∈ s.events ∨ t.Backed sent

namespace Extends

variable {s t u : SwarmManager}

theorem same (hannounces : t.announces = s.announces) (hevents : t.events ⊆ s.events) :
    Extends s t where
  params := fun k announce h => Or.inl ⟨announce, hannounces ▸ h, rfl⟩
  length := by rw [hannounces]
  answered := fun k before h hbefore => ⟨before, hannounces ▸ h, hbefore⟩
  events := fun _ hsent => Or.inl (hevents hsent)

theorem backed (h : Extends s t) {sent : Sent} (hsent : s.Backed sent) : t.Backed sent := by
  intro addrs hevent
  obtain ⟨k, before, horigin, hbefore, hanswered⟩ := hsent addrs hevent
  obtain ⟨announce, hannounce, hstill⟩ := h.answered k before hbefore hanswered
  exact ⟨k, announce, horigin, hannounce, hstill⟩

/-- The second step must leave the event alone, so that what the first one started carries it. -/
theorem trans (h₁ : Extends s t) (h₂ : Extends t u)
    (hevent : u.swarmState.event = t.swarmState.event) : Extends s u where
  params := by
    intro k announce hannounce
    rcases h₂.params k announce hannounce with ⟨middle, hmiddle, hparams⟩ | ⟨hk, hcarries⟩
    · rcases h₁.params k middle hmiddle with ⟨before, hbefore, heq⟩ | ⟨hk, hcarries⟩
      · exact Or.inl ⟨before, hbefore, hparams.trans heq⟩
      · rw [hparams, hevent]
        exact Or.inr ⟨hk, hcarries⟩
    · exact Or.inr ⟨h₁.length.trans hk, hcarries⟩
  length := h₁.length.trans h₂.length
  answered := by
    intro k before hbefore hanswered
    obtain ⟨middle, hmiddle, hstill⟩ := h₁.answered k before hbefore hanswered
    exact h₂.answered k middle hmiddle hstill
  events := by
    intro sent hsent
    rcases h₂.events sent hsent with hmiddle | hbacked
    · rcases h₁.events sent hmiddle with hbefore | hbacked
      · exact Or.inl hbefore
      · exact Or.inr (h₂.backed hbacked)
    · exact Or.inr hbacked

theorem start (s : SwarmManager) (env : RoundEnv) : Extends s (s.startReannounce env) where
  params := by
    intro k announce hannounce
    rw [startReannounce] at hannounce
    rcases Nat.lt_or_ge k s.announces.length with hlt | hge
    · rw [List.getElem?_append_left hlt] at hannounce
      exact Or.inl ⟨announce, hannounce, rfl⟩
    · rw [List.getElem?_append_right hge, List.getElem?_singleton] at hannounce
      split at hannounce
      · cases hannounce
        exact Or.inr ⟨hge, rfl⟩
      · cases hannounce
  length := by
    rw [startReannounce, List.length_append]
    exact Nat.le_add_right _ _
  answered := by
    intro k before hbefore hanswered
    obtain ⟨hlt, -⟩ := List.getElem?_eq_some_iff.mp hbefore
    exact ⟨before, by rw [startReannounce, List.getElem?_append_left hlt, hbefore], hanswered⟩
  events := fun _ hsent => Or.inl hsent

theorem modify {f : Announce → Announce} (n : Nat)
    (hannounces : t.announces = s.announces.modify n f) (hparams : ∀ a, (f a).params = a.params)
    (hanswered : ∀ a, a.answered = true → (f a).answered = true)
    (hevents : ∀ sent ∈ t.events, sent ∈ s.events ∨ t.Backed sent) : Extends s t where
  params := by
    intro k announce hannounce
    rw [hannounces, List.getElem?_modify, Option.map_eq_map, Option.map_eq_some_iff] at hannounce
    obtain ⟨before, hbefore, rfl⟩ := hannounce
    refine Or.inl ⟨before, hbefore, ?_⟩
    split
    · exact hparams before
    · rfl
  length := by rw [hannounces, List.length_modify]
  answered := by
    intro k before hbefore hb
    refine ⟨_, by rw [hannounces, List.getElem?_modify, hbefore]; rfl, ?_⟩
    split
    · exact hanswered before hb
    · exact hb
  events := hevents

theorem sent {origin : Origin} {event : SwarmEvent} (hannounces : t.announces = s.announces)
    (hevents : t.events = s.events ++ [⟨event, origin⟩])
    (hevent : ∀ addrs, event ≠ .trackerPeersReceived addrs) : Extends s t where
  params := fun k announce h => Or.inl ⟨announce, hannounces ▸ h, rfl⟩
  length := by rw [hannounces]
  answered := fun k before h hbefore => ⟨before, hannounces ▸ h, hbefore⟩
  events := by
    intro sent hsent
    rw [hevents, List.mem_append, List.mem_singleton] at hsent
    rcases hsent with hold | rfl
    · exact Or.inl hold
    · exact Or.inr fun addrs heq => absurd heq (hevent addrs)

end Extends

@[simp] theorem event_reannounce (s : SwarmManager) (env : RoundEnv) :
    (s.reannounce env).swarmState.event = s.swarmState.event := by
  unfold reannounce
  split <;> rfl

theorem extends_reannounce (s : SwarmManager) (env : RoundEnv) : Extends s (s.reannounce env) := by
  unfold reannounce
  split
  · exact .start s env
  · exact .same rfl (List.Subset.refl _)

theorem extends_taskEnds (s : SwarmManager) (t : Nat) : Extends s (s.taskEnds t) := by
  unfold taskEnds
  split
  · split
    · exact .same rfl (List.Subset.refl _)
    · exact .sent rfl rfl (by simp)
  · exact .same rfl (List.Subset.refl _)

theorem extends_trackerAnswers (s : SwarmManager) (k : Nat) (addrs : List SocketAddr) :
    Extends s (s.trackerAnswers k addrs) := by
  unfold trackerAnswers
  split
  · rename_i announce hannounce
    split
    · exact .same rfl (List.Subset.refl _)
    · refine Extends.modify k rfl (fun _ => rfl) (fun _ _ => rfl) ?_
      intro sent hsent
      rw [send, List.mem_append, List.mem_singleton] at hsent
      rcases hsent with hold | rfl
      · exact Or.inl hold
      · refine Or.inr fun _ _ =>
          ⟨k, { announce with waiting := announce.waiting - 1, answered := true }, rfl, ?_, rfl⟩
        rw [send, List.getElem?_modify, hannounce, Option.map_eq_map, Option.map_some, if_pos rfl]
  · exact .same rfl (List.Subset.refl _)

theorem extends_announceEnds (s : SwarmManager) (k : Nat) (error : String) :
    Extends s (s.announceEnds k error) := by
  unfold announceEnds
  split
  · split
    · exact .same rfl (List.Subset.refl _)
    · have hend : Extends s { s with
          announces := s.announces.modify k fun announce => { announce with ended := true } } :=
        .modify k rfl (fun _ => rfl) (fun _ h => h) fun _ h => Or.inl h
      dsimp only
      split
      · exact hend
      · exact hend.trans (.sent rfl rfl (by simp)) rfl
  · exact .same rfl (List.Subset.refl _)

theorem frame_handleEvent (s : SwarmManager) (env : RoundEnv) (event : SwarmEvent) :
    (s.handleEvent env event).announces = s.announces ∧ (s.handleEvent env event).events = s.events := by
  cases event with
  | peerProgress addr delta =>
    rw [handleEvent]
    split <;> exact ⟨rfl, rfl⟩
  | peerExited addr => exact ⟨rfl, rfl⟩
  | trackerPeersReceived addrs => exact ⟨rfl, rfl⟩
  | trackerAnnounceFailed error => exact ⟨rfl, rfl⟩
  | pexPeersReceived addrs => exact ⟨rfl, rfl⟩
  | dhtPeersReceived addrs => exact ⟨rfl, rfl⟩

theorem frame_dialLoop (now : Nat) (s : SwarmManager) (queue : List SocketAddr) :
    (dialLoop now s queue).announces = s.announces ∧ (dialLoop now s queue).events = s.events ∧
      (dialLoop now s queue).swarmState = s.swarmState := by
  induction queue generalizing s with
  | nil => exact ⟨rfl, rfl, rfl⟩
  | cons addr rest ih =>
    rw [dialLoop]
    split
    · exact ⟨rfl, rfl, rfl⟩
    · split
      · exact ih s
      · exact ih (s.dial addr now)

theorem extends_select {s t : SwarmManager} {env : RoundEnv} {branch : Branch}
    (h : s.select env branch = some t) : Extends s t := by
  cases branch with
  | event =>
    simp only [select] at h
    split at h
    · cases h
    · rename_i sent rest hevents
      cases h
      obtain ⟨hannounces, hkept⟩ := frame_handleEvent { s with events := rest } env sent.event
      refine .same hannounces ?_
      rw [hkept, hevents]
      exact List.subset_cons_self sent rest
  | pexTick =>
    simp only [select] at h
    split at h <;> cases h <;> exact .same rfl (List.Subset.refl _)
  | session event =>
    cases event with
    | downloadComplete =>
      cases h
      have hset : Extends s { s with
          swarmState := { s.swarmState with event := some "completed", leftHint := 0 } } :=
        .same rfl (List.Subset.refl _)
      exact hset.trans (.start _ env) rfl
    | pieceCompleted index => cases h; exact .same rfl (List.Subset.refl _)
    | activePeersSnapshot peers => cases h; exact .same rfl (List.Subset.refl _)
    | selectionChanged => cases h; exact .same rfl (List.Subset.refl _)
  | tick =>
    cases h
    obtain ⟨hannounces, hevents, -⟩ := frame_dialLoop env.now (s.expire env.now) s.availablePeers
    refine .same hannounces ?_
    intro sent hsent
    exact hevents ▸ hsent

theorem extends_step (s : SwarmManager) (input : SwarmInput) : Extends s (s.step input) := by
  cases input with
  | shutdown env =>
    rw [step]
    split <;> exact .same rfl (List.Subset.refl _)
  | round branch env =>
    rw [step]
    split
    · exact .same rfl (List.Subset.refl _)
    · split
      · rename_i next hnext
        exact (extends_select hnext).trans (extends_reannounce next env) (event_reannounce next env)
      · exact .same rfl (List.Subset.refl _)
  | progress addr delta => exact .sent rfl rfl (by simp)
  | pexPeers addrs => exact .sent rfl rfl (by simp)
  | dhtPeers addrs => exact .sent rfl rfl (by simp)
  | taskEnds t => exact extends_taskEnds s t
  | trackerAnswers k addrs => exact extends_trackerAnswers s k addrs
  | trackerFails k => exact .modify k rfl (fun _ => rfl) (fun _ h => h) fun _ h => Or.inl h
  | announceEnds k error => exact extends_announceEnds s k error

theorem event_handleEvent (s : SwarmManager) (env : RoundEnv) (event : SwarmEvent) :
    (s.handleEvent env event).swarmState.event = s.swarmState.event ∨
      ∃ addrs, event = .trackerPeersReceived addrs := by
  cases event with
  | peerProgress addr delta =>
    rw [handleEvent]
    split <;> exact Or.inl rfl
  | peerExited addr => exact Or.inl rfl
  | trackerPeersReceived addrs => exact Or.inr ⟨addrs, rfl⟩
  | trackerAnnounceFailed error => exact Or.inl rfl
  | pexPeersReceived addrs => exact Or.inl rfl
  | dhtPeersReceived addrs => exact Or.inl rfl

theorem event_select {s t : SwarmManager} {env : RoundEnv} {branch : Branch}
    (h : s.select env branch = some t) (hnone : t.swarmState.event = none) :
    s.swarmState.event = none ∨ branch = .event ∧ ∃ sent rest addrs, s.events = sent :: rest ∧
      sent.event = .trackerPeersReceived addrs := by
  cases branch with
  | event =>
    simp only [select] at h
    split at h
    · cases h
    · rename_i sent rest hevents
      cases h
      rcases event_handleEvent { s with events := rest } env sent.event with hsame | ⟨addrs, hpeers⟩
      · exact Or.inl (hsame.symm.trans hnone)
      · exact Or.inr ⟨rfl, sent, rest, addrs, hevents, hpeers⟩
  | pexTick =>
    simp only [select] at h
    split at h <;> cases h <;> exact Or.inl hnone
  | session event =>
    cases event with
    | downloadComplete =>
      cases h
      cases hnone
    | pieceCompleted index => cases h; exact Or.inl hnone
    | activePeersSnapshot peers => cases h; exact Or.inl hnone
    | selectionChanged => cases h; exact Or.inl hnone
  | tick =>
    cases h
    obtain ⟨-, -, hstate⟩ := frame_dialLoop env.now (s.expire env.now) s.availablePeers
    exact Or.inl (hstate ▸ hnone)

theorem event_cleared_iff {s : SwarmManager} {input : SwarmInput}
    (hevent : s.swarmState.event ≠ none) :
    (s.step input).swarmState.event = none ↔
      ∃ env sent rest addrs, input = .round .event env ∧ s.stopped = false ∧
        s.events = sent :: rest ∧ sent.event = .trackerPeersReceived addrs := by
  constructor
  · intro hnone
    cases input with
    | shutdown env =>
      rw [step] at hnone
      split at hnone <;> exact absurd hnone hevent
    | round branch env =>
      rw [step] at hnone
      split at hnone
      · exact absurd hnone hevent
      · rename_i hstopped
        split at hnone
        · rename_i next hnext
          rw [event_reannounce] at hnone
          rcases event_select hnext hnone with hbefore | ⟨rfl, sent, rest, addrs, hevents, hpeers⟩
          · exact absurd hbefore hevent
          · exact ⟨env, sent, rest, addrs, rfl, eq_false_of_ne_true hstopped, hevents, hpeers⟩
        · exact absurd hnone hevent
    | progress addr delta => exact absurd hnone hevent
    | pexPeers addrs => exact absurd hnone hevent
    | dhtPeers addrs => exact absurd hnone hevent
    | taskEnds t =>
      obtain ⟨tasks, events, heq⟩ := s.taskEnds_frame t
      rw [step, heq] at hnone
      exact absurd hnone hevent
    | trackerAnswers k addrs =>
      obtain ⟨announces, events, heq⟩ := s.trackerAnswers_frame k addrs
      rw [step, heq] at hnone
      exact absurd hnone hevent
    | trackerFails k => exact absurd hnone hevent
    | announceEnds k error =>
      obtain ⟨announces, events, heq⟩ := s.announceEnds_frame k error
      rw [step, heq] at hnone
      exact absurd hnone hevent
  · rintro ⟨env, sent, rest, addrs, rfl, hstopped, hevents, hpeers⟩
    simp [step, select, hstopped, hevents, hpeers, handleEvent, enqueue]

end SwarmManager

/-- A swarm with the number of announces there were when its event became what it is. -/
structure PendingEvent where
  swarm : SwarmManager
  since : Nat

namespace PendingEvent

def step (w : PendingEvent) (input : SwarmInput) : PendingEvent where
  swarm := w.swarm.step input
  since :=
    if (w.swarm.step input).swarmState.event = w.swarm.swarmState.event then w.since
    else w.swarm.announces.length

def Carries (w : PendingEvent) : Prop :=
  ∀ event, w.swarm.swarmState.event = some event → ∀ (k : Nat) (announce : Announce), w.since ≤ k →
    w.swarm.announces[k]? = some announce → announce.params.event = some event

def Answered (w : PendingEvent) : Prop :=
  ∃ (k : Nat) (announce : Announce), w.since ≤ k ∧ w.swarm.announces[k]? = some announce ∧
    announce.answered = true

/-- When the answer of a tracker is handled while an event is pending, it is an answer to an
announce started since then, or such an answer has come before. -/
def AnswersInTime (w : PendingEvent) : SwarmInput → Prop
  | .round .event _ =>
    w.swarm.stopped = false → w.swarm.swarmState.event ≠ none → ∀ rest addrs k,
      w.swarm.events = ⟨.trackerPeersReceived addrs, .announce k⟩ :: rest →
        w.since ≤ k ∨ w.Answered
  | _ => True

/-- The event is cleared only when a tracker has answered an announce that carried it, one that was
started since it is pending. -/
def Delivered (w : PendingEvent) (input : SwarmInput) : Prop :=
  ∀ event, w.swarm.swarmState.event = some event →
    (w.step input).swarm.swarmState.event = none →
    ∃ (k : Nat) (announce : Announce), w.since ≤ k ∧ w.swarm.announces[k]? = some announce ∧
      announce.params.event = some event ∧ announce.answered = true

structure Told (w : PendingEvent) : Prop where
  carries : w.Carries
  since : w.since ≤ w.swarm.announces.length
  backed : ∀ sent ∈ w.swarm.events, w.swarm.Backed sent

theorem Told.step {w : PendingEvent} (h : w.Told) (input : SwarmInput) : (w.step input).Told := by
  have hext := w.swarm.extends_step input
  have hbacked : ∀ sent ∈ (w.swarm.step input).events, (w.swarm.step input).Backed sent := by
    intro sent hsent
    rcases hext.events sent hsent with hold | hnew
    · exact hext.backed (h.backed sent hold)
    · exact hnew
  by_cases hsame : (w.swarm.step input).swarmState.event = w.swarm.swarmState.event
  · have hsince : (w.step input).since = w.since := if_pos hsame
    refine ⟨?_, hsince ▸ h.since.trans hext.length, hbacked⟩
    intro event hevent k announce hk hannounce
    rcases hext.params k announce hannounce with ⟨before, hbefore, hparams⟩ | ⟨-, hcarries⟩
    · rw [hparams]
      exact h.carries event (hsame ▸ hevent) k before (hsince ▸ hk) hbefore
    · exact hcarries.trans hevent
  · have hsince : (w.step input).since = w.swarm.announces.length := if_neg hsame
    refine ⟨?_, hsince ▸ hext.length, hbacked⟩
    intro event hevent k announce hk hannounce
    rcases hext.params k announce hannounce with ⟨before, hbefore, -⟩ | ⟨-, hcarries⟩
    · obtain ⟨hlt, -⟩ := List.getElem?_eq_some_iff.mp hbefore
      exact absurd (hsince ▸ hk) (Nat.not_le_of_lt hlt)
    · exact hcarries.trans hevent

theorem Told.delivered_iff {w : PendingEvent} (h : w.Told) (input : SwarmInput) :
    w.AnswersInTime input ↔ w.Delivered input := by
  constructor
  · intro hin event hevent hnone
    have hne : w.swarm.swarmState.event ≠ none := by
      rw [hevent]
      exact Option.some_ne_none event
    obtain ⟨env, sent, rest, addrs, rfl, hstopped, hevents, hpeers⟩ :=
      (SwarmManager.event_cleared_iff hne).mp hnone
    obtain ⟨k, announce, horigin, hannounce, hanswered⟩ :=
      h.backed sent (hevents ▸ List.mem_cons_self) addrs hpeers
    have hsent : w.swarm.events = ⟨.trackerPeersReceived addrs, .announce k⟩ :: rest := by
      rw [hevents, ← hpeers, ← horigin]
    rcases hin hstopped hne rest addrs k hsent with hk | ⟨n, other, hn, hother, hagain⟩
    · exact ⟨k, announce, hk, hannounce, h.carries event hevent k announce hk hannounce, hanswered⟩
    · exact ⟨n, other, hn, hother, h.carries event hevent n other hn hother, hagain⟩
  · intro hdelivered
    unfold AnswersInTime
    split
    · rename_i env
      intro hstopped hne rest addrs k hevents
      obtain ⟨event, hevent⟩ := Option.ne_none_iff_exists'.mp hne
      have hnone := (SwarmManager.event_cleared_iff hne).mpr
        ⟨env, _, rest, addrs, rfl, hstopped, hevents, rfl⟩
      obtain ⟨n, announce, hn, hannounce, -, hanswered⟩ := hdelivered event hevent hnone
      exact Or.inr ⟨n, announce, hn, hannounce, hanswered⟩
    · trivial

/-- Whatever is announced while an event is pending carries it, and it is cleared only by an
announce that delivered it exactly when no answer to an older announce comes before. -/
theorem pending_event_delivered_iff (availablePeers : List SocketAddr) (trackerUrls : List String)
    (infoHash : Digest) (peerId : List UInt8) (listenPort leftHint : Nat)
    (inputs : List SwarmInput) :
    let start : PendingEvent :=
      ⟨.new availablePeers trackerUrls infoHash peerId listenPort leftHint, 0⟩
    (∀ k, (exec step start (inputs.take k)).Carries) ∧
      (Along step AnswersInTime start inputs ↔ Along step Delivered start inputs) := by
  intro start
  have hstart : start.Told := by
    refine ⟨?_, Nat.le_refl 0, ?_⟩
    · intro event _ k announce _ hannounce
      cases hannounce
    · intro sent hsent
      cases hsent
  have hstep (w : PendingEvent) (input : SwarmInput) (h : w.Told) : (w.step input).Told :=
    h.step input
  constructor
  · exact fun k => (exec_invariant hstep (inputs.take k) hstart).carries
  · exact along_iff (fun w input _ h => h.delivered_iff input) (fun w input _ h _ => h.step input)
      hstart

/-- Of two trackers one answers the first announce at once and the other only after the download is
complete; none of them answers the announce of that. -/
def slowTracker : List SwarmInput :=
  [.round .tick ⟨0, 0, 0⟩, .trackerAnswers 0 [], .round .event ⟨1000, 0, 0⟩,
    .round (.session .downloadComplete) ⟨2000, 0, 0⟩, .trackerAnswers 0 [], .trackerFails 1,
    .trackerFails 1, .announceEnds 1 "timed out"]

theorem slowTracker_clears :
    let start : PendingEvent := ⟨.new [] ["udp://a:1", "udp://b:1"]
      ⟨List.replicate 20 5, List.length_replicate⟩ [] 6881 0, 0⟩
    let w := exec step start slowTracker
    w.swarm.swarmState.event = some "completed" ∧
      (w.step (.round .event ⟨3000, 0, 0⟩)).swarm.swarmState.event = none ∧
      ∀ announce ∈ w.swarm.announces, announce.params.event = some "completed" →
        announce.answered = false := by
  decide +kernel

end PendingEvent
end Tortor.Net
