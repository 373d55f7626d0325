import Mathlib.Data.List.Perm.Subperm
import Mathlib.Tactic.ByContra
import Tortor.Net.MetadataFetch

/-! The download of an info dictionary tries every peer it hears of, once and in order, and ends
with bytes that have the info hash or when its time is over. -/

namespace Tortor.Net

open Tortor.Core (Digest SocketAddr)
open Tortor.Lib

def Shared.Verifies (ctx : FetchContext) (s t : Shared) : Prop :=
  t.result = s.result ∨ ∃ bytes, t.result = some bytes ∧ ctx.sha1 bytes = ctx.infoHash

namespace FetchTask

variable {ctx : FetchContext} {self : FetchTask} {shared : Shared}

open Shared (Verifies)

theorem verifies_addPiece (piece : Nat) (data : List UInt8) :
    Verifies ctx shared (shared.addPiece ctx.sha1 ctx.infoHash piece data).2 := by
  simp only [Shared.addPiece]
  split
  · exact .inl rfl
  · split
    · exact .inl rfl
    · exact .inl rfl
    · split
      case isTrue hsha => exact .inr ⟨_, rfl, hsha⟩
      case isFalse =>
        split
        · exact .inl rfl
        · exact .inl rfl

theorem verifies_initSize {size : Nat} {shared' : Shared} (h : shared.initSize size = .ok shared') :
    Verifies ctx shared shared' := by
  unfold Shared.initSize at h
  split at h
  · split at h
    · cases h
    · cases h
      exact .inl rfl
  · split at h
    · cases h
    · cases h
      exact .inl rfl

theorem verifies_takeHandshake (payload : List UInt8) :
    Verifies ctx shared (self.takeHandshake ctx payload shared).2 := by
  unfold takeHandshake
  split
  · exact .inl rfl
  · split
    · exact .inl rfl
    · split
      · split
        · exact .inl rfl
        · split
          · exact .inl rfl
          · exact verifies_initSize ‹_›
      · exact .inl rfl

theorem verifies_takeMetadata (turn : FetchTurn) (payload : List UInt8) :
    Verifies ctx shared (self.takeMetadata ctx turn payload shared).2 := by
  unfold takeMetadata
  split
  · exact .inl rfl
  case h_2 headerLen _ =>
    split
    · exact .inl rfl
    case h_2 header _ =>
      split
      · have hadd := @verifies_addPiece ctx shared header.piece
          (payload.drop headerLen)
        split
        case h_1 shared' heq => rwa [heq] at hadd
        case h_2 shared' heq =>
          rw [heq] at hadd
          split <;> exact hadd
      · split
        · exact .inl rfl
        · split
          · split <;> exact .inl rfl
          · exact .inl rfl

theorem verifies_receive (turn : FetchTurn) :
    Verifies ctx shared (self.receive ctx turn shared).2 := by
  unfold receive
  split
  · exact .inl rfl
  · split
    · exact .inl rfl
    · split <;> exact .inl rfl
  · split
    · exact verifies_takeHandshake _
    · split
      · exact verifies_takeMetadata _ _
      · exact .inl rfl
  · exact .inl rfl

theorem verifies_turn (turn : FetchTurn) : Verifies ctx shared (self.turn ctx turn shared).2 := by
  unfold FetchTask.turn
  split
  · split <;> exact .inl rfl
  · split <;> exact .inl rfl
  · split
    · split
      case h_1 hclaim => rw [Shared.claimPiece_eq_some hclaim]; exact .inl rfl
      case h_2 => exact .inl rfl
    · exact .inl rfl
  · split <;> exact .inl rfl
  · exact verifies_receive _
  · split <;> exact .inl rfl
  · exact .inl rfl

theorem turn_ended (turn : FetchTurn) (h : self.phase = .ended) :
    self.turn ctx turn shared = (self, shared) := by
  rw [FetchTask.turn, h]

end FetchTask

namespace Fetch

variable {ctx : FetchContext}

theorem verifies_turn (s : Fetch) (i : Nat) (turn : FetchTurn) :
    Shared.Verifies ctx s.shared (s.step ctx (.turn i turn)).shared := by
  simp only [step]
  split
  · exact .inl rfl
  · exact FetchTask.verifies_turn turn

theorem length_turn (s : Fetch) (i : Nat) (turn : FetchTurn) :
    (s.step ctx (.turn i turn)).tasks.length = s.tasks.length := by
  simp only [step]
  split
  · rfl
  · rw [List.length_set]

def Ended (s : Fetch) (i : Nat) : Prop := s.tasks[i]?.map FetchTask.phase = some .ended

theorem ended_turn {s : Fetch} {i : Nat} (h : s.Ended i) (j : Nat) (turn : FetchTurn) :
    (s.step ctx (.turn j turn)).Ended i := by
  obtain ⟨task, htask, hphase⟩ := Option.map_eq_some_iff.mp h
  simp only [step]
  split
  · exact h
  case h_2 other hother =>
    obtain rfl | hne := eq_or_ne j i
    · obtain rfl : other = task := Option.some.inj (hother.symm.trans htask)
      rw [FetchTask.turn_ended turn hphase, Ended,
        List.getElem?_set_self (List.getElem?_eq_some_iff.mp htask).1, Option.map_some, hphase]
    · rw [Ended, List.getElem?_set_ne hne]
      exact h

theorem ended_spawn (ctx : FetchContext) {s : Fetch} {i : Nat} (h : s.Ended i) :
    (s.step ctx .spawn).Ended i := by
  obtain ⟨task, htask, hphase⟩ := Option.map_eq_some_iff.mp h
  rw [Ended, step, List.getElem?_append_left (List.getElem?_eq_some_iff.mp htask).1, htask,
    Option.map_some, hphase]

end Fetch

namespace MetadataFetch

variable {ctx : FetchContext}

/-- The addresses of an event that are noted, if they are new. -/
def offers : SwarmEvent → List SocketAddr
  | .trackerPeersReceived addrs | .dhtPeersReceived addrs =>
    addrs.filter fun addr => addr.port != 0
  | _ => []

theorem takeEvent_eq (s : MetadataFetch) (event : SwarmEvent) :
    s.takeEvent event = (offers event).foldl note s := by
  cases event <;> rfl

structure Noted (s t : MetadataFetch) : Prop where
  fetch : t.fetch = s.fetch
  tried : t.tried = s.tried
  joined : t.joined = s.joined
  found : t.found = s.found
  deadline : t.deadline = s.deadline
  result : t.result = s.result
  order : s.seen = s.tried ++ s.queue → t.seen = t.tried ++ t.queue
  nodup : s.seen.Nodup → t.seen.Nodup

theorem noted_note (s : MetadataFetch) (addr : SocketAddr) : Noted s (s.note addr) := by
  unfold note
  split
  case isTrue => exact ⟨rfl, rfl, rfl, rfl, rfl, rfl, id, id⟩
  case isFalse hnew =>
    refine ⟨rfl, rfl, rfl, rfl, rfl, rfl, fun h => ?_, fun h => ?_⟩
    · exact (congrArg (· ++ [addr]) h).trans (List.append_assoc ..)
    · exact List.nodup_append.mpr ⟨h, List.nodup_singleton addr, fun a ha b hb => by
        rw [List.mem_singleton.mp hb]
        exact fun hab => hnew (hab ▸ ha)⟩

theorem Noted.trans {s t u : MetadataFetch} (h : Noted s t) (h' : Noted t u) : Noted s u where
  fetch := h'.fetch.trans h.fetch
  tried := h'.tried.trans h.tried
  joined := h'.joined.trans h.joined
  found := h'.found.trans h.found
  deadline := h'.deadline.trans h.deadline
  result := h'.result.trans h.result
  order := h'.order ∘ h.order
  nodup := h'.nodup ∘ h.nodup

theorem noted_foldl (s : MetadataFetch) (addrs : List SocketAddr) :
    Noted s (addrs.foldl note s) := by
  induction addrs generalizing s with
  | nil => exact ⟨rfl, rfl, rfl, rfl, rfl, rfl, id, id⟩
  | cons addr addrs ih => exact (noted_note s addr).trans (ih _)

theorem seen_note {s : MetadataFetch} {noted : List SocketAddr} (h : s.seen = noted.eraseDups)
    (addr : SocketAddr) : (s.note addr).seen = (noted ++ [addr]).eraseDups := by
  have hmem : addr ∈ s.seen ↔ addr ∈ noted := by rw [h, List.mem_eraseDups]
  rw [List.eraseDups_append, ← h]
  unfold note
  split
  case isTrue hold => simp [List.removeAll, hmem.mp hold]
  case isFalse hnew => simp [List.removeAll, mt hmem.mpr hnew, List.eraseDups_cons]

theorem seen_foldl {s : MetadataFetch} {noted : List SocketAddr} (h : s.seen = noted.eraseDups)
    (addrs : List SocketAddr) : (addrs.foldl note s).seen = (noted ++ addrs).eraseDups := by
  induction addrs generalizing s noted with
  | nil => rwa [List.append_nil]
  | cons addr addrs ih => rw [List.foldl_cons, ih (seen_note h addr), List.append_assoc]; rfl

def live (s : MetadataFetch) : List Nat :=
  (List.range s.fetch.tasks.length).filter fun i =>
    s.fetch.tasks[i]?.map FetchTask.phase != some .ended

/-- The peers that were tried are those first seen, the others wait in this order; a slot is given
back when its task has ended. -/
structure Sound (ctx : FetchContext) (s : MetadataFetch) : Prop where
  order : s.seen = s.tried ++ s.queue
  nodup : s.seen.Nodup
  tasks : s.fetch.tasks.length = s.tried.length
  once : s.joined.Nodup
  ended : ∀ i ∈ s.joined, s.fetch.Ended i
  room : s.running ≤ MAX_PARALLEL_PEERS
  verified : ∀ bytes, s.fetch.shared.result = some bytes → ctx.sha1 bytes = ctx.infoHash

theorem joined_append_live {s : MetadataFetch} (h : s.Sound ctx) :
    s.joined.length + s.live.length ≤ s.tried.length := by
  have hnodup : (s.joined ++ s.live).Nodup := by
    refine List.nodup_append.mpr ⟨h.once, List.nodup_range.filter _, fun i hi j hj hij => ?_⟩
    subst hij
    have hlive := (List.mem_filter.mp hj).2
    rw [bne_iff_ne] at hlive
    exact hlive (h.ended i hi)
  have hsub : s.joined ++ s.live ⊆ List.range s.fetch.tasks.length := by
    intro i hi
    obtain hi | hi := List.mem_append.mp hi
    · obtain ⟨task, htask, -⟩ := Option.map_eq_some_iff.mp (h.ended i hi)
      exact List.mem_range.mpr (List.getElem?_eq_some_iff.mp htask).1
    · exact (List.mem_filter.mp hi).1
  have hlength := (List.subperm_of_subset hnodup hsub).length_le
  rwa [List.length_append, List.length_range, h.tasks] at hlength

theorem live_le {s : MetadataFetch} (h : s.Sound ctx) : s.live.length ≤ MAX_PARALLEL_PEERS := by
  have hlive := joined_append_live h
  have hroom := h.room
  rw [running] at hroom
  omega

structure Filled (s t : MetadataFetch) : Prop where
  shared : t.fetch.shared = s.fetch.shared
  seen : t.seen = s.seen
  found : t.found = s.found
  deadline : t.deadline = s.deadline
  result : t.result = s.result
  busy : t.queue = [] ∨ t.running = MAX_PARALLEL_PEERS

theorem sound_fill {s : MetadataFetch} {queue : List SocketAddr}
    (h : Sound ctx { s with queue := queue }) :
    (s.fill ctx queue).Sound ctx ∧ Filled s (s.fill ctx queue) := by
  induction queue generalizing s with
  | nil => exact ⟨h, rfl, rfl, rfl, rfl, rfl, .inl rfl⟩
  | cons addr queue ih =>
    rw [fill]
    split
    case isTrue hroom =>
      have hspawn : Sound ctx { s with
          fetch := s.fetch.step ctx .spawn
          tried := s.tried ++ [addr]
          queue := queue } := by
        refine ⟨?_, h.nodup, ?_, h.once, fun i hi => Fetch.ended_spawn ctx (h.ended i hi), ?_,
          h.verified⟩
        · rw [List.append_assoc]
          exact h.order
        · have htasks : s.fetch.tasks.length = s.tried.length := h.tasks
          simp only [Fetch.step, List.length_append, htasks, List.length_singleton]
        · simp only [running, List.length_append, List.length_singleton] at hroom ⊢
          omega
      obtain ⟨hsound, hfilled⟩ := ih
        (s := { s with fetch := s.fetch.step ctx .spawn, tried := s.tried ++ [addr] }) hspawn
      exact ⟨hsound, hfilled.shared, hfilled.seen, hfilled.found, hfilled.deadline, hfilled.result,
        hfilled.busy⟩
    case isFalse hfull =>
      exact ⟨h, rfl, rfl, rfl, rfl, rfl, .inr (le_antisymm h.room (Nat.not_lt.mp hfull))⟩

theorem sound_report {s : MetadataFetch} (h : s.Sound ctx) : s.report.Sound ctx := by
  unfold report
  dsimp only
  split <;> exact ⟨h.order, h.nodup, h.tasks, h.once, h.ended, h.room, h.verified⟩

theorem sound_noted {s t : MetadataFetch} (h : s.Sound ctx) (hnoted : Noted s t) :
    t.Sound ctx where
  order := hnoted.order h.order
  nodup := hnoted.nodup h.nodup
  tasks := by rw [hnoted.fetch, hnoted.tried, h.tasks]
  once := hnoted.joined ▸ h.once
  ended := by rw [hnoted.joined, hnoted.fetch]; exact h.ended
  room := by rw [running, hnoted.tried, hnoted.joined]; exact h.room
  verified := by rw [hnoted.fetch]; exact h.verified

theorem sound_select {s t : MetadataFetch} (h : s.Sound ctx) {branch : FetchBranch}
    (hselect : s.select branch = some t) : t.Sound ctx := by
  cases branch with
  | found =>
    rw [select] at hselect
    split at hselect
    · cases hselect
    case h_2 event found _ =>
      cases hselect
      have hpopped : Sound ctx { s with found := found } :=
        ⟨h.order, h.nodup, h.tasks, h.once, h.ended, h.room, h.verified⟩
      rw [takeEvent_eq]
      exact sound_noted hpopped (noted_foldl _ _)
  | joined task =>
    rw [select] at hselect
    split at hselect
    case isTrue hjoinable =>
      cases hselect
      refine ⟨h.order, h.nodup, h.tasks, List.nodup_cons.mpr ⟨hjoinable.2, h.once⟩,
        List.forall_mem_cons.mpr ⟨hjoinable.1, h.ended⟩, ?_, h.verified⟩
      have hroom := h.room
      simp only [running, List.length_cons] at hroom ⊢
      omega
    case isFalse => cases hselect
  | tick =>
    cases hselect
    exact h

theorem sound_settle {s : MetadataFetch} (h : s.Sound ctx) (now : Nat) :
    (s.settle ctx now).Sound ctx := by
  unfold settle
  split
  case h_1 => exact ⟨h.order, h.nodup, h.tasks, h.once, h.ended, h.room, by rintro bytes ⟨⟩⟩
  case h_2 =>
    split
    · exact ⟨h.order, h.nodup, h.tasks, h.once, h.ended, h.room, h.verified⟩
    · exact sound_report (sound_fill h).1

theorem sound_step {s : MetadataFetch} (h : s.Sound ctx) (input : FetchInput) :
    (step ctx s input).Sound ctx := by
  unfold step
  split
  · exact h
  · cases input with
    | sends event => exact ⟨h.order, h.nodup, h.tasks, h.once, h.ended, h.room, h.verified⟩
    | turn task turn =>
      refine ⟨h.order, h.nodup, ?_, h.once, fun i hi => Fetch.ended_turn (h.ended i hi) task turn,
        h.room, ?_⟩
      · exact (Fetch.length_turn ..).trans h.tasks
      · intro bytes hbytes
        obtain hsame | ⟨other, hother, hsha⟩ := @Fetch.verifies_turn ctx s.fetch task turn
        · exact h.verified bytes (hsame ▸ hbytes)
        · cases hother.symm.trans hbytes
          exact hsha
    | round branch now =>
      dsimp only
      split
      · exact h
      case h_2 t hselect => exact sound_settle (sound_select h hselect) now

theorem sound_start (options : FetchOptions) (now : Nat) : (start options now).Sound ctx := by
  refine sound_noted ⟨rfl, List.nodup_nil, rfl, List.nodup_nil, ?_, Nat.zero_le _, ?_⟩ (noted_foldl _ _)
  · exact fun i hi => absurd hi List.not_mem_nil
  · rintro bytes ⟨⟩

inductive Settled (ctx : FetchContext) (s : MetadataFetch) (now : Nat) : MetadataFetch → Prop
  | verified {bytes : List UInt8} (hresult : s.fetch.shared.result = some bytes) :
    Settled ctx s now { s with
      fetch := { s.fetch with shared := { s.fetch.shared with result := none } }
      result := some (.ok bytes) }
  | late (hresult : s.fetch.shared.result = none) (hlate : s.deadline ≤ now) :
    Settled ctx s now { s with
      result := some (.error
        s!"timed out while fetching metadata ({s.seen.length} peers tried)") }
  | again (hresult : s.fetch.shared.result = none) (hearly : now < s.deadline) :
    Settled ctx s now (s.fill ctx s.queue).report

theorem settled_settle (s : MetadataFetch) (now : Nat) : Settled ctx s now (s.settle ctx now) := by
  unfold settle
  split
  case h_1 bytes hresult => exact .verified hresult
  case h_2 hresult =>
    split
    case isTrue hlate => exact .late hresult hlate
    case isFalse hearly => exact .again hresult (Nat.not_le.mp hearly)

theorem filled_report {s t : MetadataFetch} (h : Filled s t) : Filled s t.report := by
  unfold report
  dsimp only
  split <;> exact ⟨h.shared, h.seen, h.found, h.deadline, h.result, h.busy⟩

theorem filled_again {s : MetadataFetch} (h : s.Sound ctx) : Filled s (s.fill ctx s.queue).report :=
  filled_report (sound_fill h).2

structure Selected (s t : MetadataFetch) : Prop where
  shared : t.fetch.shared = s.fetch.shared
  deadline : t.deadline = s.deadline
  result : t.result = s.result
  taken : ∃ taken, s.found = taken ++ t.found ∧
    ∀ noted, s.seen = noted.eraseDups → t.seen = (noted ++ taken.flatMap offers).eraseDups

theorem selected_select {s t : MetadataFetch} {branch : FetchBranch}
    (h : s.select branch = some t) : Selected s t := by
  cases branch with
  | found =>
    rw [select] at h
    split at h
    · cases h
    case h_2 event found hfound =>
      cases h
      have hnoted := noted_foldl { s with found := found } (offers event)
      rw [takeEvent_eq]
      refine ⟨by rw [hnoted.fetch], hnoted.deadline, hnoted.result, [event], ?_, fun noted h => ?_⟩
      · rw [hnoted.found, hfound, List.singleton_append]
      · rw [List.flatMap_singleton]
        exact @seen_foldl { s with found := found } noted h (offers event)
  | joined task =>
    rw [select] at h
    split at h
    · cases h
      exact ⟨rfl, rfl, rfl, [], rfl, fun noted h => by rwa [List.flatMap_nil, List.append_nil]⟩
    · cases h
  | tick =>
    cases h
    exact ⟨rfl, rfl, rfl, [], rfl, fun noted h => by rwa [List.flatMap_nil, List.append_nil]⟩

def sentEvents (inputs : List FetchInput) : List SwarmEvent :=
  inputs.filterMap fun
    | .sends event => some event
    | _ => none

structure Reached (ctx : FetchContext) (options : FetchOptions) (now : Nat)
    (inputs : List FetchInput) (s : MetadataFetch) : Prop where
  sound : s.Sound ctx
  deadline : s.deadline = now + options.timeout
  /-- The events that were taken, those that wait, and those sent after the end. -/
  seen : ∃ taken rest, sentEvents inputs = taken ++ s.found ++ rest ∧
    (s.result = none → rest = []) ∧
    s.seen = (options.initialPeers ++ taken.flatMap offers).eraseDups
  ok : ∀ bytes, s.result = some (.ok bytes) → ctx.sha1 bytes = ctx.infoHash
  late : ∀ text, s.result = some (.error text) →
    text = s!"timed out while fetching metadata ({s.seen.length} peers tried)" ∧
    ∃ branch time, .round branch time ∈ inputs ∧ now + options.timeout ≤ time

theorem reached_start (options : FetchOptions) (now : Nat) :
    Reached ctx options now [] (start options now) := by
  have hnoted := noted_foldl
    { fetch := .start, tried := [], joined := [], queue := [], seen := [], found := [],
      deadline := now + options.timeout, reported := 0, statuses := [], result := none }
    options.initialPeers
  refine ⟨sound_start options now, hnoted.deadline, ⟨[], [], ?_, fun _ => rfl, ?_⟩,
    fun bytes h => ?_, fun text h => ?_⟩
  · rw [start, hnoted.found]
    rfl
  · rw [List.flatMap_nil, List.append_nil]
    exact @seen_foldl _ [] rfl options.initialPeers
  · cases hnoted.result.symm.trans h
  · cases hnoted.result.symm.trans h

theorem sentEvents_append (inputs : List FetchInput) (input : FetchInput) :
    sentEvents (inputs ++ [input]) = sentEvents inputs ++ sentEvents [input] :=
  List.filterMap_append

theorem Reached.stays {options : FetchOptions} {now : Nat} {inputs : List FetchInput}
    {s : MetadataFetch} (h : Reached ctx options now inputs s) (hdone : s.result.isSome)
    (input : FetchInput) : Reached ctx options now (inputs ++ [input]) s := by
  obtain ⟨taken, rest, hsent, -, hseen⟩ := h.seen
  refine ⟨h.sound, h.deadline, ⟨taken, rest ++ sentEvents [input], ?_, fun hnone => ?_, hseen⟩, h.ok,
    fun text htext => ?_⟩
  · rw [sentEvents_append, hsent, List.append_assoc]
  · rw [hnone] at hdone
    cases hdone
  · obtain ⟨rfl, branch, time, hmem, hlate⟩ := h.late text htext
    exact ⟨rfl, branch, time, List.mem_append_left _ hmem, hlate⟩

theorem reached_round {options : FetchOptions} {now : Nat} {inputs : List FetchInput}
    {s t : MetadataFetch} (h : Reached ctx options now inputs s) (hopen : s.result = none)
    {branch : FetchBranch} (time : Nat) (hselect : s.select branch = some t) :
    Reached ctx options now (inputs ++ [.round branch time]) (t.settle ctx time) := by
  have hsound := sound_select h.sound hselect
  have hselected := selected_select hselect
  have hdeadline := hselected.deadline.trans h.deadline
  obtain ⟨taken, rest, hsent, hrest, hseen⟩ := h.seen
  obtain ⟨more, hmore, hadded⟩ := hselected.taken
  obtain rfl := hrest hopen
  have hevents : sentEvents (inputs ++ [.round branch time]) = taken ++ more ++ t.found := by
    rw [sentEvents_append, hsent, hmore]
    simp [sentEvents]
  have hknown : t.seen = (options.initialPeers ++ (taken ++ more).flatMap offers).eraseDups := by
    rw [hadded _ hseen, List.append_assoc, List.flatMap_append]
  have hsettled := sound_settle hsound time
  have hround : .round branch time ∈ inputs ++ [.round branch time] :=
    List.mem_append_right _ List.mem_cons_self
  have hcase := @settled_settle ctx t time
  generalize t.settle ctx time = u at hsettled hcase ⊢
  cases hcase with
  | verified hresult =>
    refine ⟨hsettled, hdeadline, ⟨taken ++ more, [], ?_, fun _ => rfl, hknown⟩,
      fun bytes hbytes => ?_, by rintro text ⟨⟩⟩
    · rw [hevents, List.append_nil]
    · cases hbytes
      exact hsound.verified _ hresult
  | late hresult hlate =>
    refine ⟨hsettled, hdeadline, ⟨taken ++ more, [], ?_, fun _ => rfl, hknown⟩,
      by rintro bytes ⟨⟩, fun text htext => ?_⟩
    · rw [hevents, List.append_nil]
    · cases htext
      exact ⟨rfl, branch, time, hround, hdeadline ▸ hlate⟩
  | again hresult hearly =>
    have hfilled := filled_again hsound
    have hnone := hfilled.result.trans (hselected.result.trans hopen)
    refine ⟨hsettled, hfilled.deadline.trans hdeadline, ⟨taken ++ more, [], ?_, fun _ => rfl, ?_⟩,
      fun bytes hbytes => ?_, fun text htext => ?_⟩
    · rw [hevents, hfilled.found, List.append_nil]
    · rw [hfilled.seen]
      exact hknown
    · rw [hnone] at hbytes
      cases hbytes
    · rw [hnone] at htext
      cases htext

theorem reached_step {options : FetchOptions} {now : Nat} {inputs : List FetchInput}
    {s : MetadataFetch} (h : Reached ctx options now inputs s) (input : FetchInput) :
    Reached ctx options now (inputs ++ [input]) (step ctx s input) := by
  have hsound := sound_step h.sound input
  unfold step at hsound ⊢
  split
  case isTrue hdone => exact h.stays hdone input
  case isFalse hopen =>
    rw [if_neg hopen] at hsound
    have hnone : s.result = none := Option.not_isSome_iff_eq_none.mp hopen
    obtain ⟨taken, rest, hsent, hrest, hseen⟩ := h.seen
    obtain rfl := hrest hnone
    have hok (bytes : List UInt8) (hbytes : s.result = some (.ok bytes)) :
        ctx.sha1 bytes = ctx.infoHash := h.ok bytes hbytes
    have hlate (text : String) (htext : s.result = some (.error text)) : False := by
      rw [hnone] at htext
      cases htext
    cases input with
    | sends event =>
      refine ⟨hsound, h.deadline, ⟨taken, [], ?_, fun _ => rfl, hseen⟩, hok,
        fun text htext => (hlate text htext).elim⟩
      rw [sentEvents_append, hsent]
      simp [sentEvents]
    | turn task turn =>
      refine ⟨hsound, h.deadline, ⟨taken, [], ?_, fun _ => rfl, hseen⟩, hok,
        fun text htext => (hlate text htext).elim⟩
      rw [sentEvents_append, hsent]
      simp [sentEvents]
    | round branch time =>
      dsimp only at hsound ⊢
      split
      case h_1 hselect =>
        rw [hselect] at hsound
        refine ⟨hsound, h.deadline, ⟨taken, [], ?_, fun _ => rfl, hseen⟩, hok,
          fun text htext => (hlate text htext).elim⟩
        rw [sentEvents_append, hsent]
        simp [sentEvents]
      case h_2 t hselect => exact reached_round h hnone time hselect

theorem reached_run (ctx : FetchContext) (options : FetchOptions) (now : Nat)
    (inputs : List FetchInput) :
    Reached ctx options now inputs (exec (step ctx) (start options now) inputs) := by
  induction inputs using List.reverseRecOn with
  | nil => exact reached_start options now
  | append_singleton inputs input ih =>
    rw [exec_append]
    exact reached_step ih input

def Busy (s : MetadataFetch) : Prop :=
  s.result = none → s.queue = [] ∨ s.running = MAX_PARALLEL_PEERS

def Verified (s : MetadataFetch) : Prop :=
  (s.result = none ∧ s.fetch.shared.result.isSome) ∨ ∃ bytes, s.result = some (.ok bytes)

theorem step_done {s : MetadataFetch} (h : s.result.isSome) (input : FetchInput) :
    step ctx s input = s := by
  unfold step
  rw [if_pos h]

theorem busy_settle {s : MetadataFetch} (h : s.Sound ctx) (now : Nat) :
    (s.settle ctx now).Busy := by
  have hcase := @settled_settle ctx s now
  generalize s.settle ctx now = t at hcase
  cases hcase with
  | verified hresult => rintro ⟨⟩
  | late hresult hlate => rintro ⟨⟩
  | again hresult hearly => exact fun _ => (filled_again h).busy

theorem busy_step {s : MetadataFetch} (hsound : s.Sound ctx) (h : s.Busy) (input : FetchInput) :
    (step ctx s input).Busy := by
  unfold step
  split
  · exact h
  · cases input with
    | sends event => exact h
    | turn task turn => exact h
    | round branch now =>
      dsimp only
      split
      · exact h
      case h_2 t hselect => exact busy_settle (sound_select hsound hselect) now

theorem verified_settle {s : MetadataFetch} (h : s.fetch.shared.result.isSome) (now : Nat) :
    ∃ bytes, (s.settle ctx now).result = some (.ok bytes) := by
  obtain ⟨bytes, hbytes⟩ := Option.isSome_iff_exists.mp h
  exact ⟨bytes, by rw [settle, hbytes]⟩

theorem exec_done {s : MetadataFetch} (h : s.result.isSome) (inputs : List FetchInput) :
    exec (step ctx) s inputs = s := by
  induction inputs with
  | nil => rfl
  | cons input inputs ih => rw [exec_cons, step_done h, ih]

theorem tick_eq {s : MetadataFetch} (h : s.result = none) (now : Nat) :
    step ctx s (.round .tick now) = s.settle ctx now := by
  unfold step
  rw [if_neg (Option.not_isSome_iff_eq_none.mpr h)]
  rfl

theorem tick_busy {s : MetadataFetch} (hsound : s.Sound ctx) (now : Nat)
    (h : (step ctx s (.round .tick now)).result = none) :
    now < s.deadline ∧ (step ctx s (.round .tick now)).Busy := by
  have hopen : s.result = none := by
    by_contra hdone
    rw [step_done (Option.isSome_iff_ne_none.mpr hdone)] at h
    exact hdone h
  rw [tick_eq hopen] at h ⊢
  refine ⟨?_, busy_settle hsound now⟩
  have hcase := @settled_settle ctx s now
  generalize s.settle ctx now = t at h hcase
  cases hcase with
  | verified hresult => cases h
  | late hresult hlate => cases h
  | again hresult hearly => exact hearly

theorem result_none_of_exec {s : MetadataFetch} {inputs : List FetchInput}
    (h : (exec (step ctx) s inputs).result = none) : s.result = none := by
  by_contra hdone
  rw [exec_done (Option.isSome_iff_ne_none.mpr hdone)] at h
  exact hdone h

/-- However the lookups, the tasks of the peers and the rounds of the loop are interleaved: the
peers are tried in the order in which they are first found, each of them once and none is lost, at most
eight at a time, and after a tick nobody waits while there is room; the download ends with bytes
that have the info hash at the first tick after some task has verified them, and with the timeout
only when it has passed. -/
theorem fetch_tries_peers (ctx : FetchContext) (options : FetchOptions) (now : Nat)
    (inputs : List FetchInput) :
    let s := exec (step ctx) (start options now) inputs
    s.seen = s.tried ++ s.queue ∧ s.seen.Nodup ∧ s.live.length ≤ MAX_PARALLEL_PEERS ∧
    (∃ taken rest, sentEvents inputs = taken ++ s.found ++ rest ∧
      (s.result = none → rest = []) ∧
      s.seen = (options.initialPeers ++ taken.flatMap offers).eraseDups) ∧
    (∀ bytes, s.result = some (.ok bytes) → ctx.sha1 bytes = ctx.infoHash) ∧
    (∀ text, s.result = some (.error text) →
      text = s!"timed out while fetching metadata ({s.seen.length} peers tried)" ∧
      ∃ branch time, .round branch time ∈ inputs ∧ now + options.timeout ≤ time) ∧
    ∀ before time after, inputs = before ++ .round .tick time :: after →
      (s.result = none → time < now + options.timeout ∧
        (s.queue = [] ∨ s.running = MAX_PARALLEL_PEERS)) ∧
      ((exec (step ctx) (start options now) before).Verified →
        ∃ bytes, s.result = some (.ok bytes)) := by
  intro s
  have h : Reached ctx options now inputs s := reached_run ctx options now inputs
  refine ⟨h.sound.order, h.sound.nodup, live_le h.sound, h.seen, h.ok, h.late, ?_⟩
  rintro before time after rfl
  have hbefore := reached_run ctx options now before
  have hs : s = exec (step ctx) (step ctx (exec (step ctx) (start options now) before)
      (.round .tick time)) after := by
    simp only [s, exec_append, exec_cons]
  generalize exec (step ctx) (start options now) before = t at hs hbefore ⊢
  rw [hs]
  refine ⟨fun hopen => ?_, fun hverified => ?_⟩
  · obtain ⟨hearly, hbusy⟩ := tick_busy hbefore.sound time (result_none_of_exec hopen)
    have hrest : (exec (step ctx) (step ctx t (.round .tick time)) after).Sound ctx ∧
        (exec (step ctx) (step ctx t (.round .tick time)) after).Busy :=
      exec_invariant (P := fun u : MetadataFetch => u.Sound ctx ∧ u.Busy)
        (fun u input hu => ⟨sound_step hu.1 input, busy_step hu.1 hu.2 input⟩) after
        ⟨sound_step hbefore.sound _, hbusy⟩
    exact ⟨hbefore.deadline ▸ hearly, hrest.2 hopen⟩
  · have htick : ∃ bytes, (step ctx t (.round .tick time)).result = some (.ok bytes) := by
      obtain ⟨hnone, hfound⟩ | ⟨bytes, hok⟩ := hverified
      · rw [tick_eq hnone]
        exact verified_settle hfound time
      · exact ⟨bytes, by rw [step_done (hok ▸ rfl), hok]⟩
    obtain ⟨bytes, hok⟩ := htick
    exact ⟨bytes, by rw [exec_done (hok ▸ rfl), hok]⟩

end MetadataFetch
end Tortor.Net
