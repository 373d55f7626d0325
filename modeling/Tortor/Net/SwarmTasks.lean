import Tortor.Lib.Run
import Tortor.Lib.Table
import Tortor.Net.SwarmManager

/-! The dialed peers of a swarm against its table of active ones. -/

namespace Tortor.Net

open Tortor.Core (SessionEvent SocketAddr)
open Tortor.Lib

def Task.running (task : Task) : Bool := !task.aborted && !task.ended

namespace SwarmManager

def runningTasks (s : SwarmManager) : List Nat :=
  (List.range s.tasks.length).filter fun t => (s.tasks[t]?.map Task.running).getD false

def Owned (s : SwarmManager) : Prop :=
  ∀ t task, s.tasks[t]? = some task → task.running = true →
    ∃ peer, s.active.lookup task.addr = some peer ∧ peer.handle = t

structure Tracked (s : SwarmManager) : Prop where
  owned : s.Owned
  bounded : s.runningTasks.length ≤ MAX_ACTIVE_PEERS
  stopped : s.stopped = true → s.runningTasks = []

structure Linked (s : SwarmManager) : Prop where
  handles : ∀ addr peer, s.active.lookup addr = some peer →
    ∃ task, s.tasks[peer.handle]? = some task ∧ task.addr = addr
  small : s.active.entries.length ≤ MAX_ACTIVE_PEERS
  stopped : s.stopped = true → s.active = ∅

/-- The exit event that is handled does not find the entry of a task that runs. -/
def ExitsInTime (s : SwarmManager) : SwarmInput → Prop
  | .round .event _ =>
    s.stopped = false → ∀ sent rest addr, s.events = sent :: rest → sent.event = .peerExited addr →
      ∀ peer task, s.active.lookup addr = some peer → s.tasks[peer.handle]? = some task →
        task.running = false
  | _ => True

theorem mem_runningTasks {s : SwarmManager} {t : Nat} :
    t ∈ s.runningTasks ↔ ∃ task, s.tasks[t]? = some task ∧ task.running = true := by
  rw [runningTasks, List.mem_filter, List.mem_range]
  constructor
  · rintro ⟨hlt, hrunning⟩
    rw [List.getElem?_eq_getElem hlt] at hrunning ⊢
    exact ⟨_, rfl, hrunning⟩
  · rintro ⟨task, htask, hrunning⟩
    obtain ⟨hlt, -⟩ := List.getElem?_eq_some_iff.mp htask
    refine ⟨hlt, ?_⟩
    rw [htask]
    exact hrunning

theorem length_runningTasks_le {s : SwarmManager} (h : s.Owned) :
    s.runningTasks.length ≤ s.active.entries.length := by
  let addrOf (t : Nat) : Option SocketAddr := s.tasks[t]?.map Task.addr
  have hnodup : (s.runningTasks.map addrOf).Nodup := by
    refine List.Nodup.map_on ?_ (List.Nodup.filter _ List.nodup_range)
    intro t ht u hu heq
    obtain ⟨task, htask, htaskRuns⟩ := mem_runningTasks.mp ht
    obtain ⟨other, hother, hotherRuns⟩ := mem_runningTasks.mp hu
    obtain ⟨peer, hpeer, hhandle⟩ := h t task htask htaskRuns
    obtain ⟨rival, hrival, hrivalHandle⟩ := h u other hother hotherRuns
    simp only [addrOf, htask, hother, Option.map_some, Option.some.injEq] at heq
    rw [heq, hrival] at hpeer
    cases hpeer
    exact hhandle.symm.trans hrivalHandle
  have hsub : s.runningTasks.map addrOf ⊆ s.active.keys.map some := by
    intro addr haddr
    obtain ⟨t, ht, rfl⟩ := List.mem_map.mp haddr
    obtain ⟨task, htask, hrunning⟩ := mem_runningTasks.mp ht
    obtain ⟨peer, hpeer, -⟩ := h t task htask hrunning
    simp only [addrOf, htask, Option.map_some]
    exact List.mem_map_of_mem (AList.lookup_isSome.mp (hpeer ▸ rfl))
  calc
    s.runningTasks.length = (s.runningTasks.map addrOf).length := (List.length_map _).symm
    _ ≤ (s.active.keys.map some).length := (List.subperm_of_subset hnodup hsub).length_le
    _ = s.active.entries.length := by rw [List.length_map, AList.keys, List.keys, List.length_map]

theorem Linked.tracked {s : SwarmManager} (h : s.Linked) (howned : s.Owned) : s.Tracked where
  owned := howned
  bounded := (length_runningTasks_le howned).trans h.small
  stopped := by
    intro hstopped
    have hlen := length_runningTasks_le howned
    rw [h.stopped hstopped] at hlen
    exact List.eq_nil_of_length_eq_zero (Nat.le_zero.mp hlen)

structure SameDials (s t : SwarmManager) : Prop where
  active : t.active = s.active
  availablePeers : t.availablePeers = s.availablePeers
  tasks : t.tasks = s.tasks
  stopped : t.stopped = s.stopped

theorem sameDials_reannounce (s : SwarmManager) (env : RoundEnv) : SameDials s (s.reannounce env) := by
  unfold reannounce
  split <;> exact ⟨rfl, rfl, rfl, rfl⟩

theorem sameDials_trackerAnswers (s : SwarmManager) (k : Nat) (addrs : List SocketAddr) :
    SameDials s (s.trackerAnswers k addrs) := by
  obtain ⟨announces, events, heq⟩ := s.trackerAnswers_frame k addrs
  rw [heq]
  exact ⟨rfl, rfl, rfl, rfl⟩

theorem sameDials_announceEnds (s : SwarmManager) (k : Nat) (error : String) :
    SameDials s (s.announceEnds k error) := by
  obtain ⟨announces, events, heq⟩ := s.announceEnds_frame k error
  rw [heq]
  exact ⟨rfl, rfl, rfl, rfl⟩

theorem sameDials_pexTick {s t : SwarmManager} {env : RoundEnv}
    (h : s.select env .pexTick = some t) : SameDials s t := by
  simp only [select] at h
  split at h <;> cases h <;> exact ⟨rfl, rfl, rfl, rfl⟩

theorem sameDials_session {s t : SwarmManager} {env : RoundEnv} {event : SessionEvent}
    (h : s.select env (.session event) = some t) : SameDials s t := by
  cases event <;> cases h <;> exact ⟨rfl, rfl, rfl, rfl⟩

/-- What the loop keeps between its rounds as long as no exit event comes too late. -/
structure Consistent (s : SwarmManager) : Prop extends s.Linked where
  owned : s.Owned

namespace Consistent

variable {s t : SwarmManager}

theorem congr (h : s.Consistent) (hactive : t.active = s.active) (htasks : t.tasks = s.tasks)
    (hstopped : t.stopped = s.stopped) : t.Consistent where
  handles := by
    rw [hactive, htasks]
    exact h.handles
  small := by
    rw [hactive]
    exact h.small
  stopped := by
    rw [hactive, hstopped]
    exact h.stopped
  owned := by
    unfold Owned
    rw [hactive, htasks]
    exact h.owned

theorem same (h : s.Consistent) (hsame : SameDials s t) : t.Consistent :=
  h.congr hsame.active hsame.tasks hsame.stopped

theorem new (availablePeers : List SocketAddr) (trackerUrls : List String)
    (infoHash : Tortor.Core.Digest) (peerId : List UInt8) (listenPort leftHint : Nat) :
    (SwarmManager.new availablePeers trackerUrls infoHash peerId listenPort leftHint).Consistent where
  handles := by
    intro addr peer hpeer
    cases hpeer
  small := Nat.zero_le _
  stopped := fun _ => rfl
  owned := by
    intro t task htask
    cases htask

end Consistent

theorem Consistent.refresh {s : SwarmManager} (h : s.Consistent) {addr : SocketAddr}
    {peer fresh : ActivePeer} (hpeer : s.active.lookup addr = some peer)
    (hhandle : fresh.handle = peer.handle) :
    ({ s with active := s.active.insert addr fresh } : SwarmManager).Consistent where
  handles := by
    intro a p hp
    by_cases ha : a = addr
    · rw [ha, AList.lookup_insert] at hp
      cases hp
      rw [ha, hhandle]
      exact h.handles addr peer hpeer
    · rw [AList.lookup_insert_ne ha] at hp
      exact h.handles a p hp
  small := by
    rw [Table.length_insert_of_mem (AList.lookup_isSome.mp (hpeer ▸ rfl))]
    exact h.small
  stopped := by
    intro hstopped
    rw [h.stopped hstopped] at hpeer
    cases hpeer
  owned := by
    intro t task htask hrunning
    obtain ⟨p, hp, hown⟩ := h.owned t task htask hrunning
    by_cases ha : task.addr = addr
    · rw [ha, hpeer] at hp
      cases hp
      exact ⟨fresh, by rw [ha, AList.lookup_insert], hhandle.trans hown⟩
    · exact ⟨p, by rw [AList.lookup_insert_ne ha, hp], hown⟩

theorem Consistent.forget {s : SwarmManager} (h : s.Consistent) {addr : SocketAddr}
    (hidle : ∀ peer task, s.active.lookup addr = some peer → s.tasks[peer.handle]? = some task →
      task.running = false) :
    ({ s with active := s.active.erase addr } : SwarmManager).Consistent where
  handles := by
    intro a p hp
    by_cases ha : a = addr
    · rw [ha, AList.lookup_erase] at hp
      cases hp
    · rw [AList.lookup_erase_ne ha] at hp
      exact h.handles a p hp
  small := (List.kerase_sublist addr s.active.entries).length_le.trans h.small
  stopped := by
    intro hstopped
    have hempty := h.stopped hstopped
    simp only [hempty]
    rfl
  owned := by
    intro t task htask hrunning
    obtain ⟨p, hp, hown⟩ := h.owned t task htask hrunning
    by_cases ha : task.addr = addr
    · rw [ha] at hp
      rw [← hown] at htask
      rw [hidle p task hp htask] at hrunning
      cases hrunning
    · exact ⟨p, by rw [AList.lookup_erase_ne ha, hp], hown⟩

theorem Consistent.dial {s : SwarmManager} (h : s.Consistent) {addr : SocketAddr} (now : Nat)
    (hstopped : s.stopped = false) (hroom : s.active.entries.length < MAX_ACTIVE_PEERS)
    (hfresh : addr ∉ s.active) : (s.dial addr now).Consistent where
  handles := by
    intro a p hp
    by_cases ha : a = addr
    · rw [SwarmManager.dial, ha, AList.lookup_insert] at hp
      cases hp
      exact ⟨⟨addr, false, false⟩, List.getElem?_concat_length, ha.symm⟩
    · rw [SwarmManager.dial, AList.lookup_insert_ne ha] at hp
      obtain ⟨task, htask, haddr⟩ := h.handles a p hp
      obtain ⟨hlt, -⟩ := List.getElem?_eq_some_iff.mp htask
      exact ⟨task, by rw [SwarmManager.dial, List.getElem?_append_left hlt, htask], haddr⟩
  small := by
    rw [SwarmManager.dial, AList.entries_insert_of_notMem hfresh, List.length_cons]
    exact hroom
  stopped := by
    intro hs
    rw [SwarmManager.dial, hstopped] at hs
    cases hs
  owned := by
    intro t task htask hrunning
    rw [SwarmManager.dial] at htask
    rcases Nat.lt_or_ge t s.tasks.length with hlt | hge
    · rw [List.getElem?_append_left hlt] at htask
      obtain ⟨p, hp, hown⟩ := h.owned t task htask hrunning
      have hne : task.addr ≠ addr := by
        rintro rfl
        exact hfresh (AList.lookup_isSome.mp (hp ▸ rfl))
      exact ⟨p, by rw [SwarmManager.dial, AList.lookup_insert_ne hne, hp], hown⟩
    · obtain ⟨hlt, -⟩ := List.getElem?_eq_some_iff.mp htask
      rw [List.length_append, List.length_singleton] at hlt
      have ht : t = s.tasks.length := by omega
      rw [ht, List.getElem?_concat_length] at htask
      cases htask
      exact ⟨⟨0, now, s.tasks.length⟩, by rw [SwarmManager.dial, AList.lookup_insert], ht.symm⟩

theorem Consistent.dialLoop {s : SwarmManager} (h : s.Consistent) (now : Nat)
    (queue : List SocketAddr) (hstopped : s.stopped = false) : (dialLoop now s queue).Consistent := by
  induction queue generalizing s with
  | nil => exact h.congr rfl rfl rfl
  | cons addr rest ih =>
    rw [SwarmManager.dialLoop]
    split
    · exact h.congr rfl rfl rfl
    · rename_i hroom
      split
      · exact ih h hstopped
      · rename_i hfresh
        exact ih (h.dial now hstopped (Nat.lt_of_not_le hroom) hfresh) hstopped

theorem getElem?_foldl_abort (tasks : List Task) (handles : List Nat) (t : Nat) :
    (handles.foldl abort tasks)[t]? =
      tasks[t]?.map fun task => if t ∈ handles then { task with aborted := true } else task := by
  induction handles generalizing tasks with
  | nil => simp
  | cons handle handles ih =>
    rw [List.foldl_cons, ih, abort, List.getElem?_modify, Option.map_eq_map, Option.map_map]
    congr 1
    funext task
    by_cases h : handle = t
    · by_cases hmem : t ∈ handles <;> simp [h, hmem]
    · simp [h, Ne.symm h]

theorem running_foldl_abort {tasks : List Task} {handles : List Nat} {t : Nat} {task : Task}
    (h : (handles.foldl abort tasks)[t]? = some task) (hrunning : task.running = true) :
    tasks[t]? = some task ∧ t ∉ handles := by
  rw [getElem?_foldl_abort, Option.map_eq_some_iff] at h
  obtain ⟨old, hold, heq⟩ := h
  by_cases hmem : t ∈ handles
  · rw [if_pos hmem] at heq
    rw [← heq] at hrunning
    cases hrunning
  · rw [if_neg hmem] at heq
    exact ⟨hold.trans (congrArg some heq), hmem⟩

theorem map_addr_modify (tasks : List Task) (n : Nat) {f : Task → Task}
    (hf : ∀ task, (f task).addr = task.addr) :
    (tasks.modify n f).map Task.addr = tasks.map Task.addr := by
  refine List.ext_getElem? fun k => ?_
  rw [List.getElem?_map, List.getElem?_map, List.getElem?_modify]
  cases tasks[k]? with
  | none => rfl
  | some task =>
    rw [Option.map_eq_map, Option.map_some, Option.map_some, Option.map_some]
    split
    · rw [hf]
    · rfl

theorem map_addr_foldl_abort (tasks : List Task) (handles : List Nat) :
    (handles.foldl abort tasks).map Task.addr = tasks.map Task.addr := by
  induction handles generalizing tasks with
  | nil => rfl
  | cons handle handles ih =>
    rw [List.foldl_cons, ih]
    exact map_addr_modify tasks handle fun _ => rfl

theorem exists_addr_of_map_addr {old tasks : List Task} (h : tasks.map Task.addr = old.map Task.addr)
    {t : Nat} {addr : SocketAddr} (hold : ∃ task, old[t]? = some task ∧ task.addr = addr) :
    ∃ task, tasks[t]? = some task ∧ task.addr = addr := by
  obtain ⟨task, htask, haddr⟩ := hold
  have hmap : tasks[t]?.map Task.addr = some addr := by
    rw [← List.getElem?_map, h, List.getElem?_map, htask, Option.map_some, haddr]
  exact Option.map_eq_some_iff.mp hmap

theorem Consistent.expire {s : SwarmManager} (h : s.Consistent) (now : Nat) :
    (s.expire now).Consistent where
  handles := by
    intro addr peer hpeer
    have hentry := AList.mem_lookup_iff.mp hpeer
    have hpeer' := AList.mem_lookup_iff.mpr (List.mem_of_mem_filter hentry)
    exact exists_addr_of_map_addr (map_addr_foldl_abort ..) (h.handles addr peer hpeer')
  small := List.filter_sublist.length_le.trans h.small
  stopped := by
    intro hstopped
    have hempty := h.stopped hstopped
    simp only [SwarmManager.expire, hempty]
    rfl
  owned := by
    intro t task htask hrunning
    obtain ⟨hbefore, hkept⟩ := running_foldl_abort htask hrunning
    obtain ⟨peer, hpeer, hown⟩ := h.owned t task hbefore hrunning
    have hentry := AList.mem_lookup_iff.mp hpeer
    refine ⟨peer, AList.mem_lookup_iff.mpr (List.mem_filter.mpr ⟨hentry, ?_⟩), hown⟩
    -- An idle entry would have taken its task along.
    cases hidle : idle now peer with
    | false => rfl
    | true =>
      refine absurd ?_ hkept
      exact List.mem_map.mpr ⟨_, List.mem_filter.mpr ⟨hentry, hidle⟩, hown⟩

theorem Consistent.shutdown {s : SwarmManager} (h : s.Consistent) (env : RoundEnv) :
    (s.shutdown env).Consistent where
  handles := by
    intro addr peer hpeer
    cases hpeer
  small := Nat.zero_le _
  stopped := fun _ => rfl
  owned := by
    intro t task htask hrunning
    obtain ⟨hbefore, hkept⟩ := running_foldl_abort htask hrunning
    obtain ⟨peer, hpeer, hown⟩ := h.owned t task hbefore hrunning
    exact absurd (List.mem_map.mpr ⟨_, AList.mem_lookup_iff.mp hpeer, hown⟩) hkept

theorem Consistent.taskEnds {s : SwarmManager} (h : s.Consistent) (n : Nat) :
    (s.taskEnds n).Consistent := by
  unfold SwarmManager.taskEnds
  split
  · split
    · exact h
    · refine ⟨⟨?_, h.small, h.stopped⟩, ?_⟩
      · intro addr peer hpeer
        have haddrs := map_addr_modify s.tasks n (f := fun task => { task with ended := true })
          fun _ => rfl
        exact exists_addr_of_map_addr haddrs (h.handles addr peer hpeer)
      · intro t task htask hrunning
        rw [SwarmManager.send, List.getElem?_modify, Option.map_eq_map,
          Option.map_eq_some_iff] at htask
        obtain ⟨old, hold, heq⟩ := htask
        split at heq
        · rw [← heq, Task.running, Bool.not_true, Bool.and_false] at hrunning
          cases hrunning
        · rw [heq] at hold
          exact h.owned t task hold hrunning
  · exact h

theorem Consistent.handleEvent {s : SwarmManager} (h : s.Consistent) (env : RoundEnv)
    (event : SwarmEvent)
    (hexit : ∀ addr, event = .peerExited addr → ∀ peer task, s.active.lookup addr = some peer →
      s.tasks[peer.handle]? = some task → task.running = false) :
    (s.handleEvent env event).Consistent := by
  cases event with
  | peerProgress addr delta =>
    rw [SwarmManager.handleEvent]
    split
    · rename_i peer hpeer
      exact h.refresh hpeer rfl
    · exact h
  | peerExited addr => exact h.forget (hexit addr rfl)
  | trackerPeersReceived addrs => exact h.congr rfl rfl rfl
  | trackerAnnounceFailed error => exact h.congr rfl rfl rfl
  | pexPeersReceived addrs => exact h.congr rfl rfl rfl
  | dhtPeersReceived addrs => exact h.congr rfl rfl rfl

theorem Consistent.select {s t : SwarmManager} (h : s.Consistent) {env : RoundEnv} {branch : Branch}
    (hstopped : s.stopped = false) (hexit : s.ExitsInTime (.round branch env))
    (ht : s.select env branch = some t) : t.Consistent := by
  cases branch with
  | event =>
    simp only [SwarmManager.select] at ht
    split at ht
    · cases ht
    · rename_i sent rest hevents
      cases ht
      have hrest : ({ s with events := rest } : SwarmManager).Consistent := h.congr rfl rfl rfl
      exact hrest.handleEvent env sent.event fun addr hevent =>
        hexit hstopped sent rest addr hevents hevent
  | pexTick => exact h.same (sameDials_pexTick ht)
  | session event => exact h.same (sameDials_session ht)
  | tick =>
    cases ht
    exact (h.expire env.now).dialLoop env.now _ hstopped

theorem Consistent.step {s : SwarmManager} (h : s.Consistent) {input : SwarmInput}
    (hexit : s.ExitsInTime input) : (s.step input).Consistent := by
  cases input with
  | shutdown env =>
    rw [SwarmManager.step]
    split
    · exact h
    · exact h.shutdown env
  | round branch env =>
    rw [SwarmManager.step]
    split
    · exact h
    · rename_i hstopped
      split
      · rename_i next hnext
        have hselect := h.select (eq_false_of_ne_true hstopped) hexit hnext
        exact hselect.same (sameDials_reannounce next env)
      · exact h
  | progress addr delta => exact h.congr rfl rfl rfl
  | pexPeers addrs => exact h.congr rfl rfl rfl
  | dhtPeers addrs => exact h.congr rfl rfl rfl
  | taskEnds t => exact h.taskEnds t
  | trackerAnswers k addrs => exact h.same (sameDials_trackerAnswers s k addrs)
  | trackerFails k => exact h.congr rfl rfl rfl
  | announceEnds k error => exact h.same (sameDials_announceEnds s k error)

theorem Consistent.exitsInTime {s : SwarmManager} (h : s.Consistent) {input : SwarmInput}
    (htracked : (s.step input).Tracked) : s.ExitsInTime input := by
  unfold ExitsInTime
  split
  · rename_i env
    intro hstopped sent rest addr hevents hevent peer task hpeer htask
    cases hrunning : task.running with
    | false => rfl
    | true =>
      have hstep : s.step (.round .event env) =
          ({ s with events := rest, active := s.active.erase addr } : SwarmManager).reannounce env := by
        simp [SwarmManager.step, SwarmManager.select, hstopped, hevents, hevent,
          SwarmManager.handleEvent]
      have hsame := sameDials_reannounce
        { s with events := rest, active := s.active.erase addr } env
      rw [hstep] at htracked
      obtain ⟨other, hother, -⟩ := htracked.owned peer.handle task
        (by rw [hsame.tasks, htask]) hrunning
      obtain ⟨owner, howner, haddr⟩ := h.handles addr peer hpeer
      rw [htask] at howner
      cases howner
      rw [hsame.active, haddr, AList.lookup_erase] at hother
      cases hother
  · trivial

/-- Every dialed peer that runs is tracked, throughout a run, exactly when no exit event in it
finds the entry of a task that runs. -/
theorem dialed_peers_tracked_iff (availablePeers : List SocketAddr) (trackerUrls : List String)
    (infoHash : Tortor.Core.Digest) (peerId : List UInt8) (listenPort leftHint : Nat)
    (inputs : List SwarmInput) :
    let start := new availablePeers trackerUrls infoHash peerId listenPort leftHint
    (∀ k, (exec step start (inputs.take k)).Tracked) ↔ Along step ExitsInTime start inputs := by
  intro start
  have hstart : start.Consistent := Consistent.new ..
  rw [forall_take_iff (hstart.toLinked.tracked hstart.owned)]
  refine (along_iff (P := Consistent) ?_ ?_ hstart).symm
  · intro s input _ h
    refine ⟨fun hexit => ?_, h.exitsInTime⟩
    have hnext := h.step hexit
    exact hnext.toLinked.tracked hnext.owned
  · exact fun s input _ h hexit => h.step hexit

/-- A peer exits, expires before its exit event is handled, is heard of again and dialed again; then
the exit event of its first task removes the entry of the second one. -/
def lateExit (addr : SocketAddr) : List SwarmInput :=
  [.round .tick ⟨0, 0, 0⟩, .pexPeers [addr], .taskEnds 0, .round .tick ⟨301000, 0, 0⟩,
    .round .event ⟨301000, 0, 0⟩, .round .tick ⟨305000, 0, 0⟩, .round .event ⟨305000, 0, 0⟩]

theorem lateExit_untracked :
    let addr : SocketAddr := .v4 0x0a000001 6881
    let start := new [addr] [] ⟨List.replicate 20 5, List.length_replicate⟩ [] 6881 0
    let s := exec step start (lateExit addr)
    s.runningTasks = [1] ∧ s.stopped = false ∧ s.active.keys = [] ∧ ¬ s.Tracked := by
  intro addr start s
  have hactive : s.active.lookup addr = none := AList.lookup_eq_none.mpr (by decide +kernel)
  refine ⟨by decide +kernel, by decide +kernel, by decide +kernel, fun h => ?_⟩
  obtain ⟨peer, hpeer, -⟩ := h.owned 1 ⟨addr, false, false⟩ (by decide +kernel) rfl
  rw [hactive] at hpeer
  cases hpeer

end SwarmManager
end Tortor.Net
