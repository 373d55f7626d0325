import Tortor.Net.SwarmTasks

/-! The queue of peers to dial, from the trackers of the start to the dialed peers. -/

namespace Tortor.Net

open Tortor.Core (Digest SocketAddr)
open Tortor.Lib

theorem nodup_mergePeers {merged : List SocketAddr} (h : merged.Nodup) (peers : List SocketAddr) :
    (mergePeers merged peers).Nodup := by
  induction peers generalizing merged with
  | nil => exact h
  | cons peer peers ih =>
    rw [mergePeers]
    split
    · exact ih h
    · rename_i hfresh
      exact ih (List.nodup_append.mpr ⟨h, List.nodup_singleton peer, by grind⟩)

theorem nodup_announceLoop {answers : List (Option (List SocketAddr))} {merged peers : List SocketAddr}
    {anyOk : Bool} (h : merged.Nodup) (hpeers : announceLoop answers merged anyOk = some peers) :
    peers.Nodup := by
  induction answers generalizing merged anyOk with
  | nil =>
    rw [announceLoop] at hpeers
    split at hpeers
    · cases hpeers
      exact h
    · cases hpeers
  | cons answer answers ih =>
    cases answer with
    | none => exact ih h hpeers
    | some found => exact ih (nodup_mergePeers h found) hpeers

theorem nodup_initialPeers (answers : List (Option (List SocketAddr))) :
    (initialPeers answers).Nodup := by
  unfold initialPeers
  cases hpeers : announceAll answers with
  | none => exact List.nodup_nil
  | some peers => exact nodup_announceLoop List.nodup_nil hpeers

namespace SwarmManager

structure Sane (s : SwarmManager) : Prop where
  bounded : s.availablePeers.length ≤ MAX_QUEUED_PEERS
  nodup : s.availablePeers.Nodup
  apart : ∀ addr ∈ s.availablePeers, addr ∉ s.active
  dialed : ∀ task ∈ s.tasks, isValidNodeAddr task.addr = true

structure QueueOk (active : AList fun _ : SocketAddr => ActivePeer) (queue : List SocketAddr) :
    Prop where
  bounded : queue.length ≤ MAX_QUEUED_PEERS
  nodup : queue.Nodup
  apart : ∀ addr ∈ queue, addr ∉ active
  valid : ∀ addr ∈ queue, isValidNodeAddr addr = true

namespace QueueOk

variable {active larger : AList fun _ : SocketAddr => ActivePeer} {queue : List SocketAddr}

theorem mono (h : QueueOk larger queue) (hsub : ∀ addr, addr ∈ active → addr ∈ larger) :
    QueueOk active queue :=
  ⟨h.bounded, h.nodup, fun addr haddr hactive => h.apart addr haddr (hsub addr hactive), h.valid⟩

theorem tail {addr : SocketAddr} (h : QueueOk active (addr :: queue)) : QueueOk active queue where
  bounded := (Nat.le_succ _).trans h.bounded
  nodup := (List.nodup_cons.mp h.nodup).2
  apart := fun a ha => h.apart a (List.mem_cons_of_mem addr ha)
  valid := fun a ha => h.valid a (List.mem_cons_of_mem addr ha)

theorem dial {addr : SocketAddr} (h : QueueOk active (addr :: queue)) (peer : ActivePeer) :
    QueueOk (active.insert addr peer) queue where
  bounded := h.tail.bounded
  nodup := h.tail.nodup
  apart := by
    intro a ha hinsert
    rcases (AList.mem_insert _).mp hinsert with rfl | hactive
    · exact (List.nodup_cons.mp h.nodup).1 ha
    · exact h.tail.apart a ha hactive
  valid := h.tail.valid

theorem enqueue (h : QueueOk active queue) (addrs : List SocketAddr) :
    QueueOk active (enqueuePeers active queue addrs).1 := by
  induction addrs generalizing queue with
  | nil => exact h
  | cons addr addrs ih =>
    rw [enqueuePeers]
    split
    · exact h
    · rename_i hroom
      split
      · exact ih h
      · rename_i hok
        obtain ⟨hvalid, hactive, hqueue⟩ : isValidNodeAddr addr = true ∧ addr ∉ active ∧ addr ∉ queue := by
          simpa using hok
        refine ih ⟨?_, ?_, ?_, ?_⟩
        · rw [List.length_append, List.length_singleton]
          exact Nat.lt_of_not_le hroom
        · exact List.nodup_append.mpr ⟨h.nodup, List.nodup_singleton addr, by grind⟩
        · intro a ha
          rcases List.mem_append.mp ha with hold | hnew
          · exact h.apart a hold
          · exact List.mem_singleton.mp hnew ▸ hactive
        · intro a ha
          rcases List.mem_append.mp ha with hold | hnew
          · exact h.valid a hold
          · exact List.mem_singleton.mp hnew ▸ hvalid

end QueueOk

structure Checked (s : SwarmManager) : Prop where
  queue : QueueOk s.active s.availablePeers
  dialed : ∀ task ∈ s.tasks, isValidNodeAddr task.addr = true

theorem Checked.sane {s : SwarmManager} (h : s.Checked) : s.Sane :=
  ⟨h.queue.bounded, h.queue.nodup, h.queue.apart, h.dialed⟩

namespace Checked

variable {s t : SwarmManager}

theorem same (h : s.Checked) (hsame : SameDials s t) : t.Checked where
  queue := by
    rw [hsame.active, hsame.availablePeers]
    exact h.queue
  dialed := by
    rw [hsame.tasks]
    exact h.dialed

theorem dialLoop (now : Nat) (queue : List SocketAddr) (hqueue : QueueOk s.active queue)
    (hdialed : ∀ task ∈ s.tasks, isValidNodeAddr task.addr = true) :
    (dialLoop now s queue).Checked := by
  induction queue generalizing s with
  | nil => exact ⟨hqueue, hdialed⟩
  | cons addr rest ih =>
    rw [SwarmManager.dialLoop]
    split
    · exact ⟨hqueue, hdialed⟩
    · split
      · exact ih hqueue.tail hdialed
      · refine ih (hqueue.dial _) ?_
        intro task htask
        rcases List.mem_append.mp htask with hold | hnew
        · exact hdialed task hold
        · rw [List.mem_singleton.mp hnew]
          exact hqueue.valid addr List.mem_cons_self

end Checked

theorem mem_expire {s : SwarmManager} {now : Nat} {addr : SocketAddr}
    (h : addr ∈ (s.expire now).active) : addr ∈ s.active :=
  (List.filter_sublist.map Sigma.fst).subset h

namespace Checked

variable {s t : SwarmManager}

theorem fewer (h : s.Checked) (hactive : ∀ addr, addr ∈ t.active → addr ∈ s.active)
    (hqueue : t.availablePeers = s.availablePeers)
    (htasks : t.tasks.map Task.addr = s.tasks.map Task.addr) : t.Checked where
  queue := hqueue ▸ h.queue.mono hactive
  dialed := by
    intro task htask
    have haddr : task.addr ∈ s.tasks.map Task.addr := htasks ▸ List.mem_map_of_mem htask
    obtain ⟨old, hold, heq⟩ := List.mem_map.mp haddr
    exact heq ▸ h.dialed old hold

theorem enqueue (h : s.Checked) (addrs : List SocketAddr) : (s.enqueue addrs).Checked :=
  ⟨h.queue.enqueue addrs, h.dialed⟩

theorem handleEvent (h : s.Checked) (env : RoundEnv) (event : SwarmEvent) :
    (s.handleEvent env event).Checked := by
  cases event with
  | peerProgress addr delta =>
    rw [SwarmManager.handleEvent]
    split
    · rename_i peer hpeer
      refine h.fewer ?_ rfl rfl
      intro a ha
      rcases (AList.mem_insert _).mp ha with rfl | hactive
      · exact AList.lookup_isSome.mp (hpeer ▸ rfl)
      · exact hactive
    · exact h
  | peerExited addr => exact h.fewer (fun a ha => (AList.mem_erase.mp ha).2) rfl rfl
  | trackerPeersReceived addrs =>
    have hcleared : ({ s with swarmState :=
        { s.swarmState with announceInProgress := false, event := none } } : SwarmManager).Checked :=
      h.same ⟨rfl, rfl, rfl, rfl⟩
    exact hcleared.enqueue addrs
  | trackerAnnounceFailed error => exact h.same ⟨rfl, rfl, rfl, rfl⟩
  | pexPeersReceived addrs => exact h.enqueue addrs
  | dhtPeersReceived addrs => exact h.enqueue addrs

theorem select (h : s.Checked) {env : RoundEnv} {branch : Branch}
    (ht : s.select env branch = some t) : t.Checked := by
  cases branch with
  | event =>
    simp only [SwarmManager.select] at ht
    split at ht
    · cases ht
    · rename_i sent rest hevents
      cases ht
      have hrest : ({ s with events := rest } : SwarmManager).Checked := h.same ⟨rfl, rfl, rfl, rfl⟩
      exact hrest.handleEvent env sent.event
  | pexTick => exact h.same (sameDials_pexTick ht)
  | session event => exact h.same (sameDials_session ht)
  | tick =>
    cases ht
    have hexpire : (s.expire env.now).Checked :=
      h.fewer (fun _ ha => mem_expire ha) rfl (map_addr_foldl_abort ..)
    exact dialLoop env.now s.availablePeers hexpire.queue hexpire.dialed

theorem step (h : s.Checked) (input : SwarmInput) : (s.step input).Checked := by
  cases input with
  | shutdown env =>
    rw [SwarmManager.step]
    split
    · exact h
    · exact h.fewer (fun a ha => absurd ha (AList.notMem_empty a)) rfl (map_addr_foldl_abort ..)
  | round branch env =>
    rw [SwarmManager.step]
    split
    · exact h
    · split
      · rename_i next hnext
        exact (h.select hnext).same (sameDials_reannounce next env)
      · exact h
  | progress addr delta => exact h.same ⟨rfl, rfl, rfl, rfl⟩
  | pexPeers addrs => exact h.same ⟨rfl, rfl, rfl, rfl⟩
  | dhtPeers addrs => exact h.same ⟨rfl, rfl, rfl, rfl⟩
  | taskEnds n =>
    rw [SwarmManager.step, SwarmManager.taskEnds]
    split
    · split
      · exact h
      · exact h.fewer (fun _ ha => ha) rfl (map_addr_modify s.tasks n fun _ => rfl)
    · exact h
  | trackerAnswers k addrs => exact h.same (sameDials_trackerAnswers s k addrs)
  | trackerFails k => exact h.same ⟨rfl, rfl, rfl, rfl⟩
  | announceEnds k error => exact h.same (sameDials_announceEnds s k error)

end Checked

/-- Everybody who is active was dialed, and nobody since has made progress after `now`. -/
structure Aged (s : SwarmManager) (now : Nat) : Prop where
  running : s.stopped = false
  dialed : ∀ addr, addr ∈ s.active → addr ∈ s.tasks.map Task.addr
  progress : ∀ entry ∈ s.active.entries, entry.2.lastProgress ≤ now

theorem mem_map_addr_dial {s : SwarmManager} {addr a : SocketAddr} {now : Nat} :
    a ∈ (s.dial addr now).tasks.map Task.addr ↔ a ∈ s.tasks.map Task.addr ∨ a = addr := by
  rw [dial, List.map_append, List.mem_append, List.map_singleton, List.mem_singleton]

theorem Aged.dial {s : SwarmManager} {now : Nat} (h : s.Aged now) (addr : SocketAddr) :
    (s.dial addr now).Aged now where
  running := h.running
  dialed := by
    intro a ha
    rcases (AList.mem_insert _).mp ha with rfl | hactive
    · exact mem_map_addr_dial.mpr (Or.inr rfl)
    · exact mem_map_addr_dial.mpr (Or.inl (h.dialed a hactive))
  progress := by
    intro entry hentry
    rcases List.mem_cons.mp hentry with rfl | hrest
    · exact Nat.le_refl now
    · exact h.progress entry ((List.kerase_sublist addr s.active.entries).subset hrest)

theorem dialLoop_dials {s : SwarmManager} {now : Nat} (h : s.Aged now) (queue : List SocketAddr) :
    (dialLoop now s queue).Aged now ∧
      (∀ addr ∈ s.tasks.map Task.addr, addr ∈ (dialLoop now s queue).tasks.map Task.addr) ∧
      (dialLoop now s queue).availablePeers.length ≤ queue.length ∧
      ∀ addr ∈ queue, addr ∈ (dialLoop now s queue).availablePeers ∨
        addr ∈ (dialLoop now s queue).tasks.map Task.addr := by
  induction queue generalizing s with
  | nil => exact ⟨⟨h.running, h.dialed, h.progress⟩, fun _ ha => ha, Nat.le_refl 0, by simp⟩
  | cons addr rest ih =>
    rw [dialLoop]
    split
    · exact ⟨⟨h.running, h.dialed, h.progress⟩, fun _ ha => ha, Nat.le_refl _, fun _ ha => Or.inl ha⟩
    · split
      · rename_i hactive
        obtain ⟨haged, hkept, hlen, hdials⟩ := ih h
        refine ⟨haged, hkept, Nat.le_succ_of_le hlen, ?_⟩
        intro a ha
        rcases List.mem_cons.mp ha with rfl | hrest
        · exact Or.inr (hkept a (h.dialed a hactive))
        · exact hdials a hrest
      · obtain ⟨haged, hkept, hlen, hdials⟩ := ih (h.dial addr)
        refine ⟨haged, fun a ha => hkept a (mem_map_addr_dial.mpr (Or.inl ha)),
          Nat.le_succ_of_le hlen, ?_⟩
        intro a ha
        rcases List.mem_cons.mp ha with rfl | hrest
        · exact Or.inr (hkept a (mem_map_addr_dial.mpr (Or.inr rfl)))
        · exact hdials a hrest

theorem expire_aged {s : SwarmManager} {last now : Nat} (h : s.Aged last)
    (hlate : last + 301000 ≤ now) : (s.expire now).active.entries = [] := by
  refine List.filter_eq_nil_iff.mpr ?_
  intro entry hentry
  have hprogress := h.progress entry hentry
  have hidle : PEER_IDLE_TIMEOUT_SECS < (now - entry.2.lastProgress) / 1000 := by
    rw [PEER_IDLE_TIMEOUT_SECS]
    omega
  simp [idle, hidle]

theorem tick_dials {s : SwarmManager} {last : Nat} (h : s.Aged last) (hqueue : s.availablePeers ≠ []) :
    let t := s.step (.round .tick ⟨last + 301000, 0, 0⟩)
    t.Aged (last + 301000) ∧ t.availablePeers.length < s.availablePeers.length ∧
      ∀ addr ∈ s.availablePeers, addr ∈ t.availablePeers ∨ addr ∈ t.tasks.map Task.addr := by
  intro t
  obtain ⟨front, rest, hfront⟩ := List.exists_cons_of_ne_nil hqueue
  let expired := s.expire (last + 301000)
  have hempty : expired.active.entries = [] := expire_aged h (Nat.le_refl _)
  have hfresh : front ∉ expired.active := by
    intro hmem
    have hkeys : front ∈ expired.active.entries.map Sigma.fst := hmem
    rw [hempty] at hkeys
    cases hkeys
  have haged : expired.Aged (last + 301000) := by
    refine ⟨h.running, ?_, ?_⟩
    · intro a ha
      have hkeys : a ∈ expired.active.entries.map Sigma.fst := ha
      rw [hempty] at hkeys
      cases hkeys
    · rw [hempty]
      intro entry hentry
      cases hentry
  have hloop : dialLoop (last + 301000) expired (front :: rest) =
      dialLoop (last + 301000) (expired.dial front (last + 301000)) rest := by
    rw [dialLoop, hempty, if_neg (by decide), if_neg hfresh]
  have hsame : SameDials (dialLoop (last + 301000) expired (front :: rest)) t := by
    have ht : t = (dialLoop (last + 301000) expired (front :: rest)).reannounce
        ⟨last + 301000, 0, 0⟩ := by
      simp only [t, step, h.running, select, ← hfront]
      rfl
    rw [ht]
    exact sameDials_reannounce _ _
  rw [hloop] at hsame
  obtain ⟨hafter, hkept, hlen, hdials⟩ := dialLoop_dials (haged.dial front) rest
  refine ⟨?_, ?_, ?_⟩
  · refine ⟨hsame.stopped.trans hafter.running, ?_, ?_⟩
    · rw [hsame.active, hsame.tasks]
      exact hafter.dialed
    · rw [hsame.active]
      exact hafter.progress
  · rw [hsame.availablePeers, hfront, List.length_cons]
    exact Nat.lt_succ_of_le hlen
  · rw [hsame.availablePeers, hsame.tasks, hfront]
    intro a ha
    rcases List.mem_cons.mp ha with rfl | hrest
    · exact Or.inr (hkept a (mem_map_addr_dial.mpr (Or.inr rfl)))
    · exact hdials a hrest

theorem exists_run_dials {s : SwarmManager} {last : Nat} (h : s.Aged last) {addr : SocketAddr}
    (haddr : addr ∈ s.availablePeers) :
    ∃ inputs, addr ∈ (exec step s inputs).tasks.map Task.addr := by
  induction hn : s.availablePeers.length using Nat.strongRecOn generalizing s last with
  | ind n ih =>
    obtain ⟨haged, hlt, hdials⟩ := tick_dials h (List.ne_nil_of_mem haddr)
    rcases hdials addr haddr with hqueue | hdialed
    · obtain ⟨inputs, hinputs⟩ := ih _ (hn ▸ hlt) haged hqueue rfl
      exact ⟨_ :: inputs, hinputs⟩
    · exact ⟨[.round .tick ⟨last + 301000, 0, 0⟩], hdialed⟩

/-- The queue stays sane in every run exactly when the peers of the start would have passed the
checks of `enqueuePeers`; that there are no duplicates is the work of `announceAll`. -/
theorem queue_sane_iff (answers : List (Option (List SocketAddr))) (trackerUrls : List String)
    (infoHash : Digest) (peerId : List UInt8) (listenPort leftHint : Nat) :
    let start := new (initialPeers answers) trackerUrls infoHash peerId listenPort leftHint
    (∀ inputs, (exec step start inputs).Sane) ↔
      (initialPeers answers).length ≤ MAX_QUEUED_PEERS ∧
        ∀ addr ∈ initialPeers answers, isValidNodeAddr addr = true := by
  intro start
  constructor
  · intro hsane
    refine ⟨(hsane []).bounded, fun addr haddr => ?_⟩
    have hstart : start.Aged 0 := by
      refine ⟨rfl, ?_, ?_⟩
      · intro a ha
        exact absurd ha (AList.notMem_empty a)
      · intro entry hentry
        cases hentry
    obtain ⟨inputs, hdialed⟩ := exists_run_dials hstart haddr
    obtain ⟨task, htask, rfl⟩ := List.mem_map.mp hdialed
    exact (hsane inputs).dialed task htask
  · rintro ⟨hlen, hvalid⟩ inputs
    have hstart : start.Checked := by
      refine ⟨⟨hlen, nodup_initialPeers answers, ?_, hvalid⟩, ?_⟩
      · exact fun a _ ha => AList.notMem_empty a ha
      · intro task htask
        cases htask
    exact (exec_invariant (fun s input h => h.step input) inputs hstart).sane

/-- A tracker names a peer with port 0, and the first tick dials it. -/
theorem port_zero_dialed :
    let peer : SocketAddr := .v4 0x0a000001 0
    let start := new (initialPeers [some [peer]]) ["udp://a:1"]
      ⟨List.replicate 20 5, List.length_replicate⟩ [] 6881 0
    let s := exec step start [.round .tick ⟨0, 0, 0⟩]
    isValidNodeAddr peer = false ∧ s.tasks.map Task.addr = [peer] ∧ ¬ s.Sane := by
  intro peer start s
  have htasks : s.tasks = [⟨peer, false, false⟩] := by decide +kernel
  refine ⟨by decide, by rw [htasks]; rfl, fun h => ?_⟩
  have hvalid := h.dialed ⟨peer, false, false⟩ (by rw [htasks]; exact List.mem_cons_self)
  exact absurd hvalid (by decide)

end SwarmManager
end Tortor.Net
