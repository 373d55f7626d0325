import Tortor.Lib.Run
import Tortor.Lib.Table
import Tortor.Net.ActorLaws

/-! The peer store over any calls: how much it keeps, and for how long. -/

namespace Tortor.Net

open Tortor.Core (SocketAddr)
open Tortor.Lib

namespace PeerStore

def announced (addr : SocketAddr) (now : Nat) (list : List (SocketAddr × Nat)) :
    List (SocketAddr × Nat) :=
  if list.any fun (a, _) => a == addr then touch addr now list
  else (if MAX_PEERS_PER_TORRENT ≤ list.length then list.tail else list) ++ [(addr, now)]

theorem add_eq (self : PeerStore) (infoHash : NodeId) (addr : SocketAddr) (now : Nat) :
    self.add infoHash addr now =
      if infoHash ∉ self.peers ∧ MAX_STORED_TORRENTS ≤ self.peers.entries.length then self
      else ⟨self.peers.insert infoHash
        (announced addr now ((self.peers.lookup infoHash).getD []))⟩ := rfl

variable {list : List (SocketAddr × Nat)} {addr : SocketAddr} {now : Nat}

def Lists (list : List (SocketAddr × Nat)) (addr : SocketAddr) : Prop := addr ∈ list.map Prod.fst

theorem any_iff_lists : (list.any fun (a, _) => a == addr) = true ↔ Lists list addr := by
  simp [Lists]

structure Bounded (list : List (SocketAddr × Nat)) : Prop where
  ne_nil : list ≠ []
  length_le : list.length ≤ MAX_PEERS_PER_TORRENT
  nodup : (list.map Prod.fst).Nodup

theorem length_touch (addr : SocketAddr) (now : Nat) (list : List (SocketAddr × Nat)) :
    (touch addr now list).length = list.length := by
  simpa using congrArg List.length (map_fst_touch addr now list)

theorem mem_touch_iff (hnodup : (list.map Prod.fst).Nodup) (haddr : Lists list addr)
    {peer : SocketAddr} {seen : Nat} : (peer, seen) ∈ touch addr now list ↔
      (peer = addr ∧ seen = now) ∨ (peer ≠ addr ∧ (peer, seen) ∈ list) := by
  induction list with
  | nil => cases haddr
  | cons entry rest ih =>
    obtain ⟨a, t⟩ := entry
    rw [List.map_cons, List.nodup_cons] at hnodup
    rw [touch]
    split
    case isTrue heq =>
      subst heq
      have hother : (peer, seen) ∈ rest → peer ≠ a := by
        rintro hmem rfl
        exact hnodup.1 (List.mem_map.mpr ⟨_, hmem, rfl⟩)
      rw [List.mem_cons, List.mem_cons, Prod.mk.injEq, Prod.mk.injEq]
      constructor
      · rintro (hnew | hrest)
        · exact .inl hnew
        · exact .inr ⟨hother hrest, .inr hrest⟩
      · rintro (hnew | ⟨hne, ⟨heq, -⟩ | hrest⟩)
        · exact .inl hnew
        · exact absurd heq hne
        · exact .inr hrest
    case isFalse hne =>
      have hrest : Lists rest addr := by
        rcases List.mem_cons.mp haddr with heq | hmem
        · exact absurd heq.symm hne
        · exact hmem
      rw [List.mem_cons, ih hnodup.2 hrest, List.mem_cons, Prod.mk.injEq]
      constructor
      · rintro (⟨rfl, rfl⟩ | hnew | ⟨hother, hmem⟩)
        · exact .inr ⟨hne, .inl ⟨rfl, rfl⟩⟩
        · exact .inl hnew
        · exact .inr ⟨hother, .inr hmem⟩
      · rintro (hnew | ⟨hother, hold | hmem⟩)
        · exact .inr (.inl hnew)
        · exact .inl hold
        · exact .inr (.inr ⟨hother, hmem⟩)

theorem announced_cases (addr : SocketAddr) (now : Nat) (list : List (SocketAddr × Nat)) :
    (Lists list addr ∧ announced addr now list = touch addr now list) ∨
    (¬ Lists list addr ∧ list.length < MAX_PEERS_PER_TORRENT ∧
      announced addr now list = list ++ [(addr, now)]) ∨
    (¬ Lists list addr ∧ MAX_PEERS_PER_TORRENT ≤ list.length ∧
      announced addr now list = list.tail ++ [(addr, now)]) := by
  rw [announced]
  by_cases hlists : Lists list addr
  · exact .inl ⟨hlists, if_pos (any_iff_lists.mpr hlists)⟩
  rw [if_neg (mt any_iff_lists.mp hlists)]
  right
  rcases Nat.lt_or_ge list.length MAX_PEERS_PER_TORRENT with hroom | hfull
  · exact .inl ⟨hlists, hroom, by rw [if_neg (Nat.not_le.mpr hroom)]⟩
  · exact .inr ⟨hlists, hfull, by rw [if_pos hfull]⟩

theorem bounded_announced (hlength : list.length ≤ MAX_PEERS_PER_TORRENT)
    (hnodup : (list.map Prod.fst).Nodup) : Bounded (announced addr now list) := by
  have happend {front : List (SocketAddr × Nat)} (hsub : front.Sublist list)
      (hlists : ¬ Lists list addr) : ((front ++ [(addr, now)]).map Prod.fst).Nodup := by
    have hfront := hsub.map Prod.fst
    rw [List.map_append, List.map_singleton, List.nodup_append]
    refine ⟨hnodup.sublist hfront, List.nodup_singleton _, ?_⟩
    intro a ha b hb heq
    have haddr : a = addr := heq.trans (List.mem_singleton.mp hb)
    exact hlists (haddr ▸ hfront.subset ha)
  rcases announced_cases addr now list with ⟨hlists, heq⟩ | ⟨hlists, hroom, heq⟩ |
    ⟨hlists, hfull, heq⟩ <;> rw [heq]
  · refine ⟨?_, (length_touch addr now list).trans_le hlength, ?_⟩
    · intro hnil
      rw [Lists, ← map_fst_touch addr now, hnil] at hlists
      cases hlists
    · rwa [map_fst_touch]
  · refine ⟨by simp, ?_, happend (List.Sublist.refl _) hlists⟩
    rw [List.length_append, List.length_singleton]
    exact hroom
  · refine ⟨by simp, ?_, happend (List.tail_sublist list) hlists⟩
    rw [List.length_append, List.length_singleton, List.length_tail]
    have hpos : 0 < MAX_PEERS_PER_TORRENT := by decide
    omega

theorem mem_announced (hnodup : (list.map Prod.fst).Nodup) {peer : SocketAddr} {seen : Nat}
    (h : (peer, seen) ∈ announced addr now list) :
    (peer = addr ∧ seen = now) ∨ (peer ≠ addr ∧ (peer, seen) ∈ list) := by
  have hold (hlists : ¬ Lists list addr) (hmem : (peer, seen) ∈ list) : peer ≠ addr := by
    rintro rfl
    exact hlists (List.mem_map_of_mem hmem)
  rcases announced_cases addr now list with ⟨hlists, heq⟩ | ⟨hlists, -, heq⟩ | ⟨hlists, -, heq⟩ <;>
    rw [heq] at h
  · exact (mem_touch_iff hnodup hlists).mp h
  · rcases List.mem_append.mp h with hmem | hnew
    · exact .inr ⟨hold hlists hmem, hmem⟩
    · exact .inl (Prod.mk.inj (List.mem_singleton.mp hnew))
  · rcases List.mem_append.mp h with hmem | hnew
    · have hmem := List.mem_of_mem_tail hmem
      exact .inr ⟨hold hlists hmem, hmem⟩
    · exact .inl (Prod.mk.inj (List.mem_singleton.mp hnew))

/-- An address is put out of a list only where the list is full and another one is new to it. -/
theorem lists_announced {peer : SocketAddr} (h : ¬ Lists (announced addr now list) peer)
    (hlisted : Lists list peer) :
    ¬ Lists list addr ∧ MAX_PEERS_PER_TORRENT ≤ list.length := by
  rcases announced_cases addr now list with ⟨hlists, heq⟩ | ⟨hlists, -, heq⟩ |
    ⟨hlists, hfull, -⟩
  · rw [heq, Lists, map_fst_touch] at h
    exact absurd hlisted h
  · rw [heq, Lists, List.map_append] at h
    exact absurd (List.mem_append_left _ hlisted) h
  · exact ⟨hlists, hfull⟩

def recent (now : Nat) (list : List (SocketAddr × Nat)) : List (SocketAddr × Nat) :=
  list.filter fun (_, seen) => decide (now - seen < PEER_TTL)

theorem lookup_purge (self : PeerStore) (now : Nat) (infoHash : NodeId) :
    (self.purge now).peers.lookup infoHash =
      (self.peers.lookup infoHash).bind fun list =>
        if (recent now list).isEmpty then none else some (recent now list) := by
  have hpurged (list : List (SocketAddr × Nat)) :
      ⟨infoHash, list⟩ ∈ (self.purge now).peers.entries ↔
        ∃ old, ⟨infoHash, old⟩ ∈ self.peers.entries ∧ recent now old = list ∧ list ≠ [] := by
    simp only [purge, List.mem_filter, List.mem_map]
    constructor
    · rintro ⟨⟨e, he, heq⟩, hne⟩
      cases heq
      exact ⟨e.2, he, rfl, fun hnil => by simp [hnil] at hne⟩
    · rintro ⟨old, hold, rfl, hne⟩
      exact ⟨⟨_, hold, rfl⟩, by simpa using hne⟩
  ext list
  rw [← Option.mem_def, AList.mem_lookup_iff, hpurged, Option.bind_eq_some_iff]
  constructor
  · rintro ⟨old, hold, rfl, hne⟩
    refine ⟨old, AList.mem_lookup_iff.mpr hold, if_neg ?_⟩
    exact fun hempty => hne (List.isEmpty_iff.mp hempty)
  · rintro ⟨old, hold, hkept⟩
    refine ⟨old, AList.mem_lookup_iff.mp hold, ?_⟩
    split at hkept
    · cases hkept
    case isFalse hne =>
      cases hkept
      exact ⟨rfl, fun hnil => hne (List.isEmpty_iff.mpr hnil)⟩

theorem lookup_add_ne (self : PeerStore) {infoHash other : NodeId} (h : other ≠ infoHash)
    (addr : SocketAddr) (now : Nat) :
    (self.add infoHash addr now).peers.lookup other = self.peers.lookup other := by
  rw [add_eq]
  split
  · rfl
  · exact AList.lookup_insert_ne h

end PeerStore

/-- The store under calls at times that never go back. -/
structure WatchedStore where
  store : PeerStore
  clock : Nat
  log : List (NodeId × SocketAddr × Nat)

inductive StoreCall
  | tick (millis : Nat)
  | add (infoHash : NodeId) (addr : SocketAddr)
  | get (infoHash : NodeId)
  | purge

namespace WatchedStore

def start (clock : Nat) : WatchedStore := ⟨⟨∅⟩, clock, []⟩

def step (s : WatchedStore) : StoreCall → WatchedStore
  | .tick millis => { s with clock := s.clock + millis }
  | .add infoHash addr =>
    { s with
      store := s.store.add infoHash addr s.clock
      log := (infoHash, addr, s.clock) :: s.log }
  | .get _ => s
  | .purge => { s with store := s.store.purge s.clock }

def lastAnnounced (s : WatchedStore) (infoHash : NodeId) (addr : SocketAddr) : Option Nat :=
  (s.log.find? fun e => e.1 == infoHash && e.2.1 == addr).map fun e => e.2.2

structure Sound (s : WatchedStore) : Prop where
  torrents : s.store.peers.entries.length ≤ MAX_STORED_TORRENTS
  bounded : ∀ infoHash list, s.store.peers.lookup infoHash = some list → PeerStore.Bounded list
  seen : ∀ infoHash list, s.store.peers.lookup infoHash = some list → ∀ addr seen,
    (addr, seen) ∈ list → s.lastAnnounced infoHash addr = some seen ∧ seen ≤ s.clock

variable {s : WatchedStore}

theorem Sound.start (clock : Nat) : (start clock).Sound where
  torrents := Nat.zero_le _
  bounded _ _ h := by cases h
  seen _ _ h := by cases h

theorem lastAnnounced_add (s : WatchedStore) (infoHash torrent : NodeId) (addr peer : SocketAddr) :
    (s.step (.add infoHash addr)).lastAnnounced torrent peer =
      if infoHash = torrent ∧ addr = peer then some s.clock
      else s.lastAnnounced torrent peer := by
  rw [step, lastAnnounced, List.find?_cons]
  by_cases h : infoHash = torrent ∧ addr = peer
  · simp [h]
  · rw [if_neg h]
    have hfalse : (infoHash == torrent && addr == peer) = false := by
      simpa using h
    simp only [hfalse]
    rfl

theorem Sound.list (h : s.Sound) (infoHash : NodeId) :
    ((s.store.peers.lookup infoHash).getD []).length ≤ MAX_PEERS_PER_TORRENT ∧
      (((s.store.peers.lookup infoHash).getD []).map Prod.fst).Nodup := by
  cases hlookup : s.store.peers.lookup infoHash with
  | none => exact ⟨Nat.zero_le _, List.nodup_nil⟩
  | some list => exact ⟨(h.bounded _ _ hlookup).length_le, (h.bounded _ _ hlookup).nodup⟩

theorem Sound.add (h : s.Sound) (infoHash : NodeId) (addr : SocketAddr) :
    (s.step (.add infoHash addr)).Sound := by
  obtain ⟨hlength, hnodup⟩ := h.list infoHash
  by_cases hrefused : infoHash ∉ s.store.peers ∧ MAX_STORED_TORRENTS ≤ s.store.peers.entries.length
  · have hsame : (s.step (.add infoHash addr)).store = s.store := by
      rw [step, PeerStore.add_eq, if_pos hrefused]
    refine ⟨hsame ▸ h.torrents, hsame ▸ h.bounded, fun torrent list hlist peer seen hmem => ?_⟩
    rw [hsame] at hlist
    have hother : ¬ (infoHash = torrent ∧ addr = peer) := by
      rintro ⟨rfl, -⟩
      exact hrefused.1 (AList.lookup_isSome.mp (hlist ▸ rfl))
    rw [lastAnnounced_add, if_neg hother]
    exact h.seen torrent list hlist peer seen hmem
  · have hstore : (s.step (.add infoHash addr)).store.peers = s.store.peers.insert infoHash
        (PeerStore.announced addr s.clock ((s.store.peers.lookup infoHash).getD [])) := by
      rw [step, PeerStore.add_eq, if_neg hrefused]
    refine ⟨?_, fun torrent list hlist => ?_, fun torrent list hlist peer seen hmem => ?_⟩
    · rw [hstore]
      by_cases hstored : infoHash ∈ s.store.peers
      · rw [Table.length_insert_of_mem hstored]
        exact h.torrents
      · have hroom : s.store.peers.entries.length < MAX_STORED_TORRENTS := by
          by_contra hfull
          exact hrefused ⟨hstored, Nat.not_lt.mp hfull⟩
        exact (Table.length_insert_le _ _ _).trans hroom
    · rw [hstore] at hlist
      by_cases htorrent : torrent = infoHash
      · rw [htorrent, AList.lookup_insert] at hlist
        cases hlist
        exact PeerStore.bounded_announced hlength hnodup
      · rw [AList.lookup_insert_ne htorrent] at hlist
        exact h.bounded torrent list hlist
    · rw [hstore] at hlist
      rw [lastAnnounced_add]
      by_cases htorrent : torrent = infoHash
      · subst htorrent
        rw [AList.lookup_insert] at hlist
        cases hlist
        rcases PeerStore.mem_announced hnodup hmem with ⟨rfl, rfl⟩ | ⟨hne, hold⟩
        · exact ⟨if_pos ⟨rfl, rfl⟩, le_rfl⟩
        · rw [if_neg fun hboth => hne hboth.2.symm]
          cases hlookup : s.store.peers.lookup torrent with
          | none =>
            rw [hlookup] at hold
            cases hold
          | some list =>
            rw [hlookup] at hold
            exact h.seen torrent list hlookup peer seen hold
      · rw [AList.lookup_insert_ne htorrent] at hlist
        rw [if_neg fun hboth => htorrent hboth.1.symm]
        exact h.seen torrent list hlist peer seen hmem

theorem Sound.purge (h : s.Sound) : (s.step .purge).Sound := by
  have hlist {infoHash : NodeId} {list : List (SocketAddr × Nat)}
      (hlookup : (s.step .purge).store.peers.lookup infoHash = some list) :
      ∃ old, s.store.peers.lookup infoHash = some old ∧
        PeerStore.recent s.clock old = list ∧ list ≠ [] := by
    rw [step, PeerStore.lookup_purge, Option.bind_eq_some_iff] at hlookup
    obtain ⟨old, hold, hkept⟩ := hlookup
    split at hkept
    · cases hkept
    case isFalse hne =>
      cases hkept
      exact ⟨old, hold, rfl, fun hnil => hne (List.isEmpty_iff.mpr hnil)⟩
  refine ⟨?_, fun torrent list hlookup => ?_, fun torrent list hlookup peer seen hmem => ?_⟩
  · exact ((List.length_filter_le _ _).trans_eq (List.length_map _)).trans h.torrents
  · obtain ⟨old, hold, rfl, hne⟩ := hlist hlookup
    have hbounded := h.bounded torrent old hold
    exact ⟨hne, (List.length_filter_le _ _).trans hbounded.length_le,
      hbounded.nodup.sublist (List.filter_sublist.map Prod.fst)⟩
  · obtain ⟨old, hold, rfl, -⟩ := hlist hlookup
    exact h.seen torrent old hold peer seen (List.mem_of_mem_filter hmem)

theorem Sound.step (h : s.Sound) (call : StoreCall) : (s.step call).Sound := by
  cases call with
  | tick millis =>
    refine ⟨h.torrents, h.bounded, fun torrent list hlist peer seen hmem => ?_⟩
    obtain ⟨hlast, hle⟩ := h.seen torrent list hlist peer seen hmem
    exact ⟨hlast, hle.trans (Nat.le_add_right _ _)⟩
  | add infoHash addr => exact h.add infoHash addr
  | get infoHash => exact h
  | purge => exact h.purge

theorem Sound.exec (clock : Nat) (calls : List StoreCall) :
    (exec WatchedStore.step (.start clock) calls).Sound :=
  exec_invariant (P := Sound) (fun _ call h => h.step call) calls (.start clock)

theorem mem_log_of_lastAnnounced {infoHash : NodeId} {addr : SocketAddr} {time : Nat}
    (h : s.lastAnnounced infoHash addr = some time) : (infoHash, addr, time) ∈ s.log := by
  obtain ⟨⟨torrent, peer, t⟩, hfind, rfl⟩ := Option.map_eq_some_iff.mp h
  have hsame := List.find?_some hfind
  rw [Bool.and_eq_true, beq_iff_eq, beq_iff_eq] at hsame
  obtain ⟨rfl, rfl⟩ := hsame
  exact List.mem_of_find?_eq_some hfind

theorem Sound.get (h : s.Sound) (infoHash : NodeId) :
    (s.store.get infoHash s.clock).length ≤ MAX_VALUES_PER_REPLY ∧
      (s.store.get infoHash s.clock).Nodup ∧
      ∀ addr ∈ s.store.get infoHash s.clock, ∃ time, (infoHash, addr, time) ∈ s.log ∧
        time ≤ s.clock ∧ s.clock - time < PEER_TTL := by
  rw [PeerStore.get]
  cases hlookup : s.store.peers.lookup infoHash with
  | none => exact ⟨Nat.zero_le _, List.nodup_nil, List.forall_mem_nil _⟩
  | some list =>
    refine ⟨List.length_take_le _ _, ?_, fun addr haddr => ?_⟩
    · exact (h.bounded _ _ hlookup).nodup.sublist
        ((List.take_sublist _ _).trans (List.filter_sublist.map Prod.fst))
    · obtain ⟨⟨peer, seen⟩, hmem, rfl⟩ := List.mem_map.mp (List.mem_of_mem_take haddr)
      obtain ⟨hentry, hrecent⟩ := List.mem_filter.mp hmem
      obtain ⟨hlast, hle⟩ := h.seen _ _ hlookup _ _ hentry
      exact ⟨seen, mem_log_of_lastAnnounced hlast, hle, of_decide_eq_true hrecent⟩

/-- An address goes before its time only where another one is announced for the same torrent and
the list is full. -/
theorem Sound.evicted (h : s.Sound) {call : StoreCall} {infoHash : NodeId} {addr : SocketAddr}
    {time : Nat} (hholds : s.store.Holds infoHash addr)
    (hlast : s.lastAnnounced infoHash addr = some time) (hrecent : s.clock - time < PEER_TTL)
    (hgone : ¬ (s.step call).store.Holds infoHash addr) :
    ∃ other list, call = .add infoHash other ∧ s.store.peers.lookup infoHash = some list ∧
      other ∉ list.map Prod.fst ∧ MAX_PEERS_PER_TORRENT ≤ list.length := by
  obtain ⟨list, hlookup, hlisted⟩ := hholds
  cases call with
  | tick millis => exact absurd ⟨list, hlookup, hlisted⟩ hgone
  | get torrent => exact absurd ⟨list, hlookup, hlisted⟩ hgone
  | purge =>
    -- its entry bears the time of that announcement, so it is kept
    obtain ⟨⟨peer, seen⟩, hentry, rfl⟩ := List.mem_map.mp hlisted
    obtain rfl : seen = time :=
      Option.some.inj ((h.seen _ _ hlookup _ _ hentry).1.symm.trans hlast)
    have hkept : (peer, seen) ∈ PeerStore.recent s.clock list := by
      rw [PeerStore.recent, List.mem_filter]
      exact ⟨hentry, decide_eq_true hrecent⟩
    refine absurd ⟨PeerStore.recent s.clock list, ?_, List.mem_map_of_mem hkept⟩ hgone
    rw [WatchedStore.step, PeerStore.lookup_purge, hlookup, Option.bind_some, if_neg]
    exact fun hempty => List.ne_nil_of_mem hkept (List.isEmpty_iff.mp hempty)
  | add torrent other =>
    have hstored : infoHash ∈ s.store.peers := AList.lookup_isSome.mp (hlookup ▸ rfl)
    by_cases htorrent : torrent = infoHash
    · subst htorrent
      have hlists : ¬ PeerStore.Lists (PeerStore.announced other s.clock list) addr := by
        intro hstill
        refine hgone ⟨_, ?_, hstill⟩
        rw [WatchedStore.step, PeerStore.add_eq, if_neg fun hrefused => hrefused.1 hstored,
          hlookup, AList.lookup_insert, Option.getD_some]
      obtain ⟨hnew, hfull⟩ := PeerStore.lists_announced hlists hlisted
      exact ⟨other, list, rfl, hlookup, hnew, hfull⟩
    · refine absurd ⟨list, ?_, hlisted⟩ hgone
      rw [WatchedStore.step, PeerStore.lookup_add_ne _ (Ne.symm htorrent)]
      exact hlookup

/-- Over any calls the store stays within its bounds, answers with what was announced a short time
ago and drops nothing before its time but from a full list. -/
theorem bounded_and_fresh (clock : Nat) (calls : List StoreCall) :
    let s := Lib.exec step (start clock) calls
    s.store.peers.entries.length ≤ MAX_STORED_TORRENTS ∧
    (∀ infoHash list, s.store.peers.lookup infoHash = some list →
      list ≠ [] ∧ list.length ≤ MAX_PEERS_PER_TORRENT ∧ (list.map Prod.fst).Nodup) ∧
    (∀ infoHash, (s.store.get infoHash s.clock).length ≤ MAX_VALUES_PER_REPLY ∧
      (s.store.get infoHash s.clock).Nodup ∧
      ∀ addr ∈ s.store.get infoHash s.clock, ∃ time, (infoHash, addr, time) ∈ s.log ∧
        time ≤ s.clock ∧ s.clock - time < PEER_TTL) ∧
    (∀ call infoHash addr time, s.store.Holds infoHash addr →
      s.lastAnnounced infoHash addr = some time → s.clock - time < PEER_TTL →
      ¬ (s.step call).store.Holds infoHash addr →
      ∃ other list, call = .add infoHash other ∧ s.store.peers.lookup infoHash = some list ∧
        other ∉ list.map Prod.fst ∧ MAX_PEERS_PER_TORRENT ≤ list.length) ∧
    (∀ infoHash addr other, other ≠ infoHash →
      (s.step (.add infoHash addr)).store.peers.lookup other = s.store.peers.lookup other) := by
  intro s
  have hsound : s.Sound := Sound.exec clock calls
  refine ⟨hsound.torrents, fun infoHash list hlist => ?_, hsound.get, ?_, ?_⟩
  · have hbounded := hsound.bounded infoHash list hlist
    exact ⟨hbounded.ne_nil, hbounded.length_le, hbounded.nodup⟩
  · exact fun call infoHash addr time => hsound.evicted
  · exact fun infoHash addr other hne => PeerStore.lookup_add_ne _ hne addr s.clock

end WatchedStore

end Tortor.Net
