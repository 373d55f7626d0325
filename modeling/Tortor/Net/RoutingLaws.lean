import Mathlib.Data.List.Nodup
import Mathlib.Data.List.Perm.Basic
import Tortor.Lib.Run
import Tortor.Net.Routing

namespace Tortor.Net

open Tortor.Lib

namespace KBucket

def ids (self : KBucket) : List NodeId := self.nodes.map (·.id)

theorem length_ids (b : KBucket) : b.ids.length = b.nodes.length := List.length_map ..

theorem insert_cases (b : KBucket) (c : Contact) :
    (c.id ∈ b.ids ∧ ∃ b', b.insert c = (true, b') ∧ b'.prefixLen = b.prefixLen ∧
      b'.ids.Perm b.ids) ∨
    (c.id ∉ b.ids ∧ b.nodes.length < 8 ∧
      b.insert c = (true, { b with nodes := b.nodes ++ [c] })) ∨
    (c.id ∉ b.ids ∧ 8 ≤ b.nodes.length ∧ b.insert c = (false, b)) := by
  cases hfind : b.nodes.findIdx? (fun d => d.id == c.id) with
  | some pos =>
    obtain ⟨hlt, hid, -⟩ := List.findIdx?_eq_some_iff_getElem.mp hfind
    refine .inl ⟨List.mem_map.mpr ⟨b.nodes[pos], List.getElem_mem hlt, by simpa using hid⟩, ?_⟩
    refine ⟨⟨b.nodes.eraseIdx pos ++ [{ b.nodes[pos] with addr := c.addr }], b.prefixLen⟩,
      by simp only [insert, hfind, List.getElem?_eq_getElem hlt], rfl, ?_⟩
    rw [ids, ids, List.map_append, List.map_cons, List.map_nil]
    refine List.perm_append_comm.trans ?_
    exact (List.getElem_cons_eraseIdx_perm hlt).map (·.id)
  | none =>
    have hnot : c.id ∉ b.ids := by
      intro hmem
      obtain ⟨d, hd, he⟩ := List.mem_map.mp hmem
      simpa [he] using List.findIdx?_eq_none_iff.mp hfind d hd
    rcases Nat.lt_or_ge b.nodes.length 8 with hlt | hge
    · exact .inr (.inl ⟨hnot, hlt, by simp [insert, hfind, isFull, hlt]⟩)
    · exact .inr (.inr ⟨hnot, hge, by simp [insert, hfind, isFull, hge]⟩)

end KBucket

namespace RoutingTable

def depth (self : RoutingTable) (id : NodeId) : Nat := self.localId.common id

def Holds (self : RoutingTable) (i : Nat) (id : NodeId) : Prop :=
  ∃ b, self.buckets[i]? = some b ∧ id ∈ b.ids

def stored (self : RoutingTable) : List NodeId := self.buckets.flatMap KBucket.ids

theorem mem_stored {t : RoutingTable} {id : NodeId} : id ∈ t.stored ↔ ∃ i, t.Holds i id := by
  rw [stored, List.mem_flatMap]
  constructor
  · rintro ⟨b, hb, hid⟩
    obtain ⟨i, hi⟩ := List.mem_iff_getElem?.mp hb
    exact ⟨i, b, hi, hid⟩
  · rintro ⟨i, b, hi, hid⟩
    exact ⟨b, List.mem_of_getElem? hi, hid⟩

theorem Holds.lt {t : RoutingTable} {i : Nat} {id : NodeId} (h : t.Holds i id) :
    i < t.buckets.length := by
  obtain ⟨b, hb, -⟩ := h
  exact (List.getElem?_eq_some_iff.mp hb).1

/-- The representation invariant the table is meant to have. -/
structure Rep (t : RoutingTable) : Prop where
  local_free : t.localId ∉ t.stored
  unique : t.stored.Nodup
  small : ∀ b ∈ t.buckets, b.nodes.length ≤ 8
  placed : ∀ i id, t.Holds i id →
    if i < t.buckets.length - 1 then t.depth id = i else t.buckets.length - 1 ≤ t.depth id
  found : ∀ i id, t.Holds i id → t.bucketIndex id = i

/-! Every split lengthens the prefix of the last bucket and copies it to the new one. -/

structure Shape (t : RoutingTable) : Prop where
  pos : 0 < t.buckets.length
  bound : t.buckets.length ≤ 161
  prefixLen : ∀ i b, t.buckets[i]? = some b →
    b.prefixLen = min (i + 1) (t.buckets.length - 1)

theorem shape_new (localId : NodeId) : (new localId).Shape where
  pos := by simp [new]
  bound := by simp [new]
  prefixLen i b h := by
    cases i with
    | zero => simp only [new, List.getElem?_cons_zero, Option.some.injEq] at h; simp [new, ← h, KBucket.new]
    | succ i => simp [new] at h

theorem bucketIndexLoop_spec (zeros : Nat) (bs : List KBucket) (i targetIdx : Nat) :
    (∃ j b, bs[j]? = some b ∧ b.prefixLen ≤ zeros ∧
      bucketIndexLoop zeros bs i targetIdx = i + j ∧
      ∀ (k : Nat) (b' : KBucket), j < k → bs[k]? = some b' → zeros < b'.prefixLen) ∨
    (bucketIndexLoop zeros bs i targetIdx = targetIdx ∧
      ∀ (k : Nat) (b' : KBucket), bs[k]? = some b' → zeros < b'.prefixLen) := by
  induction bs generalizing i targetIdx with
  | nil => exact .inr ⟨rfl, by simp⟩
  | cons b bs ih =>
    rw [bucketIndexLoop]
    rcases ih (i + 1) (if b.prefixLen ≤ zeros then i else targetIdx) with
      ⟨j, b', hj, hle, heq, hlast⟩ | ⟨heq, hnone⟩
    · refine .inl ⟨j + 1, b', hj, hle, by omega, fun k b'' hk hb'' => ?_⟩
      cases k with
      | zero => omega
      | succ k => exact hlast k b'' (by omega) (by simpa using hb'')
    · by_cases hle : b.prefixLen ≤ zeros
      · refine .inl ⟨0, b, rfl, hle, by rw [heq, if_pos hle]; rfl, fun k b' hk hb' => ?_⟩
        cases k with
        | zero => omega
        | succ k => exact hnone k b' (by simpa using hb')
      · refine .inr ⟨by rw [heq, if_neg hle], fun k b' hb' => ?_⟩
        cases k with
        | zero => simp at hb'; rw [← hb']; omega
        | succ k => exact hnone k b' (by simpa using hb')

/-- Where the scan over the prefixes ends up: right for the last bucket and for depth 0, one
bucket short in between. -/
theorem Shape.bucketIndex {t : RoutingTable} (h : t.Shape) (id : NodeId) :
    t.bucketIndex id =
      if t.buckets.length - 1 ≤ t.depth id then t.buckets.length - 1 else t.depth id - 1 := by
  have hpos := h.pos
  have hget (i : Nat) (hi : i < t.buckets.length) : ∃ b, t.buckets[i]? = some b ∧
      b.prefixLen = min (i + 1) (t.buckets.length - 1) :=
    ⟨t.buckets[i], by simp [hi], h.prefixLen i _ (by simp [hi])⟩
  change bucketIndexLoop (t.depth id) t.buckets 0 0 = _
  rcases bucketIndexLoop_spec (t.depth id) t.buckets 0 0 with ⟨j, b, hj, hle, heq, hlast⟩ |
    ⟨heq, hnone⟩
  · have hlt := (List.getElem?_eq_some_iff.mp hj).1
    have hprefix := h.prefixLen j b hj
    rw [heq]
    rcases Nat.lt_or_ge (j + 1) t.buckets.length with hnext | hend
    · obtain ⟨b', hb', hp'⟩ := hget (j + 1) hnext
      have := hlast (j + 1) b' (by omega) hb'
      split <;> omega
    · split <;> omega
  · obtain ⟨b', hb', hp'⟩ := hget (t.buckets.length - 1) (by omega)
    obtain ⟨b, hb, hp⟩ := hget 0 hpos
    have := hnone _ b' hb'
    have := hnone _ b hb
    rw [heq]
    split <;> omega

theorem Shape.bucketIndex_lt {t : RoutingTable} (h : t.Shape) (id : NodeId) :
    t.bucketIndex id < t.buckets.length := by
  have := h.pos
  rw [h.bucketIndex]
  split <;> omega

def lastIdx (self : RoutingTable) : Nat := self.buckets.length - 1

theorem Shape.length_eq {t : RoutingTable} (h : t.Shape) : t.buckets.length = t.lastIdx + 1 := by
  have := h.pos
  unfold lastIdx
  omega

theorem Shape.prefixLen_last {t : RoutingTable} (h : t.Shape) {b : KBucket}
    (hb : t.buckets[t.lastIdx]? = some b) : b.prefixLen = t.lastIdx := by
  rw [h.prefixLen _ b hb, lastIdx]
  omega

/-- The invariant but for the scan. -/
structure Loose (t : RoutingTable) : Prop extends t.Shape where
  local_free : ∀ i id, t.Holds i id → id ≠ t.localId
  nodup : ∀ b ∈ t.buckets, b.ids.Nodup
  small : ∀ b ∈ t.buckets, b.nodes.length ≤ 8
  placed : ∀ i id, t.Holds i id →
    if i < t.buckets.length - 1 then t.depth id = i else t.buckets.length - 1 ≤ t.depth id

/-- The same with the depths that an inner bucket may hold left open. -/
structure Graded (near : Nat → Nat → Prop) (t : RoutingTable) : Prop extends t.Shape where
  local_free : ∀ i id, t.Holds i id → id ≠ t.localId
  nodup : ∀ b ∈ t.buckets, b.ids.Nodup
  small : ∀ b ∈ t.buckets, b.nodes.length ≤ 8
  placed : ∀ i id, t.Holds i id →
    if i < t.lastIdx then near i (t.depth id) else t.lastIdx ≤ t.depth id

theorem Loose.graded {t : RoutingTable} (h : t.Loose) : Graded (fun i d => d = i) t :=
  { h with placed := h.placed }

theorem Graded.loose {t : RoutingTable} (h : Graded (fun i d => d = i) t) : t.Loose :=
  { h with placed := h.placed }

def Clear (t : RoutingTable) : Prop := ∀ i id, t.Holds i id → i = 0 ∨ i = t.buckets.length - 1

theorem Rep.clear {t : RoutingTable} (hs : t.Shape) (h : t.Rep) : t.Clear := by
  intro i id hid
  have hlt := hid.lt
  have hplaced := h.placed i id hid
  have hfound := h.found i id hid
  rw [hs.bucketIndex] at hfound
  split at hplaced <;> split at hfound <;> omega

theorem Rep.loose {t : RoutingTable} (hs : t.Shape) (h : t.Rep) : t.Loose :=
  { hs with
    local_free := fun i _ hid he => h.local_free (mem_stored.mpr ⟨i, he ▸ hid⟩)
    nodup := fun b hb => (List.nodup_flatMap.mp h.unique).1 b hb
    small := h.small
    placed := h.placed }

theorem Loose.found {t : RoutingTable} (h : t.Loose) (hc : t.Clear) {i : Nat} {id : NodeId}
    (hid : t.Holds i id) : t.bucketIndex id = i := by
  have hlt := hid.lt
  have hplaced := h.placed i id hid
  have hclear := hc i id hid
  rw [h.bucketIndex]
  split at hplaced <;> split <;> omega

theorem Loose.rep {t : RoutingTable} (h : t.Loose) (hc : t.Clear) : t.Rep where
  local_free hmem := by
    obtain ⟨i, hid⟩ := mem_stored.mp hmem
    exact h.local_free i _ hid rfl
  unique := by
    refine List.nodup_flatMap.mpr ⟨h.nodup, List.pairwise_iff_getElem.mpr ?_⟩
    -- An id that two buckets stored would be found in both.
    intro i j hi hj hij id hid hjd
    have hfi : t.bucketIndex id = i := h.found hc ⟨_, List.getElem?_eq_getElem hi, hid⟩
    have hfj : t.bucketIndex id = j := h.found hc ⟨_, List.getElem?_eq_getElem hj, hjd⟩
    omega
  small := h.small
  placed := h.placed
  found _ _ hid := h.found hc hid

theorem rep_new (localId : NodeId) : (new localId).Rep := by
  have hempty (i : Nat) (id : NodeId) : ¬ (new localId).Holds i id := by
    rintro ⟨b, hb, hid⟩
    have hmem := List.mem_of_getElem? hb
    simp only [new, List.mem_singleton] at hmem
    simp [hmem, KBucket.new, KBucket.ids] at hid
  exact Loose.rep
    { shape_new localId with
      local_free := fun i id hid => absurd hid (hempty i id)
      nodup := by simp [new, KBucket.new, KBucket.ids]
      small := by simp [new, KBucket.new]
      placed := fun i id hid => absurd hid (hempty i id) }
    (fun i id hid => absurd hid (hempty i id))

def setBucket (self : RoutingTable) (idx : Nat) (b : KBucket) : RoutingTable :=
  { self with buckets := self.buckets.set idx b }

@[simp] theorem length_setBucket (t : RoutingTable) (idx : Nat) (b : KBucket) :
    (t.setBucket idx b).buckets.length = t.buckets.length := List.length_set

@[simp] theorem depth_setBucket (t : RoutingTable) (idx : Nat) (b : KBucket) (id : NodeId) :
    (t.setBucket idx b).depth id = t.depth id := rfl

theorem holds_setBucket {t : RoutingTable} {idx : Nat} (h : idx < t.buckets.length)
    (b : KBucket) (i : Nat) (id : NodeId) :
    (t.setBucket idx b).Holds i id ↔ i = idx ∧ id ∈ b.ids ∨ i ≠ idx ∧ t.Holds i id := by
  unfold Holds setBucket
  by_cases he : i = idx
  · subst he; simp [List.getElem?_set_self h]
  · simp [List.getElem?_set_ne (Ne.symm he), he]

theorem Shape.setBucket {t : RoutingTable} (h : t.Shape) {idx : Nat} {b b' : KBucket}
    (hb : t.buckets[idx]? = some b) (hp : b'.prefixLen = b.prefixLen) :
    (t.setBucket idx b').Shape where
  pos := by simpa using h.pos
  bound := by simpa using h.bound
  prefixLen i c hc := by
    rw [length_setBucket]
    by_cases he : i = idx
    · subst he
      rw [RoutingTable.setBucket, List.getElem?_set_self (List.getElem?_eq_some_iff.mp hb).1] at hc
      rw [← Option.some.inj hc, hp, h.prefixLen i b hb]
    · rw [RoutingTable.setBucket, List.getElem?_set_ne (Ne.symm he)] at hc
      exact h.prefixLen i c hc

theorem Graded.setBucket {near : Nat → Nat → Prop} {t : RoutingTable} (h : Graded near t)
    {idx : Nat} {b b' : KBucket} (hb : t.buckets[idx]? = some b) (hp : b'.prefixLen = b.prefixLen)
    (hnodup : b'.ids.Nodup) (hsmall : b'.nodes.length ≤ 8)
    (hids : ∀ id ∈ b'.ids, id ≠ t.localId ∧
      if idx < t.lastIdx then near idx (t.depth id) else t.lastIdx ≤ t.depth id) :
    Graded near (t.setBucket idx b') := by
  have hlt := (List.getElem?_eq_some_iff.mp hb).1
  have hmem {c : KBucket} (hc : c ∈ (t.setBucket idx b').buckets) : c = b' ∨ c ∈ t.buckets :=
    (List.mem_or_eq_of_mem_set hc).symm
  refine { h.toShape.setBucket hb hp with
    local_free := fun i id hid => ?_
    nodup := fun c hc => (hmem hc).elim (fun he => he ▸ hnodup) (h.nodup c)
    small := fun c hc => (hmem hc).elim (fun he => he ▸ hsmall) (h.small c)
    placed := fun i id hid => ?_ }
  · rcases (holds_setBucket hlt b' i id).mp hid with ⟨-, hid⟩ | ⟨-, hid⟩
    · exact (hids id hid).1
    · exact h.local_free i id hid
  · rw [lastIdx, length_setBucket, depth_setBucket]
    rcases (holds_setBucket hlt b' i id).mp hid with ⟨he, hid⟩ | ⟨-, hid⟩
    · exact he ▸ (hids id hid).2
    · exact h.placed i id hid

theorem Loose.setBucket {t : RoutingTable} (h : t.Loose) {idx : Nat} {b b' : KBucket}
    (hb : t.buckets[idx]? = some b) (hp : b'.prefixLen = b.prefixLen) (hnodup : b'.ids.Nodup)
    (hsmall : b'.nodes.length ≤ 8)
    (hids : ∀ id ∈ b'.ids, id ≠ t.localId ∧
      if idx < t.buckets.length - 1 then t.depth id = idx else t.buckets.length - 1 ≤ t.depth id) :
    (t.setBucket idx b').Loose :=
  (h.graded.setBucket hb hp hnodup hsmall hids).loose

theorem Rep.setBucket_perm {t : RoutingTable} (hs : t.Shape) (h : t.Rep) {idx : Nat}
    {b b' : KBucket} (hb : t.buckets[idx]? = some b) (hp : b'.prefixLen = b.prefixLen)
    (hperm : b'.ids.Perm b.ids) : (t.setBucket idx b').Rep := by
  have hlt := (List.getElem?_eq_some_iff.mp hb).1
  have hl := h.loose hs
  have hmem := List.mem_of_getElem? hb
  have holds {id : NodeId} (hid : id ∈ b'.ids) : t.Holds idx id := ⟨b, hb, hperm.mem_iff.mp hid⟩
  have hlen : b'.nodes.length = b.nodes.length := by
    rw [← KBucket.length_ids, hperm.length_eq, KBucket.length_ids]
  refine (hl.setBucket hb hp (hperm.nodup_iff.mpr (hl.nodup b hmem)) (hlen ▸ hl.small b hmem)
    fun id hid => ⟨hl.local_free idx id (holds hid), hl.placed idx id (holds hid)⟩).rep ?_
  intro i id hid
  rw [length_setBucket]
  rcases (holds_setBucket hlt b' i id).mp hid with ⟨he, hid⟩ | ⟨-, hid⟩
  · exact he ▸ h.clear hs idx id (holds hid)
  · exact h.clear hs i id hid

section

variable {near : Nat → Nat → Prop} {t : RoutingTable}

theorem Graded.placed_lt (h : Graded near t) {i : Nat} {id : NodeId} (hid : t.Holds i id)
    (hi : i < t.lastIdx) : near i (t.depth id) := by
  have hp := h.placed i id hid
  rwa [if_pos hi] at hp

theorem Graded.placed_last (h : Graded near t) {id : NodeId} (hid : t.Holds t.lastIdx id) :
    t.lastIdx ≤ t.depth id := by
  have hp := h.placed t.lastIdx id hid
  rwa [if_neg (Nat.lt_irrefl _)] at hp

end

theorem Loose.placed_lt {t : RoutingTable} (h : t.Loose) {i : Nat} {id : NodeId}
    (hid : t.Holds i id) (hi : i < t.lastIdx) : t.depth id = i := h.graded.placed_lt hid hi

theorem Loose.placed_last {t : RoutingTable} (h : t.Loose) {id : NodeId}
    (hid : t.Holds t.lastIdx id) : t.lastIdx ≤ t.depth id := h.graded.placed_last hid

def branch (self : RoutingTable) (b : KBucket) (flag : Bool) : KBucket :=
  ⟨b.nodes.filter fun c => (c.id.bitAt b.prefixLen == self.localId.bitAt b.prefixLen) == flag,
    b.prefixLen + 1⟩

theorem splitBucket_eq {t : RoutingTable} {idx : Nat} {b : KBucket}
    (hb : t.buckets[idx]? = some b) : t.splitBucket idx =
      { t with buckets := t.buckets.set idx (t.branch b false) ++ [t.branch b true] } := by
  simp [splitBucket, hb, branch]

theorem bitAt_last {near : Nat → Nat → Prop} {t : RoutingTable}
    (h : Graded near t) (hn : t.buckets.length ≤ 160) {b : KBucket}
    (hb : t.buckets[t.lastIdx]? = some b) {c : Contact} (hc : c ∈ b.nodes) :
    (c.id.bitAt b.prefixLen == t.localId.bitAt b.prefixLen) =
      decide (t.lastIdx < t.depth c.id) := by
  have hlen := h.length_eq
  have hd := h.placed_last ⟨b, hb, List.mem_map_of_mem hc⟩
  rw [h.prefixLen_last hb, Bool.eq_iff_iff, beq_iff_eq, decide_eq_true_eq]
  exact NodeId.bitAt_eq_iff (by omega) hd

theorem mem_branch {near : Nat → Nat → Prop} {t : RoutingTable}
    (h : Graded near t) (hn : t.buckets.length ≤ 160) {b : KBucket}
    (hb : t.buckets[t.lastIdx]? = some b) (flag : Bool) (id : NodeId) :
    id ∈ (t.branch b flag).ids ↔
      t.Holds t.lastIdx id ∧ decide (t.lastIdx < t.depth id) = flag := by
  simp only [KBucket.ids, branch, List.mem_map, List.mem_filter, Holds, hb, Option.some.injEq,
    beq_iff_eq]
  constructor
  · rintro ⟨c, ⟨hc, ht⟩, rfl⟩
    exact ⟨⟨b, rfl, c, hc, rfl⟩, bitAt_last h hn hb hc ▸ ht⟩
  · rintro ⟨⟨_, rfl, c, hc, rfl⟩, ht⟩
    exact ⟨c, ⟨hc, (bitAt_last h hn hb hc).trans ht⟩, rfl⟩

theorem full_branch {near : Nat → Nat → Prop} {t : RoutingTable}
    (h : Graded near t) (hn : t.buckets.length ≤ 160) {b : KBucket}
    (hb : t.buckets[t.lastIdx]? = some b) (hfull : 8 ≤ b.nodes.length) (flag : Bool) :
    8 ≤ (t.branch b flag).nodes.length ↔
      ∀ id, t.Holds t.lastIdx id → decide (t.lastIdx < t.depth id) = flag := by
  have hlen : b.nodes.length = 8 := Nat.le_antisymm (h.small b (List.mem_of_getElem? hb)) hfull
  have hle := List.length_filter_le (fun c => (c.id.bitAt b.prefixLen ==
    t.localId.bitAt b.prefixLen) == flag) b.nodes
  have hall : 8 ≤ (t.branch b flag).nodes.length ↔ ∀ c ∈ b.nodes,
      ((c.id.bitAt b.prefixLen == t.localId.bitAt b.prefixLen) == flag) = true := by
    rw [← List.length_filter_eq_length_iff]
    change 8 ≤ (b.nodes.filter _).length ↔ _
    omega
  rw [hall]
  constructor
  · rintro hc id ⟨b', hb', hid⟩
    obtain rfl : b = b' := Option.some.inj (hb.symm.trans hb')
    obtain ⟨c, hmem, rfl⟩ := List.mem_map.mp hid
    rw [← bitAt_last h hn hb hmem]
    exact beq_iff_eq.mp (hc c hmem)
  · intro hid c hc
    rw [bitAt_last h hn hb hc]
    exact beq_iff_eq.mpr (hid c.id ⟨b, hb, List.mem_map_of_mem hc⟩)

theorem getElem?_set_append_singleton {l : List KBucket} {k : Nat} (hl : l.length = k + 1)
    (a b c : KBucket) (i : Nat) : (l.set k a ++ [b])[i]? = some c ↔
      (i < k ∧ l[i]? = some c) ∨ (i = k ∧ c = a) ∨ (i = k + 1 ∧ c = b) := by
  rcases Nat.lt_trichotomy i k with hi | hi | hi
  · rw [List.getElem?_append_left (by simp; omega), List.getElem?_set_ne (by omega)]
    simp [hi, show i ≠ k by omega, show i ≠ k + 1 by omega]
  · rw [List.getElem?_append_left (by simp; omega), hi, List.getElem?_set_self (by omega)]
    simp [eq_comm]
  · rw [List.getElem?_append_right (by simp; omega), List.length_set, hl]
    rcases Nat.lt_or_ge (k + 1) i with hi' | hi'
    · rw [List.getElem?_eq_none (by simp; omega)]
      simp
      omega
    · rw [show i = k + 1 by omega]
      simp [show ¬ k + 1 < k by omega, eq_comm]

/-- The last bucket falls into the ids that leave the local id at its depth and those that
share one more bit. -/
theorem holds_splitBucket {near : Nat → Nat → Prop} {t : RoutingTable}
    (h : Graded near t) (hn : t.buckets.length ≤ 160)
    (i : Nat) (id : NodeId) : (t.splitBucket t.lastIdx).Holds i id ↔
      (i < t.lastIdx ∧ t.Holds i id) ∨
      (i = t.lastIdx ∧ t.Holds t.lastIdx id ∧ t.depth id = t.lastIdx) ∨
      (i = t.lastIdx + 1 ∧ t.Holds t.lastIdx id ∧ t.lastIdx < t.depth id) := by
  have hlen := h.length_eq
  obtain ⟨b, hb⟩ : ∃ b, t.buckets[t.lastIdx]? = some b :=
    ⟨_, List.getElem?_eq_getElem (by omega)⟩
  have hkept : id ∈ (t.branch b false).ids ↔ t.Holds t.lastIdx id ∧ t.depth id = t.lastIdx := by
    rw [mem_branch h hn hb]
    refine and_congr_right fun hid => ?_
    have := h.placed_last hid
    simp
    omega
  have hfresh : id ∈ (t.branch b true).ids ↔ t.Holds t.lastIdx id ∧ t.lastIdx < t.depth id := by
    rw [mem_branch h hn hb, decide_eq_true_eq]
  rw [← hkept, ← hfresh, splitBucket_eq hb]
  constructor
  · rintro ⟨c, hc, hid⟩
    rcases (getElem?_set_append_singleton hlen _ _ c i).mp hc with ⟨hi, hc⟩ | ⟨hi, rfl⟩ | ⟨hi, rfl⟩
    · exact .inl ⟨hi, c, hc, hid⟩
    · exact .inr (.inl ⟨hi, hid⟩)
    · exact .inr (.inr ⟨hi, hid⟩)
  · rintro (⟨hi, c, hc, hid⟩ | ⟨hi, hid⟩ | ⟨hi, hid⟩)
    · exact ⟨c, (getElem?_set_append_singleton hlen _ _ c i).mpr (.inl ⟨hi, hc⟩), hid⟩
    · exact ⟨_, (getElem?_set_append_singleton hlen _ _ _ i).mpr (.inr (.inl ⟨hi, rfl⟩)), hid⟩
    · exact ⟨_, (getElem?_set_append_singleton hlen _ _ _ i).mpr (.inr (.inr ⟨hi, rfl⟩)), hid⟩

theorem length_splitBucket {t : RoutingTable} {idx : Nat} (h : idx < t.buckets.length) :
    (t.splitBucket idx).buckets.length = t.buckets.length + 1 := by
  rw [splitBucket_eq (List.getElem?_eq_getElem h), List.length_append, List.length_set]
  rfl

@[simp] theorem localId_splitBucket (t : RoutingTable) (idx : Nat) :
    (t.splitBucket idx).localId = t.localId := by
  unfold splitBucket; split <;> rfl

@[simp] theorem depth_splitBucket (t : RoutingTable) (idx : Nat) (id : NodeId) :
    (t.splitBucket idx).depth id = t.depth id := by
  rw [depth, depth, localId_splitBucket]

theorem Shape.split {t : RoutingTable} (h : t.Shape) (hn : t.buckets.length ≤ 160) :
    (t.splitBucket t.lastIdx).Shape := by
  have hlen := h.length_eq
  obtain ⟨b, hb⟩ : ∃ b, t.buckets[t.lastIdx]? = some b :=
    ⟨_, List.getElem?_eq_getElem (by omega)⟩
  have hprefix := h.prefixLen_last hb
  have hlen' : (t.splitBucket t.lastIdx).buckets.length = t.buckets.length + 1 :=
    length_splitBucket (by omega)
  refine { pos := by omega, bound := by omega, prefixLen := fun i c hc => ?_ }
  rw [hlen']
  rw [splitBucket_eq hb] at hc
  rcases (getElem?_set_append_singleton hlen _ _ c i).mp hc with ⟨hi, hc⟩ | ⟨hi, rfl⟩ | ⟨hi, rfl⟩
  · rw [h.prefixLen i c hc]; omega
  · change b.prefixLen + 1 = _; omega
  · change b.prefixLen + 1 = _; omega

theorem Shape.lastIdx_split {t : RoutingTable} (h : t.Shape) :
    (t.splitBucket t.lastIdx).lastIdx = t.lastIdx + 1 := by
  have hlen := h.length_eq
  rw [lastIdx, length_splitBucket (by omega)]
  exact hlen

theorem Graded.split {near : Nat → Nat → Prop} {t : RoutingTable} (h : Graded near t)
    (hnear : ∀ i, near i i) (hn : t.buckets.length ≤ 160) :
    Graded near (t.splitBucket t.lastIdx) := by
  have hlen := h.length_eq
  obtain ⟨b, hb⟩ : ∃ b, t.buckets[t.lastIdx]? = some b :=
    ⟨_, List.getElem?_eq_getElem (by omega)⟩
  have hmem := List.mem_of_getElem? hb
  have hcases {c : KBucket} (hc : c ∈ (t.splitBucket t.lastIdx).buckets) :
      c ∈ t.buckets ∨ ∃ flag, c = t.branch b flag := by
    rw [splitBucket_eq hb] at hc
    rcases List.mem_append.mp hc with hc | hc
    · exact (List.mem_or_eq_of_mem_set hc).imp_right fun he => ⟨false, he⟩
    · exact .inr ⟨true, List.mem_singleton.mp hc⟩
  refine { h.toShape.split hn with
    local_free := fun i id hid => ?_
    nodup := fun c hc => ?_
    small := fun c hc => ?_
    placed := fun i id hid => ?_ }
  · rw [localId_splitBucket]
    rcases (holds_splitBucket h hn i id).mp hid with ⟨-, hid⟩ | ⟨-, hid, -⟩ | ⟨-, hid, -⟩ <;>
      exact h.local_free _ id hid
  · rcases hcases hc with hc | ⟨flag, rfl⟩
    · exact h.nodup c hc
    · exact (h.nodup b hmem).sublist (List.filter_sublist.map _)
  · rcases hcases hc with hc | ⟨flag, rfl⟩
    · exact h.small c hc
    · exact Nat.le_trans (List.length_filter_le ..) (h.small b hmem)
  · rw [h.toShape.lastIdx_split, depth_splitBucket]
    rcases (holds_splitBucket h hn i id).mp hid with ⟨hi, hid⟩ | ⟨hi, -, hd⟩ | ⟨hi, -, hd⟩
    · rw [if_pos (by omega)]
      exact h.placed_lt hid hi
    · rw [if_pos (by omega), hd, hi]
      exact hnear t.lastIdx
    · rw [if_neg (by omega)]; omega

theorem Loose.split {t : RoutingTable} (h : t.Loose) (hn : t.buckets.length ≤ 160) :
    (t.splitBucket t.lastIdx).Loose :=
  (h.graded.split (fun _ => rfl) hn).loose

theorem getElem?_splitBucket_lt {t : RoutingTable} {idx i : Nat} (h : idx < t.buckets.length)
    (hi : i < idx) : (t.splitBucket idx).buckets[i]? = t.buckets[i]? := by
  rw [splitBucket_eq (List.getElem?_eq_getElem h)]
  rw [List.getElem?_append_left (by simp; omega), List.getElem?_set_ne (by omega)]

theorem mem_stored_splitBucket {near : Nat → Nat → Prop} {t : RoutingTable}
    (h : Graded near t) (hn : t.buckets.length ≤ 160) (id : NodeId) :
    id ∈ (t.splitBucket t.lastIdx).stored ↔ id ∈ t.stored := by
  simp only [mem_stored, holds_splitBucket h hn]
  constructor
  · rintro ⟨i, ⟨-, hid⟩ | ⟨-, hid, -⟩ | ⟨-, hid, -⟩⟩ <;> exact ⟨_, hid⟩
  · rintro ⟨i, hid⟩
    have hlen := h.length_eq
    have hlt := hid.lt
    rcases Nat.lt_or_ge i t.lastIdx with hi | hi
    · exact ⟨i, .inl ⟨hi, hid⟩⟩
    · obtain rfl : i = t.lastIdx := by omega
      rcases Nat.eq_or_lt_of_le (h.placed_last hid) with hd | hd
      · exact ⟨_, .inr (.inl ⟨rfl, hid, hd.symm⟩)⟩
      · exact ⟨_, .inr (.inr ⟨rfl, hid, hd⟩)⟩

theorem insertLoop_succ {t : RoutingTable} {idx : Nat} {b : KBucket}
    (hb : t.buckets[idx]? = some b) (fuel : Nat) (c : Contact) :
    (c.id ∈ b.ids ∧ ∃ b', insertLoop (fuel + 1) t c idx = t.setBucket idx b' ∧
      b'.prefixLen = b.prefixLen ∧ b'.ids.Perm b.ids) ∨
    (c.id ∉ b.ids ∧ b.nodes.length < 8 ∧ insertLoop (fuel + 1) t c idx =
      t.setBucket idx { b with nodes := b.nodes ++ [c] }) ∨
    (c.id ∉ b.ids ∧ 8 ≤ b.nodes.length ∧ idx = t.lastIdx ∧ b.prefixLen < 160 ∧
      insertLoop (fuel + 1) t c idx =
        insertLoop fuel (t.splitBucket idx) c ((t.splitBucket idx).bucketIndex c.id)) ∨
    (c.id ∉ b.ids ∧ 8 ≤ b.nodes.length ∧ ¬ (idx = t.lastIdx ∧ b.prefixLen < 160) ∧
      insertLoop (fuel + 1) t c idx = t) := by
  rcases KBucket.insert_cases b c with ⟨hmem, b', he, hp, hperm⟩ | ⟨hnot, hlt, he⟩ |
    ⟨hnot, hge, he⟩
  · exact .inl ⟨hmem, b', by simp only [insertLoop, hb, he, setBucket], hp, hperm⟩
  · exact .inr (.inl ⟨hnot, hlt, by simp only [insertLoop, hb, he, setBucket]⟩)
  · by_cases hcov : idx = t.lastIdx ∧ b.prefixLen < 160
    · refine .inr (.inr (.inl ⟨hnot, hge, hcov.1, hcov.2, ?_⟩))
      have hsplit : (t.bucketCoversLocal idx && decide (b.prefixLen < 160)) = true := by
        rw [Bool.and_eq_true, bucketCoversLocal, beq_iff_eq, decide_eq_true_eq]; exact hcov
      simp only [insertLoop, hb, he, hsplit, if_true]
    · refine .inr (.inr (.inr ⟨hnot, hge, hcov, ?_⟩))
      have hstay : (t.bucketCoversLocal idx && decide (b.prefixLen < 160)) = false := by
        rw [← Bool.not_eq_true, Bool.and_eq_true, bucketCoversLocal, beq_iff_eq,
          decide_eq_true_eq]
        exact hcov
      simp only [insertLoop, hb, he, hstay, if_false, Bool.false_eq_true]

theorem Shape.insertLoop {t : RoutingTable} (h : t.Shape) (fuel : Nat) (c : Contact) {idx : Nat}
    (hidx : idx < t.buckets.length) : (insertLoop fuel t c idx).Shape := by
  induction fuel generalizing t idx with
  | zero => exact h
  | succ fuel ih =>
    have hb := List.getElem?_eq_getElem hidx
    rcases insertLoop_succ hb fuel c with ⟨-, b', he, hp, -⟩ | ⟨-, -, he⟩ |
      ⟨-, -, hlast, hp, he⟩ | ⟨-, -, -, he⟩
    · rw [he]; exact h.setBucket hb hp
    · rw [he]; exact h.setBucket hb rfl
    · subst hlast
      have hprefix := h.prefixLen_last hb
      have hlen := h.length_eq
      have hs := h.split (by omega)
      rw [he]
      exact ih hs (hs.bucketIndex_lt c.id)
    · rw [he]; exact h

def Buried (t : RoutingTable) : Prop := ∃ i id, 0 < i ∧ i < t.lastIdx ∧ t.Holds i id

theorem Buried.not_rep {t : RoutingTable} (hs : t.Shape) (h : t.Buried) : ¬ t.Rep := by
  obtain ⟨i, id, hpos, hlt, hid⟩ := h
  intro hrep
  have := hrep.clear hs i id hid
  unfold lastIdx at hlt
  omega

theorem Buried.setBucket {t : RoutingTable} (h : t.Buried) {idx : Nat} {b b' : KBucket}
    (hb : t.buckets[idx]? = some b) (hsub : ∀ id ∈ b.ids, id ∈ b'.ids) :
    (t.setBucket idx b').Buried := by
  obtain ⟨i, id, hpos, hlt, hid⟩ := h
  refine ⟨i, id, hpos, by unfold lastIdx at hlt ⊢; simpa using hlt, ?_⟩
  rw [holds_setBucket (List.getElem?_eq_some_iff.mp hb).1]
  by_cases he : i = idx
  · subst he
    obtain ⟨b'', hb'', hmem⟩ := hid
    obtain rfl : b = b'' := Option.some.inj (hb.symm.trans hb'')
    exact .inl ⟨rfl, hsub id hmem⟩
  · exact .inr ⟨he, hid⟩

/-- Nothing that follows brings a buried id back. -/
theorem Buried.insertLoop {t : RoutingTable} (hs : t.Shape) (h : t.Buried) (fuel : Nat)
    (c : Contact) {idx : Nat} (hidx : idx < t.buckets.length) :
    (insertLoop fuel t c idx).Buried := by
  induction fuel generalizing t idx with
  | zero => exact h
  | succ fuel ih =>
    have hb := List.getElem?_eq_getElem hidx
    rcases insertLoop_succ hb fuel c with ⟨-, b', he, -, hperm⟩ | ⟨-, -, he⟩ |
      ⟨-, -, hlast, hp, he⟩ | ⟨-, -, -, he⟩
    · rw [he]; exact h.setBucket hb fun id hid => hperm.mem_iff.mpr hid
    · rw [he]
      exact h.setBucket hb fun id hid => by
        rw [KBucket.ids, List.map_append]; exact List.mem_append_left _ hid
    · subst hlast
      have hprefix := hs.prefixLen_last hb
      have hlen := hs.length_eq
      have hs' := hs.split (by omega)
      rw [he]
      refine ih hs' ?_ (hs'.bucketIndex_lt c.id)
      obtain ⟨i, id, hpos, hlt, b, hget, hid⟩ := h
      refine ⟨i, id, hpos, ?_, b, by rwa [getElem?_splitBucket_lt hidx hlt], hid⟩
      rw [hs.lastIdx_split]
      omega
    · rw [he]; exact h

def isFullAt (self : RoutingTable) (i : Nat) : Bool := (self.buckets[i]?).any KBucket.isFull

theorem isFullAt_iff {t : RoutingTable} {i : Nat} {b : KBucket} (hb : t.buckets[i]? = some b) :
    t.isFullAt i ↔ 8 ≤ b.nodes.length := by
  simp [isFullAt, hb, KBucket.isFull]

/-- An id that is new to the table finds a place where the scan will look for it, or the full
bucket it is sent to refuses it, and no other id is moved out of the scan's sight. -/
def Fits (t : RoutingTable) (id : NodeId) : Prop :=
  t.depth id = 0 ∨
  (t.lastIdx ≤ t.depth id ∧ ¬ t.isFullAt t.lastIdx) ∨
  (t.lastIdx = 0 ∧ ∃ x ∈ t.stored, t.depth x = 0) ∨
  (0 < t.lastIdx ∧ t.depth id = 1 ∧ t.isFullAt 0 ∧ ∀ x ∈ t.stored, t.depth x ≠ 1)

instance (t : RoutingTable) (id : NodeId) : Decidable (t.Fits id) :=
  inferInstanceAs (Decidable (_ ∨ _ ∨ _ ∨ _))

def InsertOk (t : RoutingTable) (c : Contact) : Prop :=
  c.id = t.localId ∨ c.id ∈ t.stored ∨ t.Fits c.id

theorem rep_push {t : RoutingTable} (hs : t.Shape) (h : t.Rep) {c : Contact} {b : KBucket}
    (hlocal : c.id ≠ t.localId) (hb : t.buckets[t.bucketIndex c.id]? = some b)
    (hnew : c.id ∉ b.ids) (hroom : b.nodes.length < 8) :
    (t.setBucket (t.bucketIndex c.id) { b with nodes := b.nodes ++ [c] }).Rep ↔ t.Fits c.id := by
  have hlen := hs.length_eq
  have hl := h.loose hs
  have hlt := (List.getElem?_eq_some_iff.mp hb).1
  have hmem := List.mem_of_getElem? hb
  have hidx : t.bucketIndex c.id = if t.lastIdx ≤ t.depth c.id then t.lastIdx
    else t.depth c.id - 1 := hs.bucketIndex c.id
  generalize t.bucketIndex c.id = idx at hb hlt hidx ⊢
  have hids (id : NodeId) :
      id ∈ KBucket.ids { b with nodes := b.nodes ++ [c] } ↔ id ∈ b.ids ∨ id = c.id := by
    simp [KBucket.ids]
  have hfull : ¬ t.isFullAt idx := by rw [isFullAt_iff hb]; omega
  have hput (hidx : idx = 0 ∨ idx = t.lastIdx)
      (hplace : if idx < t.lastIdx then t.depth c.id = idx else t.lastIdx ≤ t.depth c.id) :
      (t.setBucket idx { b with nodes := b.nodes ++ [c] }).Rep := by
    have hprefix : (KBucket.mk (b.nodes ++ [c]) b.prefixLen).prefixLen = b.prefixLen := rfl
    refine (hl.setBucket hb hprefix ?_ ?_ fun id hid => ?_).rep fun i id hid => ?_
    · rw [KBucket.ids, List.map_append]
      exact List.nodup_append.mpr ⟨hl.nodup b hmem, List.nodup_singleton _,
        fun x hx y hy he => hnew ((show x = c.id from he.trans (List.mem_singleton.mp hy)) ▸ hx)⟩
    · rw [List.length_append]; exact hroom
    · rcases (hids id).mp hid with hid | rfl
      · exact ⟨hl.local_free idx id ⟨b, hb, hid⟩, hl.placed idx id ⟨b, hb, hid⟩⟩
      · exact ⟨hlocal, hplace⟩
    · rw [length_setBucket]
      rcases (holds_setBucket hlt _ i id).mp hid with ⟨he, -⟩ | ⟨-, hid⟩
      · exact he ▸ hidx
      · exact h.clear hs i id hid
  constructor
  · intro hrep
    -- The new id was placed at `idx`, so its depth is what the bucket stands for.
    have hplaced := hrep.placed idx c.id
      ((holds_setBucket hlt _ idx c.id).mpr (.inl ⟨rfl, (hids c.id).mpr (.inr rfl)⟩))
    rw [length_setBucket, depth_setBucket, hlen, Nat.add_sub_cancel] at hplaced
    by_cases hdeep : t.lastIdx ≤ t.depth c.id
    · rw [if_pos hdeep] at hidx
      exact .inr (.inl ⟨hdeep, hidx ▸ hfull⟩)
    · rw [if_neg hdeep] at hidx
      rw [if_pos (by omega)] at hplaced
      exact .inl (by omega)
  · intro hfits
    by_cases hdeep : t.lastIdx ≤ t.depth c.id
    · rw [if_pos hdeep] at hidx
      exact hput (.inr hidx) (by rw [if_neg (by omega)]; exact hdeep)
    · rw [if_neg hdeep] at hidx
      rcases hfits with hz | ⟨hd, -⟩ | ⟨hl0, -⟩ | ⟨-, h1, hfull0, -⟩
      · exact hput (.inl (by omega)) (by rw [if_pos (by omega)]; omega)
      · exact absurd hd hdeep
      · omega
      · exact absurd ((show idx = 0 by omega) ▸ hfull0) hfull

theorem fits_of_refused {t : RoutingTable} (hs : t.Shape) (h : t.Rep) {id : NodeId}
    {b : KBucket} (hb : t.buckets[t.bucketIndex id]? = some b) (hfull : 8 ≤ b.nodes.length)
    (hinner : t.bucketIndex id ≠ t.lastIdx) : t.Fits id := by
  have hl := h.loose hs
  have hlen := hs.length_eq
  have hlt := hs.bucketIndex_lt id
  have hidx : t.bucketIndex id = if t.lastIdx ≤ t.depth id then t.lastIdx
    else t.depth id - 1 := hs.bucketIndex id
  -- A full bucket is in use, so it is the first one.
  obtain ⟨c, hc⟩ := List.exists_mem_of_length_pos (show 0 < b.nodes.length by omega)
  have hzero : t.bucketIndex id = 0 :=
    (h.clear hs _ c.id ⟨b, hb, List.mem_map_of_mem hc⟩).resolve_right hinner
  rw [hzero] at hinner hidx hb
  split at hidx
  · omega
  · rcases Nat.eq_zero_or_pos (t.depth id) with hz | hz
    · exact .inl hz
    · refine .inr (.inr (.inr ⟨by omega, by omega, (isFullAt_iff hb).mpr hfull, fun x hx => ?_⟩))
      obtain ⟨i, hi⟩ := mem_stored.mp hx
      have hi' := hi.lt
      rcases h.clear hs i x hi with rfl | he
      · have := hl.placed_lt hi (by omega)
        omega
      · obtain rfl : i = t.lastIdx := he
        have := hl.placed_last hi
        omega

theorem isFullAt_split_last {t : RoutingTable} (h : t.Loose) (hn : t.buckets.length ≤ 160)
    {b : KBucket} (hb : t.buckets[t.lastIdx]? = some b) (hfull : 8 ≤ b.nodes.length) :
    (t.splitBucket t.lastIdx).isFullAt (t.lastIdx + 1) ↔
      ∀ id, t.Holds t.lastIdx id → t.lastIdx < t.depth id := by
  have hget : (t.splitBucket t.lastIdx).buckets[t.lastIdx + 1]? = some (t.branch b true) := by
    rw [splitBucket_eq hb]
    exact (getElem?_set_append_singleton h.length_eq _ _ _ _).mpr (.inr (.inr ⟨rfl, rfl⟩))
  simpa using (isFullAt_iff hget).trans (full_branch h.graded hn hb hfull true)

theorem isFullAt_split_kept {t : RoutingTable} (h : t.Loose) (hn : t.buckets.length ≤ 160)
    {b : KBucket} (hb : t.buckets[t.lastIdx]? = some b) (hfull : 8 ≤ b.nodes.length) :
    (t.splitBucket t.lastIdx).isFullAt t.lastIdx ↔
      ∀ id, t.Holds t.lastIdx id → t.depth id ≤ t.lastIdx := by
  have hget : (t.splitBucket t.lastIdx).buckets[t.lastIdx]? = some (t.branch b false) := by
    rw [splitBucket_eq hb]
    exact (getElem?_set_append_singleton h.length_eq _ _ _ _).mpr (.inr (.inl ⟨rfl, rfl⟩))
  simpa using (isFullAt_iff hget).trans (full_branch h.graded hn hb hfull false)

theorem fits_split_first {t : RoutingTable} (h : t.Loose) {id : NodeId} {b : KBucket}
    (hb : t.buckets[t.lastIdx]? = some b) (hfull : 8 ≤ b.nodes.length) (hone : t.lastIdx = 0) :
    (t.splitBucket t.lastIdx).Fits id ↔ t.Fits id := by
  have hlen := h.length_eq
  have hn : t.buckets.length ≤ 160 := by omega
  have hlast := isFullAt_split_last h hn hb hfull
  have hkept := isFullAt_split_kept h hn hb hfull
  have hstored (x : NodeId) : x ∈ t.stored ↔ t.Holds t.lastIdx x := by
    rw [mem_stored]
    refine ⟨fun ⟨i, hi⟩ => ?_, fun hx => ⟨_, hx⟩⟩
    have := hi.lt
    rwa [show t.lastIdx = i by omega]
  obtain ⟨c, hc⟩ := List.exists_mem_of_length_pos (show 0 < b.nodes.length by omega)
  have hcHolds : t.Holds t.lastIdx c.id := ⟨b, hb, List.mem_map_of_mem hc⟩
  have hfullAt : t.isFullAt t.lastIdx := (isFullAt_iff hb).mpr hfull
  simp only [Fits, depth_splitBucket, h.toShape.lastIdx_split, mem_stored_splitBucket h.graded hn]
  rw [hone] at hlast hkept hstored hcHolds hfullAt ⊢
  constructor
  · rintro (hz | ⟨-, hroom⟩ | ⟨h0, -⟩ | ⟨-, -, hfull0, -⟩)
    · exact .inl hz
    · obtain ⟨x, hx⟩ : ∃ x, ¬ (t.Holds 0 x → 0 < t.depth x) :=
        not_forall.mp fun hall => hroom (hlast.mpr hall)
      rw [Classical.not_imp, Nat.not_lt] at hx
      exact .inr (.inr (.inl ⟨rfl, x, (hstored x).mpr hx.1, Nat.le_zero.mp hx.2⟩))
    · omega
    · exact .inr (.inr (.inl ⟨rfl, c.id, (hstored _).mpr hcHolds,
        Nat.le_zero.mp (hkept.mp hfull0 c.id hcHolds)⟩))
  · rintro (hz | ⟨-, hroom⟩ | ⟨-, x, hx, hxz⟩ | ⟨h0, -⟩)
    · exact .inl hz
    · exact absurd hfullAt hroom
    · rcases Nat.eq_zero_or_pos (t.depth id) with hz | hz
      · exact .inl hz
      · refine .inr (.inl ⟨hz, fun hall => ?_⟩)
        have := hlast.mp hall x ((hstored x).mp hx)
        omega
    · omega

theorem fits_split_later {t : RoutingTable} (h : t.Loose) {id : NodeId} {b : KBucket}
    (hn : t.buckets.length ≤ 160) (hb : t.buckets[t.lastIdx]? = some b)
    (hfull : 8 ≤ b.nodes.length) (hmany : 0 < t.lastIdx)
    (hmove : ∀ x, t.Holds t.lastIdx x → t.lastIdx < t.depth x) :
    (t.splitBucket t.lastIdx).Fits id ↔ t.Fits id := by
  have hlen := h.length_eq
  have hlast := (isFullAt_split_last h hn hb hfull).mpr hmove
  have hfullAt : t.isFullAt t.lastIdx := (isFullAt_iff hb).mpr hfull
  have hfirst : (t.splitBucket t.lastIdx).isFullAt 0 = t.isFullAt 0 := by
    rw [isFullAt, getElem?_splitBucket_lt (by omega) hmany, isFullAt]
  simp only [Fits, depth_splitBucket, h.toShape.lastIdx_split, mem_stored_splitBucket h.graded hn,
    hlast, hfullAt, hfirst, not_true_eq_false, and_false, false_or]
  constructor
  · rintro (hz | ⟨h0, -⟩ | ⟨-, hrest⟩)
    · exact .inl hz
    · omega
    · exact .inr (.inr ⟨hmany, hrest⟩)
  · rintro (hz | ⟨h0, -⟩ | ⟨-, hrest⟩)
    · exact .inl hz
    · omega
    · exact .inr (.inr ⟨by omega, hrest⟩)

theorem clear_splitBucket {t : RoutingTable} (hs : t.Shape) (hl : t.Loose) (hclear : t.Clear)
    (hn : t.buckets.length ≤ 160) (hmove : ∀ x, t.Holds t.lastIdx x → t.lastIdx < t.depth x) :
    (t.splitBucket t.lastIdx).Clear := by
  have hlen := hs.length_eq
  have hlen' : (t.splitBucket t.lastIdx).buckets.length = t.buckets.length + 1 :=
    length_splitBucket (by omega)
  intro i x hx
  rcases (holds_splitBucket hl.graded hn i x).mp hx with ⟨hi, hx⟩ | ⟨-, hx, hd⟩ | ⟨hi, -⟩
  · rcases hclear i x hx with h0 | he
    · exact .inl h0
    · unfold lastIdx at hi
      omega
  · have := hmove x hx
    omega
  · exact .inr (by omega)

/-- An id that stays behind in the split bucket is in one where the scan will not look. -/
theorem buried_splitBucket {t : RoutingTable} (hs : t.Shape) (hl : t.Loose)
    (hn : t.buckets.length ≤ 160) (hmany : 0 < t.lastIdx) {x : NodeId} (hx : t.Holds t.lastIdx x)
    (hstays : t.depth x ≤ t.lastIdx) : (t.splitBucket t.lastIdx).Buried := by
  have hxd := hl.placed_last hx
  refine ⟨t.lastIdx, x, hmany, by rw [hs.lastIdx_split]; omega, ?_⟩
  exact (holds_splitBucket hl.graded hn _ x).mpr (.inr (.inl ⟨rfl, hx, by omega⟩))

/-- The loop keeps the invariant exactly when the new id fits.  161 rounds always do. -/
theorem rep_insertLoop {t : RoutingTable} {fuel : Nat} {c : Contact} (hs : t.Shape) (h : t.Rep)
    (hlocal : c.id ≠ t.localId) (hnew : c.id ∉ t.stored)
    (hfuel : 162 ≤ fuel + t.buckets.length) :
    (insertLoop fuel t c (t.bucketIndex c.id)).Rep ↔ t.Fits c.id := by
  induction fuel generalizing t with
  | zero => have := hs.bound; omega
  | succ fuel ih =>
    have hl := h.loose hs
    have hlen := hs.length_eq
    obtain ⟨b, hb⟩ : ∃ b, t.buckets[t.bucketIndex c.id]? = some b :=
      ⟨_, List.getElem?_eq_getElem (hs.bucketIndex_lt c.id)⟩
    have hdepth : t.depth c.id < 160 := NodeId.common_lt hlocal
    have hidx : t.bucketIndex c.id = if t.lastIdx ≤ t.depth c.id then t.lastIdx
      else t.depth c.id - 1 := hs.bucketIndex c.id
    rcases insertLoop_succ hb fuel c with ⟨hmem, -⟩ | ⟨hnot, hroom, he⟩ |
      ⟨-, hfull, hlast, hprefix, he⟩ | ⟨-, hfull, hinner, he⟩
    · exact absurd (mem_stored.mpr ⟨_, _, hb, hmem⟩) hnew
    · rw [he]
      exact rep_push hs h hlocal hb hnot hroom
    · rw [he]
      rw [hlast] at hidx
      rw [hlast] at hb ⊢
      have hdeep : t.lastIdx ≤ t.depth c.id := by split at hidx <;> omega
      have hn : t.buckets.length ≤ 160 := by omega
      have hs' := hs.split hn
      have hl' := hl.split hn
      have hnew' : c.id ∉ (t.splitBucket t.lastIdx).stored := by
        rwa [mem_stored_splitBucket hl.graded hn]
      have hlocal' : c.id ≠ (t.splitBucket t.lastIdx).localId := by rwa [localId_splitBucket]
      have hlen' : (t.splitBucket t.lastIdx).buckets.length = t.buckets.length + 1 :=
        length_splitBucket (by omega)
      by_cases hone : t.lastIdx = 0
      · have hclear : (t.splitBucket t.lastIdx).Clear := fun i x hx => by
          have := hx.lt
          omega
        rw [ih hs' (hl'.rep hclear) hlocal' hnew' (by omega), fits_split_first hl hb hfull hone]
      · by_cases hmove : ∀ x, t.Holds t.lastIdx x → t.lastIdx < t.depth x
        · have hclear := clear_splitBucket hs hl (h.clear hs) hn hmove
          rw [ih hs' (hl'.rep hclear) hlocal' hnew' (by omega),
            fits_split_later hl hn hb hfull (by omega) hmove]
        · obtain ⟨x, hx⟩ := not_forall.mp hmove
          rw [Classical.not_imp, Nat.not_lt] at hx
          have hxd := hl.placed_last hx.1
          have hburied := buried_splitBucket hs hl hn (by omega) hx.1 hx.2
          have hlt' := hs'.bucketIndex_lt c.id
          refine iff_of_false
            ((hburied.insertLoop hs' fuel c hlt').not_rep (hs'.insertLoop fuel c hlt')) ?_
          rintro (hz | ⟨-, hroom⟩ | ⟨h0, -⟩ | ⟨-, hd, -, hnone⟩)
          · omega
          · exact hroom ((isFullAt_iff hb).mpr hfull)
          · omega
          · exact hnone x (mem_stored.mpr ⟨_, hx.1⟩) (by omega)
    · rw [he]
      refine iff_of_true h (fits_of_refused hs h hb hfull fun hlast => hinner ⟨hlast, ?_⟩)
      rw [hlast] at hidx
      have hprefix := hs.prefixLen _ _ hb
      rw [hlast] at hprefix
      split at hidx <;> omega

theorem Shape.insert {t : RoutingTable} (h : t.Shape) (c : Contact) : (t.insert c).Shape := by
  unfold RoutingTable.insert
  split
  · exact h
  · exact h.insertLoop _ c (h.bucketIndex_lt c.id)

theorem rep_insert {t : RoutingTable} (hs : t.Shape) (h : t.Rep) (c : Contact) :
    (t.insert c).Rep ↔ t.InsertOk c := by
  unfold RoutingTable.insert
  split
  case isTrue hlocal => exact iff_of_true h (.inl hlocal)
  case isFalse hlocal =>
    by_cases hstored : c.id ∈ t.stored
    · refine iff_of_true ?_ (.inr (.inl hstored))
      obtain ⟨i, hi⟩ := mem_stored.mp hstored
      have hfound := h.found i c.id hi
      obtain ⟨b, hb, hid⟩ := hi
      rw [hfound]
      rcases insertLoop_succ hb 160 c with ⟨-, b', he, hp, hperm⟩ | ⟨hnot, -⟩ | ⟨hnot, -⟩ |
        ⟨hnot, -⟩
      · rw [he]; exact h.setBucket_perm hs hb hp hperm
      all_goals exact absurd hid hnot
    · rw [rep_insertLoop hs h hlocal hstored (by have := hs.pos; omega)]
      simp [InsertOk, hlocal, hstored]

instance (t : RoutingTable) (c : Contact) : Decidable (t.InsertOk c) :=
  inferInstanceAs (Decidable (_ ∨ _ ∨ _))

/-- All tables of a run keep the invariant exactly when every insert meets `InsertOk` in the
table it finds. -/
theorem rep_run_iff (localId : NodeId) (contacts : List Contact) :
    (∀ k, (exec insert (new localId) (contacts.take k)).Rep) ↔
      Along insert InsertOk (new localId) contacts := by
  have hstart : (new localId).Shape ∧ (new localId).Rep := ⟨shape_new localId, rep_new localId⟩
  rw [forall_take_iff hstart.2]
  exact along_iff (P := fun t => t.Shape ∧ t.Rep) (fun t c _ h => rep_insert h.1 h.2 c)
    (fun t c _ h hc => ⟨h.1.insert c, hc⟩) hstart

/-- Nine nodes that share one bit with the local id, the first of which is seen again. -/
def nineNeighbours : List Contact :=
  let node (last : UInt8) : Contact :=
    ⟨⟨64 :: List.replicate 18 0 ++ [last], by simp⟩, .v4 0 0⟩
  [node 0, node 1, node 2, node 3, node 4, node 5, node 6, node 7, node 8, node 0]

/-- After two splits the scan looks one bucket short, and a known node is stored again. -/
theorem not_unique_nineNeighbours :
    ¬ (exec insert (new ⟨List.replicate 20 0, rfl⟩) nineNeighbours).Rep := by
  intro h
  have htwice : ¬ (exec insert (new ⟨List.replicate 20 0, rfl⟩) nineNeighbours).stored.Nodup := by
    decide +kernel
  exact htwice h.unique

end RoutingTable
end Tortor.Net
