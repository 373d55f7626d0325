import Tortor.Net.RoutingLaws

/-! What an insert does to the contacts of any table that inserts can lead to.  The scan looks one
bucket short between the first bucket and the last, so that an inner bucket holds contacts of its
own depth, from splits, and contacts one deeper, from inserts. -/

namespace Tortor.Net

open Tortor.Lib

namespace KBucket

variable {b b' : KBucket} {c : Contact}

theorem insert_true (h : b.insert c = (true, b')) : b'.prefixLen = b.prefixLen ∧
    ((c.id ∈ b.ids ∧ b'.ids.Perm b.ids) ∨
      (c.id ∉ b.ids ∧ b.nodes.length < 8 ∧ b' = { b with nodes := b.nodes ++ [c] })) := by
  rcases b.insert_cases c with ⟨hmem, b'', he, hp, hperm⟩ | ⟨hnot, hlt, he⟩ | ⟨-, -, he⟩
  · cases he.symm.trans h
    exact ⟨hp, .inl ⟨hmem, hperm⟩⟩
  · cases he.symm.trans h
    exact ⟨rfl, .inr ⟨hnot, hlt, rfl⟩⟩
  · cases he.symm.trans h

theorem mem_ids_insert (h : b.insert c = (true, b')) : c.id ∈ b'.ids := by
  obtain ⟨-, ⟨hmem, hperm⟩ | ⟨-, -, rfl⟩⟩ := insert_true h
  · exact hperm.mem_iff.mpr hmem
  · simp [ids]

theorem ids_subset_insert (h : b.insert c = (true, b')) {id : NodeId} (hid : id ∈ b.ids) :
    id ∈ b'.ids := by
  obtain ⟨-, ⟨-, hperm⟩ | ⟨-, -, rfl⟩⟩ := insert_true h
  · exact hperm.mem_iff.mpr hid
  · rw [ids, List.map_append]
    exact List.mem_append_left _ hid

end KBucket

namespace RoutingTable

def entries (self : RoutingTable) : List Contact := self.buckets.flatMap (·.nodes)

theorem stored_eq (t : RoutingTable) : t.stored = t.entries.map (·.id) := by
  rw [stored, entries, List.map_flatMap]
  rfl

def Keeps (self : RoutingTable) (i : Nat) (e : Contact) : Prop :=
  ∃ b, self.buckets[i]? = some b ∧ e ∈ b.nodes

theorem Keeps.holds {t : RoutingTable} {i : Nat} {e : Contact} (h : t.Keeps i e) :
    t.Holds i e.id := by
  obtain ⟨b, hb, he⟩ := h
  exact ⟨b, hb, List.mem_map_of_mem he⟩

theorem perm_splitBucket {t : RoutingTable} {idx : Nat} (hidx : idx < t.buckets.length) :
    (t.splitBucket idx).entries.Perm t.entries := by
  have hb := List.getElem?_eq_getElem hidx
  generalize t.buckets[idx] = b at hb
  have hparts : ((t.branch b false).nodes ++ (t.branch b true).nodes).Perm b.nodes := by
    refine List.perm_append_comm.trans ?_
    have hperm := List.filter_append_perm (fun c : Contact =>
      (c.id.bitAt b.prefixLen == t.localId.bitAt b.prefixLen) == true) b.nodes
    simpa [branch] using hperm
  have hcut : t.buckets = t.buckets.take idx ++ b :: t.buckets.drop (idx + 1) := by
    rw [List.getElem?_eq_getElem hidx] at hb
    rw [← Option.some.inj hb, List.getElem_cons_drop, List.take_append_drop]
  have hset : t.buckets.set idx (t.branch b false) =
      t.buckets.take idx ++ t.branch b false :: t.buckets.drop (idx + 1) := by
    rw [List.set_eq_take_append_cons_drop, if_pos hidx]
  rw [entries, splitBucket_eq hb, entries]
  conv_rhs => rw [hcut]
  simp only [hset, List.flatMap_append, List.flatMap_cons, List.flatMap_nil, List.append_nil,
    List.append_assoc]
  refine List.Perm.append_left _ ?_
  refine (List.perm_append_comm.append_left _).trans ?_
  rw [← List.append_assoc]
  exact hparts.append_right _

/-- The loop of an insert, with the number of its splits.  It has no other ends. -/
inductive Inserts (c : Contact) : RoutingTable → Nat → Nat → RoutingTable → Prop
  | stored {t : RoutingTable} {idx : Nat} {b b' : KBucket} : t.buckets[idx]? = some b →
      b.insert c = (true, b') → Inserts c t idx 0 (t.setBucket idx b')
  | refused {t : RoutingTable} {idx : Nat} {b b' : KBucket} : t.buckets[idx]? = some b →
      b.insert c = (false, b') → ¬ (idx = t.lastIdx ∧ b.prefixLen < 160) → Inserts c t idx 0 t
  | split {t t' : RoutingTable} {idx n : Nat} {b b' : KBucket} : t.buckets[idx]? = some b →
      b.insert c = (false, b') → idx = t.lastIdx → b.prefixLen < 160 →
      Inserts c (t.splitBucket idx) ((t.splitBucket idx).bucketIndex c.id) n t' →
      Inserts c t idx (n + 1) t'

/-- The rounds are enough, and there are no more splits than bits in an id. -/
theorem inserts_insertLoop {t : RoutingTable} (h : t.Shape) (c : Contact) {fuel idx : Nat}
    (hidx : idx < t.buckets.length) (hfuel : 162 ≤ fuel + t.buckets.length) :
    ∃ n, n + t.buckets.length ≤ 161 ∧ Inserts c t idx n (insertLoop fuel t c idx) := by
  induction fuel generalizing t idx with
  | zero =>
    have := h.bound
    omega
  | succ fuel ih =>
    have hbound := h.bound
    have hb := List.getElem?_eq_getElem hidx
    generalize t.buckets[idx] = b at hb
    rw [insertLoop, hb]
    rcases hinsert : b.insert c with ⟨taken, b'⟩
    simp only [hinsert]
    cases taken with
    | true => exact ⟨0, by omega, .stored hb hinsert⟩
    | false =>
    by_cases hsplit : idx = t.lastIdx ∧ b.prefixLen < 160
    · have hcovers : (t.bucketCoversLocal idx && decide (b.prefixLen < 160)) = true := by
        rw [Bool.and_eq_true, bucketCoversLocal, beq_iff_eq, decide_eq_true_eq]
        exact hsplit
      obtain ⟨rfl, hbits⟩ := hsplit
      have hlast := h.prefixLen_last hb
      have hlen := h.length_eq
      have hs := h.split (by omega)
      have hmore := length_splitBucket hidx
      obtain ⟨n, hn, hrun⟩ := ih hs (hs.bucketIndex_lt c.id) (by omega)
      simp only [hcovers, if_true]
      exact ⟨n + 1, by omega, .split hb hinsert rfl hbits hrun⟩
    · have hstays : (t.bucketCoversLocal idx && decide (b.prefixLen < 160)) = false := by
        rw [← Bool.not_eq_true, Bool.and_eq_true, bucketCoversLocal, beq_iff_eq, decide_eq_true_eq]
        exact hsplit
      simp only [hstays, Bool.false_eq_true, if_false]
      exact ⟨0, by omega, .refused hb hinsert hsplit⟩

theorem inserts_insert {t : RoutingTable} (h : t.Shape) {c : Contact} (hc : c.id ≠ t.localId) :
    ∃ n ≤ 160, Inserts c t (t.bucketIndex c.id) n (t.insert c) := by
  have hpos := h.pos
  rw [insert, if_neg hc]
  obtain ⟨n, hn, hrun⟩ := inserts_insertLoop h c (h.bucketIndex_lt c.id)
    (show 162 ≤ 161 + t.buckets.length by omega)
  exact ⟨n, by omega, hrun⟩

abbrev Settled (t : RoutingTable) : Prop := Graded (fun i d => d = i ∨ d = i + 1) t

section

variable {c : Contact} {t t' : RoutingTable} {idx n : Nat}

theorem Inserts.localId (h : Inserts c t idx n t') : t'.localId = t.localId := by
  induction h with
  | stored => rfl
  | refused => rfl
  | split _ _ _ _ _ ih => rw [ih, localId_splitBucket]

theorem Inserts.mem_stored (h : Inserts c t idx n t') {id : NodeId} (hid : id ∈ t.stored) :
    id ∈ t'.stored := by
  induction h with
  | @stored t idx b b' hb hinsert =>
    have hlt := (List.getElem?_eq_some_iff.mp hb).1
    obtain ⟨i, hi⟩ := RoutingTable.mem_stored.mp hid
    refine RoutingTable.mem_stored.mpr ⟨i, (holds_setBucket hlt b' i id).mpr ?_⟩
    by_cases he : i = idx
    · subst he
      obtain ⟨b'', hb'', hmem⟩ := hi
      obtain rfl := Option.some.inj (hb.symm.trans hb'')
      exact .inl ⟨rfl, KBucket.ids_subset_insert hinsert hmem⟩
    · exact .inr ⟨he, hi⟩
  | refused => exact hid
  | split hb _ _ _ _ ih =>
    refine ih ?_
    rw [stored_eq] at hid ⊢
    exact ((perm_splitBucket (List.getElem?_eq_some_iff.mp hb).1).map _).mem_iff.mpr hid

theorem Inserts.perm (h : Inserts c t idx n t') (hnot : c.id ∉ t'.stored) :
    t'.entries.Perm t.entries := by
  induction h with
  | stored hb hinsert =>
    have hlt := (List.getElem?_eq_some_iff.mp hb).1
    have htaken := (holds_setBucket hlt _ _ c.id).mpr (.inl ⟨rfl, KBucket.mem_ids_insert hinsert⟩)
    exact absurd (RoutingTable.mem_stored.mpr ⟨_, htaken⟩) hnot
  | refused => exact .refl _
  | split hb _ _ _ _ ih =>
    exact (ih hnot).trans (perm_splitBucket (List.getElem?_eq_some_iff.mp hb).1)

end

theorem bucketIndex_eq {t : RoutingTable} (h : t.Shape) (id : NodeId) : t.bucketIndex id =
    if t.lastIdx ≤ t.depth id then t.lastIdx else t.depth id - 1 := h.bucketIndex id

theorem Settled.setBucket {t : RoutingTable} (h : t.Settled) {c : Contact} {b b' : KBucket}
    (hc : c.id ≠ t.localId) (hb : t.buckets[t.bucketIndex c.id]? = some b)
    (hinsert : b.insert c = (true, b')) : (t.setBucket (t.bucketIndex c.id) b').Settled := by
  have hmem := List.mem_of_getElem? hb
  have hheld (id : NodeId) (hid : id ∈ b.ids) : id ≠ t.localId ∧
      if t.bucketIndex c.id < t.lastIdx then t.depth id = t.bucketIndex c.id ∨
        t.depth id = t.bucketIndex c.id + 1 else t.lastIdx ≤ t.depth id :=
    ⟨h.local_free _ id ⟨b, hb, hid⟩, h.placed _ id ⟨b, hb, hid⟩⟩
  obtain ⟨hbits, ⟨-, hperm⟩ | ⟨hnot, hroom, rfl⟩⟩ := KBucket.insert_true hinsert
  · have hlen : b'.nodes.length = b.nodes.length := by
      rw [← KBucket.length_ids, hperm.length_eq, KBucket.length_ids]
    exact Graded.setBucket h hb hbits (hperm.nodup_iff.mpr (h.nodup b hmem))
      (hlen ▸ h.small b hmem) fun id hid => hheld id (hperm.mem_iff.mp hid)
  · refine Graded.setBucket h hb hbits ?_ (by simp; omega) fun id hid => ?_
    · rw [KBucket.ids, List.map_append]
      exact List.nodup_append.mpr ⟨h.nodup b hmem, List.nodup_singleton _,
        fun x hx y hy he => hnot ((show x = c.id from he.trans (List.mem_singleton.mp hy)) ▸ hx)⟩
    · rw [KBucket.ids, List.map_append] at hid
      rcases List.mem_append.mp hid with hid | hid
      · exact hheld id hid
      · -- The new contact is where the scan has found the bucket.
        rw [List.map_singleton, List.mem_singleton] at hid
        subst hid
        refine ⟨hc, ?_⟩
        rw [bucketIndex_eq h.toShape]
        by_cases hdeep : t.lastIdx ≤ t.depth c.id
        · rw [if_pos hdeep, if_neg (Nat.lt_irrefl _)]
          exact hdeep
        · rw [if_neg hdeep, if_pos (by omega)]
          omega

theorem Settled.split {t : RoutingTable} (h : t.Settled) {b : KBucket}
    (hb : t.buckets[t.lastIdx]? = some b) (hbits : b.prefixLen < 160) :
    (t.splitBucket t.lastIdx).Settled ∧ t.buckets.length ≤ 160 := by
  have hlast := h.toShape.prefixLen_last hb
  have hlen := h.toShape.length_eq
  have hn : t.buckets.length ≤ 160 := by omega
  exact ⟨Graded.split h (fun _ => .inl rfl) hn, hn⟩

theorem Inserts.settled {c : Contact} {t t' : RoutingTable} {idx n : Nat}
    (h : Inserts c t idx n t') (hidx : idx = t.bucketIndex c.id) (hc : c.id ≠ t.localId)
    (ht : t.Settled) : t'.Settled := by
  induction h with
  | stored hb hinsert =>
    subst hidx
    exact ht.setBucket hc hb hinsert
  | refused => exact ht
  | split hb _ hlast hbits _ ih =>
    subst hlast
    exact ih rfl (by rwa [localId_splitBucket]) (ht.split hb hbits).1

theorem Settled.insert {t : RoutingTable} (h : t.Settled) (c : Contact) : (t.insert c).Settled := by
  by_cases hc : c.id = t.localId
  · rwa [RoutingTable.insert, if_pos hc]
  · obtain ⟨n, -, hrun⟩ := inserts_insert h.toShape hc
    exact hrun.settled rfl hc h

section

variable {c : Contact} {t t' : RoutingTable} {idx n : Nat}

end

section

variable {c : Contact} {t t' : RoutingTable} {n : Nat}

end

section

variable {c : Contact} {t t' : RoutingTable} {n : Nat}

end

end RoutingTable
end Tortor.Net
