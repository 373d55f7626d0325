import Mathlib.Data.List.Sort
import Mathlib.Data.Set.Basic

/-! A list that keeps the `K` lowest of everything it was ever offered.

Members are compared by a key and are told apart by it.  What falls off the end never comes
back: it has `K` lower ones before it from then on. -/

namespace Tortor.Lib

universe u v

variable {α : Type u} {κ : Type v} [LinearOrder κ] (key : α → κ)

/-- A member with a key that is there already is turned down. -/
def offer (l : List α) (a : α) : List α :=
  if l.any fun b => key b == key a then l else l ++ [a]

def offerAll (l : List α) (as : List α) : List α := as.foldl (offer key) l

def keepLowest (K : Nat) (l : List α) : List α :=
  (l.mergeSort fun a b => decide (key a ≤ key b)).take K

/-- `l` holds the `K` lowest of the keys in `L`, in order. -/
structure Lowest (K : Nat) (L : Set κ) (l : List α) : Prop where
  sorted : l.Pairwise fun a b => key a < key b
  length_le : l.length ≤ K
  known : ∀ a ∈ l, key a ∈ L
  lowest : ∀ k ∈ L, (∃ a ∈ l, key a = k) ∨ K ≤ l.length ∧ ∀ a ∈ l, key a < k

variable {key} {K : Nat} {L : Set κ} {l m as : List α} {a b : α} {k : κ}

theorem offer_eq (h : ∃ b ∈ l, key b = key a) : offer key l a = l := by
  rw [offer, if_pos]
  simpa [List.any_eq_true] using h

theorem offer_eq_append (h : ∀ b ∈ l, key b ≠ key a) : offer key l a = l ++ [a] := by
  rw [offer, if_neg]
  simpa [List.any_eq_true] using h

theorem prefix_offer (l : List α) (a : α) : l <+: offer key l a := by
  unfold offer
  split
  · exact List.prefix_refl l
  · exact List.prefix_append l [a]

theorem prefix_offerAll (l as : List α) : l <+: offerAll key l as := by
  induction as generalizing l with
  | nil => exact List.prefix_refl l
  | cons a as ih => exact (prefix_offer l a).trans (ih (offer key l a))

theorem nodup_offerAll (h : (l.map key).Nodup) (as : List α) :
    ((offerAll key l as).map key).Nodup := by
  induction as generalizing l with
  | nil => exact h
  | cons a as ih =>
    apply ih
    by_cases ha : ∃ b ∈ l, key b = key a
    · rwa [offer_eq ha]
    · push Not at ha
      rw [offer_eq_append ha, List.map_append, List.nodup_append]
      refine ⟨h, List.nodup_singleton _, fun k hk k' hk' => ?_⟩
      obtain ⟨b, hb, rfl⟩ := List.mem_map.mp hk
      rw [List.map_singleton, List.mem_singleton] at hk'
      exact hk' ▸ ha b hb

theorem mem_offerAll (h : a ∈ offerAll key l as) :
    a ∈ l ∨ a ∈ as ∧ ∀ b ∈ l, key b ≠ key a := by
  induction as generalizing l with
  | nil => exact .inl h
  | cons c as ih =>
    rcases ih h with hl | ⟨has, hne⟩
    · by_cases hc : ∃ b ∈ l, key b = key c
      · rw [offer_eq hc] at hl
        exact .inl hl
      · push Not at hc
        rw [offer_eq_append hc, List.mem_append, List.mem_singleton] at hl
        rcases hl with hl | rfl
        · exact .inl hl
        · exact .inr ⟨List.mem_cons_self, hc⟩
    · exact .inr ⟨List.mem_cons_of_mem c has, fun b hb => hne b ((prefix_offer l c).subset hb)⟩

theorem exists_mem_offerAll (key : α → κ) (l : List α) (h : b ∈ as) :
    ∃ a ∈ offerAll key l as, key a = key b := by
  induction as generalizing l with
  | nil => cases h
  | cons c as ih =>
    rcases List.mem_cons.mp h with rfl | h
    · have hmem : ∃ a ∈ offer key l b, key a = key b := by
        by_cases hb : ∃ a ∈ l, key a = key b
        · rwa [offer_eq hb]
        · push Not at hb
          rw [offer_eq_append hb]
          exact ⟨b, by simp, rfl⟩
      obtain ⟨a, ha, hkey⟩ := hmem
      exact ⟨a, (prefix_offerAll _ as).subset ha, hkey⟩
    · exact ih _ h

theorem perm_sort (key : α → κ) (l : List α) :
    (l.mergeSort fun a b => decide (key a ≤ key b)).Perm l := List.mergeSort_perm l _

theorem sorted_sort (key : α → κ) (l : List α) :
    (l.mergeSort fun a b => decide (key a ≤ key b)).Pairwise fun a b => key a ≤ key b := by
  have h : (l.mergeSort fun a b => decide (key a ≤ key b)).Pairwise
      fun a b => decide (key a ≤ key b) = true := by
    apply List.pairwise_mergeSort
    · intro a b c hab hbc
      rw [decide_eq_true_eq] at hab hbc ⊢
      exact hab.trans hbc
    · intro a b
      simpa using le_total (key a) (key b)
  exact h.imp of_decide_eq_true

theorem strictly_sorted_sort (h : (l.map key).Nodup) :
    (l.mergeSort fun a b => decide (key a ≤ key b)).Pairwise fun a b => key a < key b := by
  have hnodup : (l.mergeSort fun a b => decide (key a ≤ key b)).Pairwise
      fun a b => key a ≠ key b := by
    apply List.pairwise_map.mp
    exact ((perm_sort key l).map key).nodup_iff.mpr h
  exact ((sorted_sort key l).and hnodup).imp fun hab => lt_of_le_of_ne hab.1 hab.2

/-- With `K` members below `k`, none that is kept reaches `k`. -/
theorem lt_of_mem_keepLowest (hcount : K ≤ m.countP fun b => decide (key b < k))
    (ha : a ∈ keepLowest key K m) : key a < k := by
  by_contra hk
  rw [not_lt] at hk
  let s := m.mergeSort fun a b => decide (key a ≤ key b)
  obtain ⟨front, back, hsplit⟩ := List.append_of_mem ha
  have hs : s = front ++ a :: (back ++ s.drop K) := by
    calc
      s = s.take K ++ s.drop K := (List.take_append_drop K s).symm
      _ = front ++ a :: (back ++ s.drop K) := by
        rw [show s.take K = front ++ a :: back from hsplit, List.append_assoc, List.cons_append]
  have hafter : (a :: (back ++ s.drop K)).countP (fun b => decide (key b < k)) = 0 := by
    rw [List.countP_eq_zero]
    have hsorted := sorted_sort key m
    change s.Pairwise _ at hsorted
    rw [hs, List.pairwise_append, List.pairwise_cons] at hsorted
    intro b hb hlt
    rw [decide_eq_true_eq] at hlt
    rcases List.mem_cons.mp hb with rfl | hb
    · exact absurd hlt (not_lt.mpr hk)
    · exact absurd hlt (not_lt.mpr (hk.trans (hsorted.2.1.1 b hb)))
  have hshort : front.length < K := by
    have hle := List.length_take_le K s
    rw [show s.take K = front ++ a :: back from hsplit, List.length_append, List.length_cons] at hle
    omega
  have hcountEq : s.countP (fun b => decide (key b < k)) = m.countP fun b => decide (key b < k) :=
    (perm_sort key m).countP_eq _
  have hfront := List.countP_le_length (p := fun b => decide (key b < k)) (l := front)
  rw [hs, List.countP_append, hafter] at hcountEq
  omega

theorem mem_of_mem_keepLowest (h : a ∈ keepLowest key K m) : a ∈ m :=
  (perm_sort key m).mem_iff.mp (List.mem_of_mem_take h)

/-- What is not kept has at least `K` members at or below it. -/
theorem mem_keepLowest_or (key : α → κ) (K : Nat) (h : a ∈ m) : a ∈ keepLowest key K m ∨
    (keepLowest key K m).length = K ∧ ∀ b ∈ keepLowest key K m, key b ≤ key a := by
  let s := m.mergeSort fun a b => decide (key a ≤ key b)
  have hs : a ∈ s.take K ++ s.drop K := by
    rw [List.take_append_drop]
    exact (perm_sort key m).mem_iff.mpr h
  rcases List.mem_append.mp hs with hkept | hdropped
  · exact .inl hkept
  · have hlen := List.length_pos_of_mem hdropped
    rw [List.length_drop] at hlen
    have hsorted := sorted_sort key m
    change s.Pairwise _ at hsorted
    rw [← List.take_append_drop K s, List.pairwise_append] at hsorted
    exact .inr ⟨List.length_take_of_le (show K ≤ s.length by omega), fun b hb => hsorted.2.2 b hb a hdropped⟩

namespace Lowest

theorem nodup (h : Lowest key K L l) : (l.map key).Nodup :=
  List.pairwise_map.mpr (h.sorted.imp fun hlt => ne_of_lt hlt)

theorem sort (hlen : l.length ≤ K) (hnodup : (l.map key).Nodup) :
    Lowest key K {k | ∃ a ∈ l, key a = k} (l.mergeSort fun a b => decide (key a ≤ key b)) where
  sorted := strictly_sorted_sort hnodup
  length_le := (perm_sort key l).length_eq.trans_le hlen
  known a ha := ⟨a, (perm_sort key l).mem_iff.mp ha, rfl⟩
  lowest k hk := by
    obtain ⟨a, ha, hkey⟩ := hk
    exact .inl ⟨a, (perm_sort key l).mem_iff.mpr ha, hkey⟩

theorem of_map_eq (h : Lowest key K L l) (he : m.map key = l.map key) : Lowest key K L m where
  sorted := by
    apply List.pairwise_map.mp
    rw [he]
    exact List.pairwise_map.mpr h.sorted
  length_le := by
    have hlen := congrArg List.length he
    rw [List.length_map, List.length_map] at hlen
    exact hlen ▸ h.length_le
  known a ha := by
    obtain ⟨b, hb, hkey⟩ := List.mem_map.mp (he ▸ List.mem_map_of_mem ha)
    exact hkey ▸ h.known b hb
  lowest k hk := by
    have hlen := congrArg List.length he
    rw [List.length_map, List.length_map] at hlen
    rcases h.lowest k hk with ⟨a, ha, hkey⟩ | ⟨hfull, hlt⟩
    · obtain ⟨b, hb, hkey'⟩ := List.mem_map.mp (he ▸ List.mem_map_of_mem ha)
      exact .inl ⟨b, hb, hkey'.trans hkey⟩
    · refine .inr ⟨hlen ▸ hfull, fun b hb => ?_⟩
      obtain ⟨a, ha, hkey⟩ := List.mem_map.mp (he ▸ List.mem_map_of_mem hb)
      exact hkey ▸ hlt a ha

theorem eq_of_key_eq (h : Lowest key K L l) (ha : a ∈ l) (hb : b ∈ l) (hkey : key a = key b) :
    a = b :=
  List.inj_on_of_nodup_map h.nodup ha hb hkey

theorem countP_eq (h : ∀ a ∈ l, key a < k) : l.countP (fun b => decide (key b < k)) = l.length :=
  List.countP_eq_length.mpr fun a ha => decide_eq_true (h a ha)

theorem lt_of_dropped (h : Lowest key K L l) (hk : k ∈ L) (hdropped : ∀ a ∈ l, key a ≠ k)
    (ha : a ∈ keepLowest key K (offerAll key l as)) : key a < k := by
  rcases h.lowest k hk with ⟨b, hb, hkey⟩ | ⟨hfull, hlt⟩
  · exact absurd hkey (hdropped b hb)
  · apply lt_of_mem_keepLowest ?_ ha
    calc
      K ≤ l.countP fun b => decide (key b < k) := by rw [countP_eq hlt]; exact hfull
      _ ≤ (offerAll key l as).countP fun b => decide (key b < k) :=
        (prefix_offerAll l as).sublist.countP_le

theorem mem_or_new (h : Lowest key K L l) (ha : a ∈ keepLowest key K (offerAll key l as)) :
    a ∈ l ∨ a ∈ as ∧ key a ∉ L := by
  rcases mem_offerAll (mem_of_mem_keepLowest ha) with hl | ⟨has, hne⟩
  · exact .inl hl
  · exact .inr ⟨has, fun hk => lt_irrefl _ (h.lt_of_dropped hk hne ha)⟩

/-- After any offers the list holds the lowest of all that is known then. -/
theorem keepLowest_offerAll (h : Lowest key K L l) (as : List α) :
    Lowest key K (L ∪ {k | ∃ a ∈ as, key a = k}) (keepLowest key K (offerAll key l as)) where
  sorted := (strictly_sorted_sort (nodup_offerAll h.nodup as)).sublist (List.take_sublist K _)
  length_le := List.length_take_le K _
  known a ha := by
    rcases mem_offerAll (mem_of_mem_keepLowest ha) with hl | ⟨has, -⟩
    · exact .inl (h.known a hl)
    · exact .inr ⟨a, has, rfl⟩
  lowest k hk := by
    have hmember (b : α) (hb : b ∈ offerAll key l as) (hkey : key b = k) :
        (∃ a ∈ keepLowest key K (offerAll key l as), key a = k) ∨
          K ≤ (keepLowest key K (offerAll key l as)).length ∧
            ∀ a ∈ keepLowest key K (offerAll key l as), key a < k := by
      by_cases hkept : ∃ a ∈ keepLowest key K (offerAll key l as), key a = k
      · exact .inl hkept
      · push Not at hkept
        rcases mem_keepLowest_or key K hb with hin | ⟨hlen, hle⟩
        · exact absurd hkey (hkept b hin)
        · exact .inr ⟨hlen.ge, fun a ha =>
            lt_of_le_of_ne (hkey ▸ hle a ha) (hkept a ha)⟩
    rcases hk with hk | ⟨b, hb, hkey⟩
    · rcases h.lowest k hk with ⟨b, hb, hkey⟩ | ⟨hfull, hlt⟩
      · exact hmember b ((prefix_offerAll l as).subset hb) hkey
      · have hkept (a : α) (ha : a ∈ keepLowest key K (offerAll key l as)) : key a < k :=
          h.lt_of_dropped hk (fun b hb => ne_of_lt (hlt b hb)) ha
        have hlong : K ≤ (offerAll key l as).length :=
          hfull.trans (prefix_offerAll l as).length_le
        refine .inr ⟨?_, hkept⟩
        rw [keepLowest, List.length_take_of_le ((perm_sort key _).length_eq.symm ▸ hlong)]
    · obtain ⟨c, hc, hckey⟩ := exists_mem_offerAll key l hb
      exact hmember c hc (hckey.trans hkey)

end Lowest
end Tortor.Lib
