import Tortor.Net.SearchLaws

/-! Which contact an answer is put down to. -/

namespace Tortor.Net

open Tortor.Core (SocketAddr)
open Tortor.Lib

def QueryOutcome.settles : QueryOutcome → Bool
  | .reply response => response.r.isSome
  | .failed => true

namespace DhtSearch

def marked (c : Contact) (f : SearchContact → SearchContact) (sc : SearchContact) : SearchContact :=
  if sc.contact = c then f sc else sc

/-- The entry of `c` has taken the change `f`.  Besides, new contacts may have come in, and
contacts behind fifty closer ones may have been dropped. -/
structure Settled (s t : DhtSearch) (c : Contact) (f : SearchContact → SearchContact) : Prop where
  present : ∃ sc ∈ s.shortList, sc.contact = c
  kept : ∀ sc ∈ s.shortList, marked c f sc ∈ t.shortList ∨ t.shortList.length = 50 ∧
    ∀ other ∈ t.shortList, key s.infoHash other ≤ key s.infoHash sc
  others : ∀ sc ∈ t.shortList, (∃ old ∈ s.shortList, sc = marked c f old) ∨
    sc.state = .unqueried ∧ sc.token = [] ∧ ∀ old ∈ s.shortList, old.contact.id ≠ sc.contact.id

/-- An answer or its absence is put down to the contact that was asked, and the peers that came
with the answer have been forwarded. -/
def Attributed (s : DhtSearch) (input : SearchInput) : Prop :=
  ∀ c, s.joined input = some c →
    match input.outcome with
    | .failed => Settled s (s.step input) c fun sc => { sc with state := .failed }
    | .reply response => ∀ args, response.r = some args →
      (s.step input).forwarded =
        s.forwarded ++ (if (peersOf args).isEmpty then [] else [peersOf args]) ∧
      Settled s (s.step input) c fun sc => { sc with state := .queried, token := args.token }

/-- The contact that was asked is in the short list, once, and before any other entry with its
address. -/
def Found (s : DhtSearch) (input : SearchInput) : Prop :=
  ∀ c, s.joined input = some c → input.outcome.settles = true →
    ((s.shortList.find? fun sc => sc.contact.addr == c.addr).map (·.contact) = some c) ∧
      (s.shortList.map (·.contact)).count c = 1

instance (s : DhtSearch) (input : SearchInput) : Decidable (s.Found input) :=
  match h : s.joined input with
  | none => isTrue fun _ hc => absurd (h.symm.trans hc) nofun
  | some c => decidable_of_iff (input.outcome.settles = true →
      ((s.shortList.find? fun sc => sc.contact.addr == c.addr).map (·.contact) = some c) ∧
        (s.shortList.map (·.contact)).count c = 1)
      ⟨fun hall _ hc => Option.some.inj (h.symm.trans hc) ▸ hall, fun hall => hall c h⟩

theorem new_of_sorted {infoHash localId : NodeId} {initialNodes : List Contact}
    {announcePort : Option Nat}
    (h : (initialNodes.map SearchContact.new).Pairwise fun a b =>
      decide (infoHash.distance a.contact.id ≤ infoHash.distance b.contact.id) = true) :
    new infoHash localId initialNodes announcePort =
      ⟨infoHash, localId, announcePort, initialNodes.map .new, 0, [], false, [], [], [], [],
        initialNodes⟩ := by
  rw [new, sortByDistance, List.mergeSort_of_pairwise h]

variable {s t : DhtSearch} {c : Contact} {f : SearchContact → SearchContact} {sc : SearchContact}

theorem map_marked_of_count {l : List SearchContact} (h : (l.map (·.contact)).count c = 0) :
    l.map (marked c f) = l := by
  rw [List.count_eq_zero] at h
  have hid : l.map (marked c f) = l.map id :=
    List.map_congr_left fun sc hsc => if_neg fun he => h (by
      rw [← he]
      exact List.mem_map_of_mem hsc)
  rw [hid, List.map_id]

theorem set_eq_map_marked {l : List SearchContact} {idx : Nat} (hidx : l[idx]? = some sc)
    (hsc : sc.contact = c) (hcount : (l.map (·.contact)).count c = 1) :
    l.set idx (f sc) = l.map (marked c f) := by
  induction l generalizing idx with
  | nil => simp at hidx
  | cons head l ih =>
    rw [List.map_cons, List.count_cons] at hcount
    cases idx with
    | zero =>
      rw [List.getElem?_cons_zero, Option.some.injEq] at hidx
      subst hidx
      rw [beq_iff_eq.mpr hsc, if_pos rfl] at hcount
      rw [List.set_cons_zero, List.map_cons, map_marked_of_count (by omega), marked, if_pos hsc]
    | succ idx =>
      rw [List.getElem?_cons_succ] at hidx
      have hlater : 0 < (l.map (·.contact)).count c := by
        rw [List.count_pos_iff, ← hsc]
        exact List.mem_map_of_mem (List.mem_of_getElem? hidx)
      have hhead : head.contact ≠ c := by
        intro he
        rw [beq_iff_eq.mpr he, if_pos rfl] at hcount
        omega
      rw [beq_false_of_ne hhead] at hcount
      rw [List.set_cons_succ, List.map_cons, ih hidx (by simpa using hcount), marked, if_neg hhead]

theorem present_of_find (h : (s.shortList.find? fun sc => sc.contact.addr == c.addr) = some sc)
    (hsc : sc.contact = c) : ∃ sc ∈ s.shortList, sc.contact = c :=
  ⟨sc, List.mem_of_find?_eq_some h, hsc⟩

theorem settled_map (hpresent : ∃ sc ∈ s.shortList, sc.contact = c)
    (ht : t.shortList = s.shortList.map (marked c f)) : Settled s t c f where
  present := hpresent
  kept sc hsc := .inl (ht ▸ List.mem_map_of_mem hsc)
  others sc hsc := by
    rw [ht] at hsc
    obtain ⟨old, hold, rfl⟩ := List.mem_map.mp hsc
    exact .inl ⟨old, hold, rfl⟩

theorem Settled.addNodes {args : ResponseArgs} (hf : ∀ sc, (f sc).contact = sc.contact)
    (hinfo : t.infoHash = s.infoHash) (hpresent : ∃ sc ∈ s.shortList, sc.contact = c)
    (ht : t.shortList = s.shortList.map (marked c f)) : Settled s (t.addNodes args) c f := by
  have hcontact (sc : SearchContact) : (marked c f sc).contact = sc.contact := by
    unfold marked
    split
    · exact hf sc
    · rfl
  cases hfound : (foundIn args).isEmpty with
  | true =>
    have hsame : t.addNodes args = t := by rw [DhtSearch.addNodes, hfound, if_pos rfl]
    rw [hsame]
    exact settled_map hpresent ht
  | false =>
    have hlist := shortList_addNodes (s := t) hfound
    refine ⟨hpresent, fun sc hsc => ?_, fun sc hsc => ?_⟩
    · have hin : marked c f sc ∈ t.shortList := ht ▸ List.mem_map_of_mem hsc
      have hoffer : marked c f sc ∈ offerAll (key t.infoHash) t.shortList
          ((validNodes args).map .new) := (prefix_offerAll _ _).subset hin
      rw [hlist]
      rcases mem_keepLowest_or (key t.infoHash) 50 hoffer with hkept | ⟨hlen, hle⟩
      · exact .inl hkept
      · refine .inr ⟨hlen, fun other ho => ?_⟩
        have hother := hle other ho
        rwa [hinfo, show key s.infoHash (marked c f sc) = key s.infoHash sc by
          rw [key, key, hcontact]] at hother
    · rw [hlist] at hsc
      have hin : sc ∈ t.shortList ∨ sc ∈ (validNodes args).map .new ∧
          ∀ old ∈ t.shortList, key t.infoHash old ≠ key t.infoHash sc :=
        mem_offerAll (mem_of_mem_keepLowest hsc)
      rcases hin with hkept | ⟨hnew, hne⟩
      · rw [ht] at hkept
        obtain ⟨old, hold, rfl⟩ := List.mem_map.mp hkept
        exact .inl ⟨old, hold, rfl⟩
      · obtain ⟨contact, -, rfl⟩ := List.mem_map.mp hnew
        refine .inr ⟨rfl, rfl, fun old hold hid => ?_⟩
        have hin : marked c f old ∈ t.shortList := ht ▸ List.mem_map_of_mem hold
        exact hne _ hin (key_eq_iff.mpr ((congrArg Contact.id (hcontact old)).trans hid))

theorem forwarded_addNodes (s : DhtSearch) (args : ResponseArgs) :
    (s.addNodes args).forwarded = s.forwarded := by
  unfold addNodes
  split <;> rfl

theorem attributed_of_found (s : DhtSearch) (input : SearchInput) (h : s.Found input) :
    s.Attributed input := by
  intro c hc
  have hfound := h c hc
  rw [joined_step hc]
  let u : DhtSearch := { s with inFlight := s.inFlight.eraseIdx (input.next % s.inFlight.length) }
  have htaken : Taken u c.addr input.outcome (u.takeOutcome c.addr input.outcome) :=
    taken_takeOutcome u c.addr input.outcome
  generalize u.takeOutcome c.addr input.outcome = t at htaken
  generalize input.outcome = outcome at htaken hfound
  by_cases hsettles : outcome.settles
  case neg =>
    cases outcome with
    | failed => exact absurd rfl hsettles
    | reply response => exact fun args ha => absurd (by rw [QueryOutcome.settles, ha]; rfl) hsettles
  obtain ⟨hfind, hcount⟩ := hfound hsettles
  obtain ⟨first, hfirst, hcontact⟩ := Option.map_eq_some_iff.mp hfind
  have hpresent := present_of_find hfirst hcontact
  have hset {idx : Nat} {sc : SearchContact} (hidx : u.shortList[idx]? = some sc)
      (hsc : u.shortList.find? (fun sc => sc.contact.addr == c.addr) = some sc)
      (f : SearchContact → SearchContact) :
      u.shortList.set idx (f sc) = s.shortList.map (marked c f) := by
    have heq : first = sc := Option.some.inj (hfirst.symm.trans hsc)
    exact set_eq_map_marked hidx (heq ▸ hcontact) hcount
  cases htaken with
  | lost hnone =>
    obtain ⟨sc, hsc, he⟩ := hpresent
    exact absurd (congrArg Contact.addr he) (hnone sc hsc)
  | failed hidx hsc =>
    exact settled_map hpresent (hset hidx hsc fun sc => { sc with state := .failed })
  | other _ _ hr => exact fun args ha => absurd (hr.symm.trans ha) nofun
  | @replied idx sc response args hidx hsc hr =>
    intro args' ha
    rw [hr, Option.some.injEq] at ha
    subst ha
    refine ⟨?_, Settled.addNodes (fun _ => rfl) rfl hpresent
      (hset hidx hsc fun sc => { sc with state := .queried, token := args.token })⟩
    rw [forwarded_addNodes]
    change (if (peersOf args).isEmpty then s.forwarded else _) = _
    split
    · exact (List.append_nil _).symm
    · rfl

/-- Two nodes behind one address: the answer of the second is put down to the first. -/
theorem replies_misattributed :
    let a : Contact := ⟨⟨List.replicate 20 1, rfl⟩, .v4 0x0a000001 6881⟩
    let b : Contact := ⟨⟨List.replicate 20 2, rfl⟩, .v4 0x0a000001 6881⟩
    let answer : KrpcMessage := ⟨none, none, some ⟨b.id.bytes, [], [], [7], []⟩, [0, 2], "r"⟩
    let query : SearchInput := ⟨true, 0, .failed, fun _ => true⟩
    ¬ Along step Attributed (new ⟨List.replicate 20 0, rfl⟩ a.id [a, b] none)
      [query, query, ⟨true, 1, .reply answer, fun _ => true⟩] := by
  intro a b answer query h
  rw [new_of_sorted (by decide)] at h
  have hjoined : joined (exec step
      ⟨⟨List.replicate 20 0, rfl⟩, a.id, none, [.new a, .new b], 0, [], false, [], [], [], [], [a, b]⟩
      [query, query]) ⟨true, 1, .reply answer, fun _ => true⟩ = some b := by
    decide
  have hattributed := h.2.2.1 b hjoined ⟨b.id.bytes, [], [], [7], []⟩ rfl
  have hkept := hattributed.2.kept ⟨b, .inFlight, []⟩ (by decide +kernel)
  rcases hkept with hmarked | ⟨hlen, -⟩
  · revert hmarked
    decide +kernel
  · revert hlen
    decide +kernel

/-- A run in which every contact that was asked is still found under its address: no answer is
lost and none is put down to another contact. -/
theorem replies_attributed (infoHash localId : NodeId) (initialNodes : List Contact)
    (announcePort : Option Nat) (inputs : List SearchInput)
    (h : Along step Found (new infoHash localId initialNodes announcePort) inputs) :
    Along step Attributed (new infoHash localId initialNodes announcePort) inputs :=
  h.mono attributed_of_found

theorem replies_attributed_answered :
    let a : Contact := ⟨⟨List.replicate 20 1, rfl⟩, .v4 0x0a000001 6881⟩
    let b : Contact := ⟨⟨List.replicate 20 2, rfl⟩, .v4 0x0a000002 6881⟩
    let answer : KrpcMessage := ⟨none, none, some ⟨b.id.bytes, [], [], [7], []⟩, [0, 2], "r"⟩
    let query : SearchInput := ⟨true, 0, .failed, fun _ => true⟩
    Along step Attributed (new ⟨List.replicate 20 0, rfl⟩ a.id [a, b] none)
      [query, query, ⟨true, 1, .reply answer, fun _ => true⟩, query] := by
  intro a b answer query
  apply replies_attributed
  rw [new_of_sorted (by decide)]
  decide +kernel

end DhtSearch
end Tortor.Net
