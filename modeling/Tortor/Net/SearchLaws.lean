import Mathlib.Data.Finset.Card
import Tortor.Lib.Lowest
import Tortor.Lib.Run
import Tortor.Net.Search

namespace Tortor.Net.DhtSearch

open Tortor.Core (SocketAddr)
open Tortor.Lib

def key (infoHash : NodeId) (sc : SearchContact) : Nat := infoHash.distance sc.contact.id

theorem key_eq_iff {infoHash : NodeId} {a b : SearchContact} :
    key infoHash a = key infoHash b ↔ a.contact.id = b.contact.id :=
  ⟨NodeId.distance_inj, fun h => congrArg infoHash.distance h⟩

def distances (infoHash : NodeId) (contacts : List Contact) : Set Nat :=
  {k | ∃ c ∈ contacts, infoHash.distance c.id = k}

theorem shortList_addNodes {s : DhtSearch} {args : ResponseArgs} (h : (foundIn args).isEmpty = false) :
    (s.addNodes args).shortList =
      keepLowest (key s.infoHash) 50
        (offerAll (key s.infoHash) s.shortList ((validNodes args).map .new)) := by
  have hoffer (l : List SearchContact) (c : Contact) :
      (if l.any fun existing => existing.contact.id == c.id then l else l ++ [.new c]) =
        offer (key s.infoHash) l (.new c) := by
    have hsame : (fun existing : SearchContact => existing.contact.id == c.id) =
        fun existing => key s.infoHash existing == key s.infoHash (.new c) := by
      funext existing
      rw [Bool.eq_iff_iff, beq_iff_eq, beq_iff_eq, key_eq_iff]
      rfl
    rw [offer, hsame]
  simp only [addNodes, h, Bool.false_eq_true, if_false, keepLowest, sortByDistance, offerAll,
    List.foldl_map, hoffer]
  rfl

theorem exists_of_findIdx? {p : SearchContact → Bool} {l : List SearchContact} {idx : Nat}
    (h : l.findIdx? p = some idx) : ∃ sc, l[idx]? = some sc ∧ l.find? p = some sc := by
  obtain ⟨hlt, hp, hbefore⟩ := List.findIdx?_eq_some_iff_getElem.mp h
  refine ⟨l[idx], List.getElem?_eq_getElem hlt, ?_⟩
  exact List.find?_eq_some_iff_getElem.mpr ⟨hp, idx, hlt, rfl, fun j hj => by simpa using hbefore j hj⟩

inductive Taken (s : DhtSearch) (addr : SocketAddr) : QueryOutcome → DhtSearch → Prop
  | lost {outcome : QueryOutcome} (h : ∀ sc ∈ s.shortList, sc.contact.addr ≠ addr) :
    Taken s addr outcome s
  | failed {idx : Nat} {sc : SearchContact} (hidx : s.shortList[idx]? = some sc)
    (hfirst : s.shortList.find? (fun sc => sc.contact.addr == addr) = some sc) :
    Taken s addr .failed { s with shortList := s.shortList.set idx { sc with state := .failed } }
  | other {idx : Nat} {sc : SearchContact} {response : KrpcMessage}
    (hidx : s.shortList[idx]? = some sc)
    (hfirst : s.shortList.find? (fun sc => sc.contact.addr == addr) = some sc)
    (hr : response.r = none) :
    Taken s addr (.reply response)
      { s with shortList := s.shortList.set idx { sc with state := .queried } }
  | replied {idx : Nat} {sc : SearchContact} {response : KrpcMessage} {args : ResponseArgs}
    (hidx : s.shortList[idx]? = some sc)
    (hfirst : s.shortList.find? (fun sc => sc.contact.addr == addr) = some sc)
    (hr : response.r = some args) :
    Taken s addr (.reply response)
      ({ s with
        shortList := s.shortList.set idx { sc with state := .queried, token := args.token }
        forwarded := if (peersOf args).isEmpty then s.forwarded
          else s.forwarded ++ [peersOf args] }.addNodes args)

theorem taken_takeOutcome (s : DhtSearch) (addr : SocketAddr) (outcome : QueryOutcome) :
    Taken s addr outcome (s.takeOutcome addr outcome) := by
  unfold takeOutcome
  cases hidx : s.shortList.findIdx? fun sc => sc.contact.addr == addr with
  | none =>
    rw [List.findIdx?_eq_none_iff] at hidx
    exact .lost fun sc hsc => by simpa using hidx sc hsc
  | some idx =>
    obtain ⟨sc, hsc, hfirst⟩ := exists_of_findIdx? hidx
    simp only [hsc]
    cases outcome with
    | failed => exact .failed hsc hfirst
    | reply response =>
      cases hr : response.r with
      | none =>
        simp only [hr]
        exact .other hsc hfirst hr
      | some args =>
        simp only [hr]
        exact .replied hsc hfirst hr

inductive Stepped (s : DhtSearch) (input : SearchInput) : DhtSearch → Prop
  | rest (h : s.ended = true) : Stepped s input s
  | query {idx : Nat} {sc : SearchContact} (hrun : s.ended = false)
    (hidx : s.shortList[idx]? = some sc) (hstate : sc.state = .unqueried)
    (hroom : s.inFlight.length < ALPHA) : Stepped s input (s.sendQuery idx sc input.sent)
  | stop (hrun : s.ended = false) (hempty : s.inFlight = [])
    (hnone : ∀ sc ∈ s.shortList, sc.state ≠ .unqueried) :
    Stepped s input
      { s with ended := true, announcements := s.announceToClosest input.announced }
  | joined {i : Nat} {contact : Contact} (hrun : s.ended = false)
    (hi : s.inFlight[i]? = some contact) (hnext : i = input.next % s.inFlight.length) :
    Stepped s input
      ({ s with inFlight := s.inFlight.eraseIdx i }.takeOutcome contact.addr input.outcome)

theorem stepped_step (s : DhtSearch) (input : SearchInput) : Stepped s input (s.step input) := by
  have hjoin (hrun : s.ended = false) (hne : s.inFlight ≠ []) :
      Stepped s input (s.joinNext input) := by
    have hlt : input.next % s.inFlight.length < s.inFlight.length :=
      Nat.mod_lt _ (List.length_pos_iff.mpr hne)
    unfold joinNext
    simp only [List.getElem?_eq_getElem hlt]
    exact .joined hrun (List.getElem?_eq_getElem hlt) rfl
  unfold step
  split
  case isTrue hended => exact .rest hended
  case isFalse hrun =>
    rw [Bool.not_eq_true] at hrun
    split
    case isTrue hroom =>
      split
      case h_1 hnone =>
        unfold join
        split
        case isTrue hempty =>
          apply Stepped.stop hrun (List.isEmpty_iff.mp hempty)
          rw [nextUnqueried, List.findIdx?_eq_none_iff] at hnone
          exact fun sc hsc => by simpa using hnone sc hsc
        case isFalse hempty => exact hjoin hrun fun he => hempty (List.isEmpty_iff.mpr he)
      case h_2 idx hidx =>
        obtain ⟨sc, hsc, hfirst⟩ := exists_of_findIdx? hidx
        simp only [hsc]
        exact .query hrun hsc (by simpa using List.find?_some hfirst) hroom
    case isFalse hfull =>
      have hne : s.inFlight ≠ [] := by
        intro he
        rw [he] at hfull
        exact hfull (by decide)
      unfold join
      rw [if_neg (by simpa using hne)]
      exact hjoin hrun hne

def joined (s : DhtSearch) (input : SearchInput) : Option Contact :=
  if s.ended || (decide (s.inFlight.length < ALPHA) && s.nextUnqueried.isSome) then none
  else s.inFlight[input.next % s.inFlight.length]?

def offered : QueryOutcome → List Contact
  | .failed => []
  | .reply response => (response.r.map validNodes).getD []

/-- The valid nodes of the reply that the next step processes: without an entry for the address
that was asked, the reply is dropped. -/
def learns (s : DhtSearch) (input : SearchInput) : List Contact :=
  match s.joined input with
  | none => []
  | some c =>
    if s.shortList.any fun sc => sc.contact.addr == c.addr then offered input.outcome else []

variable {s t : DhtSearch} {input : SearchInput}

theorem joined_step {c : Contact} (h : s.joined input = some c) :
    s.step input = { s with inFlight := s.inFlight.eraseIdx (input.next % s.inFlight.length)
      }.takeOutcome c.addr input.outcome := by
  unfold joined at h
  split at h
  · cases h
  case isFalse hguard =>
    have hne : s.inFlight.isEmpty = false := by
      cases hempty : s.inFlight with
      | nil => rw [hempty] at h; simp at h
      | cons => rfl
    have hrest : s.join input = { s with
        inFlight := s.inFlight.eraseIdx (input.next % s.inFlight.length)
        }.takeOutcome c.addr input.outcome := by
      simp only [join, hne, Bool.false_eq_true, if_false, joinNext, h]
    rw [← hrest, step]
    simp only [Bool.or_eq_true, Bool.and_eq_true, decide_eq_true_eq, not_or, not_and,
      Option.isSome_iff_ne_none, ne_eq, not_not] at hguard
    rw [if_neg hguard.1]
    split
    case isTrue hroom => rw [hguard.2 hroom]
    case isFalse => rfl

theorem learned_of_not_joined (h : s.joined input = none) : (s.step input).learned = s.learned := by
  unfold joined at h
  unfold step
  split
  case isTrue => rfl
  case isFalse hrun =>
    rw [Bool.not_eq_true] at hrun
    rw [hrun, Bool.false_or] at h
    have hjoin (hguard : ¬(decide (s.inFlight.length < ALPHA) && s.nextUnqueried.isSome) = true) :
        (s.join input).learned = s.learned := by
      rw [if_neg hguard] at h
      unfold join
      split
      case isTrue => rfl
      case isFalse => rw [joinNext, h]
    split
    case isTrue hroom =>
      split
      case h_1 hnone => exact hjoin (by simp [hnone])
      case h_2 idx hidx => split <;> rfl
    case isFalse hfull => exact hjoin (by simp [hfull])

theorem learned_addNodes (s : DhtSearch) (args : ResponseArgs) :
    (s.addNodes args).learned = s.learned ++ validNodes args := by
  unfold addNodes
  split
  case isTrue hempty =>
    rw [validNodes, List.isEmpty_iff.mp hempty, List.filter_nil, List.append_nil]
  case isFalse => rfl

theorem Taken.learned {addr : SocketAddr} {outcome : QueryOutcome} (h : Taken s addr outcome t) :
    t.learned = s.learned ++
      if s.shortList.any fun sc => sc.contact.addr == addr then offered outcome else [] := by
  have hany {sc : SearchContact}
      (hfirst : s.shortList.find? (fun sc => sc.contact.addr == addr) = some sc) :
      (s.shortList.any fun sc => sc.contact.addr == addr) = true := by
    have haddr := List.find?_some hfirst
    exact List.any_eq_true.mpr ⟨sc, List.mem_of_find?_eq_some hfirst, haddr⟩
  cases h with
  | lost h =>
    have hnone : (s.shortList.any fun sc => sc.contact.addr == addr) = false := by
      rw [List.any_eq_false]
      exact fun sc hsc => by simpa using h sc hsc
    rw [hnone, if_neg Bool.false_ne_true, List.append_nil]
  | failed _ hfirst => rw [hany hfirst, if_pos rfl, offered, List.append_nil]
  | other _ hfirst hr => simp [hany hfirst, offered, hr]
  | replied _ hfirst hr => rw [learned_addNodes, hany hfirst, if_pos rfl, offered, hr]; rfl

theorem learned_step (s : DhtSearch) (input : SearchInput) :
    (s.step input).learned = s.learned ++ s.learns input := by
  unfold learns
  cases h : s.joined input with
  | none => rw [learned_of_not_joined h, List.append_nil]
  | some c =>
    rw [joined_step h]
    exact (taken_takeOutcome _ _ _).learned

theorem learns_subset {c : Contact} (h : c ∈ s.learns input) : c ∈ offered input.outcome := by
  unfold learns at h
  split at h
  · cases h
  · split at h
    · exact h
    · cases h

/-- The short list is exactly the closest of what was learned, nobody in it who was asked is asked
again, and the search ends only when nobody is left to ask. -/
structure Sound (s : DhtSearch) : Prop where
  lowest : Lowest (key s.infoHash) 50 (distances s.infoHash s.learned) s.shortList
  contacts : ∀ sc ∈ s.shortList, sc.contact ∈ s.learned
  known : ∀ q ∈ s.queries, q.contact ∈ s.learned
  asked : ∀ q ∈ s.queries, ∀ sc ∈ s.shortList, sc.contact.id = q.contact.id → sc.state ≠ .unqueried
  once : (s.queries.map (·.contact.id)).Nodup
  width : s.inFlight.length ≤ ALPHA
  finished : s.ended = true → s.inFlight = [] ∧ ∀ sc ∈ s.shortList, sc.state ≠ .unqueried

theorem map_key_set {sc sc' : SearchContact} {idx : Nat} {infoHash : NodeId}
    (hidx : s.shortList[idx]? = some sc) (hcontact : sc'.contact = sc.contact) :
    (s.shortList.set idx sc').map (key infoHash) = s.shortList.map (key infoHash) := by
  obtain ⟨hlt, rfl⟩ := List.getElem?_eq_some_iff.mp hidx
  have hmap : idx < (s.shortList.map (key infoHash)).length := by rwa [List.length_map]
  have hkey : key infoHash sc' = (s.shortList.map (key infoHash))[idx] := by
    rw [List.getElem_map, key, key, hcontact]
  rw [List.map_set, hkey, List.set_getElem_self]

theorem Sound.of_set (h : s.Sound) {idx : Nat} {sc sc' : SearchContact}
    (hidx : s.shortList[idx]? = some sc) (hcontact : sc'.contact = sc.contact)
    (hstate : sc'.state ≠ .unqueried) (hrun : s.ended = false) :
    { s with shortList := s.shortList.set idx sc' }.Sound where
  lowest := h.lowest.of_map_eq (map_key_set hidx hcontact)
  contacts other ho := by
    rcases List.mem_or_eq_of_mem_set ho with ho | rfl
    · exact h.contacts other ho
    · exact hcontact ▸ h.contacts sc (List.mem_of_getElem? hidx)
  known := h.known
  asked q hq other ho hid := by
    rcases List.mem_or_eq_of_mem_set ho with ho | rfl
    · exact h.asked q hq other ho hid
    · exact hstate
  once := h.once
  width := h.width
  finished he := by
    change s.ended = true at he
    rw [hrun] at he
    cases he

theorem Sound.addNodes (h : s.Sound) (args : ResponseArgs) (hrun : s.ended = false) :
    (s.addNodes args).Sound := by
  cases hfound : (foundIn args).isEmpty with
  | true => rwa [DhtSearch.addNodes, hfound, if_pos rfl]
  | false =>
    have hlist := shortList_addNodes (s := s) hfound
    have hlearned := learned_addNodes s args
    have hsame : (s.addNodes args).infoHash = s.infoHash ∧ (s.addNodes args).queries = s.queries ∧
        (s.addNodes args).inFlight = s.inFlight ∧ (s.addNodes args).ended = s.ended := by
      simp [DhtSearch.addNodes, hfound]
    obtain ⟨hinfo, hqueries, hflight, hended⟩ := hsame
    have hkeys : distances s.infoHash (s.learned ++ validNodes args) =
        distances s.infoHash s.learned ∪
          {k | ∃ a ∈ (validNodes args).map SearchContact.new, key s.infoHash a = k} := by
      ext k
      simp [distances, key, SearchContact.new, or_and_right, exists_or]
    have hnew := fun (sc : SearchContact) (hsc : sc ∈ (s.addNodes args).shortList) =>
      h.lowest.mem_or_new (hlist ▸ hsc)
    constructor
    · rw [hinfo, hlist, hlearned, hkeys]
      exact h.lowest.keepLowest_offerAll _
    · intro sc hsc
      rw [hlearned, List.mem_append]
      rcases hnew sc hsc with hold | ⟨hfresh, -⟩
      · exact .inl (h.contacts sc hold)
      · obtain ⟨c, hc, rfl⟩ := List.mem_map.mp hfresh
        exact .inr hc
    · intro q hq
      rw [hlearned, List.mem_append]
      exact .inl (h.known q (hqueries ▸ hq))
    · intro q hq sc hsc hid
      rw [hqueries] at hq
      rcases hnew sc hsc with hold | ⟨-, hunknown⟩
      · exact h.asked q hq sc hold hid
      · refine absurd ⟨q.contact, h.known q hq, ?_⟩ hunknown
        rw [key, hid]
    · rw [hqueries]
      exact h.once
    · rw [hflight]
      exact h.width
    · intro he
      rw [hended, hrun] at he
      cases he

theorem Sound.sendQuery (h : s.Sound) {idx : Nat} {sc : SearchContact}
    (hidx : s.shortList[idx]? = some sc) (hstate : sc.state = .unqueried)
    (hroom : s.inFlight.length < ALPHA) (hrun : s.ended = false) (sent : Bool) :
    (s.sendQuery idx sc sent).Sound := by
  let asked : SearchContact := { sc with state := .inFlight }
  have hset := h.of_set hidx (show asked.contact = sc.contact from rfl) nofun hrun
  have hsc := List.mem_of_getElem? hidx
  have hlt := (List.getElem?_eq_some_iff.mp hidx).1
  refine ⟨hset.lowest, hset.contacts, fun q hq => ?_, fun q hq other ho hid => ?_, ?_, ?_, ?_⟩
  · rcases List.mem_append.mp hq with hq | hq
    · exact h.known q hq
    · rw [List.mem_singleton.mp hq]
      exact h.contacts sc hsc
  · rcases List.mem_append.mp hq with hq | hq
    · exact hset.asked q hq other ho hid
    · rw [List.mem_singleton.mp hq] at hid
      rw [hset.lowest.eq_of_key_eq ho (List.mem_set hlt asked) (key_eq_iff.mpr hid)]
      nofun
  · change ((s.queries ++ [_]).map _).Nodup
    rw [List.map_append, List.nodup_append]
    refine ⟨h.once, List.nodup_singleton _, fun id hid id' hid' => ?_⟩
    obtain ⟨q, hq, rfl⟩ := List.mem_map.mp hid
    rw [List.map_singleton, List.mem_singleton] at hid'
    rintro rfl
    exact h.asked q hq sc hsc hid'.symm hstate
  · simp only [DhtSearch.sendQuery]
    split
    · rw [List.length_append]
      exact hroom
    · exact h.width
  · intro he
    change s.ended = true at he
    rw [hrun] at he
    cases he

theorem Sound.takeOutcome (h : s.Sound) {addr : SocketAddr} {outcome : QueryOutcome}
    (hrun : s.ended = false) (ht : Taken s addr outcome t) : t.Sound := by
  cases ht with
  | lost => exact h
  | failed hidx => exact h.of_set hidx rfl nofun hrun
  | other hidx => exact h.of_set hidx rfl nofun hrun
  | @replied idx sc _ args hidx =>
    have hset := h.of_set hidx
      (show ({ sc with state := .queried, token := args.token } : SearchContact).contact = sc.contact
        from rfl) nofun hrun
    have hforwarded := { hset with : Sound { s with
      shortList := s.shortList.set idx { sc with state := .queried, token := args.token }
      forwarded := if (peersOf args).isEmpty then s.forwarded
        else s.forwarded ++ [peersOf args] } }
    exact hforwarded.addNodes args hrun

theorem Sound.step (h : s.Sound) (input : SearchInput) : (s.step input).Sound := by
  have hstep := stepped_step s input
  generalize s.step input = t at hstep
  cases hstep with
  | rest => exact h
  | query hrun hidx hstate hroom => exact h.sendQuery hidx hstate hroom hrun input.sent
  | stop hrun hempty hnone => exact { h with finished := fun _ => ⟨hempty, hnone⟩ }
  | @joined i contact hrun hi hnext =>
    have hwidth : (s.inFlight.eraseIdx i).length ≤ ALPHA :=
      (List.length_eraseIdx_le s.inFlight i).trans h.width
    have hjoined : Sound { s with inFlight := s.inFlight.eraseIdx i } :=
      { h with width := hwidth, finished := fun he => absurd (hrun.symm.trans he) nofun }
    exact hjoined.takeOutcome hrun (taken_takeOutcome _ _ _)

theorem sound_new (infoHash localId : NodeId) {initialNodes : List Contact}
    (hlen : initialNodes.length ≤ 50) (hids : (initialNodes.map (·.id)).Nodup)
    (announcePort : Option Nat) : (new infoHash localId initialNodes announcePort).Sound := by
  have hkeys : ((initialNodes.map SearchContact.new).map (key infoHash)).Nodup := by
    rw [List.map_map]
    have hinj := hids.map (f := infoHash.distance) fun a b => NodeId.distance_inj
    rwa [List.map_map] at hinj
  have hsort := Lowest.sort (K := 50) (by rwa [List.length_map]) hkeys
  have hmem {sc : SearchContact} (hsc : sc ∈ sortByDistance infoHash (initialNodes.map .new)) :
      sc ∈ initialNodes.map SearchContact.new := (perm_sort (key infoHash) _).mem_iff.mp hsc
  refine ⟨?_, fun sc hsc => ?_, nofun, nofun, List.nodup_nil, Nat.zero_le _, nofun⟩
  · have hlearned : distances infoHash initialNodes =
        {k | ∃ a ∈ initialNodes.map SearchContact.new, key infoHash a = k} := by
      ext k
      simp [distances, key, SearchContact.new]
    change Lowest (key infoHash) 50 (distances infoHash initialNodes) _
    rw [hlearned]
    exact hsort
  · obtain ⟨c, hc, rfl⟩ := List.mem_map.mp (hmem hsc)
    exact hc

theorem addNodes_same (s : DhtSearch) (args : ResponseArgs) :
    (s.addNodes args).queries = s.queries ∧ (s.addNodes args).inFlight = s.inFlight ∧
      (s.addNodes args).ended = s.ended ∧ (s.addNodes args).infoHash = s.infoHash := by
  unfold addNodes
  split <;> exact ⟨rfl, rfl, rfl, rfl⟩

theorem Taken.same {addr : SocketAddr} {outcome : QueryOutcome} (h : Taken s addr outcome t) :
    t.queries = s.queries ∧ t.inFlight = s.inFlight ∧ t.ended = s.ended ∧
      t.infoHash = s.infoHash := by
  cases h with
  | lost => exact ⟨rfl, rfl, rfl, rfl⟩
  | failed => exact ⟨rfl, rfl, rfl, rfl⟩
  | other => exact ⟨rfl, rfl, rfl, rfl⟩
  | replied => exact addNodes_same _ _

def Within (ids : Finset NodeId) (s : DhtSearch) : Prop := ∀ c ∈ s.learned, c.id ∈ ids

/-- Every step but the last one sends a query to a new id or finishes one. -/
def rank (ids : Finset NodeId) (s : DhtSearch) : Nat :=
  2 * (ids.card - s.queries.length) + s.inFlight.length + if s.ended then 0 else 1

variable {ids : Finset NodeId}

theorem length_queries_le (h : s.Sound) (hw : s.Within ids) : s.queries.length ≤ ids.card := by
  have hsub : (s.queries.map (·.contact.id)).toFinset ⊆ ids := by
    intro id hid
    obtain ⟨q, hq, rfl⟩ := List.mem_map.mp (List.mem_toFinset.mp hid)
    exact hw q.contact (h.known q hq)
  calc
    s.queries.length = (s.queries.map (·.contact.id)).toFinset.card := by
      rw [List.toFinset_card_of_nodup h.once, List.length_map]
    _ ≤ ids.card := Finset.card_le_card hsub

theorem within_step (hw : s.Within ids)
    (hoffered : ∀ c ∈ offered input.outcome, c.id ∈ ids) : (s.step input).Within ids := by
  intro c hc
  rw [learned_step, List.mem_append] at hc
  rcases hc with hc | hc
  · exact hw c hc
  · exact hoffered c (learns_subset hc)

theorem exec_of_ended (h : s.ended = true) (inputs : List SearchInput) :
    exec DhtSearch.step s inputs = s := by
  induction inputs with
  | nil => rfl
  | cons input inputs ih =>
    have hstep : s.step input = s := by rw [DhtSearch.step, if_pos h]
    rw [exec_cons, hstep, ih]

theorem rank_step (h : s.Sound) (hw : s.Within ids) (input : SearchInput) (hrun : s.ended = false) :
    (s.step input).rank ids < s.rank ids := by
  have hstep := stepped_step s input
  have hsound := h.step input
  generalize s.step input = t at hstep hsound
  cases hstep with
  | rest hended =>
    rw [hrun] at hended
    cases hended
  | @query idx sc _ hidx =>
    have hle := length_queries_le hsound hw
    change (s.queries ++ [_]).length ≤ ids.card at hle
    rw [List.length_append, List.length_singleton] at hle
    simp only [rank, sendQuery, List.length_append, List.length_singleton, hrun]
    split <;> simp <;> omega
  | stop _ hempty _ => simp [rank, hempty, hrun]
  | @joined i contact _ hi =>
    obtain ⟨hqueries, hflight, hended, -⟩ := Taken.same
      (taken_takeOutcome { s with inFlight := s.inFlight.eraseIdx i } contact.addr input.outcome)
    have hlt := (List.getElem?_eq_some_iff.mp hi).1
    have hlen := List.length_eraseIdx_of_lt hlt
    rw [rank, rank, hqueries, hflight, hended]
    simp only [hrun, hlen]
    omega

theorem rank_exec (h : s.Sound) (hw : s.Within ids) {inputs : List SearchInput}
    (hoffered : ∀ input ∈ inputs, ∀ c ∈ offered input.outcome, c.id ∈ ids)
    (hrun : (exec DhtSearch.step s inputs).ended = false) :
    (exec DhtSearch.step s inputs).rank ids + inputs.length ≤ s.rank ids := by
  induction inputs generalizing s with
  | nil => exact Nat.le_refl _
  | cons input inputs ih =>
    have hs : s.ended = false := by
      cases hended : s.ended with
      | false => rfl
      | true => rw [exec_of_ended hended, hended] at hrun; cases hrun
    have hrest := ih (h.step input) (within_step hw (hoffered input List.mem_cons_self))
      (fun i hi => hoffered i (List.mem_cons_of_mem input hi)) hrun
    have hdown := rank_step h hw input hs
    rw [exec_cons, List.length_cons]
    omega

theorem infoHash_step (s : DhtSearch) (input : SearchInput) : (s.step input).infoHash = s.infoHash := by
  have hstep := stepped_step s input
  generalize s.step input = t at hstep
  cases hstep with
  | joined => exact (taken_takeOutcome _ _ _).same.2.2.2
  | _ => rfl

/-- Nobody is asked twice, at most three are asked at a time, the short list is the closest of
all that were learned, and with finitely many ids on offer the search comes to an end, where
everybody in the list has been asked. -/
theorem search_converges (infoHash localId : NodeId) (initialNodes : List Contact)
    (hlen : initialNodes.length ≤ 50) (hids : (initialNodes.map (·.id)).Nodup)
    (announcePort : Option Nat) (inputs : List SearchInput) :
    let s := exec DhtSearch.step (new infoHash localId initialNodes announcePort) inputs
    (s.queries.map (·.contact.id)).Nodup ∧ s.inFlight.length ≤ 3 ∧
      (s.shortList.map (·.contact.id)).Nodup ∧ s.shortList.length ≤ 50 ∧
      (s.shortList.Pairwise fun a b => (a.contact.id.xor infoHash).key < (b.contact.id.xor infoHash).key) ∧
      (∀ c, c ∈ s.learned ↔ c ∈ initialNodes ∨ ∃ k input, inputs[k]? = some input ∧
        c ∈ (exec DhtSearch.step (new infoHash localId initialNodes announcePort)
          (inputs.take k)).learns input) ∧
      (∀ sc ∈ s.shortList, sc.contact ∈ s.learned) ∧
      (∀ c ∈ s.learned, (∃ sc ∈ s.shortList, sc.contact.id = c.id) ∨ s.shortList.length = 50 ∧
        ∀ sc ∈ s.shortList, (sc.contact.id.xor infoHash).key < (c.id.xor infoHash).key) ∧
      (∀ ids : Finset NodeId, (∀ c ∈ initialNodes, c.id ∈ ids) →
        (∀ input ∈ inputs, ∀ c ∈ offered input.outcome, c.id ∈ ids) →
        2 * ids.card < inputs.length → s.ended = true) ∧
      (s.ended = true → s.inFlight = [] ∧ ∀ sc ∈ s.shortList, sc.state ≠ .unqueried) := by
  intro s
  have hstart := sound_new infoHash localId hlen hids announcePort
  have hsound : s.Sound := exec_invariant (P := Sound) (fun s i h => h.step i) inputs hstart
  have hinfo : s.infoHash = infoHash :=
    exec_invariant (P := fun s => s.infoHash = infoHash)
      (fun s i h => (infoHash_step s i).trans h) inputs rfl
  have hlowest := hsound.lowest
  rw [hinfo] at hlowest
  refine ⟨hsound.once, hsound.width, ?_, hlowest.length_le, hlowest.sorted,
    fun c => mem_log_exec learned_step, hsound.contacts, ?_, ?_, hsound.finished⟩
  · refine List.pairwise_map.mpr (hlowest.sorted.imp fun {a b} hlt hid => ?_)
    exact Nat.ne_of_lt hlt (key_eq_iff.mpr hid)
  · intro c hc
    rcases hlowest.lowest (infoHash.distance c.id) ⟨c, hc, rfl⟩ with ⟨sc, hsc, hkey⟩ | ⟨hfull, hlt⟩
    · exact .inl ⟨sc, hsc, NodeId.distance_inj hkey⟩
    · exact .inr ⟨Nat.le_antisymm hlowest.length_le hfull, hlt⟩
  · intro ids hinitial hoffered hmany
    by_contra hrun
    rw [Bool.not_eq_true] at hrun
    have hrank := rank_exec hstart hinitial hoffered hrun
    have hstartRank : (new infoHash localId initialNodes announcePort).rank ids =
      2 * ids.card + 1 := rfl
    have hleft : s.rank ids ≥ 1 := by
      rw [rank, hrun]
      simp
    change s.rank ids + _ ≤ _ at hrank
    omega

theorem search_converges_answered :
    let a : Contact := ⟨⟨List.replicate 20 1, rfl⟩, .v4 0x0a000001 6881⟩
    let b : Contact := ⟨⟨List.replicate 20 2, rfl⟩, .v4 0x0a000002 6881⟩
    let nodes := b.id.bytes ++ [10, 0, 0, 2, 26, 225]
    let reply : KrpcMessage := ⟨none, none, some ⟨a.id.bytes, nodes, [], [7], []⟩, [0, 1], "r"⟩
    let input : SearchInput := ⟨true, 0, .failed, fun _ => true⟩
    let s := exec DhtSearch.step (new a.id b.id [a] none)
      [input, { input with outcome := .reply reply }, input, input, input]
    s.ended = true ∧ b ∈ s.learned := by
  intro a b nodes reply input s
  have hconverges := search_converges a.id b.id [a] (by decide) (by decide) none
    [input, { input with outcome := .reply reply }, input, input, input]
  refine ⟨hconverges.2.2.2.2.2.2.2.2.1 {a.id, b.id} (by simp) ?_ (by decide), ?_⟩
  · decide +kernel
  · refine (hconverges.2.2.2.2.2.1 b).mpr (.inr ⟨1, { input with outcome := .reply reply }, rfl, ?_⟩)
    decide +kernel

end Tortor.Net.DhtSearch
