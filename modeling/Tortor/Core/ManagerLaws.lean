import Tortor.Core.Manager
import Tortor.Lib.Run

namespace Tortor.Core.TorrentManager

/-! What each operation can do, said once. -/

theorem Scan.visit_best {availability : List Nat} {peerHas : Bitfield} {rng : Nat → Nat}
    {scan : Scan} {entry : Nat × Nat} {pos avail : Nat}
    (h : (Scan.visit availability peerHas rng scan entry).best = some (pos, avail)) :
    scan.best = some (pos, avail) ∨ pos = entry.2 ∧ peerHas.has entry.1 := by
  obtain ⟨piece, at'⟩ := entry
  by_cases hp : peerHas.has piece
  · simp only [Scan.visit, hp, Bool.not_true, Bool.false_eq_true, if_false] at h
    split at h
    · simp_all
    · split at h
      · exact .inl h
      · split at h
        · split at h <;> simp_all
        · simp_all
  · exact .inl (by simpa [Scan.visit, hp] using h)

theorem foldl_visit_best {availability : List Nat} {peerHas : Bitfield} {rng : Nat → Nat}
    {entries : List (Nat × Nat)} {scan : Scan} {pos avail : Nat}
    (h : (entries.foldl (Scan.visit availability peerHas rng) scan).best = some (pos, avail)) :
    scan.best = some (pos, avail) ∨ ∃ piece, (piece, pos) ∈ entries ∧ peerHas.has piece := by
  induction entries generalizing scan with
  | nil => exact .inl h
  | cons entry entries ih =>
    rcases ih h with h | ⟨piece, hm, hp⟩
    · rcases Scan.visit_best h with h | ⟨rfl, hp⟩
      · exact .inl h
      · exact .inr ⟨entry.1, by simp, hp⟩
    · exact .inr ⟨piece, by simp [hm], hp⟩

/-- The scan only ever settles on a queued piece that the peer has. -/
theorem rarest_spec {m : TorrentManager} {peerHas : Bitfield} {rng : Nat → Nat} {pos avail : Nat}
    (h : m.rarest peerHas rng = some (pos, avail)) :
    ∃ piece, m.missing[pos]? = some piece ∧ peerHas.has piece := by
  rcases foldl_visit_best h with h | ⟨piece, hm, hp⟩
  · cases h
  · exact ⟨piece, (List.mem_zipIdx_iff_getElem?.mp hm), hp⟩

theorem endgameCandidate_spec {m : TorrentManager} {peerHas : Bitfield} {piece : Nat}
    (h : m.endgameCandidate peerHas = some piece) :
    ∃ holders, m.inProgress.lookup piece = some holders ∧ holders < MAX_ENDGAME_HOLDERS ∧
      peerHas.has piece := by
  obtain ⟨entry, he, rfl⟩ := Option.map_eq_some_iff.mp h
  have hm := List.argmin_mem he
  simp only [List.mem_filter, Bool.and_eq_true, decide_eq_true_eq] at hm
  exact ⟨entry.2, AList.mem_lookup_iff.mpr hm.1, hm.2.1, hm.2.2⟩

/-- What `nextWorkFor` does: nothing, take one queued piece, or join a piece in flight. -/
theorem nextWorkFor_cases (m : TorrentManager) (peerHas : Bitfield) (rng : Nat → Nat) :
    m.nextWorkFor peerHas rng = (none, m.clean) ∨
    (∃ pos piece, m.clean.missing[pos]? = some piece ∧ peerHas.has piece ∧
      m.nextWorkFor peerHas rng = (some piece,
        { m.clean with
          missing := m.clean.missing.eraseIdx pos
          inProgress := m.clean.inProgress.insert piece 1 })) ∨
    ∃ piece holders, m.clean.missing = [] ∧ m.clean.inProgress.lookup piece = some holders ∧
      holders < MAX_ENDGAME_HOLDERS ∧ peerHas.has piece ∧
      m.nextWorkFor peerHas rng = (some piece,
        { m.clean with inProgress := m.clean.inProgress.insert piece (holders + 1) }) := by
  cases hr : m.clean.rarest peerHas rng with
  | some best =>
    obtain ⟨piece, hpos, hp⟩ := rarest_spec hr
    exact .inr (.inl ⟨best.1, piece, hpos, hp, by simp [nextWorkFor, hr, hpos]⟩)
  | none =>
    cases hm : m.clean.missing with
    | cons p ps => exact .inl (by simp [nextWorkFor, hr, hm])
    | nil =>
      cases hc : m.clean.endgameCandidate peerHas with
      | none => exact .inl (by simp [nextWorkFor, hr, hm, hc])
      | some piece =>
        obtain ⟨holders, hl, hlt, hp⟩ := endgameCandidate_spec hc
        exact .inr (.inr ⟨piece, holders, rfl, hl, hlt, hp, by simp [nextWorkFor, hr, hm, hc, hl]⟩)

/-- What `returnWork` does: nothing, drop one of several holders, or drop the last one and
queue the piece again when it is still needed. -/
theorem returnWork_cases (m : TorrentManager) (piece : Nat) :
    m.inProgress.lookup piece = none ∧ m.returnWork piece = m ∨
    (∃ holders, m.inProgress.lookup piece = some holders ∧ 1 < holders ∧
      m.returnWork piece = { m with inProgress := m.inProgress.insert piece (holders - 1) }) ∨
    ∃ holders, m.inProgress.lookup piece = some holders ∧ holders ≤ 1 ∧
      m.returnWork piece =
        { m with
          inProgress := m.inProgress.erase piece
          missing := if piece ∉ m.completed ∧ m.isWanted piece then m.missing ++ [piece]
            else m.missing } := by
  cases hl : m.inProgress.lookup piece with
  | none => exact .inl ⟨rfl, by simp [returnWork, hl]⟩
  | some holders =>
    rcases Nat.lt_or_ge 1 holders with h | h
    · exact .inr (.inl ⟨holders, rfl, h, by simp [returnWork, hl, show ¬ holders - 1 = 0 by omega]⟩)
    · refine .inr (.inr ⟨holders, rfl, h, ?_⟩)
      simp only [returnWork, hl, show holders - 1 = 0 by omega, if_pos]
      by_cases hc : piece ∉ m.completed ∧ m.isWanted piece
      · rw [if_pos hc, if_pos]
        simpa [isCompleted, isWanted] using hc
      · rw [if_neg hc, if_neg]
        simpa [isCompleted, isWanted] using hc

theorem markCompleted_of_le {m : TorrentManager} {piece : Nat} (h : m.totalPieces ≤ piece) :
    m.markCompleted piece = m := by simp [markCompleted, h]

theorem markCompleted_of_mem {m : TorrentManager} {piece : Nat} (h : piece < m.totalPieces)
    (hc : piece ∈ m.completed) :
    m.markCompleted piece = { m with inProgress := m.inProgress.erase piece } := by
  simp [markCompleted, Nat.not_le.mpr h, hc]

theorem markCompleted_of_notMem {m : TorrentManager} {piece : Nat} (h : piece < m.totalPieces)
    (hc : piece ∉ m.completed) :
    m.markCompleted piece =
      { m with
        inProgress := m.inProgress.erase piece
        completed := insert piece m.completed
        missingDirty := true
        wantedCompleted := m.wantedCompleted + if m.isWanted piece then 1 else 0 } := by
  rw [markCompleted, if_neg (Nat.not_le.mpr h), if_neg hc]
  rfl

theorem foldl_erase_subset (indices : List Nat) (done : Finset Nat) :
    indices.foldl (fun done piece => done.erase (piece % 2 ^ 32)) done ⊆ done := by
  induction indices generalizing done with
  | nil => exact Finset.Subset.refl _
  | cons i is ih => exact (ih _).trans (Finset.erase_subset _ _)

theorem mem_foldl_erase (indices : List Nat) (done : Finset Nat) (p : Nat) :
    p ∈ indices.foldl (fun done piece => done.erase (piece % 2 ^ 32)) done ↔
      p ∈ done ∧ ∀ i ∈ indices, i % 2 ^ 32 ≠ p := by
  induction indices generalizing done with
  | nil => simp
  | cons i is ih =>
    rw [List.foldl_cons, ih, Finset.mem_erase, List.forall_mem_cons]
    constructor
    · rintro ⟨⟨h₁, h₂⟩, h₃⟩; exact ⟨h₂, fun h => h₁ h.symm, h₃⟩
    · rintro ⟨h₁, h₂, h₃⟩; exact ⟨⟨fun h => h₂ h.symm, h₁⟩, h₃⟩

theorem mem_completed_applySelection {m : TorrentManager} {selection : Selection}
    {refetch : Bitfield} {p : Nat} :
    p ∈ (m.applySelection selection refetch).completed ↔
      p ∈ m.completed ∧ ∀ i, refetch.has i → i % 2 ^ 32 ≠ p := by
  rw [applySelection, mem_foldl_erase]
  simp only [Bitfield.mem_iterOnes]

/-! The invariant of the piece queue. -/

structure Inv (m : TorrentManager) : Prop where
  missing_lt : ∀ p ∈ m.missing, p < m.totalPieces
  missing_nodup : m.missing.Nodup
  missing_wanted : ∀ p ∈ m.missing, m.isWanted p
  missing_free : ∀ p ∈ m.missing, m.inProgress.lookup p = none
  missing_clean : m.missingDirty = false → ∀ p ∈ m.missing, p ∉ m.completed
  held_lt : ∀ p n, m.inProgress.lookup p = some n → p < m.totalPieces
  held_count : ∀ p n, m.inProgress.lookup p = some n → 1 ≤ n ∧ n ≤ MAX_ENDGAME_HOLDERS
  held_open : ∀ p n, m.inProgress.lookup p = some n → p ∉ m.completed
  completed_lt : ∀ p ∈ m.completed, p < m.totalPieces
  /-- A piece that is still needed and in nobody's hands waits in the queue. -/
  queued : ∀ p < m.totalPieces, m.isWanted p → p ∉ m.completed → m.inProgress.lookup p = none →
    p ∈ m.missing
  availability_length : m.availability.length = m.totalPieces
  wantedTotal_eq : m.wantedTotal = countWanted m.totalPieces m.selection
  wantedCompleted_eq : m.wantedCompleted = countCompleted m.completed m.selection

theorem inv_withSelection (totalPieces : Nat) (completedPieces : List Nat)
    (selection : Selection) : (withSelection totalPieces completedPieces selection).Inv where
  missing_lt p hp := by simp [withSelection] at hp; exact hp.1
  missing_nodup := List.nodup_range.filter _
  missing_wanted p hp := by simp [withSelection] at hp; exact hp.2.1
  missing_free p _ := by simp [withSelection]
  missing_clean _ p hp := by
    simp only [withSelection, List.mem_filter, Bool.and_eq_true, decide_eq_true_eq] at hp
    exact hp.2.2
  held_lt p n hp := by simp [withSelection] at hp
  held_count p n hp := by simp [withSelection] at hp
  held_open p n hp := by simp [withSelection] at hp
  completed_lt p hp := by simp [withSelection] at hp; exact hp.2
  queued p hp hw hc _ := by
    simp only [withSelection, isWanted] at hw hc
    simp only [withSelection, List.mem_filter, List.mem_range, Bool.and_eq_true, decide_eq_true_eq]
    exact ⟨hp, hw, hc⟩
  availability_length := by simp [withSelection]
  wantedTotal_eq := rfl
  wantedCompleted_eq := rfl

@[simp] theorem clean_inProgress (m : TorrentManager) : m.clean.inProgress = m.inProgress := by
  unfold clean; split <;> rfl

@[simp] theorem clean_completed (m : TorrentManager) : m.clean.completed = m.completed := by
  unfold clean; split <;> rfl

theorem Inv.clean {m : TorrentManager} (h : m.Inv) :
    m.clean.Inv ∧ ∀ p ∈ m.clean.missing, p ∉ m.clean.completed := by
  unfold TorrentManager.clean
  split
  case isFalse hd => exact ⟨h, h.missing_clean (by simpa using hd)⟩
  case isTrue hd =>
    have hmem {p : Nat} : p ∈ m.missing.filter (fun piece => decide (piece ∉ m.completed)) ↔
        p ∈ m.missing ∧ p ∉ m.completed := by simp
    refine ⟨{ h with
      missing_lt := fun p hp => h.missing_lt p (hmem.mp hp).1
      missing_nodup := h.missing_nodup.filter _
      missing_wanted := fun p hp => h.missing_wanted p (hmem.mp hp).1
      missing_free := fun p hp => h.missing_free p (hmem.mp hp).1
      missing_clean := fun _ p hp => (hmem.mp hp).2
      queued := fun p hp hw hc hl => hmem.mpr ⟨h.queued p hp hw hc hl, hc⟩ }, ?_⟩
    exact fun p hp => (hmem.mp hp).2

theorem mem_eraseIdx_of_nodup {l : List Nat} (hl : l.Nodup) {pos piece : Nat}
    (hp : l[pos]? = some piece) (p : Nat) : p ∈ l.eraseIdx pos ↔ p ∈ l ∧ p ≠ piece := by
  obtain ⟨hlt, rfl⟩ := List.getElem?_eq_some_iff.mp hp
  rw [← hl.erase_getElem, hl.mem_erase_iff, and_comm]

theorem lookup_insert_ite (holders : AList (fun _ : Nat => Nat)) (piece n p : Nat) :
    (holders.insert piece n).lookup p = if p = piece then some n else holders.lookup p := by
  by_cases hp : p = piece
  · subst hp; simp
  · simp [hp, AList.lookup_insert_ne hp]

theorem lookup_erase_ite (holders : AList (fun _ : Nat => Nat)) (piece p : Nat) :
    (holders.erase piece).lookup p = if p = piece then none else holders.lookup p := by
  by_cases hp : p = piece
  · subst hp; simp
  · simp [hp, AList.lookup_erase_ne hp]

theorem Inv.hand {m : TorrentManager} (h : m.Inv) {piece n : Nat} {rest : List Nat}
    (hlt : piece < m.totalPieces) (hopen : piece ∉ m.completed)
    (hn : 1 ≤ n ∧ n ≤ MAX_ENDGAME_HOLDERS) (hrest : rest.Nodup)
    (hmem : ∀ p, p ∈ rest ↔ p ∈ m.missing ∧ p ≠ piece) :
    Inv { m with missing := rest, inProgress := m.inProgress.insert piece n } where
  missing_lt p hp := h.missing_lt p ((hmem p).mp hp).1
  missing_nodup := hrest
  missing_wanted p hp := h.missing_wanted p ((hmem p).mp hp).1
  missing_free p hp := by
    rw [lookup_insert_ite, if_neg ((hmem p).mp hp).2]
    exact h.missing_free p ((hmem p).mp hp).1
  missing_clean hd p hp := h.missing_clean hd p ((hmem p).mp hp).1
  held_lt p k hp := by
    simp only [lookup_insert_ite] at hp
    split at hp
    case isTrue he => rwa [he]
    case isFalse => exact h.held_lt p k hp
  held_count p k hp := by
    simp only [lookup_insert_ite] at hp
    split at hp
    case isTrue => cases hp; exact hn
    case isFalse => exact h.held_count p k hp
  held_open p k hp := by
    simp only [lookup_insert_ite] at hp
    split at hp
    case isTrue he => rwa [he]
    case isFalse => exact h.held_open p k hp
  completed_lt := h.completed_lt
  queued p hp hw hc hl := by
    simp only [lookup_insert_ite] at hl
    split at hl
    case isTrue => cases hl
    case isFalse hne => exact (hmem p).mpr ⟨h.queued p hp hw hc hl, hne⟩
  availability_length := h.availability_length
  wantedTotal_eq := h.wantedTotal_eq
  wantedCompleted_eq := h.wantedCompleted_eq

theorem Inv.nextWorkFor {m : TorrentManager} (h : m.Inv) (peerHas : Bitfield) (rng : Nat → Nat) :
    (m.nextWorkFor peerHas rng).2.Inv := by
  obtain ⟨hc, hopen⟩ := h.clean
  rcases nextWorkFor_cases m peerHas rng with h' | ⟨pos, piece, hpos, -, h'⟩ |
    ⟨piece, holders, hempty, hl, hlt, -, h'⟩ <;> rw [h']
  · exact hc
  · have hmem := List.mem_of_getElem? hpos
    exact hc.hand (hc.missing_lt _ hmem) (hopen _ hmem) (by decide)
      (hc.missing_nodup.eraseIdx pos) (mem_eraseIdx_of_nodup hc.missing_nodup hpos)
  · -- The queue is empty here, so nothing has to leave it.
    have hjoin := hc.hand (n := holders + 1) (hc.held_lt _ _ hl) (hc.held_open _ _ hl)
      ⟨by omega, hlt⟩ hc.missing_nodup (by simp [hempty])
    exact hjoin

theorem Inv.returnWork {m : TorrentManager} (h : m.Inv) (piece : Nat) : (m.returnWork piece).Inv := by
  rcases returnWork_cases m piece with ⟨-, h'⟩ | ⟨holders, hl, hgt, h'⟩ | ⟨holders, hl, -, h'⟩ <;>
    rw [h']
  · exact h
  · have hcount := h.held_count piece holders hl
    have hfree : piece ∉ m.missing := fun hp => by simp [h.missing_free piece hp] at hl
    exact h.hand (h.held_lt _ _ hl) (h.held_open _ _ hl) ⟨by omega, by omega⟩ h.missing_nodup
      (fun p => ⟨fun hp => ⟨hp, by rintro rfl; exact hfree hp⟩, And.left⟩)
  · have hlt := h.held_lt piece holders hl
    have hopen := h.held_open piece holders hl
    have hfree : piece ∉ m.missing := fun hp => by simp [h.missing_free piece hp] at hl
    have hmem (p : Nat) :
        p ∈ (if piece ∉ m.completed ∧ m.isWanted piece then m.missing ++ [piece] else m.missing) ↔
          p ∈ m.missing ∨ p = piece ∧ m.isWanted piece := by
      by_cases hw : m.isWanted piece <;> simp [hopen, hw]
    have herased {p k : Nat} (hp : (m.inProgress.erase piece).lookup p = some k) :
        m.inProgress.lookup p = some k := by
      rw [lookup_erase_ite] at hp
      split at hp
      case isTrue => cases hp
      case isFalse => exact hp
    exact
      { missing_lt := fun p hp => ((hmem p).mp hp).elim (h.missing_lt p) fun he => he.1 ▸ hlt
        missing_nodup := by
          split
          · exact List.nodup_append.mpr ⟨h.missing_nodup, List.nodup_singleton _,
              fun a ha b hb => by rintro rfl; exact hfree (by simpa using (List.mem_singleton.mp hb) ▸ ha)⟩
          · exact h.missing_nodup
        missing_wanted := fun p hp =>
          ((hmem p).mp hp).elim (h.missing_wanted p) fun he => he.1 ▸ he.2
        missing_free := fun p hp => by
          rw [lookup_erase_ite]
          split
          · rfl
          · rename_i hne
            exact h.missing_free p (((hmem p).mp hp).resolve_right fun he => hne he.1)
        missing_clean := fun hd p hp =>
          ((hmem p).mp hp).elim (h.missing_clean hd p) fun he => he.1 ▸ hopen
        held_lt := fun p k hp => h.held_lt p k (herased hp)
        held_count := fun p k hp => h.held_count p k (herased hp)
        held_open := fun p k hp => h.held_open p k (herased hp)
        completed_lt := h.completed_lt
        queued := fun p hp hw hc hp' => by
          rw [lookup_erase_ite] at hp'
          rw [hmem]
          split at hp'
          case isTrue he => exact .inr ⟨he, he ▸ hw⟩
          case isFalse => exact .inl (h.queued p hp hw hc hp')
        availability_length := h.availability_length
        wantedTotal_eq := h.wantedTotal_eq
        wantedCompleted_eq := h.wantedCompleted_eq }

theorem countCompleted_insert {completed : Finset Nat} {piece : Nat} (h : piece ∉ completed)
    (selection : Selection) :
    countCompleted (insert piece completed) selection =
      countCompleted completed selection + if selection.wanted.has piece then 1 else 0 := by
  unfold countCompleted
  rw [Finset.filter_insert]
  split
  · rw [Finset.card_insert_of_notMem (by simp [h])]
  · rfl

theorem Inv.markCompleted {m : TorrentManager} (h : m.Inv) (piece : Nat) :
    (m.markCompleted piece).Inv := by
  rcases Nat.lt_or_ge piece m.totalPieces with hlt | hge
  · by_cases hc : piece ∈ m.completed
    · -- A completed piece has no entry, so erasing it changes no lookup.
      have hsame (p : Nat) : (m.inProgress.erase piece).lookup p = m.inProgress.lookup p := by
        rw [lookup_erase_ite]
        split
        case isTrue he =>
          rw [he]
          cases hl : m.inProgress.lookup piece with
          | none => rfl
          | some n => exact absurd hc (h.held_open piece n hl)
        case isFalse => rfl
      rw [markCompleted_of_mem hlt hc]
      exact
        { h with
          missing_free := fun p hp => by rw [hsame]; exact h.missing_free p hp
          held_lt := fun p n hp => h.held_lt p n (by rwa [hsame] at hp)
          held_count := fun p n hp => h.held_count p n (by rwa [hsame] at hp)
          held_open := fun p n hp => h.held_open p n (by rwa [hsame] at hp)
          queued := fun p hp hw hc' hl => h.queued p hp hw hc' (by rwa [hsame] at hl) }
    · rw [markCompleted_of_notMem hlt hc]
      have herased {p k : Nat} (hp : (m.inProgress.erase piece).lookup p = some k) :
          p ≠ piece ∧ m.inProgress.lookup p = some k := by
        rw [lookup_erase_ite] at hp
        split at hp
        case isTrue => cases hp
        case isFalse hne => exact ⟨hne, hp⟩
      exact
        { h with
          missing_free := fun p hp => by
            rw [lookup_erase_ite]
            split
            · rfl
            · exact h.missing_free p hp
          missing_clean := fun hd => by cases hd
          held_lt := fun p n hp => h.held_lt p n (herased hp).2
          held_count := fun p n hp => h.held_count p n (herased hp).2
          held_open := fun p n hp => by
            rw [Finset.mem_insert, not_or]
            exact ⟨(herased hp).1, h.held_open p n (herased hp).2⟩
          completed_lt := fun p hp =>
            (Finset.mem_insert.mp hp).elim (fun he => he ▸ hlt) (h.completed_lt p)
          queued := fun p hp hw hc' hl => by
            rw [Finset.mem_insert, not_or] at hc'
            rw [lookup_erase_ite, if_neg hc'.1] at hl
            exact h.queued p hp hw hc'.2 hl
          wantedCompleted_eq := by
            rw [countCompleted_insert hc, ← h.wantedCompleted_eq]; rfl }
  · rw [markCompleted_of_le hge]; exact h

theorem Inv.applySelection {m : TorrentManager} (h : m.Inv) (selection : Selection)
    (refetch : Bitfield) : (m.applySelection selection refetch).Inv := by
  have hsub : (m.applySelection selection refetch).completed ⊆ m.completed :=
    foldl_erase_subset _ _
  have hmem (p : Nat) : p ∈ (m.applySelection selection refetch).missing ↔
      p < m.totalPieces ∧ selection.wanted.has p ∧
        p ∉ (m.applySelection selection refetch).completed ∧ m.inProgress.lookup p = none := by
    simp only [TorrentManager.applySelection, List.mem_filter, List.mem_range, Bool.and_eq_true,
      decide_eq_true_eq, Option.isNone_iff_eq_none, and_assoc]
  exact
    { missing_lt := fun p hp => ((hmem p).mp hp).1
      missing_nodup := List.nodup_range.filter _
      missing_wanted := fun p hp => ((hmem p).mp hp).2.1
      missing_free := fun p hp => ((hmem p).mp hp).2.2.2
      missing_clean := fun _ p hp => ((hmem p).mp hp).2.2.1
      held_lt := h.held_lt
      held_count := h.held_count
      held_open := fun p n hp hc => h.held_open p n hp (hsub hc)
      completed_lt := fun p hp => h.completed_lt p (hsub hp)
      queued := fun p hp hw hc hl => (hmem p).mpr ⟨hp, hw, hc, hl⟩
      availability_length := h.availability_length
      wantedTotal_eq := rfl
      wantedCompleted_eq := rfl }

theorem length_foldl_modify (f : Nat → Nat) (indices slots : List Nat) :
    (indices.foldl (fun slots i => slots.modify i f) slots).length = slots.length := by
  induction indices generalizing slots with
  | nil => rfl
  | cons i is ih => rw [List.foldl_cons, ih, List.length_modify]

theorem Inv.withAvailability {m : TorrentManager} (h : m.Inv) {slots : List Nat}
    (hl : slots.length = m.availability.length) : Inv { m with availability := slots } :=
  { h with availability_length := hl.trans h.availability_length }

inductive Call
  | nextWorkFor (peerHas : Bitfield) (rng : Nat → Nat)
  | returnWork (piece : Nat)
  | markCompleted (piece : Nat)
  | applySelection (selection : Selection) (refetch : Bitfield)
  | addPeerPieces (pieces : Bitfield)
  | removePeerPieces (pieces : Bitfield)
  | addPeerPiece (index : Nat)

def call (m : TorrentManager) : Call → TorrentManager
  | .nextWorkFor peerHas rng => (m.nextWorkFor peerHas rng).2
  | .returnWork piece => m.returnWork piece
  | .markCompleted piece => m.markCompleted piece
  | .applySelection selection refetch => m.applySelection selection refetch
  | .addPeerPieces pieces => m.addPeerPieces pieces
  | .removePeerPieces pieces => m.removePeerPieces pieces
  | .addPeerPiece index => m.addPeerPiece index

theorem Inv.call {m : TorrentManager} (h : m.Inv) (c : Call) : (m.call c).Inv := by
  cases c with
  | nextWorkFor peerHas rng => exact h.nextWorkFor peerHas rng
  | returnWork piece => exact h.returnWork piece
  | markCompleted piece => exact h.markCompleted piece
  | applySelection selection refetch => exact h.applySelection selection refetch
  | addPeerPieces pieces => exact h.withAvailability (length_foldl_modify _ _ _)
  | removePeerPieces pieces => exact h.withAvailability (length_foldl_modify _ _ _)
  | addPeerPiece index => exact h.withAvailability (List.length_modify ..)

structure Alike (m m' : TorrentManager) : Prop where
  totalPieces : m'.totalPieces = m.totalPieces
  completed : m'.completed = m.completed
  selection : m'.selection = m.selection

theorem alike_clean (m : TorrentManager) : Alike m m.clean := by
  unfold clean
  split <;> exact ⟨rfl, rfl, rfl⟩

theorem alike_nextWorkFor (m : TorrentManager) (peerHas : Bitfield) (rng : Nat → Nat) :
    Alike m (m.nextWorkFor peerHas rng).2 := by
  obtain ⟨ht, hc, hs⟩ := alike_clean m
  rcases nextWorkFor_cases m peerHas rng with h | ⟨_, _, _, _, h⟩ | ⟨_, _, _, _, _, _, h⟩ <;>
    rw [h] <;> exact ⟨ht, hc, hs⟩

theorem alike_returnWork (m : TorrentManager) (piece : Nat) : Alike m (m.returnWork piece) := by
  rcases returnWork_cases m piece with ⟨_, h⟩ | ⟨_, _, _, h⟩ | ⟨_, _, _, h⟩ <;> rw [h] <;>
    exact ⟨rfl, rfl, rfl⟩

theorem markCompleted_frame (m : TorrentManager) (piece : Nat) :
    (m.markCompleted piece).totalPieces = m.totalPieces ∧
      (m.markCompleted piece).selection = m.selection ∧
      ((m.markCompleted piece).completed = m.completed ∨
        (m.markCompleted piece).completed = insert piece m.completed) := by
  rcases Nat.lt_or_ge piece m.totalPieces with hlt | hge
  · by_cases hc : piece ∈ m.completed
    · rw [markCompleted_of_mem hlt hc]; exact ⟨rfl, rfl, .inl rfl⟩
    · rw [markCompleted_of_notMem hlt hc]; exact ⟨rfl, rfl, .inr rfl⟩
  · rw [markCompleted_of_le hge]; exact ⟨rfl, rfl, .inl rfl⟩

theorem totalPieces_call (m : TorrentManager) (c : Call) :
    (m.call c).totalPieces = m.totalPieces := by
  cases c with
  | nextWorkFor peerHas rng => exact (alike_nextWorkFor m peerHas rng).totalPieces
  | returnWork piece => exact (alike_returnWork m piece).totalPieces
  | markCompleted piece => exact (markCompleted_frame m piece).1
  | applySelection => rfl
  | addPeerPieces => rfl
  | removePeerPieces => rfl
  | addPeerPiece => rfl

def reserved (m : TorrentManager) (p : Nat) : Nat := (m.inProgress.lookup p).getD 0

theorem Inv.reserved_of_completed {m : TorrentManager} (h : m.Inv) {p : Nat}
    (hp : p ∈ m.completed) : m.reserved p = 0 := by
  unfold reserved
  cases hl : m.inProgress.lookup p with
  | none => rfl
  | some n => exact absurd hp (h.held_open p n hl)

theorem Inv.inProgress_eq_empty {m : TorrentManager} (h : m.Inv)
    (hnone : ∀ p, m.reserved p = 0) : m.inProgress = ∅ := by
  have hkeys (p : Nat) : p ∉ m.inProgress.keys := by
    intro hp
    obtain ⟨n, hn⟩ := Option.isSome_iff_exists.mp (AList.lookup_isSome.mpr hp)
    have hzero := hnone p
    rw [reserved, hn, Option.getD_some] at hzero
    have := (h.held_count p n hn).1
    omega
  apply AList.ext
  exact List.map_eq_nil_iff.mp (List.eq_nil_iff_forall_not_mem.mpr hkeys)

theorem Inv.reserved_nextWorkFor {m : TorrentManager} (h : m.Inv) (peerHas : Bitfield)
    (rng : Nat → Nat) :
    let r := m.nextWorkFor peerHas rng
    (∀ q, r.1 = some q → q ∉ m.completed) ∧
      ∀ p, r.2.reserved p = m.reserved p + if r.1 = some p then 1 else 0 := by
  obtain ⟨hc, hopen⟩ := h.clean
  rcases nextWorkFor_cases m peerHas rng with he | ⟨pos, piece, hpos, -, he⟩ |
    ⟨piece, holders, -, hl, -, -, he⟩ <;> rw [he]
  · exact ⟨nofun, fun p => by simp [reserved]⟩
  · have hmem := List.mem_of_getElem? hpos
    have hfree := hc.missing_free piece hmem
    refine ⟨fun q hq => ?_, fun p => ?_⟩
    · cases hq
      simpa using hopen piece hmem
    · rw [clean_inProgress] at hfree
      simp only [reserved, lookup_insert_ite, clean_inProgress, Option.some.injEq]
      by_cases hp : p = piece
      · subst hp; simp [hfree]
      · simp [hp, Ne.symm hp]
  · have hheld := hc.held_open piece holders hl
    refine ⟨fun q hq => ?_, fun p => ?_⟩
    · cases hq
      simpa using hheld
    · rw [clean_inProgress] at hl
      simp only [reserved, lookup_insert_ite, clean_inProgress, Option.some.injEq]
      by_cases hp : p = piece
      · subst hp; simp [hl]
      · simp [hp, Ne.symm hp]

theorem reserved_returnWork (m : TorrentManager) (piece p : Nat) :
    (m.returnWork piece).reserved p =
      if p = piece then m.reserved p - 1 else m.reserved p := by
  rcases returnWork_cases m piece with ⟨hl, he⟩ | ⟨holders, hl, -, he⟩ | ⟨holders, hl, hle, he⟩ <;>
    rw [he]
  · split
    case isTrue hp => subst hp; simp [reserved, hl]
    case isFalse => rfl
  · simp only [reserved, lookup_insert_ite]
    split
    case isTrue hp => subst hp; simp [hl]
    case isFalse => rfl
  · simp only [reserved, lookup_erase_ite]
    split
    case isTrue hp => subst hp; simp [hl]; omega
    case isFalse => rfl

theorem reserved_markCompleted (m : TorrentManager) (piece p : Nat) :
    (m.markCompleted piece).reserved p =
      if p = piece ∧ piece < m.totalPieces then 0 else m.reserved p := by
  rcases Nat.lt_or_ge piece m.totalPieces with hlt | hge
  · by_cases hc : piece ∈ m.completed
    · rw [markCompleted_of_mem hlt hc]
      simp only [reserved, lookup_erase_ite, hlt, and_true]
      split <;> rfl
    · rw [markCompleted_of_notMem hlt hc]
      simp only [reserved, lookup_erase_ite, hlt, and_true]
      split <;> rfl
  · rw [markCompleted_of_le hge, if_neg (by omega)]

theorem mem_completed_markCompleted (m : TorrentManager) (piece p : Nat) :
    p ∈ (m.markCompleted piece).completed ↔
      p ∈ m.completed ∨ p = piece ∧ piece < m.totalPieces := by
  rcases Nat.lt_or_ge piece m.totalPieces with hlt | hge
  · by_cases hc : piece ∈ m.completed
    · rw [markCompleted_of_mem hlt hc]
      refine ⟨.inl, ?_⟩
      rintro (h | ⟨rfl, -⟩)
      exacts [h, hc]
    · rw [markCompleted_of_notMem hlt hc, Finset.mem_insert, or_comm]
      simp [hlt]
  · rw [markCompleted_of_le hge]
    simp [Nat.not_lt.mpr hge]

theorem getD_foldl_modify (f : Nat → Nat) {indices slots : List Nat} (hn : indices.Nodup) {p : Nat}
    (hp : p < slots.length) :
    (indices.foldl (fun slots i => slots.modify i f) slots).getD p 0 =
      if p ∈ indices then f (slots.getD p 0) else slots.getD p 0 := by
  induction indices generalizing slots with
  | nil => simp
  | cons i is ih =>
    rw [List.nodup_cons] at hn
    rw [List.foldl_cons, ih hn.2 (by rwa [List.length_modify])]
    simp only [List.getD_eq_getElem?_getD, List.getElem?_modify, List.mem_cons]
    by_cases hi : i = p
    · subst hi; simp [hn.1, hp]
    · simp [hi, Ne.symm hi]

theorem availabilityOf_addPeerPieces (m : TorrentManager) (pieces : Bitfield) {p : Nat}
    (hp : p < m.availability.length) :
    (m.addPeerPieces pieces).availabilityOf p =
      if pieces.has p then saturatingSucc (m.availabilityOf p) else m.availabilityOf p := by
  simpa [availabilityOf, addPeerPieces] using
    getD_foldl_modify saturatingSucc pieces.nodup_iterOnes hp

theorem availabilityOf_removePeerPieces (m : TorrentManager) (pieces : Bitfield) {p : Nat}
    (hp : p < m.availability.length) :
    (m.removePeerPieces pieces).availabilityOf p =
      if pieces.has p then m.availabilityOf p - 1 else m.availabilityOf p := by
  simpa [availabilityOf, removePeerPieces] using
    getD_foldl_modify Nat.pred pieces.nodup_iterOnes hp

theorem availabilityOf_addPeerPiece (m : TorrentManager) (index : Nat) {p : Nat}
    (hp : p < m.availability.length) :
    (m.addPeerPiece index).availabilityOf p =
      if index = p then saturatingSucc (m.availabilityOf p) else m.availabilityOf p := by
  simp only [addPeerPiece, availabilityOf, List.getD_eq_getElem?_getD, List.getElem?_modify]
  by_cases hi : index = p <;> simp [hi, hp]

theorem availability_nextWorkFor (m : TorrentManager) (peerHas : Bitfield) (rng : Nat → Nat) :
    (m.nextWorkFor peerHas rng).2.availability = m.availability := by
  have hclean : m.clean.availability = m.availability := by unfold clean; split <;> rfl
  rcases nextWorkFor_cases m peerHas rng with h | ⟨_, _, _, _, h⟩ | ⟨_, _, _, _, _, _, h⟩ <;>
    rw [h] <;> exact hclean

theorem availability_returnWork (m : TorrentManager) (piece : Nat) :
    (m.returnWork piece).availability = m.availability := by
  rcases returnWork_cases m piece with ⟨_, h⟩ | ⟨_, _, _, h⟩ | ⟨_, _, _, h⟩ <;> rw [h]

theorem availability_markCompleted (m : TorrentManager) (piece : Nat) :
    (m.markCompleted piece).availability = m.availability := by
  rcases Nat.lt_or_ge piece m.totalPieces with hlt | hge
  · by_cases hc : piece ∈ m.completed
    · rw [markCompleted_of_mem hlt hc]
    · rw [markCompleted_of_notMem hlt hc]
  · rw [markCompleted_of_le hge]

theorem wantedTotal_eq_card {m : TorrentManager} (h : m.Inv) :
    m.wantedTotal = ((Finset.range m.totalPieces).filter fun p => m.isWanted p).card := by
  rw [h.wantedTotal_eq, countWanted, ← List.toFinset_card_of_nodup (List.nodup_range.filter _)]
  congr 1
  ext p
  rw [List.mem_toFinset, List.mem_filter, List.mem_range, Finset.mem_filter, Finset.mem_range]
  rfl

theorem isDone_iff {m : TorrentManager} (h : m.Inv) :
    m.isDone ↔ ∀ p < m.totalPieces, m.isWanted p → m.isCompleted p := by
  have htotal := wantedTotal_eq_card h
  have hsub : (m.completed.filter fun p => m.isWanted p) ⊆
      (Finset.range m.totalPieces).filter fun p => m.isWanted p := by
    intro p hp
    rw [Finset.mem_filter] at hp ⊢
    exact ⟨Finset.mem_range.mpr (h.completed_lt p hp.1), hp.2⟩
  rw [isDone, beq_iff_eq, htotal, h.wantedCompleted_eq]
  constructor
  · intro heq p hp hw
    have := Finset.eq_of_subset_of_card_le hsub heq.ge
    have hin : p ∈ m.completed.filter fun p => m.isWanted p := by
      rw [this, Finset.mem_filter]; exact ⟨Finset.mem_range.mpr hp, hw⟩
    simpa [isCompleted] using (Finset.mem_filter.mp hin).1
  · intro hall
    have : (m.completed.filter fun p => m.isWanted p) =
        (Finset.range m.totalPieces).filter fun p => m.isWanted p := by
      refine hsub.antisymm fun p hp => ?_
      rw [Finset.mem_filter, Finset.mem_range] at hp
      rw [Finset.mem_filter]
      exact ⟨by simpa [isCompleted] using hall p hp.1 hp.2, hp.2⟩
    rw [← this]; rfl

theorem Alike.isDone_eq {m m' : TorrentManager} (h : Alike m m') (hm : m.Inv) (hm' : m'.Inv) :
    m'.isDone = m.isDone := by
  rw [isDone, isDone, hm'.wantedCompleted_eq, hm'.wantedTotal_eq, hm.wantedCompleted_eq,
    hm.wantedTotal_eq, h.totalPieces, h.completed, h.selection]

theorem Inv.isDone_markCompleted {m : TorrentManager} (h : m.Inv) (piece : Nat)
    (hdone : m.isDone) : (m.markCompleted piece).isDone := by
  rw [isDone_iff h] at hdone
  rw [isDone_iff (h.markCompleted piece)]
  obtain ⟨htotal, hselection, hcompleted⟩ := markCompleted_frame m piece
  intro p hp hw
  have hold : p ∈ m.completed := by
    have := hdone p (by rwa [htotal] at hp) (by rwa [isWanted, hselection] at hw)
    simpa [isCompleted] using this
  rw [isCompleted, decide_eq_true_eq]
  rcases hcompleted with he | he <;> rw [he]
  · exact hold
  · exact Finset.mem_insert_of_mem hold

/-- Whatever is called in whatever order: a wanted piece that is not completed is either in
the hands of one to `MAX_ENDGAME_HOLDERS` peers or queued exactly once, and the counters tell
the truth. -/
theorem pieces_accounted_for (totalPieces : Nat) (completedPieces : List Nat)
    (selection : Selection) (calls : List Call) :
    let m := Lib.exec call (withSelection totalPieces completedPieces selection) calls
    (∀ p < totalPieces, m.isWanted p → ¬ m.isCompleted p →
      (∃ n, m.inProgress.lookup p = some n ∧ 1 ≤ n ∧ n ≤ MAX_ENDGAME_HOLDERS ∧ p ∉ m.missing) ∨
        (m.inProgress.lookup p = none ∧ m.missing.count p = 1)) ∧
    (∀ p ∈ m.missing, ¬ m.isCompleted p → m.isWanted p) ∧
    (∀ p, (m.inProgress.lookup p).isSome → ¬ m.isCompleted p) ∧
    (∀ p n, m.inProgress.lookup p = some n → 1 ≤ n ∧ n ≤ MAX_ENDGAME_HOLDERS) ∧
    (∀ p ∈ m.missing, p < totalPieces) ∧ (∀ p ∈ m.inProgress.keys, p < totalPieces) ∧
    (∀ p ∈ m.completed, p < totalPieces) ∧ m.availability.length = totalPieces ∧
    m.wantedTotal = ((Finset.range totalPieces).filter fun p => m.isWanted p).card ∧
    m.wantedCompleted = (m.completed.filter fun p => m.isWanted p).card ∧
    (m.isDone ↔ ∀ p < totalPieces, m.isWanted p → m.isCompleted p) := by
  intro m
  have h : m.Inv := Lib.exec_invariant (fun _ c hm => hm.call c) calls
    (inv_withSelection totalPieces completedPieces selection)
  have htotal : m.totalPieces = totalPieces :=
    Lib.exec_invariant (P := fun m => m.totalPieces = totalPieces)
      (fun m c hm => (totalPieces_call m c).trans hm) calls rfl
  have hdone := isDone_iff h
  rw [htotal] at hdone
  refine ⟨?_, fun p hp _ => h.missing_wanted p hp, ?_, h.held_count, ?_, ?_, ?_, ?_, ?_,
    h.wantedCompleted_eq, hdone⟩
  · intro p hp hw hc
    have hopen : p ∉ m.completed := by simpa [isCompleted] using hc
    cases hl : m.inProgress.lookup p with
    | some n =>
      have hcount := h.held_count p n hl
      exact .inl ⟨n, rfl, hcount.1, hcount.2, fun hm => by simp [h.missing_free p hm] at hl⟩
    | none =>
      exact .inr ⟨rfl, List.count_eq_one_of_mem h.missing_nodup
        (h.queued p (htotal ▸ hp) hw hopen hl)⟩
  · intro p hp
    obtain ⟨n, hl⟩ := Option.isSome_iff_exists.mp hp
    simpa [isCompleted] using h.held_open p n hl
  · exact fun p hp => htotal ▸ h.missing_lt p hp
  · intro p hp
    obtain ⟨n, hl⟩ := Option.isSome_iff_exists.mp (AList.lookup_isSome.mpr hp)
    exact htotal ▸ h.held_lt p n hl
  · exact fun p hp => htotal ▸ h.completed_lt p hp
  · exact h.availability_length.trans htotal
  · rw [← htotal]; exact wantedTotal_eq_card h

end Tortor.Core.TorrentManager
