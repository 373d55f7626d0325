import Tortor.Core.ManagerLaws

/-! Which piece a peer is given. -/

namespace Tortor.Core.TorrentManager

section Scan

variable {availability : List Nat} {peerHas : Bitfield} {rng : Nat → Nat}
  {entries seen : List (Nat × Nat)} {scan : Scan}

structure Settled (availability : List Nat) (peerHas : Bitfield) (seen : List (Nat × Nat))
    (scan : Scan) : Prop where
  mem : ∀ pos avail, scan.best = some (pos, avail) →
    ∃ piece, (piece, pos) ∈ seen ∧ peerHas.has piece ∧ avail = availability.getD piece 0
  le : ∀ pos avail, scan.best = some (pos, avail) →
    ∀ entry ∈ seen, peerHas.has entry.1 → avail ≤ availability.getD entry.1 0
  unseen : scan.best = none → ∀ entry ∈ seen, peerHas.has entry.1 = false

theorem Settled.nil : Settled availability peerHas [] ⟨none, 0⟩ :=
  ⟨nofun, nofun, fun _ => List.forall_mem_nil _⟩

theorem Settled.take (h : Settled availability peerHas seen scan) {piece pos ties : Nat}
    (hhas : peerHas.has piece)
    (hle : ∀ q avail, scan.best = some (q, avail) → availability.getD piece 0 ≤ avail) :
    Settled availability peerHas (seen ++ [(piece, pos)])
      ⟨some (pos, availability.getD piece 0), ties⟩ where
  mem q avail he := by
    cases he
    exact ⟨piece, by simp, hhas, rfl⟩
  le q avail he entry hentry hp := by
    cases he
    rcases List.mem_append.mp hentry with hold | hnew
    · cases hbest : scan.best with
      | none => rw [h.unseen hbest entry hold] at hp; cases hp
      | some best => exact (hle best.1 best.2 hbest).trans (h.le best.1 best.2 hbest entry hold hp)
    · rw [List.mem_singleton] at hnew
      rw [hnew]
  unseen he := nomatch he

theorem Settled.keep (h : Settled availability peerHas seen scan) {piece pos ties : Nat}
    (hle : peerHas.has piece → ∃ q avail, scan.best = some (q, avail) ∧
      avail ≤ availability.getD piece 0) :
    Settled availability peerHas (seen ++ [(piece, pos)]) ⟨scan.best, ties⟩ where
  mem q avail he := by
    obtain ⟨p, hp, hhas, havail⟩ := h.mem q avail he
    exact ⟨p, List.mem_append_left _ hp, hhas, havail⟩
  le q avail he entry hentry hp := by
    rcases List.mem_append.mp hentry with hold | hnew
    · exact h.le q avail he entry hold hp
    · rw [List.mem_singleton] at hnew
      subst hnew
      obtain ⟨q', avail', he', hle'⟩ := hle hp
      cases he.symm.trans he'
      exact hle'
  unseen he entry hentry := by
    rcases List.mem_append.mp hentry with hold | hnew
    · exact h.unseen he entry hold
    · rw [List.mem_singleton] at hnew
      subst hnew
      rw [Bool.eq_false_iff]
      intro hp
      obtain ⟨_, _, he', -⟩ := hle hp
      cases he.symm.trans he'

theorem Settled.visit (h : Settled availability peerHas seen scan) (entry : Nat × Nat) :
    Settled availability peerHas (seen ++ [entry])
      (Scan.visit availability peerHas rng scan entry) := by
  obtain ⟨piece, pos⟩ := entry
  unfold Scan.visit
  by_cases hp : peerHas.has piece
  · simp only [hp, Bool.not_true, Bool.false_eq_true, if_false]
    split
    case h_1 hbest => exact h.take hp fun q avail he => nomatch hbest.symm.trans he
    case h_2 bestPos bestAvail hbest =>
      split
      case isTrue hlt => exact h.keep fun _ => ⟨_, _, hbest, hlt.le⟩
      case isFalse hge =>
        have htake (ties : Nat) : Settled availability peerHas (seen ++ [(piece, pos)])
            ⟨some (pos, availability.getD piece 0), ties⟩ := h.take hp fun q avail he => by
          cases hbest.symm.trans he
          exact Nat.not_lt.mp hge
        split
        case isTrue heq =>
          split
          · exact htake _
          · exact h.keep fun _ => ⟨_, _, hbest, heq.ge⟩
        case isFalse => exact htake 0
  · simp only [hp, Bool.not_false, if_true]
    exact h.keep fun hp' => absurd hp' hp

theorem Settled.foldl (h : Settled availability peerHas seen scan) (entries : List (Nat × Nat)) :
    Settled availability peerHas (seen ++ entries)
      (entries.foldl (Scan.visit availability peerHas rng) scan) := by
  induction entries generalizing seen scan with
  | nil => rwa [List.append_nil]
  | cons entry rest ih =>
    rw [List.foldl_cons, List.append_cons]
    exact ih (h.visit entry)

theorem settled_scan (availability : List Nat) (peerHas : Bitfield) (rng : Nat → Nat)
    (entries : List (Nat × Nat)) : Settled availability peerHas entries
      (entries.foldl (Scan.visit availability peerHas rng) ⟨none, 0⟩) :=
  Settled.nil.foldl entries

/-- The draws that end every tie in favour of the entry at `pos`. -/
def favour (pos k : Nat) : Nat := if k = pos then 0 else 1

theorem visit_favoured {piece pos : Nat} (hhas : peerHas.has piece)
    (hle : ∀ q avail, scan.best = some (q, avail) → availability.getD piece 0 ≤ avail) :
    (Scan.visit availability peerHas (favour pos) scan (piece, pos)).best =
      some (pos, availability.getD piece 0) := by
  unfold Scan.visit
  simp only [hhas, Bool.not_true, Bool.false_eq_true, if_false]
  split
  case h_1 => rfl
  case h_2 bestPos bestAvail hbest =>
    rw [if_neg (Nat.not_lt.mpr (hle _ _ hbest))]
    simp only [favour, if_true, Nat.zero_mod]
    split <;> rfl

theorem foldl_favoured {pos avail : Nat} (hbest : scan.best = some (pos, avail))
    (hle : ∀ entry ∈ entries, peerHas.has entry.1 → avail ≤ availability.getD entry.1 0)
    (hpos : ∀ entry ∈ entries, entry.2 ≠ pos) :
    (entries.foldl (Scan.visit availability peerHas (favour pos)) scan).best =
      some (pos, avail) := by
  induction entries generalizing scan with
  | nil => exact hbest
  | cons entry rest ih =>
    obtain ⟨piece, k⟩ := entry
    obtain ⟨hle₀, hle⟩ := List.forall_mem_cons.mp hle
    obtain ⟨hpos₀, hpos⟩ := List.forall_mem_cons.mp hpos
    refine ih ?_ hle hpos
    unfold Scan.visit
    by_cases hp : peerHas.has piece
    · simp only [hp, Bool.not_true, Bool.false_eq_true, if_false, hbest]
      split
      · exact hbest
      case isFalse hge =>
        rw [if_pos (Nat.le_antisymm (Nat.not_lt.mp hge) (hle₀ hp))]
        -- the draw is 1, which is not 0 however many ties there are
        have hdraw : favour pos k % (scan.ties + 1 + 1) ≠ 0 := by
          rw [favour, if_neg hpos₀, Nat.mod_eq_of_lt (by omega)]
          exact Nat.one_ne_zero
        simp only [if_neg hdraw]
    · simpa only [hp, Bool.not_false, if_true] using hbest

theorem rarest_none {m : TorrentManager} (h : m.rarest peerHas rng = none) :
    ∀ p ∈ m.missing, peerHas.has p = false := by
  have hsettled := settled_scan m.availability peerHas rng m.missing.zipIdx
  intro p hp
  obtain ⟨pos, hpos⟩ := List.getElem?_of_mem hp
  exact hsettled.unseen h (p, pos) (List.mem_zipIdx_iff_getElem?.mpr hpos)

theorem rarest_some {m : TorrentManager} {pos avail : Nat}
    (h : m.rarest peerHas rng = some (pos, avail)) :
    ∃ piece, m.missing[pos]? = some piece ∧ peerHas.has piece ∧
      ∀ q ∈ m.missing, peerHas.has q → m.availabilityOf piece ≤ m.availabilityOf q := by
  have hsettled := settled_scan m.availability peerHas rng m.missing.zipIdx
  obtain ⟨piece, hmem, hhas, rfl⟩ := hsettled.mem pos avail h
  refine ⟨piece, List.mem_zipIdx_iff_getElem?.mp hmem, hhas, fun q hq hqhas => ?_⟩
  obtain ⟨k, hk⟩ := List.getElem?_of_mem hq
  exact hsettled.le pos _ h (q, k) (List.mem_zipIdx_iff_getElem?.mpr hk) hqhas

theorem rarest_favoured {m : TorrentManager} {pos piece : Nat} (hpos : m.missing[pos]? = some piece)
    (hhas : peerHas.has piece)
    (hle : ∀ q ∈ m.missing, peerHas.has q → m.availabilityOf piece ≤ m.availabilityOf q) :
    m.rarest peerHas (favour pos) = some (pos, m.availabilityOf piece) := by
  obtain ⟨before, after, hsplit⟩ :=
    List.append_of_mem (a := (piece, pos)) (List.mem_zipIdx_iff_getElem?.mpr hpos)
  have hentry : ∀ entry ∈ m.missing.zipIdx, peerHas.has entry.1 →
      m.availability.getD piece 0 ≤ m.availability.getD entry.1 0 := by
    rintro ⟨q, k⟩ hq hqhas
    exact hle q (List.mem_of_getElem? (List.mem_zipIdx_iff_getElem?.mp hq)) hqhas
  have hnodup := List.nodup_zipIdx_map_snd m.missing
  rw [hsplit] at hentry hnodup
  rw [rarest, hsplit, List.foldl_append, List.foldl_cons]
  have hsettled := settled_scan m.availability peerHas (favour pos) before
  refine foldl_favoured (visit_favoured hhas fun q avail hbest => ?_)
    (fun entry he hp => hentry entry (by simp [he]) hp) (fun entry he => ?_)
  · obtain ⟨p, hp, hphas, rfl⟩ := hsettled.mem q avail hbest
    exact hentry (p, q) (List.mem_append_left _ hp) hphas
  · rw [List.map_append, List.map_cons, List.nodup_append] at hnodup
    have hout := (List.nodup_cons.mp hnodup.2.1).1
    rintro rfl
    exact hout (List.mem_map.mpr ⟨entry, he, rfl⟩)

end Scan

section Choice

variable {m : TorrentManager} {peerHas : Bitfield} {rng : Nat → Nat}

def Queued (m : TorrentManager) (p : Nat) : Prop := p ∈ m.missing ∧ p ∉ m.completed

def Joinable (m : TorrentManager) (peerHas : Bitfield) (p holders : Nat) : Prop :=
  m.inProgress.lookup p = some holders ∧ holders < MAX_ENDGAME_HOLDERS ∧ peerHas.has p

/-- Fewer holders come first, then lower indices. -/
def Precedes (p holders q others : Nat) : Prop := holders < others ∨ holders = others ∧ p ≤ q

def Foremost (m : TorrentManager) (peerHas : Bitfield) (p : Nat) : Prop :=
  ∃ holders, m.Joinable peerHas p holders ∧
    ∀ q others, m.Joinable peerHas q others → Precedes p holders q others

theorem toLex_le_iff (p holders q others : Nat) :
    toLex (holders, p) ≤ toLex (others, q) ↔ Precedes p holders q others := Prod.Lex.le_iff

theorem Foremost.unique {p q : Nat} (hp : m.Foremost peerHas p) (hq : m.Foremost peerHas q) :
    p = q := by
  obtain ⟨h, hjoin, hle⟩ := hp
  obtain ⟨k, kjoin, kle⟩ := hq
  have h₁ := hle q k kjoin
  have h₂ := kle p h hjoin
  unfold Precedes at h₁ h₂
  omega

theorem Inv.mem_clean_missing (h : m.Inv) {p : Nat} : p ∈ m.clean.missing ↔ m.Queued p := by
  unfold TorrentManager.clean Queued
  split
  case isTrue => simp
  case isFalse hd =>
    exact (and_iff_left_of_imp fun hp => h.missing_clean (by simpa using hd) p hp).symm

@[simp] theorem availabilityOf_clean (m : TorrentManager) (p : Nat) :
    m.clean.availabilityOf p = m.availabilityOf p := by
  unfold clean
  split <;> rfl

/-- The candidate of the endgame is the foremost piece in flight. -/
theorem endgameCandidate_eq_some_iff {p : Nat} :
    m.endgameCandidate peerHas = some p ↔ m.Foremost peerHas p := by
  have hmem {q others : Nat} : (⟨q, others⟩ : Σ _ : Nat, Nat) ∈ (m.inProgress.entries.filter fun entry =>
      decide (entry.2 < MAX_ENDGAME_HOLDERS) && peerHas.has entry.1) ↔
        m.Joinable peerHas q others := by
    rw [List.mem_filter, Joinable, Bool.and_eq_true, decide_eq_true_eq]
    exact and_congr_left fun _ => AList.mem_lookup_iff.symm
  have hsome {q : Nat} (hq : m.endgameCandidate peerHas = some q) : m.Foremost peerHas q := by
    obtain ⟨⟨q, holders⟩, he, rfl⟩ := Option.map_eq_some_iff.mp hq
    refine ⟨holders, hmem.mp (List.argmin_mem he), fun r others hr => ?_⟩
    have hle := List.le_of_mem_argmin (f := fun entry : Σ _ : Nat, Nat => toLex (entry.2, entry.1))
      (hmem.mpr hr) he
    exact (toLex_le_iff _ _ _ _).mp hle
  refine ⟨hsome, fun hp => ?_⟩
  cases hc : m.endgameCandidate peerHas with
  | some q => rw [(hsome hc).unique hp]
  | none =>
    obtain ⟨holders, hjoin, -⟩ := hp
    rw [endgameCandidate, Option.map_eq_none_iff, List.argmin_eq_none] at hc
    exact absurd (hc ▸ hmem.mpr hjoin) (List.not_mem_nil)

theorem endgameCandidate_eq_none_iff :
    m.endgameCandidate peerHas = none ↔ ∀ p holders, ¬ m.Joinable peerHas p holders := by
  rw [endgameCandidate, Option.map_eq_none_iff, List.argmin_eq_none,
    List.eq_nil_iff_forall_not_mem]
  constructor
  · rintro h p holders ⟨hl, hlt, hp⟩
    refine h ⟨p, holders⟩ (List.mem_filter.mpr ⟨AList.mem_lookup_iff.mp hl, ?_⟩)
    rw [hp, Bool.and_true, decide_eq_true hlt]
  · rintro h ⟨p, holders⟩ hentry
    rw [List.mem_filter, Bool.and_eq_true, decide_eq_true_eq] at hentry
    exact h p holders ⟨AList.mem_lookup_iff.mpr hentry.1, hentry.2.1, hentry.2.2⟩

theorem Inv.nextWorkFor_queue (h : m.Inv) (rng : Nat → Nat) (hsome : ∃ p, m.Queued p ∧ peerHas.has p) :
    (∃ (pos p : Nat), m.clean.missing[pos]? = some p ∧ peerHas.has p ∧
      (∀ q, m.Queued q → peerHas.has q → m.availabilityOf p ≤ m.availabilityOf q) ∧
      (m.nextWorkFor peerHas rng).1 = some p) := by
  cases hr : m.clean.rarest peerHas rng with
  | none =>
    obtain ⟨p, hq, hp⟩ := hsome
    rw [rarest_none hr p (h.mem_clean_missing.mpr hq)] at hp
    cases hp
  | some best =>
    obtain ⟨p, hpos, hp, hle⟩ := rarest_some hr
    refine ⟨best.1, p, hpos, hp, fun q hq hqhas => ?_, by simp [TorrentManager.nextWorkFor, hr, hpos]⟩
    simpa using hle q (h.mem_clean_missing.mpr hq) hqhas

theorem Inv.nextWorkFor_favoured (h : m.Inv) {p : Nat} (hq : m.Queued p) (hp : peerHas.has p)
    (hle : ∀ q, m.Queued q → peerHas.has q → m.availabilityOf p ≤ m.availabilityOf q) :
    ∃ rng, (m.nextWorkFor peerHas rng).1 = some p := by
  obtain ⟨pos, hpos⟩ := List.getElem?_of_mem (h.mem_clean_missing.mpr hq)
  have hr := rarest_favoured hpos hp fun q hq hqhas => by
    simpa using hle q (h.mem_clean_missing.mp hq) hqhas
  exact ⟨favour pos, by simp [TorrentManager.nextWorkFor, hr, hpos]⟩

theorem rarest_eq_none (hnone : ∀ p ∈ m.missing, ¬ peerHas.has p) : m.rarest peerHas rng = none := by
  cases hr : m.rarest peerHas rng with
  | none => rfl
  | some best =>
    obtain ⟨p, hpos, hp⟩ := rarest_spec hr
    exact absurd hp (hnone p (List.mem_of_getElem? hpos))

theorem Inv.nextWorkFor_waits (h : m.Inv) (hsome : ∃ p, m.Queued p)
    (hnone : ∀ p, m.Queued p → ¬ peerHas.has p) : (m.nextWorkFor peerHas rng).1 = none := by
  have hr : m.clean.rarest peerHas rng = none :=
    rarest_eq_none fun p hp => hnone p (h.mem_clean_missing.mp hp)
  obtain ⟨p, hp⟩ := hsome
  have hne := List.ne_nil_of_mem (h.mem_clean_missing.mpr hp)
  simp [TorrentManager.nextWorkFor, hr, hne]

theorem Inv.nextWorkFor_endgame (h : m.Inv) (peerHas : Bitfield) (rng : Nat → Nat)
    (hnone : ∀ p, ¬ m.Queued p) :
    (m.nextWorkFor peerHas rng).1 = m.endgameCandidate peerHas := by
  have hempty : m.clean.missing = [] :=
    List.eq_nil_iff_forall_not_mem.mpr fun p hp => hnone p (h.mem_clean_missing.mp hp)
  have hr : m.clean.rarest peerHas rng = none :=
    rarest_eq_none fun p hp => by rw [hempty] at hp; cases hp
  have hsame : m.clean.endgameCandidate peerHas = m.endgameCandidate peerHas := by
    rw [endgameCandidate, clean_inProgress]
    rfl
  rw [← hsame]
  cases hc : m.clean.endgameCandidate peerHas with
  | none => simp [TorrentManager.nextWorkFor, hr, hempty, hc]
  | some p =>
    obtain ⟨holders, hl, -, -⟩ := endgameCandidate_spec hc
    rw [clean_inProgress] at hl
    simp [TorrentManager.nextWorkFor, hr, hempty, hc, hl]

structure Handed (m : TorrentManager) (piece : Option Nat) (m' : TorrentManager) : Prop where
  reserved : ∀ q, m'.reserved q = m.reserved q + if piece = some q then 1 else 0
  lookup : ∀ q, piece ≠ some q → m'.inProgress.lookup q = m.inProgress.lookup q
  queued : ∀ q, m'.Queued q ↔ m.Queued q ∧ piece ≠ some q
  pieceState : ∀ q, piece ≠ some q → m'.pieceState q = m.pieceState q
  downloading : ∀ q, piece = some q → m'.pieceState q = some .downloading
  totalPieces : m'.totalPieces = m.totalPieces
  completed : m'.completed = m.completed
  availability : m'.availability = m.availability
  selection : m'.selection = m.selection
  wantedTotal : m'.wantedTotal = m.wantedTotal
  wantedCompleted : m'.wantedCompleted = m.wantedCompleted

theorem pieceState_congr {m m' : TorrentManager} (ht : m'.totalPieces = m.totalPieces)
    (hc : m'.completed = m.completed) {q : Nat}
    (hl : m'.inProgress.lookup q = m.inProgress.lookup q) : m'.pieceState q = m.pieceState q := by
  simp [TorrentManager.pieceState, isCompleted, ht, hc, hl]

theorem pieceState_downloading {m : TorrentManager} {q holders : Nat} (hlt : q < m.totalPieces)
    (hopen : q ∉ m.completed) (hl : m.inProgress.lookup q = some holders) :
    m.pieceState q = some .downloading := by
  simp [TorrentManager.pieceState, isCompleted, Nat.not_le.mpr hlt, hopen, hl]

theorem wanted_clean (m : TorrentManager) : m.clean.wantedTotal = m.wantedTotal ∧
    m.clean.wantedCompleted = m.wantedCompleted := by
  unfold clean
  split <;> exact ⟨rfl, rfl⟩

theorem availability_clean (m : TorrentManager) : m.clean.availability = m.availability := by
  unfold clean
  split <;> rfl

theorem handed_of_insert {m m' : TorrentManager} {piece : Nat} (halike : Alike m m')
    (hlt : piece < m.totalPieces) (hopen : piece ∉ m.completed)
    (hmissing : ∀ q, q ∈ m'.missing ↔ m.Queued q ∧ q ≠ piece)
    (hlookup : ∀ q, m'.inProgress.lookup q =
      if q = piece then some (m.reserved piece + 1) else m.inProgress.lookup q)
    (havailability : m'.availability = m.availability)
    (hwanted : m'.wantedTotal = m.wantedTotal ∧ m'.wantedCompleted = m.wantedCompleted) :
    Handed m (some piece) m' := by
  obtain ⟨htotal, hcompleted, hselection⟩ := halike
  have hother {q : Nat} (hq : some piece ≠ some q) :
      m'.inProgress.lookup q = m.inProgress.lookup q := by
    rw [hlookup, if_neg fun heq => hq (congrArg some heq.symm)]
  exact
    { reserved := fun q => by
        rw [TorrentManager.reserved, hlookup]
        by_cases hq : q = piece
        · subst hq
          simp
        · simp [hq, Ne.symm hq, TorrentManager.reserved]
      lookup := fun q hq => hother hq
      queued := fun q => by
        rw [Queued, hmissing, hcompleted, and_iff_left_of_imp fun hq => hq.1.2]
        exact and_congr_right fun _ => by rw [ne_eq, ne_eq, Option.some.injEq, eq_comm]
      pieceState := fun q hq => pieceState_congr htotal hcompleted (hother hq)
      downloading := fun q hq => by
        cases hq
        have hheld := (hlookup piece).trans (if_pos rfl)
        exact pieceState_downloading (hlt.trans_eq htotal.symm) (hcompleted ▸ hopen) hheld
      totalPieces := htotal
      completed := hcompleted
      availability := havailability
      selection := hselection
      wantedTotal := hwanted.1
      wantedCompleted := hwanted.2 }

theorem Inv.handed (h : m.Inv) (peerHas : Bitfield) (rng : Nat → Nat) :
    Handed m (m.nextWorkFor peerHas rng).1 (m.nextWorkFor peerHas rng).2 := by
  obtain ⟨hinv, hopen⟩ := h.clean
  obtain ⟨htotal, hcompleted, hselection⟩ := alike_clean m
  rcases nextWorkFor_cases m peerHas rng with he | ⟨pos, piece, hpos, -, he⟩ |
    ⟨piece, holders, hempty, hl, -, -, he⟩ <;> rw [he]
  · exact
      { reserved := fun q => by simp [TorrentManager.reserved]
        lookup := fun q _ => by rw [clean_inProgress]
        queued := fun q => by
          rw [Queued, h.mem_clean_missing, hcompleted]
          simp [Queued]
        pieceState := fun q _ => pieceState_congr htotal hcompleted (by rw [clean_inProgress])
        downloading := nofun
        totalPieces := htotal
        completed := hcompleted
        availability := availability_clean m
        selection := hselection
        wantedTotal := (wanted_clean m).1
        wantedCompleted := (wanted_clean m).2 }
  · have hmem := List.mem_of_getElem? hpos
    have hnone : m.reserved piece = 0 := by
      have hfree := hinv.missing_free piece hmem
      rw [clean_inProgress] at hfree
      rw [TorrentManager.reserved, hfree]
      rfl
    refine handed_of_insert ⟨htotal, hcompleted, hselection⟩
      (htotal ▸ hinv.missing_lt piece hmem) (hcompleted ▸ hopen piece hmem) (fun q => ?_)
      (fun q => ?_) (availability_clean m) (wanted_clean m)
    · rw [mem_eraseIdx_of_nodup hinv.missing_nodup hpos, h.mem_clean_missing]
    · rw [lookup_insert_ite, clean_inProgress, hnone]
  · have hheld : m.reserved piece = holders := by
      rw [clean_inProgress] at hl
      rw [TorrentManager.reserved, hl]
      rfl
    refine handed_of_insert ⟨htotal, hcompleted, hselection⟩
      (htotal ▸ hinv.held_lt piece holders hl) (hcompleted ▸ hinv.held_open piece holders hl)
      (fun q => ?_) (fun q => ?_) (availability_clean m) (wanted_clean m)
    · -- nothing is queued in the endgame
      rw [← h.mem_clean_missing, hempty]
      simp
    · rw [lookup_insert_ite, clean_inProgress, hheld]

/-- In every reachable state a peer is given one of the rarest queued pieces it has, any of them;
it waits while only others are queued, and joins the foremost piece in flight when none is. -/
theorem rarest_first_then_endgame (totalPieces : Nat) (completedPieces : List Nat)
    (selection : Selection) (calls : List Call) (peerHas : Bitfield) :
    let m := Lib.exec call (withSelection totalPieces completedPieces selection) calls
    ((∃ p, m.Queued p ∧ peerHas.has p) →
      (∀ rng, ∃ p, (m.nextWorkFor peerHas rng).1 = some p ∧ m.Queued p ∧ peerHas.has p ∧
        ∀ q, m.Queued q → peerHas.has q → m.availabilityOf p ≤ m.availabilityOf q) ∧
      ∀ p, m.Queued p → peerHas.has p →
        (∀ q, m.Queued q → peerHas.has q → m.availabilityOf p ≤ m.availabilityOf q) →
        ∃ rng, (m.nextWorkFor peerHas rng).1 = some p) ∧
    ((∃ p, m.Queued p) → (∀ p, m.Queued p → ¬ peerHas.has p) →
      ∀ rng, (m.nextWorkFor peerHas rng).1 = none) ∧
    ((∀ p, ¬ m.Queued p) → ∀ rng,
      (∀ p, (m.nextWorkFor peerHas rng).1 = some p ↔ m.Foremost peerHas p) ∧
      ((m.nextWorkFor peerHas rng).1 = none ↔ ∀ p holders, ¬ m.Joinable peerHas p holders)) ∧
    (∀ rng, Handed m (m.nextWorkFor peerHas rng).1 (m.nextWorkFor peerHas rng).2) := by
  intro m
  have h : m.Inv := Lib.exec_invariant (fun _ c hm => hm.call c) calls
    (inv_withSelection totalPieces completedPieces selection)
  refine ⟨fun hsome => ⟨fun rng => ?_, fun p hq hp hle => h.nextWorkFor_favoured hq hp hle⟩,
    fun hsome hnone rng => h.nextWorkFor_waits hsome hnone, fun hnone rng => ?_,
    fun rng => h.handed peerHas rng⟩
  · obtain ⟨pos, p, hpos, hp, hle, he⟩ := h.nextWorkFor_queue rng hsome
    exact ⟨p, he, h.mem_clean_missing.mp (List.mem_of_getElem? hpos), hp, hle⟩
  · rw [h.nextWorkFor_endgame peerHas rng hnone]
    exact ⟨fun p => endgameCandidate_eq_some_iff, endgameCandidate_eq_none_iff⟩

def Useful (m : TorrentManager) : Call → Prop
  | .nextWorkFor peerHas rng => ∀ p, (m.nextWorkFor peerHas rng).1 = some p →
    p < m.totalPieces ∧ peerHas.has p ∧ ¬ m.isCompleted p ∧ m.isWanted p
  | _ => True

/-- A piece is queued, or every piece in flight that the peer could join comes after one that is
wanted, if it is not wanted itself. -/
def WantedForemost (m : TorrentManager) : Call → Prop
  | .nextWorkFor peerHas _ => (∃ p, m.Queued p) ∨
    ∀ p holders, m.Joinable peerHas p holders → ∃ q others, m.Joinable peerHas q others ∧
      m.isWanted q ∧ Precedes q others p holders
  | _ => True

theorem Inv.useful_iff (h : m.Inv) (peerHas : Bitfield) (rng : Nat → Nat) :
    (∀ p, (m.nextWorkFor peerHas rng).1 = some p →
      p < m.totalPieces ∧ peerHas.has p ∧ ¬ m.isCompleted p) ∧
    (m.Useful (.nextWorkFor peerHas rng) ↔ m.WantedForemost (.nextWorkFor peerHas rng)) := by
  obtain ⟨hinv, hopen⟩ := h.clean
  obtain ⟨htotal, hcompleted, hselection⟩ := alike_clean m
  have hsound : ∀ p, (m.nextWorkFor peerHas rng).1 = some p →
      p < m.totalPieces ∧ peerHas.has p ∧ ¬ m.isCompleted p := by
    intro p hp
    rw [isCompleted, decide_eq_true_eq]
    rcases nextWorkFor_cases m peerHas rng with he | ⟨pos, piece, hpos, hhas, he⟩ |
      ⟨piece, holders, -, hl, -, hhas, he⟩ <;> rw [he] at hp <;> cases hp
    · have hmem := List.mem_of_getElem? hpos
      exact ⟨htotal ▸ hinv.missing_lt p hmem, hhas, hcompleted ▸ hopen p hmem⟩
    · exact ⟨htotal ▸ hinv.held_lt p holders hl, hhas, hcompleted ▸ hinv.held_open p holders hl⟩
  refine ⟨hsound, ?_⟩
  by_cases hsome : ∃ p, m.Queued p
  · refine iff_of_true (fun p hp => ?_) (.inl hsome)
    obtain ⟨hlt, hhas, hc⟩ := hsound p hp
    refine ⟨hlt, hhas, hc, ?_⟩
    -- what comes off the queue is wanted
    by_cases hany : ∃ q, m.Queued q ∧ peerHas.has q
    · obtain ⟨pos, q, hpos, -, -, he⟩ := h.nextWorkFor_queue rng hany
      cases hp.symm.trans he
      exact h.missing_wanted p (h.mem_clean_missing.mp (List.mem_of_getElem? hpos)).1
    · push Not at hany
      rw [h.nextWorkFor_waits hsome fun q hq => by simpa using hany q hq] at hp
      cases hp
  · push Not at hsome
    have hend := h.nextWorkFor_endgame peerHas rng hsome
    constructor
    · intro huseful
      refine .inr fun p holders hjoin => ?_
      cases hc : m.endgameCandidate peerHas with
      | none => exact absurd hjoin (endgameCandidate_eq_none_iff.mp hc p holders)
      | some q =>
        obtain ⟨-, -, -, hwanted⟩ := huseful q (hend.trans hc)
        obtain ⟨others, hq, hle⟩ := endgameCandidate_eq_some_iff.mp hc
        exact ⟨q, others, hq, hwanted, hle p holders hjoin⟩
    · rintro (⟨q, hq⟩ | hforemost) p hp
      · exact absurd hq (hsome q)
      · obtain ⟨hlt, hhas, hc⟩ := hsound p hp
        refine ⟨hlt, hhas, hc, ?_⟩
        obtain ⟨holders, hjoin, hle⟩ := endgameCandidate_eq_some_iff.mp (hend.symm.trans hp)
        obtain ⟨q, others, hq, hwanted, hprec⟩ := hforemost p holders hjoin
        have hback := hle q others hq
        obtain rfl : q = p := by
          unfold Precedes at hprec hback
          omega
        exact hwanted

/-- Whatever is handed out is a piece the peer has that is not completed; in every run it is wanted
each time exactly when the endgame never comes to a piece that the selection has left behind. -/
theorem useful_work_iff (totalPieces : Nat) (completedPieces : List Nat) (selection : Selection)
    (calls : List Call) :
    let start := withSelection totalPieces completedPieces selection
    (∀ k peerHas rng p, ((Lib.exec call start (calls.take k)).nextWorkFor peerHas rng).1 = some p →
      p < totalPieces ∧ peerHas.has p ∧ ¬ (Lib.exec call start (calls.take k)).isCompleted p) ∧
    (Lib.Along call Useful start calls ↔ Lib.Along call WantedForemost start calls) := by
  intro start
  have hstart : start.Inv := inv_withSelection totalPieces completedPieces selection
  constructor
  · intro k peerHas rng p hp
    have h : (Lib.exec call start (calls.take k)).Inv :=
      Lib.exec_invariant (fun _ c hm => hm.call c) _ hstart
    have htotal : (Lib.exec call start (calls.take k)).totalPieces = totalPieces :=
      Lib.exec_invariant (P := fun m => m.totalPieces = totalPieces)
        (fun m c hm => (totalPieces_call m c).trans hm) _ rfl
    have hsound := (h.useful_iff peerHas rng).1 p hp
    rwa [htotal] at hsound
  · refine Lib.along_iff (P := Inv) (fun m c _ h => ?_) (fun m c _ h _ => h.call c) hstart
    cases c with
    | nextWorkFor peerHas rng => exact (h.useful_iff peerHas rng).2
    | _ => exact Iff.rfl

end Choice

/-- Both pieces are wanted and the first is taken; then the selection is narrowed to the second,
which is completed. -/
def narrowed : List Call :=
  [.nextWorkFor (.full 2) (fun _ => 1), .applySelection ⟨.fromIndices 2 [1], .new 2⟩ (.new 2),
    .markCompleted 1]

theorem unwanted_handed_out :
    let m := Lib.exec call (withSelection 2 [] (.all 2)) narrowed
    (m.nextWorkFor (.full 2) fun _ => 0).1 = some 0 ∧ m.isWanted 0 = false ∧ m.isDone = true := by
  decide +kernel

end Tortor.Core.TorrentManager
