import Tortor.Core.AssemblerLaws

/-! The two scans over the requests of a piece: which ones are in flight, and which block is to be
requested next.  They look at one time stamp from two sides. -/

namespace Tortor.Core

namespace BlockRequest

variable {block : BlockRequest} {now later timeout : Nat}

theorem inFlight_iff : block.inFlight now timeout = true ↔
    block.completed = false ∧ ∃ t, block.requestedAt = some t ∧ now - t ≤ timeout := by
  simp [inFlight, Option.any_eq_true]

theorem inFlight_of_le (hle : now ≤ later) (h : block.inFlight later timeout = true) :
    block.inFlight now timeout = true := by
  obtain ⟨hnew, t, ht, hrecent⟩ := inFlight_iff.mp h
  exact inFlight_iff.mpr ⟨hnew, t, ht, by omega⟩

theorem due_eq_some {retry : Bool} (h : block.due now timeout = some retry) :
    block.completed = false ∧ ∀ t, block.requestedAt = some t → timeout < now - t := by
  rw [due] at h
  split at h
  · cases h
  case isFalse hnew =>
    refine ⟨Bool.eq_false_iff.mpr hnew, fun t ht => ?_⟩
    rw [ht] at h
    dsimp only at h
    split at h
    case isTrue hold => exact hold
    case isFalse => cases h

theorem due_eq_none_iff : block.due now timeout = none ↔
    (block.completed = false → block.inFlight now timeout = true) := by
  cases hdone : block.completed with
  | true => simp [due, hdone]
  | false =>
    cases hrequested : block.requestedAt with
    | none => simp [due, inFlight, hdone, hrequested]
    | some t => simp [due, inFlight, hdone, hrequested]

theorem inFlight_of_due {retry : Bool} (h : block.due now timeout = some retry)
    (hle : now ≤ later) : block.inFlight later timeout = false := by
  refine Bool.eq_false_iff.mpr fun hflight => ?_
  obtain ⟨-, t, ht, hrecent⟩ := inFlight_iff.mp (inFlight_of_le hle hflight)
  exact absurd ((due_eq_some h).2 t ht) (Nat.not_lt.mpr hrecent)

end BlockRequest

namespace PieceAssembler

def incompleteCount (a : PieceAssembler) : Nat := a.blocks.countP (!·.completed)

variable {a b : PieceAssembler} {now later timeout : Nat}

theorem inFlightCount_of_le (a : PieceAssembler) (hle : now ≤ later) (timeout : Nat) :
    a.inFlightCount later timeout ≤ a.inFlightCount now timeout :=
  List.countP_mono_left fun _ _ => BlockRequest.inFlight_of_le hle

theorem inFlightCount_eq_zero
    (h : ∀ block ∈ a.blocks, block.completed = false → block.requestedAt = none) :
    a.inFlightCount now timeout = 0 := by
  refine List.countP_eq_zero.mpr fun block hblock hflight => ?_
  obtain ⟨hnew, t, ht, -⟩ := BlockRequest.inFlight_iff.mp hflight
  cases (h block hblock hnew).symm.trans ht

theorem countP_le_iff {α : Type} {p q : α → Bool} {l : List α}
    (h : ∀ x ∈ l, p x = true → q x = true) :
    l.countP q ≤ l.countP p ↔ ∀ x ∈ l, q x = true → p x = true := by
  induction l with
  | nil => exact iff_of_true (Nat.le_refl _) (List.forall_mem_nil _)
  | cons x l ih =>
    obtain ⟨hx, hl⟩ := List.forall_mem_cons.mp h
    have hle : l.countP p ≤ l.countP q := List.countP_mono_left hl
    rw [List.forall_mem_cons, ← ih hl, List.countP_cons, List.countP_cons]
    cases hp : p x with
    | true => simp [hx hp]
    | false =>
      cases hq : q x with
      | true => simp; omega
      | false => simp

theorem allInFlight_iff (a : PieceAssembler) (now timeout : Nat) :
    a.incompleteCount ≤ a.inFlightCount now timeout ↔
      ∀ block ∈ a.blocks, block.completed = false → block.inFlight now timeout = true := by
  have hnew (block : BlockRequest) (h : block.inFlight now timeout = true) :
      (!block.completed) = true := by
    rw [(BlockRequest.inFlight_iff.mp h).1]
    rfl
  rw [incompleteCount, inFlightCount, countP_le_iff fun block _ => hnew block]
  simp only [Bool.not_eq_true']

theorem nextRequestLoop_eq_none_iff {blocks : List BlockRequest} :
    nextRequestLoop now timeout blocks = none ↔
      ∀ block ∈ blocks, block.completed = false → block.inFlight now timeout = true := by
  induction blocks with
  | nil => exact iff_of_true rfl (List.forall_mem_nil _)
  | cons block blocks ih =>
    rw [nextRequestLoop, List.forall_mem_cons, ← BlockRequest.due_eq_none_iff, ← ih]
    cases block.due now timeout with
    | some retry => simp
    | none => simp

theorem nextRequest_eq_none_iff (a : PieceAssembler) (now timeout : Nat) :
    a.nextRequest now timeout = none ↔ a.incompleteCount ≤ a.inFlightCount now timeout := by
  rw [nextRequest, Option.map_eq_none_iff, nextRequestLoop_eq_none_iff, allInFlight_iff]

theorem nextRequestLoop_eq_some {blocks rest : List BlockRequest} {begin length : Nat}
    {isRetry : Bool}
    (h : nextRequestLoop now timeout blocks = some ((begin, length, isRetry), rest)) :
    ∃ before block after, blocks = before ++ block :: after ∧
      rest = before ++ { block with requestedAt := some now } :: after ∧
      block.begin = begin ∧ block.length = length ∧ block.due now timeout = some isRetry := by
  induction blocks generalizing rest with
  | nil => cases h
  | cons block blocks ih =>
    rw [nextRequestLoop] at h
    split at h
    case h_1 retry hdue =>
      cases h
      exact ⟨[], block, blocks, rfl, rfl, rfl, rfl, hdue⟩
    case h_2 =>
      obtain ⟨⟨request, tail⟩, htail, heq⟩ := Option.map_eq_some_iff.mp h
      cases heq
      obtain ⟨before, found, after, hblocks, hrest, hfound⟩ := ih htail
      exact ⟨block :: before, found, after, by rw [hblocks, List.cons_append],
        by rw [hrest, List.cons_append], hfound⟩

structure Requests (now timeout : Nat) (a : PieceAssembler) (begin length : Nat)
    (b : PieceAssembler) : Prop where
  same : b = { a with blocks := b.blocks }
  of_block : ∃ before block after, a.blocks = before ++ block :: after ∧
    b.blocks = before ++ { block with requestedAt := some now } :: after ∧
    block.begin = begin ∧ block.length = length ∧ block.completed = false ∧
    (∀ t, block.requestedAt = some t → timeout < now - t) ∧
    ∀ later, now ≤ later → block.inFlight later timeout = false

theorem nextRequest_eq_some {begin length : Nat} {isRetry : Bool}
    (h : a.nextRequest now timeout = some ((begin, length, isRetry), b)) :
    Requests now timeout a begin length b := by
  obtain ⟨⟨request, blocks⟩, hloop, heq⟩ := Option.map_eq_some_iff.mp h
  cases heq
  obtain ⟨before, block, after, hblocks, hrest, hbegin, hlength, hdue⟩ :=
    nextRequestLoop_eq_some hloop
  obtain ⟨hnew, hold⟩ := BlockRequest.due_eq_some hdue
  exact ⟨rfl, before, block, after, hblocks, hrest, hbegin, hlength, hnew, hold,
    fun later => BlockRequest.inFlight_of_due hdue⟩

namespace Requests

variable {begin length : Nat}

theorem progress (h : Requests now timeout a begin length b) :
    b.blocks.map BlockRequest.progress = a.blocks.map BlockRequest.progress := by
  obtain ⟨before, block, after, hblocks, hrest, -⟩ := h.of_block
  rw [hblocks, hrest]
  simp [BlockRequest.progress]

theorem incompleteCount_eq (h : Requests now timeout a begin length b) :
    b.incompleteCount = a.incompleteCount := by
  obtain ⟨before, block, after, hblocks, hrest, -⟩ := h.of_block
  simp only [incompleteCount, hblocks, hrest, List.countP_append, List.countP_cons]

theorem inFlightCount_eq (h : Requests now timeout a begin length b) (hle : now ≤ later) :
    b.inFlightCount later timeout =
      a.inFlightCount later timeout + if later - now ≤ timeout then 1 else 0 := by
  obtain ⟨before, block, after, hblocks, hrest, -, -, hnew, -, hexpired⟩ := h.of_block
  have hrequested : ({ block with requestedAt := some now } : BlockRequest).inFlight later timeout =
      decide (later - now ≤ timeout) := by
    simp [BlockRequest.inFlight, hnew]
  simp only [inFlightCount, hblocks, hrest, List.countP_append, List.countP_cons, hrequested,
    hexpired later hle, decide_eq_true_eq, Bool.false_eq_true, if_false]
  omega

theorem intact (h : Requests now timeout a begin length b) (hintact : a.Intact) : b.Intact := by
  rw [h.same]
  exact hintact.congr rfl rfl rfl h.progress

theorem block_cases (h : Requests now timeout a begin length b) (hintact : a.Intact)
    {other : BlockRequest} (hother : other ∈ b.blocks) :
    other.requestedAt = some now ∨ (other ∈ a.blocks ∧ other.begin ≠ begin) := by
  have hafter : b.Intact := h.intact hintact
  obtain ⟨before, block, after, hblocks, hrest, rfl, -⟩ := h.of_block
  have hmarked : ({ block with requestedAt := some now } : BlockRequest) ∈ b.blocks := by
    rw [hrest]
    exact List.mem_append_right _ List.mem_cons_self
  by_cases hsame : other = { block with requestedAt := some now }
  case pos => exact .inl (by rw [hsame])
  case neg =>
    have hin : other ∈ a.blocks := (mem_of_marked hblocks (hrest ▸ hother)).resolve_left hsame
    refine .inr ⟨hin, fun hbegin => hsame ?_⟩
    have hlong : 0 < other.length := hafter.nonempty other hother
    have hlong' := hafter.nonempty _ hmarked
    dsimp only at hlong'
    exact hafter.tiling.eq_of_mem hother hmarked ⟨Nat.le_refl _, by omega⟩
      ⟨Nat.le_of_eq hbegin.symm, by dsimp only; omega⟩

end Requests

end PieceAssembler

end Tortor.Core
