import Tortor.Core.Assembler
import Tortor.Lib.Run
import Tortor.Lib.Tiling

/-! A piece put together from blocks that come in any order, any number of times, between blocks
that nobody asked for. -/

namespace Tortor.Core

open Tortor.Lib

/-- The part of a block that requests leave alone. -/
def BlockRequest.progress (block : BlockRequest) : (Nat × Nat) × Bool :=
  ((block.begin, block.length), block.completed)

namespace PieceAssembler

theorem blocks_new {index total : Nat} (hpos : 0 < total) :
    (new index total).blocks = (List.range ((total + BLOCK_SIZE - 1) / BLOCK_SIZE)).map fun i =>
      ⟨i * BLOCK_SIZE, min BLOCK_SIZE (total - i * BLOCK_SIZE), none, false⟩ := by
  simp only [new, if_neg (Nat.pos_iff_ne_zero.mp hpos)]

theorem tiling_new {index total : Nat} (hpos : 0 < total) :
    Tiling BlockRequest.begin BlockRequest.length 0 (new index total).blocks total := by
  have htiles := Tiling.chunks BLOCK_SIZE total ((total + BLOCK_SIZE - 1) / BLOCK_SIZE)
    (by unfold BLOCK_SIZE; omega)
  have hcover : min ((total + BLOCK_SIZE - 1) / BLOCK_SIZE * BLOCK_SIZE) total = total := by
    unfold BLOCK_SIZE
    omega
  rw [hcover] at htiles
  rw [blocks_new hpos]
  exact htiles.map _

theorem blank_new {index total : Nat} (hpos : 0 < total) {block : BlockRequest}
    (hblock : block ∈ (new index total).blocks) : 0 < block.length ∧ block.completed = false := by
  rw [blocks_new hpos] at hblock
  obtain ⟨i, hi, rfl⟩ := List.mem_map.mp hblock
  have hlt := List.mem_range.mp hi
  refine ⟨?_, rfl⟩
  unfold BLOCK_SIZE at hlt ⊢
  dsimp only
  omega

/-! Requests change no block's place and no block's completion. -/

theorem progress_nextRequestLoop {now timeout : Nat} {blocks rest : List BlockRequest}
    {request : Nat × Nat × Bool} (h : nextRequestLoop now timeout blocks = some (request, rest)) :
    rest.map BlockRequest.progress = blocks.map BlockRequest.progress := by
  induction blocks generalizing rest with
  | nil => cases h
  | cons block blocks ih =>
    rw [nextRequestLoop] at h
    split at h
    · cases h
      rfl
    · obtain ⟨⟨r, tail⟩, htail, he⟩ := Option.map_eq_some_iff.mp h
      cases he
      rw [List.map_cons, List.map_cons, ih htail]

theorem progress_resetRequests (a : PieceAssembler) :
    a.resetRequests.blocks.map BlockRequest.progress = a.blocks.map BlockRequest.progress := by
  rw [resetRequests, List.map_map]
  apply List.map_congr_left
  intro block _
  rw [Function.comp_apply]
  split <;> rfl

theorem markBlock_eq {begin length : Nat} {blocks : List BlockRequest} {block : BlockRequest}
    (h : blocks.find? (fun b => b.begin == begin && b.length == length) = some block) :
    ∃ before after, blocks = before ++ block :: after ∧ block.begin = begin ∧
      block.length = length ∧
      markBlock begin length blocks = before ++ { block with completed := true } :: after := by
  induction blocks with
  | nil => cases h
  | cons b blocks ih =>
    rw [List.find?_cons] at h
    rw [markBlock]
    cases hb : (b.begin == begin && b.length == length) with
    | true =>
      simp only [hb, Option.some.injEq] at h
      subst h
      obtain ⟨hbegin, hlength⟩ := Bool.and_eq_true_iff.mp hb
      exact ⟨[], blocks, rfl, beq_iff_eq.mp hbegin, beq_iff_eq.mp hlength, by simp⟩
    | false =>
      simp only [hb] at h
      obtain ⟨before, after, hsplit, hbegin, hlength, hmark⟩ := ih h
      refine ⟨b :: before, after, ?_, hbegin, hlength, ?_⟩
      · rw [hsplit, List.cons_append]
      · rw [hmark]
        simp

theorem addBlock_cases {a : PieceAssembler} (hsize : a.expectedLength < 2 ^ 32) (begin : Nat)
    (data : List UInt8) :
    match a.classifyBlock begin data.length with
    | .unexpected => ∃ text, a.addBlock begin data = (.error text, a)
    | .duplicate => a.addBlock begin data = (.inProgress, a)
    | .expectedNew =>
      begin + data.length ≤ a.expectedLength ∧ ∃ before block after,
        a.blocks = before ++ block :: after ∧ block.begin = begin ∧ block.length = data.length ∧
        block.completed = false ∧
        (a.addBlock begin data).2 =
          { a with
            buffer := a.buffer.take begin ++ data ++ a.buffer.drop (begin + data.length)
            blocks := before ++ { block with completed := true } :: after
            receivedBytes := a.receivedBytes + data.length } ∧
        (a.addBlock begin data).1 =
          if (a.addBlock begin data).2.receivedBytes = a.expectedLength then
            .complete (a.addBlock begin data).2.buffer
          else .inProgress := by
  unfold classifyBlock addBlock
  by_cases hout : a.expectedLength < begin + data.length
  · rw [if_pos hout, if_pos hout]
    exact ⟨_, rfl⟩
  rw [if_neg hout, if_neg hout, Nat.mod_eq_of_lt (by omega)]
  cases hfind : a.findBlock begin data.length with
  | none => exact ⟨_, rfl⟩
  | some block =>
    cases hdone : block.completed with
    | true => simp [hdone]
    | false =>
      obtain ⟨before, after, hsplit, hbegin, hlength, hmark⟩ := markBlock_eq hfind
      simp only [hdone, Bool.false_eq_true, if_false]
      exact ⟨Nat.not_lt.mp hout, before, block, after, hsplit, hbegin, hlength, hdone,
        by rw [hmark], trivial⟩

inductive Call
  | addBlock (begin : Nat) (data : List UInt8)
  | nextRequest (now timeout : Nat)
  | resetRequests
  deriving DecidableEq

def call (a : PieceAssembler) : Call → PieceAssembler
  | .addBlock begin data => (a.addBlock begin data).2
  | .nextRequest now timeout =>
    match a.nextRequest now timeout with
    | some (_, a) => a
    | none => a
  | .resetRequests => a.resetRequests

def completes (a : PieceAssembler) : Call → Option (List UInt8)
  | .addBlock begin data =>
    match (a.addBlock begin data).1 with
    | .complete buffer => some buffer
    | _ => none
  | _ => none

def handed (a : PieceAssembler) : List Call → List (List UInt8)
  | [] => []
  | c :: calls => (a.completes c).toList ++ (a.call c).handed calls

def Carries (D : List UInt8) (a : PieceAssembler) : Call → Prop
  | .addBlock begin data =>
    a.classifyBlock begin data.length = .expectedNew → data = (D.drop begin).take data.length
  | _ => True

instance (D : List UInt8) (a : PieceAssembler) (c : Call) : Decidable (Carries D a c) := by
  cases c <;> unfold Carries <;> infer_instance

def completedBytes (a : PieceAssembler) : Nat :=
  ((a.blocks.filter (·.completed)).map (·.length)).sum

def AllCompleted (a : PieceAssembler) : Prop := ∀ block ∈ a.blocks, block.completed

instance (a : PieceAssembler) : Decidable a.AllCompleted := by
  unfold AllCompleted
  infer_instance

structure Intact (a : PieceAssembler) : Prop where
  buffer : a.buffer.length = a.expectedLength
  tiling : Tiling BlockRequest.begin BlockRequest.length 0 a.blocks a.expectedLength
  nonempty : ∀ block ∈ a.blocks, 0 < block.length
  received : a.receivedBytes = a.completedBytes

structure Assembling (D : List UInt8) (a : PieceAssembler) : Prop where
  expected : a.expectedLength = D.length
  buffer : a.buffer.length = D.length
  tiling : Tiling BlockRequest.begin BlockRequest.length 0 a.blocks D.length
  nonempty : ∀ block ∈ a.blocks, 0 < block.length
  filled : ∀ block ∈ a.blocks, block.completed →
    ∀ x, block.begin ≤ x → x < block.begin + block.length → a.buffer[x]? = D[x]?
  received : a.receivedBytes = a.completedBytes

variable {D : List UInt8} {a b : PieceAssembler}

theorem completedBytes_eq (a : PieceAssembler) : a.completedBytes =
    (((a.blocks.map BlockRequest.progress).filter (·.2)).map (·.1.2)).sum := by
  rw [List.filter_map, List.map_map]
  rfl

theorem allCompleted_iff (a : PieceAssembler) :
    a.AllCompleted ↔ ∀ p ∈ a.blocks.map BlockRequest.progress, p.2 = true := by
  rw [List.forall_mem_map]
  rfl

theorem mem_of_progress_eq (h : b.blocks.map BlockRequest.progress =
    a.blocks.map BlockRequest.progress) {block : BlockRequest} (hb : block ∈ b.blocks) :
    ∃ c ∈ a.blocks, c.progress = block.progress :=
  List.mem_map.mp (h ▸ List.mem_map_of_mem hb)

theorem Intact.congr (h : a.Intact) (hexpected : b.expectedLength = a.expectedLength)
    (hbuffer : b.buffer = a.buffer) (hreceived : b.receivedBytes = a.receivedBytes)
    (hblocks : b.blocks.map BlockRequest.progress = a.blocks.map BlockRequest.progress) :
    b.Intact := by
  have hplaces : b.blocks.map (fun block => (block.begin, block.length)) =
      a.blocks.map fun block => (block.begin, block.length) := by
    have hfst := congrArg (List.map Prod.fst) hblocks
    rwa [List.map_map, List.map_map] at hfst
  refine
    { buffer := by rw [hbuffer, hexpected, h.buffer]
      tiling := hexpected ▸ h.tiling.of_places hplaces
      nonempty := fun block hb => ?_
      received := by rw [hreceived, h.received, completedBytes_eq, completedBytes_eq, hblocks] }
  obtain ⟨c, hc, he⟩ := mem_of_progress_eq hblocks hb
  have hpos := h.nonempty c hc
  simp only [BlockRequest.progress, Prod.mk.injEq] at he
  omega

theorem intact_new (index total : Nat) : (new index total).Intact := by
  rcases Nat.eq_zero_or_pos total with rfl | hpos
  · exact ⟨rfl, .nil 0, List.forall_mem_nil _, rfl⟩
  refine ⟨List.length_replicate, tiling_new hpos, fun _ hb => (blank_new hpos hb).1, ?_⟩
  have hnone : (new index total).blocks.filter (·.completed) = [] :=
    List.filter_eq_nil_iff.mpr fun block hb => by
      rw [(blank_new hpos hb).2]
      exact Bool.false_ne_true
  rw [completedBytes, hnone]
  rfl

theorem Intact.received_iff (h : a.Intact) :
    a.receivedBytes = a.expectedLength ↔ a.AllCompleted := by
  have hsum := h.tiling.add_sum
  rw [Nat.zero_add] at hsum
  rw [h.received, ← hsum]
  exact sum_filter_eq_iff h.nonempty

theorem Intact.received_le (h : a.Intact) : a.receivedBytes ≤ a.expectedLength := by
  have hsum := h.tiling.add_sum
  rw [Nat.zero_add] at hsum
  rw [h.received, ← hsum]
  exact sum_filter_le a.blocks

theorem Assembling.intact (h : Assembling D a) : a.Intact where
  buffer := h.buffer.trans h.expected.symm
  tiling := h.expected ▸ h.tiling
  nonempty := h.nonempty
  received := h.received

theorem Intact.assembling (h : a.Intact) (hexpected : a.expectedLength = D.length)
    (hfilled : ∀ block ∈ a.blocks, block.completed →
      ∀ x, block.begin ≤ x → x < block.begin + block.length → a.buffer[x]? = D[x]?) :
    Assembling D a where
  expected := hexpected
  buffer := h.buffer.trans hexpected
  tiling := hexpected ▸ h.tiling
  nonempty := h.nonempty
  filled := hfilled
  received := h.received

theorem Assembling.congr (h : Assembling D a) (hexpected : b.expectedLength = a.expectedLength)
    (hbuffer : b.buffer = a.buffer) (hreceived : b.receivedBytes = a.receivedBytes)
    (hblocks : b.blocks.map BlockRequest.progress = a.blocks.map BlockRequest.progress) :
    Assembling D b := by
  refine (h.intact.congr hexpected hbuffer hreceived hblocks).assembling
    (hexpected.trans h.expected) fun block hb hdone x hlow hhigh => ?_
  obtain ⟨c, hc, he⟩ := mem_of_progress_eq hblocks hb
  simp only [BlockRequest.progress, Prod.mk.injEq] at he
  rw [hbuffer]
  exact h.filled c hc (he.2.trans hdone) x (by omega) (by omega)

theorem assembling_new (index : Nat) (hpos : 0 < D.length) :
    Assembling D (new index D.length) :=
  (intact_new index D.length).assembling rfl fun _ hb hdone =>
    absurd hdone (by rw [(blank_new hpos hb).2]; exact Bool.false_ne_true)

theorem Assembling.received_iff (h : Assembling D a) :
    a.receivedBytes = a.expectedLength ↔ a.AllCompleted := h.intact.received_iff

theorem Assembling.received_le (h : Assembling D a) : a.receivedBytes ≤ D.length :=
  h.expected ▸ h.intact.received_le

theorem Assembling.buffer_eq (h : Assembling D a) (hall : a.AllCompleted) : a.buffer = D := by
  apply List.ext_getElem?
  intro x
  by_cases hx : x < D.length
  · obtain ⟨block, hmem, hlow, hhigh⟩ := h.tiling.exists_mem (Nat.zero_le x) hx
    exact h.filled block hmem (hall block hmem) x hlow hhigh
  · rw [List.getElem?_eq_none (by rw [h.buffer]; omega), List.getElem?_eq_none (by omega)]

theorem getElem?_written {buffer data : List UInt8} {begin : Nat}
    (h : begin + data.length ≤ buffer.length) (x : Nat) :
    (buffer.take begin ++ data ++ buffer.drop (begin + data.length))[x]? =
      if begin ≤ x ∧ x < begin + data.length then data[x - begin]? else buffer[x]? := by
  have hfront : (buffer.take begin).length = begin := by
    rw [List.length_take]
    omega
  by_cases hbefore : x < begin
  · rw [if_neg (by omega), List.append_assoc, List.getElem?_append_left (by omega),
      List.getElem?_take_of_lt hbefore]
  by_cases hinside : x < begin + data.length
  · rw [if_pos ⟨by omega, hinside⟩,
      List.getElem?_append_left (by rw [List.length_append]; omega),
      List.getElem?_append_right (by omega), hfront]
  · rw [if_neg (by omega), List.getElem?_append_right (by rw [List.length_append]; omega),
      List.length_append, hfront, List.getElem?_drop]
    congr 1
    omega

theorem mem_of_marked {before after : List BlockRequest} {block marked : BlockRequest}
    (hsplit : a.blocks = before ++ block :: after) {c : BlockRequest}
    (hc : c ∈ before ++ marked :: after) : c = marked ∨ c ∈ a.blocks := by
  rw [hsplit]
  simp only [List.mem_append, List.mem_cons] at hc ⊢
  tauto

theorem Intact.write (h : a.Intact) {before after : List BlockRequest} {block : BlockRequest}
    {data : List UInt8} (hsplit : a.blocks = before ++ block :: after)
    (hlength : block.length = data.length) (hnew : block.completed = false)
    (hin : block.begin + data.length ≤ a.expectedLength) :
    Intact
      { a with
        buffer := a.buffer.take block.begin ++ data ++ a.buffer.drop (block.begin + data.length)
        blocks := before ++ { block with completed := true } :: after
        receivedBytes := a.receivedBytes + data.length } := by
  have hself : block ∈ a.blocks := by
    rw [hsplit]
    simp
  refine
    { buffer := ?_
      tiling := ?_
      nonempty := fun c hc => ?_
      received := ?_ }
  · simp only [List.length_append, List.length_take, List.length_drop, h.buffer]
    omega
  · apply h.tiling.of_places
    rw [hsplit]
    simp
  · rcases mem_of_marked hsplit hc with rfl | hc
    · exact h.nonempty block hself
    · exact h.nonempty c hc
  · change a.receivedBytes + data.length = ((List.filter _ _).map _).sum
    rw [h.received, completedBytes, hsplit, ← hlength]
    simp only [List.filter_append, List.filter_cons, hnew, Bool.false_eq_true, if_false, if_true,
      List.map_append, List.map_cons, List.sum_append, List.sum_cons]
    omega

theorem Assembling.write (h : Assembling D a) {before after : List BlockRequest}
    {block : BlockRequest} {data : List UInt8} (hsplit : a.blocks = before ++ block :: after)
    (hlength : block.length = data.length) (hnew : block.completed = false)
    (hin : block.begin + data.length ≤ D.length)
    (hdata : data = (D.drop block.begin).take data.length) :
    Assembling D
      { a with
        buffer := a.buffer.take block.begin ++ data ++ a.buffer.drop (block.begin + data.length)
        blocks := before ++ { block with completed := true } :: after
        receivedBytes := a.receivedBytes + data.length } := by
  have hwritten := getElem?_written (h.buffer.symm ▸ hin)
  refine (h.intact.write hsplit hlength hnew (h.expected ▸ hin)).assembling h.expected
    fun c hc hdone x hlow hhigh => ?_
  rw [hwritten]
  by_cases hx : block.begin ≤ x ∧ x < block.begin + data.length
  · rw [if_pos hx, hdata, List.getElem?_take_of_lt (by omega), List.getElem?_drop,
      Nat.add_sub_cancel' hx.1]
  · rw [if_neg hx]
    rcases mem_of_marked hsplit hc with rfl | hc
    · exact absurd ⟨hlow, hlength ▸ hhigh⟩ hx
    · exact h.filled c hc hdone x hlow hhigh

theorem Assembling.nextRequest (h : Assembling D a) (now timeout : Nat) :
    Assembling D (a.call (.nextRequest now timeout)) ∧
      ((a.call (.nextRequest now timeout)).AllCompleted ↔ a.AllCompleted) := by
  cases hnext : a.nextRequest now timeout with
  | none =>
    rw [call, hnext]
    exact ⟨h, Iff.rfl⟩
  | some answer =>
    obtain ⟨request, b⟩ := answer
    obtain ⟨⟨r, blocks⟩, hloop, he⟩ := Option.map_eq_some_iff.mp hnext
    cases he
    have hblocks := progress_nextRequestLoop hloop
    rw [call, hnext]
    exact ⟨h.congr rfl rfl rfl hblocks, by rw [allCompleted_iff, hblocks, ← allCompleted_iff]⟩

/-- One call: the invariant stays, and the piece is handed out when the call completes its last
block. -/
theorem Assembling.step (h : Assembling D a) (hsize : D.length < 2 ^ 32) {c : Call}
    (hc : Carries D a c) :
    Assembling D (a.call c) ∧ (a.AllCompleted → (a.call c).AllCompleted) ∧
      a.completes c = if ¬ a.AllCompleted ∧ (a.call c).AllCompleted then some D else none := by
  cases c with
  | nextRequest now timeout =>
    obtain ⟨hnext, hall⟩ := h.nextRequest now timeout
    exact ⟨hnext, hall.mpr, (if_neg fun ⟨hnot, hdone⟩ => hnot (hall.mp hdone)).symm⟩
  | resetRequests =>
    have hblocks := progress_resetRequests a
    have hall : a.resetRequests.AllCompleted ↔ a.AllCompleted := by
      rw [allCompleted_iff, hblocks, ← allCompleted_iff]
    exact ⟨h.congr rfl rfl rfl hblocks, hall.mpr,
      (if_neg fun ⟨hnot, hdone⟩ => hnot (hall.mp hdone)).symm⟩
  | addBlock begin data =>
    have hcases := addBlock_cases (h.expected ▸ hsize) begin data
    rw [call, completes]
    cases hclass : a.classifyBlock begin data.length with
    | unexpected =>
      rw [hclass] at hcases
      obtain ⟨text, he⟩ := hcases
      rw [he]
      exact ⟨h, id, (if_neg fun ⟨hnot, hdone⟩ => hnot hdone).symm⟩
    | duplicate =>
      rw [hclass] at hcases
      rw [hcases]
      exact ⟨h, id, (if_neg fun ⟨hnot, hdone⟩ => hnot hdone).symm⟩
    | expectedNew =>
      rw [hclass] at hcases
      obtain ⟨hin, before, block, after, hsplit, rfl, hlength, hnew, hnext, hanswer⟩ := hcases
      have hwritten := h.write hsplit hlength hnew (h.expected ▸ hin) (hc hclass)
      rw [← hnext] at hwritten
      have hnot : ¬ a.AllCompleted := fun hall => by
        have hdone := hall block (by rw [hsplit]; simp)
        rw [hnew] at hdone
        cases hdone
      refine ⟨hwritten, fun hall => absurd hall hnot, ?_⟩
      have hiff := hwritten.received_iff
      rw [hwritten.expected, ← h.expected] at hiff
      by_cases hall : (a.addBlock block.begin data).2.AllCompleted
      · rw [hanswer, if_pos (hiff.mpr hall), if_pos ⟨hnot, hall⟩, hwritten.buffer_eq hall]
      · rw [hanswer, if_neg (mt hiff.mp hall), if_neg fun hboth => hall hboth.2]

theorem Assembling.run {calls : List Call} (h : Assembling D a) (hsize : D.length < 2 ^ 32)
    (hcarried : Along call (Carries D) a calls) : Assembling D (exec call a calls) :=
  exec_invariant_along (fun _ _ h hc => (h.step hsize hc).1) hcarried h

/-- A run hands the piece out once, in the call after which every block is there. -/
theorem Assembling.handed_eq {calls : List Call} (h : Assembling D a) (hsize : D.length < 2 ^ 32)
    (hcarried : Along call (Carries D) a calls) :
    (a.AllCompleted → (exec call a calls).AllCompleted) ∧
      a.handed calls =
        if ¬ a.AllCompleted ∧ (exec call a calls).AllCompleted then [D] else [] := by
  induction calls generalizing a with
  | nil => exact ⟨id, (if_neg fun ⟨hnot, hdone⟩ => hnot hdone).symm⟩
  | cons c calls ih =>
    obtain ⟨hnext, hkept, hcompletes⟩ := h.step hsize hcarried.1
    obtain ⟨hlater, hrest⟩ := ih hnext hcarried.2
    refine ⟨fun hall => hlater (hkept hall), ?_⟩
    rw [handed, hcompletes, hrest, exec_cons]
    by_cases hbefore : a.AllCompleted
    · simp [hbefore, hkept hbefore]
    · by_cases hafter : (a.call c).AllCompleted
      · simp [hbefore, hafter, hlater hafter]
      · simp [hbefore, hafter]

theorem Assembling.addBlock_effect (h : Assembling D a) (hsize : D.length < 2 ^ 32) (begin : Nat)
    (data : List UInt8) :
    match a.classifyBlock begin data.length with
    | .unexpected => ∃ text, a.addBlock begin data = (.error text, a)
    | .duplicate => a.addBlock begin data = (.inProgress, a)
    | .expectedNew => (a.addBlock begin data).2.receivedBytes = a.receivedBytes + data.length ∧
        ∀ text, (a.addBlock begin data).1 ≠ .error text := by
  have hcases := addBlock_cases (h.expected ▸ hsize) begin data
  split at hcases
  · exact hcases
  · exact hcases
  · obtain ⟨-, before, block, after, -, -, -, -, hnext, hanswer⟩ := hcases
    refine ⟨by rw [hnext], fun text => ?_⟩
    rw [hanswer]
    split <;> nofun

/-- The blocks of a piece tile it, and whatever the order in which they come, between calls that
bring nothing, the piece is handed out once: by the call that completes the last block. -/
theorem reassembles_any_order (index : Nat) (D : List UInt8) (hpos : 0 < D.length)
    (hsize : D.length < 2 ^ 32) (calls : List Call)
    (hcarried : Along call (Carries D) (new index D.length) calls) :
    let start := new index D.length
    ((∀ block ∈ start.blocks, 0 < block.length ∧ block.begin + block.length ≤ D.length) ∧
      ∀ x < D.length,
        ∃! block, block ∈ start.blocks ∧ block.begin ≤ x ∧ x < block.begin + block.length) ∧
    (∀ k,
      let a := exec call start (calls.take k)
      a.receivedBytes = a.completedBytes ∧ a.receivedBytes ≤ D.length ∧
      (∀ begin data,
        match a.classifyBlock begin data.length with
        | .unexpected => ∃ text, a.addBlock begin data = (.error text, a)
        | .duplicate => a.addBlock begin data = (.inProgress, a)
        | .expectedNew => (a.addBlock begin data).2.receivedBytes = a.receivedBytes + data.length ∧
            ∀ text, (a.addBlock begin data).1 ≠ .error text) ∧
      ∀ c, calls[k]? = some c →
        a.completes c = if ¬ a.AllCompleted ∧ (a.call c).AllCompleted then some D else none) ∧
    start.handed calls = if (exec call start calls).AllCompleted then [D] else [] := by
  intro start
  have hstart : Assembling D start := assembling_new index hpos
  refine ⟨⟨fun block hblock => ⟨(blank_new hpos hblock).1, (hstart.tiling.within hblock).2⟩,
    fun x hx => hstart.tiling.existsUnique (Nat.zero_le x) hx⟩, fun k => ?_, ?_⟩
  · intro a
    have hsplit := hcarried
    rw [← List.take_append_drop k calls, along_append] at hsplit
    have ha : Assembling D a := hstart.run hsize hsplit.1
    refine ⟨ha.received, ha.received_le, ha.addBlock_effect hsize, fun c hc => ?_⟩
    obtain ⟨hk, rfl⟩ := List.getElem?_eq_some_iff.mp hc
    rw [List.drop_eq_getElem_cons hk] at hsplit
    exact (ha.step hsize hsplit.2.1).2.2
  · have hnot : ¬ start.AllCompleted := fun hall => by
      have hzero : start.receivedBytes = start.expectedLength := hstart.received_iff.mpr hall
      exact absurd hzero (Nat.ne_of_lt hpos)
    rw [(hstart.handed_eq hsize hcarried).2]
    simp only [hnot, not_false_eq_true, true_and]

theorem reassembles_any_order_short :
    handed (new 0 3) [.addBlock (2 ^ 32 - 1) [9], .nextRequest 5 10, .addBlock 1 [7],
      .addBlock 0 [4, 5, 6], .resetRequests, .addBlock 0 [4, 5, 6]] = [[4, 5, 6]] := by
  have hrun := reassembles_any_order 0 [4, 5, 6] (by decide) (by decide)
    [.addBlock (2 ^ 32 - 1) [9], .nextRequest 5 10, .addBlock 1 [7], .addBlock 0 [4, 5, 6],
      .resetRequests, .addBlock 0 [4, 5, 6]] (by decide)
  exact hrun.2.2.trans (if_pos (by decide))

end PieceAssembler
end Tortor.Core
