import Tortor.Core.BlockClasses
import Tortor.Core.BlockRequests
import Tortor.Net.Session

/-! The requests of one job.  `fill_pipeline` reads the clock anew in every round, and the clock
runs on while a request is being written. -/

namespace Tortor.Net

open Tortor.Core Tortor.Lib

/-- A round of `fill_pipeline`: the clock where the requests are counted and where the next block
is picked, and whether its request is written in time. -/
structure Round where
  counted : Nat
  picked : Nat
  written : Bool
  deriving DecidableEq

def Timely : Nat → List Round → Prop
  | _, [] => True
  | clock, round :: rounds =>
    clock ≤ round.counted ∧ round.counted ≤ round.picked ∧ Timely round.picked rounds

instance Timely.decidable : ∀ clock rounds, Decidable (Timely clock rounds)
  | _, [] => isTrue trivial
  | clock, round :: rounds =>
    have := Timely.decidable round.picked rounds
    inferInstanceAs (Decidable (clock ≤ round.counted ∧ round.counted ≤ round.picked ∧
      Timely round.picked rounds))

inductive Filling
  | running
  | failed
  | ended (now : Nat)
  deriving DecidableEq

structure Asked where
  begin : Nat
  length : Nat
  picked : Nat
  deriving DecidableEq

/-- The loop of `fill_pipeline`; the latest request comes first. -/
def fillLoop :
    List Round → PieceAssembler → List Asked → Filling × PieceAssembler × List Asked
  | [], assembler, asked => (.running, assembler, asked)
  | round :: rounds, assembler, asked =>
    if assembler.inFlightCount round.counted REQUEST_RETRY_TIMEOUT < PIPELINE_DEPTH then
      match assembler.nextRequest round.picked REQUEST_RETRY_TIMEOUT with
      | none => (.ended round.picked, assembler, asked)
      | some ((begin, len, _), assembler) =>
        let asked := ⟨begin, len, round.picked⟩ :: asked
        if round.written then fillLoop rounds assembler asked else (.failed, assembler, asked)
    else (.ended round.counted, assembler, asked)

structure Pipeline where
  assembler : PieceAssembler
  peerChoking : Bool
  clock : Nat
  asked : List Asked
  deriving DecidableEq

inductive PipelineEvent
  | pass (elapsed : Nat)
  | fill (rounds : List Round)
  | block (begin : Nat) (data : List UInt8)
  | choke
  | unchoke
  deriving DecidableEq

namespace Pipeline

def start (index length : Nat) (peerChoking : Bool) (clock : Nat) : Pipeline :=
  ⟨.new index length, peerChoking, clock, []⟩

def fillPipeline (rounds : List Round) (self : Pipeline) :
    Filling × PieceAssembler × List Asked :=
  if self.peerChoking then (.ended self.clock, self.assembler, self.asked)
  else fillLoop rounds self.assembler self.asked

def step (self : Pipeline) : PipelineEvent → Pipeline
  | .pass elapsed => { self with clock := self.clock + elapsed }
  | .fill rounds =>
    match self.fillPipeline rounds with
    | (.ended now, assembler, asked) =>
      if Timely self.clock rounds then { self with assembler, asked, clock := now } else self
    | _ => self
  | .block begin data => { self with assembler := (self.assembler.addBlock begin data).2 }
  | .choke =>
    { self with peerChoking := true, assembler := self.assembler.resetRequests, asked := [] }
  | .unchoke => { self with peerChoking := false }

end Pipeline

def Wants (a : PieceAssembler) (request : Asked) : Prop :=
  request.begin + request.length ≤ a.expectedLength ∧ ∃ block ∈ a.blocks,
    block.begin = request.begin ∧ block.length = request.length ∧ block.completed = false

def Spaced (asked : List Asked) : Prop :=
  asked.Pairwise fun later earlier => later.begin = earlier.begin →
    later.length = earlier.length → earlier.picked + REQUEST_RETRY_TIMEOUT < later.picked

def Outstanding (a : PieceAssembler) (now : Nat) : Prop :=
  ∀ block ∈ a.blocks, block.completed = false → block.inFlight now REQUEST_RETRY_TIMEOUT = true

def firstRounds (n : Nat) (τ : Nat → Round) : List Round := (List.range n).map τ

def unexpired (τ : Nat → Round) (rounds now : Nat) : Nat :=
  (List.range rounds).countP fun i => now - (τ i).picked ≤ REQUEST_RETRY_TIMEOUT

/-- With the requests of the rounds before it, a round finds the pipeline full, or every block
requested, or its write fails. -/
def Stops (a : PieceAssembler) (τ : Nat → Round) (round : Nat) : Prop :=
  PIPELINE_DEPTH ≤ a.inFlightCount (τ round).counted REQUEST_RETRY_TIMEOUT +
    unexpired τ round (τ round).counted ∨
  a.incompleteCount ≤ a.inFlightCount (τ round).picked REQUEST_RETRY_TIMEOUT +
    unexpired τ round (τ round).picked ∨
  (τ round).written = false

namespace Pipeline

def Ends (s : Pipeline) (τ : Nat → Round) : Prop :=
  ∃ n, (s.fillPipeline (firstRounds n τ)).1 ≠ .running

/-- What is sent is wanted and not sent too often or too early. -/
structure AsksSoundly (s : Pipeline) (rounds : List Round) : Prop where
  wants : ∃ new, (s.fillPipeline rounds).2.2 = new ++ s.asked ∧
    ∀ request ∈ new, Wants s.assembler request
  spaced : Spaced (s.fillPipeline rounds).2.2
  bounded : ∀ now, (s.fillPipeline rounds).1 = .ended now →
    (s.fillPipeline rounds).2.1.inFlightCount now REQUEST_RETRY_TIMEOUT ≤ PIPELINE_DEPTH

def Fills (s : Pipeline) (rounds : List Round) : Prop :=
  ∀ now, (s.fillPipeline rounds).1 = .ended now →
    (s.fillPipeline rounds).2.1.inFlightCount now REQUEST_RETRY_TIMEOUT < PIPELINE_DEPTH →
    Outstanding (s.fillPipeline rounds).2.1 now

def Pipelines (s : Pipeline) (τ : Nat → Round) : Prop :=
  s.Ends τ ∧ ∀ n, s.AsksSoundly (firstRounds n τ) ∧ s.Fills (firstRounds n τ)

end Pipeline

variable {a b : PieceAssembler} {asked : List Asked} {clock later begin length : Nat}
  {τ : Nat → Round}

theorem fillLoop_cases (round : Round) (a : PieceAssembler) (asked : List Asked) :
    (PIPELINE_DEPTH ≤ a.inFlightCount round.counted REQUEST_RETRY_TIMEOUT ∧
      ∀ rounds, fillLoop (round :: rounds) a asked = (.ended round.counted, a, asked)) ∨
    (a.inFlightCount round.counted REQUEST_RETRY_TIMEOUT < PIPELINE_DEPTH ∧
      a.incompleteCount ≤ a.inFlightCount round.picked REQUEST_RETRY_TIMEOUT ∧
      ∀ rounds, fillLoop (round :: rounds) a asked = (.ended round.picked, a, asked)) ∨
    (a.inFlightCount round.counted REQUEST_RETRY_TIMEOUT < PIPELINE_DEPTH ∧
      a.inFlightCount round.picked REQUEST_RETRY_TIMEOUT < a.incompleteCount ∧
      ∃ begin length b, a.Requests round.picked REQUEST_RETRY_TIMEOUT begin length b ∧
        ∀ rounds, fillLoop (round :: rounds) a asked =
          if round.written then fillLoop rounds b (⟨begin, length, round.picked⟩ :: asked)
          else (.failed, b, ⟨begin, length, round.picked⟩ :: asked)) := by
  by_cases hcount : a.inFlightCount round.counted REQUEST_RETRY_TIMEOUT < PIPELINE_DEPTH
  case neg =>
    refine .inl ⟨Nat.not_lt.mp hcount, fun rounds => ?_⟩
    rw [fillLoop, if_neg hcount]
  case pos =>
    refine .inr ?_
    cases hnext : a.nextRequest round.picked REQUEST_RETRY_TIMEOUT with
    | none =>
      refine .inl ⟨hcount, (a.nextRequest_eq_none_iff _ _).mp hnext, fun rounds => ?_⟩
      rw [fillLoop, if_pos hcount, hnext]
    | some next =>
      obtain ⟨⟨begin, length, isRetry⟩, b⟩ := next
      have hmore : ¬a.incompleteCount ≤ a.inFlightCount round.picked REQUEST_RETRY_TIMEOUT := by
        rw [← a.nextRequest_eq_none_iff, hnext]
        exact Option.some_ne_none _
      refine .inr ⟨hcount, Nat.not_le.mp hmore, begin, length, b,
        PieceAssembler.nextRequest_eq_some hnext, fun rounds => ?_⟩
      rw [fillLoop, if_pos hcount, hnext]

theorem Wants.of_progress (hlength : b.expectedLength = a.expectedLength)
    (hprogress : b.blocks.map BlockRequest.progress = a.blocks.map BlockRequest.progress)
    {request : Asked} (h : Wants b request) : Wants a request := by
  obtain ⟨hinside, block, hblock, hbegin, hlen, hnew⟩ := h
  obtain ⟨c, hc, heq⟩ := PieceAssembler.mem_of_progress_eq hprogress hblock
  obtain ⟨⟨hcbegin, hclength⟩, hcdone⟩ : (c.begin = block.begin ∧ c.length = block.length) ∧
      c.completed = block.completed := by
    simpa only [BlockRequest.progress, Prod.mk.injEq] using heq
  exact ⟨hlength ▸ hinside, c, hc, hcbegin.trans hbegin, hclength.trans hlen, hcdone.trans hnew⟩

/-- A time stamp is no older than any request made for its block, and no more requests are
outstanding than the pipeline takes. -/
structure SoundRequests (clock : Nat) (a : PieceAssembler) (asked : List Asked) : Prop where
  small : a.expectedLength < 2 ^ 32
  intact : a.Intact
  past : ∀ request ∈ asked, request.picked ≤ clock
  recorded : ∀ request ∈ asked, ∀ block ∈ a.blocks, block.begin = request.begin →
    block.length = request.length → block.completed = false →
    ∃ t, block.requestedAt = some t ∧ request.picked ≤ t
  spaced : Spaced asked
  bounded : a.inFlightCount clock REQUEST_RETRY_TIMEOUT ≤ PIPELINE_DEPTH

namespace SoundRequests

theorem advance (h : SoundRequests clock a asked) (hle : clock ≤ later) :
    SoundRequests later a asked :=
  { h with
    past := fun request hrequest => (h.past request hrequest).trans hle
    bounded := (a.inFlightCount_of_le hle _).trans h.bounded }

theorem request (h : SoundRequests clock a asked) {counted picked : Nat}
    (hcounted : clock ≤ counted) (hpicked : counted ≤ picked)
    (hroom : a.inFlightCount counted REQUEST_RETRY_TIMEOUT < PIPELINE_DEPTH)
    (hb : a.Requests picked REQUEST_RETRY_TIMEOUT begin length b) :
    SoundRequests picked b (⟨begin, length, picked⟩ :: asked) := by
  have hpast : ∀ request ∈ asked, request.picked ≤ picked := fun request hrequest =>
    (h.past request hrequest).trans (hcounted.trans hpicked)
  refine
    { small := by rw [hb.same]; exact h.small
      intact := hb.intact h.intact
      past := List.forall_mem_cons.mpr ⟨Nat.le_refl _, hpast⟩
      recorded := fun request hrequest other hother hbegin hlength hcoming => ?_
      spaced := List.pairwise_cons.mpr ⟨fun earlier hearlier hbegin hlength => ?_, h.spaced⟩
      bounded := ?_ }
  · rcases hb.block_cases h.intact hother with hstamp | ⟨hkept, hne⟩
    · refine ⟨picked, hstamp, ?_⟩
      rcases List.mem_cons.mp hrequest with rfl | hrequest
      · exact Nat.le_refl _
      · exact hpast request hrequest
    · rcases List.mem_cons.mp hrequest with rfl | hrequest
      · exact absurd hbegin hne
      · exact h.recorded request hrequest other hkept hbegin hlength hcoming
  · obtain ⟨before, block, after, hblocks, -, rfl, rfl, hnew, hold, -⟩ := hb.of_block
    have hblock : block ∈ a.blocks := hblocks ▸ List.mem_append_right _ List.mem_cons_self
    obtain ⟨t, ht, hle⟩ := h.recorded earlier hearlier block hblock hbegin hlength hnew
    have hexpired := hold t ht
    dsimp only
    omega
  · have hcount := hb.inFlightCount_eq (Nat.le_refl picked)
    have hfewer := a.inFlightCount_of_le hpicked REQUEST_RETRY_TIMEOUT
    rw [if_pos (by omega)] at hcount
    omega

end SoundRequests

theorem wants_of_requests {now timeout : Nat} (hintact : a.Intact)
    (hb : a.Requests now timeout begin length b) (picked : Nat) :
    Wants a ⟨begin, length, picked⟩ := by
  obtain ⟨before, block, after, hblocks, -, hbegin, hlength, hnew, -⟩ := hb.of_block
  have hblock : block ∈ a.blocks := hblocks ▸ List.mem_append_right _ List.mem_cons_self
  refine ⟨?_, block, hblock, hbegin, hlength, hnew⟩
  rw [← hbegin, ← hlength]
  exact (hintact.tiling.within hblock).2

theorem fillLoop_sound {rounds : List Round} (h : SoundRequests clock a asked)
    (hclock : Timely clock rounds) :
    (∃ last, clock ≤ last ∧
      SoundRequests last (fillLoop rounds a asked).2.1 (fillLoop rounds a asked).2.2 ∧
      ∀ now, (fillLoop rounds a asked).1 = .ended now → now = last) ∧
    (∃ new, (fillLoop rounds a asked).2.2 = new ++ asked ∧ ∀ request ∈ new, Wants a request) ∧
    ∀ now, (fillLoop rounds a asked).1 = .ended now →
      (fillLoop rounds a asked).2.1.inFlightCount now REQUEST_RETRY_TIMEOUT < PIPELINE_DEPTH →
      Outstanding (fillLoop rounds a asked).2.1 now := by
  induction rounds generalizing clock a asked with
  | nil => exact ⟨⟨clock, Nat.le_refl _, h, nofun⟩, ⟨[], rfl, List.forall_mem_nil _⟩, nofun⟩
  | cons round rounds ih =>
    obtain ⟨hcounted, hpicked, hrounds⟩ := hclock
    have hle : clock ≤ round.picked := hcounted.trans hpicked
    rcases fillLoop_cases round a asked with ⟨hfull, heq⟩ | ⟨-, hnone, heq⟩ |
      ⟨hroom, -, begin, length, b, hb, heq⟩
    · rw [heq]
      refine ⟨⟨round.counted, hcounted, h.advance hcounted, fun now hnow => ?_⟩,
        ⟨[], rfl, List.forall_mem_nil _⟩, fun now hnow hroom => ?_⟩
      · cases hnow
        rfl
      · cases hnow
        exact absurd hfull (Nat.not_le.mpr hroom)
    · rw [heq]
      refine ⟨⟨round.picked, hle, h.advance hle, fun now hnow => ?_⟩,
        ⟨[], rfl, List.forall_mem_nil _⟩, fun now hnow _ => ?_⟩
      · cases hnow
        rfl
      · cases hnow
        exact (a.allInFlight_iff _ _).mp hnone
    · have hsound := h.request hcounted hpicked hroom hb
      have hwants := wants_of_requests h.intact hb round.picked
      rw [heq]
      split
      case isTrue =>
        obtain ⟨⟨last, hlast, hlater, hended⟩, ⟨new, hnew, hasks⟩, hfills⟩ := ih hsound hrounds
        refine ⟨⟨last, hle.trans hlast, hlater, hended⟩, ⟨new ++ [⟨begin, length, round.picked⟩],
          by rw [hnew, List.append_assoc, List.singleton_append], fun request hrequest => ?_⟩,
          hfills⟩
        rcases List.mem_append.mp hrequest with hrequest | hrequest
        · exact (hasks request hrequest).of_progress (by rw [hb.same]) hb.progress
        · rw [List.mem_singleton.mp hrequest]
          exact hwants
      case isFalse =>
        exact ⟨⟨round.picked, hle, hsound, nofun⟩,
          ⟨[⟨begin, length, round.picked⟩], rfl, List.forall_mem_singleton.mpr hwants⟩, nofun⟩

theorem blocks_addBlock (hsize : a.expectedLength < 2 ^ 32) (begin : Nat) (data : List UInt8) :
    (a.addBlock begin data).2.blocks = a.blocks ∨ ∃ before block after,
      a.blocks = before ++ block :: after ∧ (a.addBlock begin data).2.blocks =
        before ++ { block with completed := true } :: after := by
  have hcases := PieceAssembler.addBlock_cases hsize begin data
  split at hcases
  · obtain ⟨text, heq⟩ := hcases
    rw [heq]
    exact .inl rfl
  · rw [hcases]
    exact .inl rfl
  · obtain ⟨-, before, block, after, hblocks, -, -, -, hnext, -⟩ := hcases
    rw [hnext]
    exact .inr ⟨before, block, after, hblocks, rfl⟩

namespace SoundRequests

theorem addBlock (h : SoundRequests clock a asked) (begin : Nat) (data : List UInt8) :
    SoundRequests clock (a.addBlock begin data).2 asked := by
  have hlength : (a.addBlock begin data).2.expectedLength = a.expectedLength :=
    a.call_expectedLength (.addBlock begin data)
  have hcoming : ∀ block ∈ (a.addBlock begin data).2.blocks, block.completed = false →
      block ∈ a.blocks := by
    rcases blocks_addBlock h.small begin data with heq | ⟨before, block, after, hblocks, heq⟩
    · rw [heq]
      exact fun _ hblock _ => hblock
    · rw [heq]
      intro other hother hnew
      rcases PieceAssembler.mem_of_marked hblocks hother with rfl | hother
      · cases hnew
      · exact hother
  have hcount : (a.addBlock begin data).2.inFlightCount clock REQUEST_RETRY_TIMEOUT ≤
      a.inFlightCount clock REQUEST_RETRY_TIMEOUT := by
    rcases blocks_addBlock h.small begin data with heq | ⟨before, block, after, hblocks, heq⟩
    · rw [PieceAssembler.inFlightCount, heq]
      exact Nat.le_refl _
    · simp only [PieceAssembler.inFlightCount, heq, hblocks, List.countP_append, List.countP_cons]
      simp [BlockRequest.inFlight]
  exact
    { h with
      small := hlength ▸ h.small
      intact := h.intact.call h.small (.addBlock begin data)
      recorded := fun request hrequest block hblock hbegin hlen hnew =>
        h.recorded request hrequest block (hcoming block hblock hnew) hbegin hlen hnew
      bounded := hcount.trans h.bounded }

theorem resetRequests (h : SoundRequests clock a asked) :
    SoundRequests clock a.resetRequests [] := by
  have hnone : a.resetRequests.inFlightCount clock REQUEST_RETRY_TIMEOUT = 0 := by
    refine PieceAssembler.inFlightCount_eq_zero fun block hblock hnew => ?_
    obtain ⟨c, -, rfl⟩ := List.mem_map.mp hblock
    split at hnew
    case isTrue hdone => exact absurd (hdone.symm.trans hnew) (by decide)
    case isFalse hcoming => rw [if_neg hcoming]
  exact
    { small := h.small
      intact := h.intact.call h.small .resetRequests
      past := fun _ => nofun
      recorded := fun _ => nofun
      spaced := .nil
      bounded := by rw [hnone]; exact Nat.zero_le _ }

end SoundRequests

namespace Pipeline

theorem sound_start (index : Nat) {total : Nat} (hsize : total < 2 ^ 32) (choking : Bool)
    (clock : Nat) : SoundRequests clock (start index total choking clock).assembler [] where
  small := hsize
  intact := PieceAssembler.intact_new index total
  past := fun _ => nofun
  recorded := fun _ => nofun
  spaced := .nil
  bounded := by
    have hnone :
        (PieceAssembler.new index total).inFlightCount clock REQUEST_RETRY_TIMEOUT = 0 := by
      refine PieceAssembler.inFlightCount_eq_zero fun block hblock _ => ?_
      obtain ⟨i, -, rfl⟩ := List.mem_map.mp hblock
      rfl
    exact hnone.trans_le (Nat.zero_le _)

theorem sound_step (s : Pipeline) (event : PipelineEvent)
    (h : SoundRequests s.clock s.assembler s.asked) :
    SoundRequests (s.step event).clock (s.step event).assembler (s.step event).asked := by
  cases event with
  | pass elapsed => exact h.advance (Nat.le_add_right _ _)
  | fill rounds =>
    rw [step]
    split
    case h_1 now assembler asked heq =>
      split
      case isFalse => exact h
      case isTrue hclock =>
        rw [fillPipeline] at heq
        split at heq
        case isTrue =>
          cases heq
          exact h
        case isFalse =>
          obtain ⟨⟨last, -, hlater, hended⟩, -⟩ := fillLoop_sound h hclock
          rw [heq] at hlater hended
          rw [← hended now rfl] at hlater
          exact hlater
    case h_2 => exact h
  | block begin data => exact h.addBlock begin data
  | choke => exact h.resetRequests
  | unchoke => exact h

theorem sound_exec (index : Nat) {total : Nat} (hsize : total < 2 ^ 32) (choking : Bool)
    (clock : Nat) (events : List PipelineEvent) :
    let s := exec step (start index total choking clock) events
    SoundRequests s.clock s.assembler s.asked :=
  exec_invariant (P := fun s : Pipeline => SoundRequests s.clock s.assembler s.asked)
    sound_step events (sound_start index hsize choking clock)

end Pipeline

theorem firstRounds_succ (n : Nat) (τ : Nat → Round) :
    firstRounds (n + 1) τ = τ 0 :: firstRounds n fun i => τ (i + 1) := by
  rw [firstRounds, List.range_succ_eq_map, List.map_cons, List.map_map]
  rfl

theorem unexpired_succ (τ : Nat → Round) (rounds now : Nat) :
    unexpired τ (rounds + 1) now = unexpired (fun i => τ (i + 1)) rounds now +
      if now - (τ 0).picked ≤ REQUEST_RETRY_TIMEOUT then 1 else 0 := by
  simp only [unexpired, List.range_succ_eq_map, List.countP_cons, List.countP_map,
    decide_eq_true_eq]
  rfl

theorem timely_shift (hτ : ∀ n, Timely clock (firstRounds n τ)) :
    ∀ n, Timely (τ 0).picked (firstRounds n fun i => τ (i + 1)) := by
  intro n
  have hnext := hτ (n + 1)
  rw [firstRounds_succ] at hnext
  exact hnext.2.2

theorem timely_at (hτ : ∀ n, Timely clock (firstRounds n τ)) (round : Nat) :
    clock ≤ (τ round).counted ∧ (τ round).counted ≤ (τ round).picked := by
  induction round generalizing clock τ with
  | zero => exact ⟨(hτ 1).1, (hτ 1).2.1⟩
  | succ round ih =>
    obtain ⟨hlater, hpicked⟩ := ih (timely_shift hτ)
    exact ⟨((hτ 1).1.trans (hτ 1).2.1).trans hlater, hpicked⟩

theorem timely_of (hclock : clock ≤ (τ 0).counted)
    (hround : ∀ i, (τ i).counted ≤ (τ i).picked ∧ (τ i).picked ≤ (τ (i + 1)).counted) :
    ∀ n, Timely clock (firstRounds n τ) := by
  intro n
  induction n generalizing clock τ with
  | zero => trivial
  | succ n ih =>
    rw [firstRounds_succ]
    exact ⟨hclock, (hround 0).1, ih (hround 0).2 fun i => hround (i + 1)⟩

theorem stops_succ (hb : a.Requests (τ 0).picked REQUEST_RETRY_TIMEOUT begin length b)
    {round : Nat} (hcounted : (τ 0).picked ≤ (τ (round + 1)).counted)
    (hpicked : (τ (round + 1)).counted ≤ (τ (round + 1)).picked) :
    Stops a τ (round + 1) ↔ Stops b (fun i => τ (i + 1)) round := by
  rw [Stops, Stops, unexpired_succ, unexpired_succ, hb.inFlightCount_eq hcounted,
    hb.inFlightCount_eq (hcounted.trans hpicked), hb.incompleteCount_eq, Nat.add_right_comm,
    Nat.add_assoc, Nat.add_right_comm (a.inFlightCount _ _), Nat.add_assoc (a.inFlightCount _ _)]

theorem fillLoop_first (τ : Nat → Round) (a : PieceAssembler) (asked : List Asked) :
    (Stops a τ 0 ∧ ∀ rounds, (fillLoop (τ 0 :: rounds) a asked).1 ≠ .running) ∨
    (¬ Stops a τ 0 ∧
      ∃ begin length b, a.Requests (τ 0).picked REQUEST_RETRY_TIMEOUT begin length b ∧
        ∀ rounds, fillLoop (τ 0 :: rounds) a asked =
          fillLoop rounds b (⟨begin, length, (τ 0).picked⟩ :: asked)) := by
  rcases fillLoop_cases (τ 0) a asked with ⟨hfull, heq⟩ | ⟨-, hnone, heq⟩ |
    ⟨hroom, hmore, begin, length, b, hb, heq⟩
  · refine .inl ⟨.inl hfull, fun rounds => ?_⟩
    rw [heq]
    nofun
  · refine .inl ⟨.inr (.inl hnone), fun rounds => ?_⟩
    rw [heq]
    nofun
  · cases hwritten : (τ 0).written with
    | false =>
      refine .inl ⟨.inr (.inr hwritten), fun rounds => ?_⟩
      rw [heq, hwritten]
      nofun
    | true =>
      refine .inr ⟨?_, begin, length, b, hb, fun rounds => by rw [heq, if_pos hwritten]⟩
      rintro (hfull | hnone | hfailed)
      · exact absurd hfull (Nat.not_le.mpr hroom)
      · exact absurd hnone (Nat.not_le.mpr hmore)
      · exact absurd (hwritten.symm.trans hfailed) (by decide)

theorem fillLoop_ends_iff (hτ : ∀ n, Timely clock (firstRounds n τ)) :
    (∃ n, (fillLoop (firstRounds n τ) a asked).1 ≠ .running) ↔ ∃ round, Stops a τ round := by
  constructor
  · rintro ⟨n, hended⟩
    induction n generalizing clock a asked τ with
    | zero => exact absurd rfl hended
    | succ n ih =>
      rw [firstRounds_succ] at hended
      rcases fillLoop_first τ a asked with ⟨hstops, -⟩ | ⟨-, begin, length, b, hb, heq⟩
      · exact ⟨0, hstops⟩
      · rw [heq] at hended
        obtain ⟨round, hstops⟩ := ih (timely_shift hτ) hended
        have hat := timely_at (timely_shift hτ) round
        exact ⟨round + 1, (stops_succ hb hat.1 hat.2).mpr hstops⟩
  · rintro ⟨round, hstops⟩
    induction round generalizing clock a asked τ with
    | zero =>
      rcases fillLoop_first τ a asked with ⟨-, hends⟩ | ⟨hgoes, -⟩
      · exact ⟨1, hends []⟩
      · exact absurd hstops hgoes
    | succ round ih =>
      rcases fillLoop_first τ a asked with ⟨-, hends⟩ | ⟨-, begin, length, b, hb, heq⟩
      · exact ⟨1, hends []⟩
      · have hat := timely_at (timely_shift hτ) round
        obtain ⟨n, hended⟩ : ∃ n, (fillLoop (firstRounds n fun i => τ (i + 1)) b
            (⟨begin, length, (τ 0).picked⟩ :: asked)).1 ≠ .running :=
          ih (timely_shift hτ) ((stops_succ hb hat.1 hat.2).mp hstops)
        exact ⟨n + 1, by rwa [firstRounds_succ, heq]⟩

theorem stops_of_brief (hτ : ∀ n, Timely clock (firstRounds n τ))
    (hbrief : (τ PIPELINE_DEPTH).counted ≤ clock + REQUEST_RETRY_TIMEOUT) :
    Stops a τ PIPELINE_DEPTH := by
  have hall : unexpired τ PIPELINE_DEPTH (τ PIPELINE_DEPTH).counted = PIPELINE_DEPTH := by
    rw [unexpired, List.countP_eq_length.mpr, List.length_range]
    intro i _
    have hat := timely_at hτ i
    exact decide_eq_true (by omega)
  exact .inl (by omega)

namespace Pipeline

/-- After any run every request is for a block that is wanted, and none comes too often or too
early.  A peer that chokes us is asked for nothing; any other is kept busy. -/
theorem fillPipeline_sound (index : Nat) {total : Nat} (hsize : total < 2 ^ 32) (choking : Bool)
    (clock : Nat) (events : List PipelineEvent) (τ : Nat → Round)
    (hτ : ∀ n, Timely (exec step (start index total choking clock) events).clock
      (firstRounds n τ)) :
    let s := exec step (start index total choking clock) events
    (∀ n, s.AsksSoundly (firstRounds n τ)) ∧
    (s.peerChoking = true → ∀ n,
      s.fillPipeline (firstRounds n τ) = (.ended s.clock, s.assembler, s.asked)) ∧
    (s.peerChoking = false → ∀ n, s.Fills (firstRounds n τ)) ∧
    ((∃ round, Stops s.assembler τ round) → s.Ends τ) := by
  intro s
  have hsound : SoundRequests s.clock s.assembler s.asked :=
    sound_exec index hsize choking clock events
  cases hchoking : s.peerChoking with
  | true =>
    have hidle (n : Nat) :
        s.fillPipeline (firstRounds n τ) = (.ended s.clock, s.assembler, s.asked) := by
      rw [fillPipeline, if_pos hchoking]
    refine ⟨fun n => ⟨?_, ?_, fun now hnow => ?_⟩, fun _ => hidle, nofun, fun _ => ⟨0, ?_⟩⟩
    · rw [hidle n]
      exact ⟨[], rfl, List.forall_mem_nil _⟩
    · rw [hidle n]
      exact hsound.spaced
    · rw [hidle n] at hnow ⊢
      cases hnow
      exact hsound.bounded
    · rw [hidle 0]
      nofun
  | false =>
    have hloop (n : Nat) : s.fillPipeline (firstRounds n τ) =
        fillLoop (firstRounds n τ) s.assembler s.asked := by
      rw [fillPipeline, hchoking, if_neg Bool.false_ne_true]
    refine ⟨fun n => ?_, nofun, fun _ n => ?_, fun hstops => ?_⟩
    · obtain ⟨⟨last, -, hlater, hended⟩, hasks, -⟩ := fillLoop_sound hsound (hτ n)
      rw [← hloop n] at hlater hended hasks
      refine ⟨hasks, hlater.spaced, fun now hnow => ?_⟩
      rw [hended now hnow]
      exact hlater.bounded
    · rw [Fills, hloop n]
      exact (fillLoop_sound hsound (hτ n)).2.2
    · obtain ⟨n, hended⟩ : ∃ n, (fillLoop (firstRounds n τ) s.assembler s.asked).1 ≠ .running :=
        (fillLoop_ends_iff hτ).mpr hstops
      exact ⟨n, by rwa [hloop n]⟩

theorem fillPipeline_sound_steady :
    (exec step (start 3 16385 false 0) [.fill (List.replicate 4 ⟨0, 0, true⟩),
      .block 16384 [5], .choke, .unchoke, .pass 9]).Ends fun _ => ⟨9, 9, true⟩ :=
  have hclock : ∀ n, Timely 9 (firstRounds n fun _ => ⟨9, 9, true⟩) :=
    timely_of (Nat.le_refl 9) fun _ => ⟨Nat.le_refl 9, Nat.le_refl 9⟩
  (fillPipeline_sound 3 (show 16385 < 2 ^ 32 by decide) false 0
    [.fill (List.replicate 4 ⟨0, 0, true⟩), .block 16384 [5], .choke, .unchoke, .pass 9]
    (fun _ => ⟨9, 9, true⟩) hclock).2.2.2
    ⟨PIPELINE_DEPTH, stops_of_brief hclock (by decide)⟩

/-- Every request takes six seconds to write, so it has expired before the next round. -/
def slow (round : Nat) : Round := ⟨6000 * round, 6000 * round, true⟩

theorem timely_slow : ∀ n, Timely 0 (firstRounds n slow) := by
  refine timely_of (Nat.zero_le _) fun i => ⟨Nat.le_refl _, ?_⟩
  unfold slow
  dsimp only
  omega

theorem unexpired_slow (round : Nat) : unexpired slow round (6000 * round) = 0 := by
  refine List.countP_eq_zero.mpr fun i hi => ?_
  have hlt := List.mem_range.mp hi
  have hold : ¬6000 * round - 6000 * i ≤ 5000 := by omega
  exact fun hrecent => hold (of_decide_eq_true hrecent)

theorem not_ends_slow : ¬(start 0 16384 false 0).Ends slow := by
  intro hends
  obtain ⟨round, hfull | hnone | hfailed⟩ := (fillLoop_ends_iff timely_slow).mp hends
  · have hzero : (start 0 16384 false 0).assembler.inFlightCount (slow round).counted
        REQUEST_RETRY_TIMEOUT = 0 := rfl
    have hexpired : unexpired slow round (slow round).counted = 0 := unexpired_slow round
    rw [hzero, hexpired] at hfull
    exact absurd hfull (by decide)
  · have hzero : (start 0 16384 false 0).assembler.inFlightCount (slow round).picked
        REQUEST_RETRY_TIMEOUT = 0 := rfl
    have hexpired : unexpired slow round (slow round).picked = 0 := unexpired_slow round
    rw [hzero, hexpired] at hnone
    exact absurd hnone (by decide)
  · cases hfailed

/-- The request for the only block of a piece is sent again and again, and a peer that chokes us is
asked for nothing. -/
theorem not_pipelines_slow : (∀ n, Timely 0 (firstRounds n slow)) ∧
    ¬(start 0 16384 false 0).Pipelines slow ∧ ¬(start 0 16384 true 0).Pipelines slow := by
  refine ⟨timely_slow, fun h => not_ends_slow h.1, fun h => ?_⟩
  have hall : Outstanding (start 0 16384 true 0).assembler 0 := (h.2 0).2 0 rfl (by decide)
  exact absurd (hall ⟨0, 16384, none, false⟩ (by decide) rfl) (by decide)

end Pipeline

/-! A turn of the session takes no time, so its rounds see one clock. -/

namespace Turn

def rounds (turn : Turn) : Nat → List Round
  | 0 => []
  | n + 1 => ⟨turn.now, turn.now, turn.writes n⟩ :: turn.rounds n

theorem timely_rounds (turn : Turn) (n : Nat) : Timely turn.now (turn.rounds n) := by
  induction n with
  | zero => trivial
  | succ n ih => exact ⟨Nat.le_refl _, Nat.le_refl _, ih⟩

end Turn

def Asked.message (index : Nat) (request : Asked) : PeerMessage :=
  .request index request.begin request.length

/-- The session's loop is this one; a request whose write fails is not recorded there. -/
theorem requestLoop_eq (turn : Turn) (index n : Nat) (a : PieceAssembler) (asked : List Asked)
    (sent : List PeerMessage) :
    PeerSession.requestLoop turn index n a (asked.map (Asked.message index) ++ sent) =
      match fillLoop (turn.rounds n) a asked with
      | (.failed, b, asked) => (false, b, asked.tail.map (Asked.message index) ++ sent)
      | (_, b, asked) => (true, b, asked.map (Asked.message index) ++ sent) := by
  induction n generalizing a asked with
  | zero => rfl
  | succ n ih =>
    rw [PeerSession.requestLoop, Turn.rounds, fillLoop]
    split
    case isTrue =>
      dsimp only
      cases hnext : a.nextRequest turn.now REQUEST_RETRY_TIMEOUT with
      | none => rfl
      | some next =>
        obtain ⟨⟨begin, length, isRetry⟩, b⟩ := next
        dsimp only
        cases hwritten : turn.writes n with
        | true => exact ih b (⟨begin, length, turn.now⟩ :: asked)
        | false => rfl
    case isFalse => rfl

theorem ended_rounds {turn : Turn} {n now : Nat}
    (h : (fillLoop (turn.rounds n) a asked).1 = .ended now) : now = turn.now := by
  induction n generalizing a asked with
  | zero => cases h
  | succ n ih =>
    rw [Turn.rounds] at h
    rcases fillLoop_cases ⟨turn.now, turn.now, turn.writes n⟩ a asked with ⟨-, heq⟩ | ⟨-, -, heq⟩ |
      ⟨-, -, begin, length, b, -, heq⟩
    · rw [heq] at h
      cases h
      rfl
    · rw [heq] at h
      cases h
      rfl
    · rw [heq] at h
      split at h
      case isTrue => exact ih h
      case isFalse => cases h

theorem inFlightCount_running {turn : Turn} {n : Nat} {asked' : List Asked}
    (h : fillLoop (turn.rounds n) a asked = (.running, b, asked'))
    (hbounded : a.inFlightCount turn.now REQUEST_RETRY_TIMEOUT ≤ PIPELINE_DEPTH) :
    b.inFlightCount turn.now REQUEST_RETRY_TIMEOUT =
        a.inFlightCount turn.now REQUEST_RETRY_TIMEOUT + n ∧
      b.inFlightCount turn.now REQUEST_RETRY_TIMEOUT ≤ PIPELINE_DEPTH := by
  induction n generalizing a asked with
  | zero =>
    cases h
    exact ⟨rfl, hbounded⟩
  | succ n ih =>
    rw [Turn.rounds] at h
    rcases fillLoop_cases ⟨turn.now, turn.now, turn.writes n⟩ a asked with ⟨-, heq⟩ | ⟨-, -, heq⟩ |
      ⟨hroom, -, begin, length, c, hc, heq⟩
    · cases (heq _).symm.trans h
    · cases (heq _).symm.trans h
    · rw [heq] at h
      split at h
      case isTrue =>
        dsimp only at hroom hc
        have hone := hc.inFlightCount_eq (Nat.le_refl turn.now)
        rw [if_pos (by omega)] at hone
        obtain ⟨hcount, hle⟩ := ih h (by omega)
        exact ⟨by omega, hle⟩
      case isFalse => cases h

theorem requestLoop_fills {turn : Turn} (h : SoundRequests turn.now a []) (index : Nat)
    (sent : List PeerMessage)
    (hwritten : (PeerSession.requestLoop turn index PIPELINE_DEPTH a sent).1 = true) :
    let b := (PeerSession.requestLoop turn index PIPELINE_DEPTH a sent).2.1
    b.inFlightCount turn.now REQUEST_RETRY_TIMEOUT ≤ PIPELINE_DEPTH ∧
      (b.inFlightCount turn.now REQUEST_RETRY_TIMEOUT < PIPELINE_DEPTH →
        Outstanding b turn.now) := by
  have hloop := requestLoop_eq turn index PIPELINE_DEPTH a [] sent
  rw [List.map_nil, List.nil_append] at hloop
  obtain ⟨⟨last, -, hlater, hended⟩, -, hfills⟩ :=
    fillLoop_sound h (turn.timely_rounds PIPELINE_DEPTH)
  rw [hloop] at hwritten ⊢
  rcases hfill : fillLoop (turn.rounds PIPELINE_DEPTH) a [] with ⟨filling, b, asked⟩
  rw [hfill] at hlater hended hfills hwritten
  cases filling with
  | failed => cases hwritten
  | running =>
    obtain ⟨hcount, hle⟩ := inFlightCount_running hfill h.bounded
    refine ⟨hle, fun hroom => ?_⟩
    dsimp only at hroom
    omega
  | ended now =>
    have hnow : now = turn.now := ended_rounds (congrArg Prod.fst hfill)
    rw [← hended now rfl, hnow] at hlater
    rw [hnow] at hfills
    exact ⟨hlater.bounded, hfills turn.now rfl⟩

end Tortor.Net
