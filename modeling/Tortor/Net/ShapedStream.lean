import Tortor.Net.Shaper

/-! The bounds of a limiter under any calls, and the stream that waits for its tokens. -/

namespace Tortor.Net

open Tortor.Lib

/-- `from_secs_f64` gives less than the seconds it was asked for. -/
def RoundsDown (secs : ℚ) : Prop :=
  let nanos := secs * nanosPerSec
  let whole := ⌊nanos⌋₊
  (whole : ℚ) < nanos ∧ (nanos - whole < 1 / 2 ∨ nanos - whole = 1 / 2 ∧ whole % 2 = 0)

instance (secs : ℚ) : Decidable (RoundsDown secs) := by
  unfold RoundsDown
  infer_instance

theorem nanosPerSec_pos : (0 : ℚ) < nanosPerSec := by norm_num [nanosPerSec]

theorem le_secs_iff {x : ℚ} {nanos : Nat} : x ≤ secs nanos ↔ x * nanosPerSec ≤ nanos :=
  le_div_iff₀ nanosPerSec_pos

theorem le_secs_fromSecs_iff {x : ℚ} (h : 0 ≤ x) : x ≤ secs (fromSecs x) ↔ ¬ RoundsDown x := by
  have hfloor : (⌊x * nanosPerSec⌋₊ : ℚ) ≤ x * nanosPerSec :=
    Nat.floor_le (mul_nonneg h nanosPerSec_pos.le)
  have hceil := Nat.lt_floor_add_one (x * nanosPerSec)
  rw [le_secs_iff, fromSecs, RoundsDown]
  split <;> rename_i hround
  · rw [and_iff_left hround, not_lt]
  · refine iff_of_true ?_ fun hdown => hround hdown.2
    rw [Nat.cast_add_one]
    exact hceil.le

inductive LimiterCall
  | setRate (bytesPerSec now : Nat)
  | acquire (want now : Nat)
  | giveBack (bytes : Nat)

/-- What the inner stream makes of a buffer: it uses no more of it than there is. -/
inductive Inner (offered : Nat)
  | pending
  | failed
  | ready (bytes : Fin (offered + 1))

inductive Poll
  | pending
  | failed
  | ready (bytes : Nat)
  deriving DecidableEq

def Inner.poll {offered : Nat} : Inner offered → Poll
  | .pending => .pending
  | .failed => .failed
  | .ready bytes => .ready bytes

def Inner.used {offered : Nat} : Inner offered → Nat
  | .ready bytes => bytes
  | _ => 0

structure ShapedStream where
  limiter : Limiter
  delay : Option Nat

/-- What is the same whenever a stream is polled: the clock, which timers are still pending on
it, and what the inner stream makes of the buffer it is offered. -/
structure PollContext where
  now : Nat
  asleep : Nat → Bool
  inner : (offered : Nat) → Inner offered

structure Polled where
  answer : Poll
  offered : Option Nat
  stream : ShapedStream

namespace Limiter

def call (l : Limiter) : LimiterCall → Limiter
  | .setRate bytesPerSec now => l.setRate bytesPerSec now
  | .acquire want now => (l.acquireAt want now).2
  | .giveBack bytes => l.giveBack bytes

end Limiter

namespace ShapedStream

def pollLimited (s : ShapedStream) (want : Nat) (cx : PollContext) : Polled :=
  match s.limiter.acquireAt want cx.now with
  | (.error wait, limiter) =>
    let deadline := cx.now + wait
    ⟨.pending, none, limiter, if cx.asleep deadline then some deadline else none⟩
  | (.ok allowed, limiter) =>
    let inner := cx.inner allowed
    ⟨inner.poll, some allowed, limiter.giveBack (allowed - inner.used), none⟩

def pollRead (s : ShapedStream) (remaining : Nat) (cx : PollContext) : Polled :=
  if s.limiter.rate = 0 then ⟨(cx.inner remaining).poll, some remaining, s⟩
  else if s.delay.any cx.asleep then ⟨.pending, none, s⟩
  else if remaining = 0 then ⟨.ready 0, none, s.limiter, none⟩
  else s.pollLimited remaining cx

def pollWrite (s : ShapedStream) (len : Nat) (cx : PollContext) : Polled :=
  if s.limiter.rate = 0 then ⟨(cx.inner len).poll, some len, s⟩
  else if s.delay.any cx.asleep then ⟨.pending, none, s⟩
  else s.pollLimited len cx

end ShapedStream

/-- The buffer the inner stream is offered is not empty, and what is answered is its own
answer to that buffer. -/
structure Polled.Honest (r : Polled) (want : Nat) (cx : PollContext) : Prop where
  offered : ∀ n ∈ r.offered, 1 ≤ n ∧ n ≤ want
  answer : ∀ n, r.answer = .ready n → ∃ size ∈ r.offered, (cx.inner size).poll = .ready n

namespace Limiter

variable {l : Limiter} {now want : Nat}

theorem Filled.call (h : l.Filled) (c : LimiterCall) : (l.call c).Filled := by
  cases c with
  | setRate bytesPerSec now => exact h.setRate bytesPerSec now
  | acquire want now => exact h.acquireAt want now
  | giveBack bytes => exact h.giveBack bytes

theorem Filled.exec (bytesPerSec start : Nat) (calls : List LimiterCall) :
    (exec Limiter.call (.new bytesPerSec start) calls).Filled :=
  exec_invariant (P := Filled) (fun _ c h => h.call c) calls (.new bytesPerSec start)

theorem grants (hwant : 0 < want) {n : Nat} (h : (l.acquireAt want now).1 = .ok n) :
    1 ≤ n ∧ n ≤ want := by
  rcases Nat.eq_zero_or_pos l.rate with hrate | hrate
  · rw [acquireAt_unlimited hrate] at h
    cases h
    exact ⟨hwant, le_rfl⟩
  by_cases hlacks : l.Lacks want now
  · rw [acquireAt_error hrate hwant hlacks] at h
    cases h
  · obtain ⟨take, hpos, hle, -, heq⟩ := acquireAt_ok hrate hwant hlacks
    rw [heq] at h
    cases h
    exact ⟨hpos, hle⟩

def Progresses (l : Limiter) (want now : Nat) : Prop :=
  ∀ wait, (l.acquireAt want now).1 = .error wait → ∀ later, now + wait ≤ later →
    ∃ n, ((l.acquireAt want now).2.acquireAt want later).1 = .ok n

/-- The wait reaches over the shortage: it is a millisecond at least, and otherwise the nearest
nanosecond. -/
def WaitsOut (l : Limiter) (want now : Nat) : Prop :=
  l.shortage want now ≤ secs 1000000 ∨ ¬ RoundsDown (l.shortage want now)

instance (l : Limiter) (want now : Nat) : Decidable (l.WaitsOut want now) := by
  unfold WaitsOut
  infer_instance

theorem shortage_nonneg (h : l.Lacks want now) : 0 ≤ l.shortage want now :=
  div_nonneg (sub_nonneg.mpr (le_of_lt h)) (Nat.cast_nonneg _)

theorem waitsOut_iff (h : l.Lacks want now) :
    l.shortage want now ≤ secs (max (fromSecs (l.shortage want now)) 1000000) ↔
      l.WaitsOut want now := by
  rw [secs_mono.map_max, le_max_iff, le_secs_fromSecs_iff (shortage_nonneg h), or_comm]
  rfl

theorem slice_le_burst (want rate : Nat) : ((min want minChunk : Nat) : ℚ) ≤ burst rate := by
  have hchunk : ((min want minChunk : Nat) : ℚ) ≤ (minChunk : Nat) :=
    Nat.cast_le.mpr (min_le_right _ _)
  have hburst : minBurst ≤ burst rate := le_max_right _ _
  have hless : ((minChunk : Nat) : ℚ) ≤ minBurst := by norm_num [minChunk, minBurst]
  exact hchunk.trans (hless.trans hburst)

/-- Left alone after it was found lacking, the bucket has the slice once the shortage is over. -/
theorem lacks_later_iff (hrate : 0 < l.rate) {later : Nat} (hlater : now ≤ later) :
    ({ l with bucket := ⟨l.refilled now, now⟩ } : Limiter).Lacks want later ↔
      secs (later - now) < l.shortage want now := by
  have hpos : (0 : ℚ) < l.rate := Nat.cast_pos.mpr hrate
  have hslice := slice_le_burst want l.rate
  rw [Lacks, refilled_stamped l _ hlater, min_lt_iff, or_iff_left (not_lt.mpr hslice),
    ← secs_mul_rate hlater, shortage, lt_div_iff₀ hpos, lt_sub_iff_add_lt']

theorem progresses_iff (hwant : 0 < want) :
    l.Progresses want now ↔ (0 < l.rate → l.Lacks want now → l.WaitsOut want now) := by
  rcases Nat.eq_zero_or_pos l.rate with hrate | hrate
  · refine iff_of_true (fun wait h => ?_) fun hpos => absurd hpos hrate.not_gt
    rw [acquireAt_unlimited hrate] at h
    cases h
  by_cases hlacks : l.Lacks want now
  · rw [← waitsOut_iff hlacks]
    simp only [hrate, hlacks, forall_const]
    have herror := acquireAt_error hrate hwant hlacks
    rw [Progresses, herror]
    constructor
    · intro h
      have hgranted := h _ rfl _ le_rfl
      by_contra hshort
      have hstill : ({ l with bucket := ⟨l.refilled now, now⟩ } : Limiter).Lacks want
          (now + max (fromSecs (l.shortage want now)) 1000000) := by
        rw [lacks_later_iff hrate (Nat.le_add_right _ _), Nat.add_sub_cancel_left]
        exact not_le.mp hshort
      obtain ⟨n, hn⟩ := hgranted
      rw [acquireAt_error (by exact hrate) hwant hstill] at hn
      cases hn
    · intro hlong wait hwait later hlater
      cases hwait
      have hle : now ≤ later := (Nat.le_add_right _ _).trans hlater
      have hthere : ¬ ({ l with bucket := ⟨l.refilled now, now⟩ } : Limiter).Lacks want later := by
        rw [lacks_later_iff hrate hle, not_lt]
        exact hlong.trans (secs_mono (Nat.le_sub_of_add_le' hlater))
      obtain ⟨take, -, -, -, heq⟩ := acquireAt_ok (by exact hrate) hwant hthere
      exact ⟨take, by rw [heq]⟩
  · refine iff_of_true (fun wait h => ?_) fun _ h => absurd h hlacks
    obtain ⟨take, -, -, -, heq⟩ := acquireAt_ok hrate hwant hlacks
    rw [heq] at h
    cases h

end Limiter

namespace ShapedStream

variable {s : ShapedStream} {want : Nat}

theorem pollLimited_honest (hwant : 0 < want) (cx : PollContext) :
    (s.pollLimited want cx).Honest want cx := by
  rw [pollLimited]
  split
  · exact ⟨nofun, nofun⟩
  · rename_i allowed limiter heq
    have hgrants := Limiter.grants hwant (congrArg Prod.fst heq)
    constructor
    · rintro n ⟨⟩
      exact hgrants
    · intro n hn
      exact ⟨allowed, rfl, hn⟩

theorem unlimited_honest (hwant : 0 < want) (cx : PollContext) :
    (⟨(cx.inner want).poll, some want, s⟩ : Polled).Honest want cx := by
  constructor
  · rintro n ⟨⟩
    exact ⟨hwant, le_rfl⟩
  · intro n hn
    exact ⟨want, rfl, hn⟩

theorem pollWrite_honest (hwant : 0 < want) (cx : PollContext) :
    (s.pollWrite want cx).Honest want cx := by
  unfold pollWrite
  split
  · exact unlimited_honest hwant cx
  split
  · exact ⟨nofun, nofun⟩
  · exact pollLimited_honest hwant cx

theorem pollRead_eq_pollWrite (hwant : 0 < want) (cx : PollContext) :
    s.pollRead want cx = s.pollWrite want cx := by
  rw [pollRead, pollWrite, if_neg hwant.ne']

theorem pollLimited_calls (s : ShapedStream) (want : Nat) (cx : PollContext) :
    ∃ calls, (s.pollLimited want cx).stream.limiter = exec Limiter.call s.limiter calls := by
  rw [pollLimited]
  split <;> rename_i heq
  · exact ⟨[.acquire want cx.now], (congrArg Prod.snd heq).symm⟩
  · rename_i allowed limiter
    have hlimiter : limiter = (s.limiter.acquireAt want cx.now).2 :=
      (congrArg Prod.snd heq).symm
    exact ⟨[.acquire want cx.now, .giveBack (allowed - (cx.inner allowed).used)],
      congrArg (Limiter.giveBack · _) hlimiter⟩

theorem pollWrite_calls (s : ShapedStream) (want : Nat) (cx : PollContext) :
    ∃ calls, (s.pollWrite want cx).stream.limiter = exec Limiter.call s.limiter calls := by
  unfold pollWrite
  split
  · exact ⟨[], rfl⟩
  split
  · exact ⟨[], rfl⟩
  · exact s.pollLimited_calls want cx

end ShapedStream

namespace Limiter

/-- After any calls the tokens are within their bounds, what is granted is no empty buffer, and
the wait that is asked for is long enough exactly when it was not rounded below the shortage. -/
theorem throttled (bytesPerSec start : Nat) (calls : List LimiterCall) {want : Nat}
    (hwant : 0 < want) (now : Nat) :
    let l := exec call (.new bytesPerSec start) calls
    (0 ≤ l.bucket.tokens ∧ l.bucket.tokens ≤ burst l.rate) ∧
    (∀ n, (l.acquireAt want now).1 = .ok n → 1 ≤ n ∧ n ≤ want) ∧
    (∀ delay cx, ((⟨l, delay⟩ : ShapedStream).pollRead want cx).Honest want cx ∧
      ((⟨l, delay⟩ : ShapedStream).pollWrite want cx).Honest want cx) ∧
    (l.Progresses want now ↔ (0 < l.rate → l.Lacks want now → l.WaitsOut want now)) := by
  intro l
  have hfilled : l.Filled := Filled.exec bytesPerSec start calls
  refine ⟨⟨hfilled.nonneg, hfilled.le_burst⟩, fun n => grants hwant, fun delay cx => ?_,
    progresses_iff hwant⟩
  rw [ShapedStream.pollRead_eq_pollWrite hwant]
  exact ⟨ShapedStream.pollWrite_honest hwant cx, ShapedStream.pollWrite_honest hwant cx⟩

theorem throttled_sixteenth :
    let l := exec call (.new 0 0) [.setRate 65536 5, .acquire 16384 5]
    (0 ≤ l.bucket.tokens ∧ l.bucket.tokens ≤ burst l.rate) ∧
    (∀ n, (l.acquireAt 5000 5).1 = .ok n → 1 ≤ n ∧ n ≤ 5000) ∧
    (∀ delay cx, ((⟨l, delay⟩ : ShapedStream).pollRead 5000 cx).Honest 5000 cx ∧
      ((⟨l, delay⟩ : ShapedStream).pollWrite 5000 cx).Honest 5000 cx) ∧
    (l.Progresses 5000 5 ↔ (0 < l.rate → l.Lacks 5000 5 → l.WaitsOut 5000 5)) :=
  throttled 0 0 [.setRate 65536 5, .acquire 16384 5] (by decide) 5

/-- At 3 bytes/s a third of a nanosecond is rounded off the wait, and after it the chunk is still
not there. -/
theorem not_progresses_third :
    ¬ ∀ (bytesPerSec start : Nat) (calls : List LimiterCall) (want now : Nat), 0 < want →
      (exec call (.new bytesPerSec start) calls).Progresses want now := by
  intro h
  have hwait : ((exec call (.new 3 0) [.acquire 16384 0]).acquireAt 4096 0).1 =
      .error 1365333333333 := by decide +kernel
  have hagain : ((exec call (.new 3 0) [.acquire 16384 0, .acquire 4096 0]).acquireAt 4096
      1365333333333).1 = .error 1000000 := by decide +kernel
  obtain ⟨n, hn⟩ := h 3 0 [.acquire 16384 0] 4096 0 (by decide) _ hwait _ (Nat.zero_add _).le
  cases hagain.symm.trans hn

end Limiter

end Tortor.Net
