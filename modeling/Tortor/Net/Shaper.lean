import Mathlib.Data.Rat.Floor
import Mathlib.Tactic.Linarith
import Tortor.Lib.Meter
import Tortor.Lib.Run

/-! The token bucket of one direction, and the callers that share it. -/

namespace Tortor.Net

open Tortor.Lib

universe u

def minChunk : Nat := 4096

def minBurst : ℚ := 16 * 1024

def burst (rate : Nat) : ℚ := max (rate / 4) minBurst

def nanosPerSec : Nat := 1000000000

def secs (nanos : Nat) : ℚ := nanos / nanosPerSec

/-- `Duration::from_secs_f64`: the nearest nanosecond, the even one of two. -/
def fromSecs (secs : ℚ) : Nat :=
  let nanos := secs * nanosPerSec
  let whole := ⌊nanos⌋₊
  if nanos - whole < 1 / 2 ∨ nanos - whole = 1 / 2 ∧ whole % 2 = 0 then whole else whole + 1

structure Bucket where
  tokens : ℚ
  last : Nat

structure Limiter where
  rate : Nat
  bucket : Bucket

namespace Limiter

def new (bytesPerSec now : Nat) : Limiter := ⟨bytesPerSec, burst bytesPerSec, now⟩

/-- The tokens once the bucket is brought up to `now`; from an older reading nothing elapsed. -/
def refilled (l : Limiter) (now : Nat) : ℚ :=
  min (l.bucket.tokens + secs (now - l.bucket.last) * l.rate) (burst l.rate)

def acquireAt (l : Limiter) (want now : Nat) : Except Nat Nat × Limiter :=
  if l.rate = 0 ∨ want = 0 then (.ok want, l)
  else
    let tokens := l.refilled now
    let need : ℚ := (min want minChunk : Nat)
    if tokens < need then
      (.error (max (fromSecs ((need - tokens) / l.rate)) 1000000), { l with bucket := ⟨tokens, now⟩ })
    else
      let take := min ⌊tokens⌋₊ want
      (.ok take, { l with bucket := ⟨tokens - take, now⟩ })

def giveBack (l : Limiter) (bytes : Nat) : Limiter :=
  if l.rate = 0 ∨ bytes = 0 then l
  else { l with bucket := { l.bucket with tokens := min (l.bucket.tokens + bytes) (burst l.rate) } }

def setRate (l : Limiter) (bytesPerSec now : Nat) : Limiter :=
  ⟨bytesPerSec, min l.bucket.tokens (burst bytesPerSec), now⟩

end Limiter

/-- The callers of one limiter.  Each reads the clock before it takes the lock. -/
structure Callers (ι : Type u) where
  limiter : Limiter
  clock : Nat
  reading : ι → Option Nat
  held : Nat
  /-- What was granted, and below zero what was given back, with the clock at the time. -/
  log : List (Nat × ℚ)

inductive ShaperCall (ι : Type u)
  | tick (nanos : Nat)
  | readClock (caller : ι)
  | acquire (caller : ι) (want : Nat)
  | giveBack (bytes : Nat)

namespace Callers

variable {ι : Type u} [DecidableEq ι]

def start (rate clock : Nat) : Callers ι := ⟨.new rate clock, clock, fun _ => none, 0, []⟩

def step (s : Callers ι) : ShaperCall ι → Callers ι
  | .tick nanos => { s with clock := s.clock + nanos }
  | .readClock caller => { s with reading := Function.update s.reading caller (some s.clock) }
  | .acquire caller want =>
    match s.reading caller with
    | none => s
    | some now =>
      let reading := Function.update s.reading caller none
      match s.limiter.acquireAt want now with
      | (.ok taken, limiter) =>
        { s with limiter, reading, held := s.held + taken, log := (s.clock, (taken : ℚ)) :: s.log }
      | (.error _, limiter) => { s with limiter, reading }
  | .giveBack bytes =>
    if bytes ≤ s.held then
      { s with
        limiter := s.limiter.giveBack bytes
        held := s.held - bytes
        log := (s.clock, -(bytes : ℚ)) :: s.log }
    else s

end Callers

theorem secs_nonneg (nanos : Nat) : 0 ≤ secs nanos := by
  unfold secs
  positivity

theorem secs_sub {a b : Nat} (h : a ≤ b) : secs (b - a) = secs b - secs a := by
  rw [secs, secs, secs, Nat.cast_sub h, sub_div]

@[simp] theorem secs_zero : secs 0 = 0 := by
  simp [secs]

theorem secs_mono : Monotone secs := by
  intro a b h
  have hsub := secs_sub h
  have hnonneg := secs_nonneg (b - a)
  linarith

theorem secs_lt {a b : Nat} (h : a < b) : secs a < secs b := by
  have hcast : (a : ℚ) < b := Nat.cast_lt.mpr h
  have hpos : (0 : ℚ) < nanosPerSec := by norm_num [nanosPerSec]
  exact div_lt_div_of_pos_right hcast hpos

theorem burst_pos (rate : Nat) : 0 < burst rate := by
  have hle : minBurst ≤ burst rate := le_max_right _ _
  have hpos : 0 < minBurst := by norm_num [minBurst]
  exact hpos.trans_le hle

def accrued (rate clock : Nat) : ℚ := secs clock * rate

theorem accrued_mono (rate : Nat) : Monotone (accrued rate) := by
  intro a b h
  exact mul_le_mul_of_nonneg_right (secs_mono h) (Nat.cast_nonneg rate)

theorem accrued_lt {rate a b : Nat} (hrate : 0 < rate) (h : a < b) :
    accrued rate a < accrued rate b :=
  mul_lt_mul_of_pos_right (secs_lt h) (Nat.cast_pos.mpr hrate)

theorem secs_mul_rate {rate a b : Nat} (h : a ≤ b) :
    secs (b - a) * rate = accrued rate b - accrued rate a := by
  rw [secs_sub h, sub_mul, accrued, accrued]

namespace Limiter

structure Filled (l : Limiter) : Prop where
  nonneg : 0 ≤ l.bucket.tokens
  le_burst : l.bucket.tokens ≤ burst l.rate

structure Sane (l : Limiter) (clock : Nat) : Prop where
  nonneg : 0 ≤ l.bucket.tokens
  le_burst : l.bucket.tokens ≤ burst l.rate
  last_le : l.bucket.last ≤ clock

variable {l : Limiter} {clock now want bytes : Nat}

theorem Sane.filled (h : l.Sane clock) : l.Filled := ⟨h.nonneg, h.le_burst⟩

theorem refilled_le (l : Limiter) (now : Nat) : l.refilled now ≤ burst l.rate := min_le_right _ _

theorem refilled_of_le (h : l.bucket.last ≤ now) : l.refilled now =
    min (l.bucket.tokens + (accrued l.rate now - accrued l.rate l.bucket.last)) (burst l.rate) := by
  rw [refilled, secs_mul_rate h]

theorem Sane.refilled_of_ge (h : l.Sane clock) (hnow : now ≤ l.bucket.last) :
    l.refilled now = l.bucket.tokens := by
  rw [refilled, Nat.sub_eq_zero_of_le hnow, secs_zero, zero_mul, add_zero, min_eq_left h.le_burst]

theorem Filled.refilled_nonneg (h : l.Filled) (now : Nat) : 0 ≤ l.refilled now :=
  le_min (add_nonneg h.nonneg (mul_nonneg (secs_nonneg _) (Nat.cast_nonneg _)))
    (burst_pos l.rate).le

theorem refilled_twice (hfresh : l.bucket.last ≤ now) (hnow : now ≤ clock) :
    min (l.refilled now + (accrued l.rate clock - accrued l.rate now)) (burst l.rate) =
      l.refilled clock := by
  have hflow := accrued_mono l.rate hnow
  have hburst : burst l.rate ≤ burst l.rate + (accrued l.rate clock - accrued l.rate now) := by
    linarith
  rw [refilled_of_le hfresh, refilled_of_le (hfresh.trans hnow), ← min_add_add_right, min_assoc,
    min_eq_right hburst, add_assoc, add_comm (_ - _), sub_add_sub_cancel]

/-- As time passes the level rises no faster than the rate. -/
theorem Sane.refilled_tick (h : l.Sane clock) {c : Nat} (hc : clock ≤ c) :
    l.refilled c ≤ l.refilled clock + (accrued l.rate c - accrued l.rate clock) := by
  have hflow := accrued_mono l.rate hc
  rw [refilled_of_le (h.last_le.trans hc), refilled_of_le h.last_le, ← min_add_add_right]
  apply min_le_min
  · linarith
  · linarith

def Lacks (l : Limiter) (want now : Nat) : Prop := l.refilled now < (min want minChunk : Nat)

instance (l : Limiter) (want now : Nat) : Decidable (l.Lacks want now) :=
  inferInstanceAs (Decidable (_ < _))

/-- The reading is not behind the time stamp, and bytes are granted on it only if it is the
clock's own or the bucket has not filled up in between.  Where nothing is granted, a reading
behind the stamp does no harm once the bucket has filled up. -/
def InOrder (l : Limiter) (want now clock : Nat) : Prop :=
  want = 0 ∨
  if l.Lacks want now then
    l.bucket.last ≤ now ∨
      burst l.rate ≤ l.bucket.tokens + secs (clock - l.bucket.last) * l.rate
  else
    l.bucket.last ≤ now ∧ (now = clock ∨
      l.bucket.tokens + secs (clock - l.bucket.last) * l.rate ≤ burst l.rate)

instance (l : Limiter) (want now clock : Nat) : Decidable (l.InOrder want now clock) := by
  unfold InOrder
  infer_instance

def shortage (l : Limiter) (want now : Nat) : ℚ :=
  ((min want minChunk : Nat) - l.refilled now) / l.rate

theorem acquireAt_error (hrate : 0 < l.rate) (hwant : 0 < want) (h : l.Lacks want now) :
    l.acquireAt want now = (.error (max (fromSecs (l.shortage want now)) 1000000),
      { l with bucket := ⟨l.refilled now, now⟩ }) := by
  have hlimited : ¬ (l.rate = 0 ∨ want = 0) := by omega
  rw [acquireAt, if_neg hlimited]
  exact if_pos h

theorem acquireAt_ok (hrate : 0 < l.rate) (hwant : 0 < want) (h : ¬ l.Lacks want now) :
    ∃ take : Nat, 0 < take ∧ take ≤ want ∧ (take : ℚ) ≤ l.refilled now ∧
      l.acquireAt want now =
        (.ok take, { l with bucket := ⟨l.refilled now - take, now⟩ }) := by
  have hlimited : ¬ (l.rate = 0 ∨ want = 0) := by omega
  have hneed : 0 < min want minChunk := by
    unfold minChunk
    omega
  have hthere : ((min want minChunk : Nat) : ℚ) ≤ l.refilled now := not_lt.mp h
  have hone : ((1 : Nat) : ℚ) ≤ l.refilled now := (Nat.cast_le.mpr hneed).trans hthere
  have hfloor : 0 < ⌊l.refilled now⌋₊ := Nat.le_floor hone
  have hle : ((min ⌊l.refilled now⌋₊ want : Nat) : ℚ) ≤ l.refilled now :=
    (Nat.cast_le.mpr (min_le_left _ _)).trans
      (Nat.floor_le ((Nat.cast_nonneg _).trans hone))
  refine ⟨min ⌊l.refilled now⌋₊ want, lt_min hfloor hwant, min_le_right _ _, hle, ?_⟩
  rw [acquireAt, if_neg hlimited]
  exact if_neg h

example : ((Limiter.new 100000 0).acquireAt 100000 0).1 = .ok 25000 ∧
    (((Limiter.new 100000 0).acquireAt 100000 0).2.acquireAt 10000 0).1 = .error 40960000 := by
  decide +kernel

theorem refilled_stamped (l : Limiter) (tokens : ℚ) (h : now ≤ clock) :
    ({ l with bucket := ⟨tokens, now⟩ } : Limiter).refilled clock =
      min (tokens + (accrued l.rate clock - accrued l.rate now)) (burst l.rate) :=
  refilled_of_le (l := { l with bucket := ⟨tokens, now⟩ }) h

theorem Sane.lacks_iff (h : l.Sane clock) (hrate : 0 < l.rate) (hnow : now ≤ clock) :
    ({ l with bucket := ⟨l.refilled now, now⟩ } : Limiter).refilled clock ≤ l.refilled clock ↔
      l.bucket.last ≤ now ∨
        burst l.rate ≤ l.bucket.tokens + secs (clock - l.bucket.last) * l.rate := by
  rw [refilled_stamped l _ hnow]
  rcases Nat.lt_or_ge now l.bucket.last with hstale | hfresh
  · have hless := accrued_lt hrate hstale
    rw [h.refilled_of_ge hstale.le, refilled_of_le h.last_le, secs_mul_rate h.last_le]
    constructor
    · intro hle
      right
      rcases min_le_iff.mp (le_min_iff.mp hle).1 with hflow | hfull
      · linarith
      · exact hfull
    · rintro (hge | hfull)
      · omega
      · exact (min_le_right _ _).trans (le_min hfull le_rfl)
  · exact iff_of_true (refilled_twice hfresh hnow).le (.inl hfresh)

/-- A grant on a reading behind the stamp lets the time in between count twice. -/
theorem Sane.lt_of_stale (h : l.Sane clock) (hrate : 0 < l.rate) (hnow : now ≤ clock)
    (hstale : now < l.bucket.last) {take : ℚ} (hpos : 0 < take) :
    l.refilled clock <
      take + ({ l with bucket := ⟨l.refilled now - take, now⟩ } : Limiter).refilled clock := by
  have hless := accrued_lt hrate hstale
  have hlevel : l.refilled clock ≤ l.bucket.tokens +
      (accrued l.rate clock - accrued l.rate l.bucket.last) :=
    (refilled_of_le h.last_le).trans_le (min_le_left _ _)
  have hburst := l.refilled_le clock
  rw [refilled_stamped l _ hnow, h.refilled_of_ge hstale.le, ← min_add_add_left]
  apply lt_min
  · linarith
  · linarith

/-- A grant on a late reading is in order as long as the bucket has not filled up since. -/
theorem grants_iff_of_fresh (hrate : 0 < l.rate) (hfresh : l.bucket.last ≤ now)
    (hnow : now ≤ clock) {take : ℚ} (hpos : 0 < take) :
    take + ({ l with bucket := ⟨l.refilled now - take, now⟩ } : Limiter).refilled clock ≤
        l.refilled clock ↔
      now = clock ∨
        l.bucket.tokens + secs (clock - l.bucket.last) * l.rate ≤ burst l.rate := by
  rw [refilled_stamped l _ hnow, ← min_add_add_left, ← refilled_twice hfresh hnow,
    secs_mul_rate (hfresh.trans hnow)]
  constructor
  · intro hle
    have hroom : l.refilled now + (accrued l.rate clock - accrued l.rate now) ≤ burst l.rate := by
      by_contra hover
      have hmore : burst l.rate <
          min (take + (l.refilled now - take + (accrued l.rate clock - accrued l.rate now)))
            (take + burst l.rate) := by
        apply lt_min
        · linarith
        · linarith
      exact absurd (hle.trans (min_le_right _ _)) (not_le.mpr hmore)
    rcases hnow.eq_or_lt with heq | hlate
    · exact .inl heq
    · right
      -- in the time from the reading on the bucket has not been full, so nothing was cut off
      have hless := accrued_lt hrate hlate
      rw [refilled_of_le hfresh] at hroom
      rcases min_choice (l.bucket.tokens + (accrued l.rate now - accrued l.rate l.bucket.last))
        (burst l.rate) with hmin | hmin <;> rw [hmin] at hroom <;> linarith
  · intro hunder
    have hroom : l.refilled now + (accrued l.rate clock - accrued l.rate now) ≤ burst l.rate := by
      rcases hunder with heq | hunder
      · rw [heq, sub_self, add_zero]
        exact l.refilled_le clock
      · have hle : l.refilled now ≤ _ := (refilled_of_le hfresh).trans_le (min_le_left _ _)
        linarith
    apply (min_le_left _ _).trans
    rw [min_eq_left hroom]
    linarith

theorem Sane.grants_iff (h : l.Sane clock) (hrate : 0 < l.rate) (hnow : now ≤ clock)
    {take : ℚ} (hpos : 0 < take) :
    take + ({ l with bucket := ⟨l.refilled now - take, now⟩ } : Limiter).refilled clock ≤
        l.refilled clock ↔
      l.bucket.last ≤ now ∧ (now = clock ∨
        l.bucket.tokens + secs (clock - l.bucket.last) * l.rate ≤ burst l.rate) := by
  rcases Nat.lt_or_ge now l.bucket.last with hstale | hfresh
  · exact iff_of_false (not_le.mpr (h.lt_of_stale hrate hnow hstale hpos))
      fun hboth => absurd hboth.1 (not_le.mpr hstale)
  · rw [grants_iff_of_fresh hrate hfresh hnow hpos]
    exact (and_iff_right hfresh).symm

def granted : Except Nat Nat → Nat
  | .ok bytes => bytes
  | .error _ => 0

theorem acquireAt_zero (l : Limiter) (now : Nat) : l.acquireAt 0 now = (.ok 0, l) :=
  if_pos (.inr rfl)

theorem acquireAt_unlimited (hrate : l.rate = 0) (want now : Nat) :
    l.acquireAt want now = (.ok want, l) :=
  if_pos (.inl hrate)

@[simp] theorem acquireAt_rate (l : Limiter) (want now : Nat) :
    (l.acquireAt want now).2.rate = l.rate := by
  unfold acquireAt
  split
  · rfl
  · dsimp only
    split <;> rfl

@[simp] theorem giveBack_rate (l : Limiter) (bytes : Nat) : (l.giveBack bytes).rate = l.rate := by
  unfold giveBack
  split <;> rfl

theorem Filled.acquireAt (h : l.Filled) (want now : Nat) : (l.acquireAt want now).2.Filled := by
  rcases Nat.eq_zero_or_pos l.rate with hrate | hrate
  · rw [acquireAt_unlimited hrate]
    exact h
  rcases Nat.eq_zero_or_pos want with rfl | hwant
  · rw [acquireAt_zero]
    exact h
  by_cases hlacks : l.Lacks want now
  · have heq := acquireAt_error hrate hwant hlacks
    rw [heq]
    exact ⟨h.refilled_nonneg now, l.refilled_le now⟩
  · obtain ⟨take, -, -, hle, heq⟩ := acquireAt_ok hrate hwant hlacks
    rw [heq]
    have htake : (0 : ℚ) ≤ take := Nat.cast_nonneg take
    exact ⟨sub_nonneg.mpr hle, (sub_le_self _ htake).trans (l.refilled_le now)⟩

theorem acquireAt_last (l : Limiter) (want now : Nat) :
    (l.acquireAt want now).2.bucket.last = l.bucket.last ∨
      (l.acquireAt want now).2.bucket.last = now := by
  unfold acquireAt
  split
  · exact .inl rfl
  · dsimp only
    split <;> exact .inr rfl

theorem Sane.acquireAt (h : l.Sane clock) (hnow : now ≤ clock) (want : Nat) :
    (l.acquireAt want now).2.Sane clock := by
  have hfilled := h.filled.acquireAt want now
  refine ⟨hfilled.nonneg, hfilled.le_burst, ?_⟩
  rcases l.acquireAt_last want now with heq | heq
  · exact heq.trans_le h.last_le
  · exact heq.trans_le hnow

/-- What `acquireAt` lets pass comes off the level at the clock exactly when its reading is in
order. -/
theorem Sane.acquireAt_level_iff (h : l.Sane clock) (hrate : 0 < l.rate) (hnow : now ≤ clock)
    (want : Nat) :
    (granted (l.acquireAt want now).1 : ℚ) + (l.acquireAt want now).2.refilled clock ≤
        l.refilled clock ↔ l.InOrder want now clock := by
  rcases Nat.eq_zero_or_pos want with rfl | hwant
  · simp [acquireAt_zero, granted, InOrder]
  have hsome : want ≠ 0 := hwant.ne'
  by_cases hlacks : l.Lacks want now
  · have heq := acquireAt_error hrate hwant hlacks
    rw [heq, granted, Nat.cast_zero, zero_add, h.lacks_iff hrate hnow, InOrder, if_pos hlacks]
    exact (or_iff_right hsome).symm
  · obtain ⟨take, hpos, -, -, heq⟩ := acquireAt_ok hrate hwant hlacks
    rw [heq, granted, h.grants_iff hrate hnow (Nat.cast_pos.mpr hpos), InOrder, if_neg hlacks]
    exact (or_iff_right hsome).symm

theorem Filled.giveBack (h : l.Filled) (bytes : Nat) : (l.giveBack bytes).Filled := by
  unfold Limiter.giveBack
  split
  · exact h
  · have hbytes : (0 : ℚ) ≤ bytes := Nat.cast_nonneg bytes
    exact ⟨le_min (add_nonneg h.nonneg hbytes) (burst_pos l.rate).le, min_le_right _ _⟩

@[simp] theorem giveBack_last (l : Limiter) (bytes : Nat) :
    (l.giveBack bytes).bucket.last = l.bucket.last := by
  unfold giveBack
  split <;> rfl

theorem Sane.giveBack (h : l.Sane clock) (bytes : Nat) : (l.giveBack bytes).Sane clock := by
  have hfilled := h.filled.giveBack bytes
  exact ⟨hfilled.nonneg, hfilled.le_burst, (l.giveBack_last bytes).trans_le h.last_le⟩

theorem Filled.new (bytesPerSec now : Nat) : (new bytesPerSec now).Filled :=
  ⟨(burst_pos bytesPerSec).le, le_rfl⟩

theorem Filled.setRate (h : l.Filled) (bytesPerSec now : Nat) :
    (l.setRate bytesPerSec now).Filled :=
  ⟨le_min h.nonneg (burst_pos bytesPerSec).le, min_le_right _ _⟩

theorem giveBack_level (l : Limiter) (bytes clock : Nat) :
    -(bytes : ℚ) + (l.giveBack bytes).refilled clock ≤ l.refilled clock := by
  have hbytes : (0 : ℚ) ≤ bytes := Nat.cast_nonneg bytes
  have hlevel : (l.giveBack bytes).refilled clock ≤ l.refilled clock + bytes := by
    rw [Limiter.giveBack]
    split
    · exact le_add_of_nonneg_right hbytes
    · have hback : min (l.bucket.tokens + bytes) (burst l.rate) ≤ l.bucket.tokens + bytes :=
        min_le_left _ _
      rw [refilled, refilled, ← min_add_add_right _ _ (bytes : ℚ)]
      apply min_le_min
      · dsimp only
        linarith
      · exact le_add_of_nonneg_right hbytes
  linarith

end Limiter

namespace Callers

variable {ι : Type u} {s : Callers ι}

def meter (s : Callers ι) : Meter Nat ℚ := ⟨s.clock, s.limiter.refilled s.clock, s.log⟩

structure Sound (rate : Nat) (s : Callers ι) : Prop where
  rate_eq : s.limiter.rate = rate
  sane : s.limiter.Sane s.clock
  reading_le : ∀ caller, ∀ now ∈ s.reading caller, now ≤ s.clock

variable {rate : Nat}

theorem Sound.start (rate clock : Nat) : (start rate clock : Callers ι).Sound rate where
  rate_eq := rfl
  sane := ⟨(burst_pos rate).le, le_rfl, le_rfl⟩
  reading_le := nofun

theorem start_meter (rate clock : Nat) :
    (start rate clock : Callers ι).meter = ⟨clock, burst rate, []⟩ := by
  have hfull : (Limiter.new rate clock).refilled clock = burst rate := by
    simp [Limiter.refilled, Limiter.new]
  rw [meter, start, hfull]

variable [DecidableEq ι]

theorem Sound.update (h : s.Sound rate) (caller : ι) (reading : Option Nat)
    (hle : ∀ now ∈ reading, now ≤ s.clock) :
    ∀ other, ∀ now ∈ Function.update s.reading caller reading other, now ≤ s.clock := by
  intro other now hnow
  rcases eq_or_ne other caller with rfl | hne
  · rw [Function.update_self] at hnow
    exact hle now hnow
  · rw [Function.update_of_ne hne] at hnow
    exact h.reading_le other now hnow

theorem Sound.step (h : s.Sound rate) (call : ShaperCall ι) :
    (s.step call).Sound rate := by
  cases call with
  | tick nanos =>
    have hle : s.clock ≤ s.clock + nanos := Nat.le_add_right _ _
    exact ⟨h.rate_eq, ⟨h.sane.nonneg, h.sane.le_burst, h.sane.last_le.trans hle⟩,
      fun caller now hnow => (h.reading_le caller now hnow).trans hle⟩
  | readClock caller =>
    refine ⟨h.rate_eq, h.sane, h.update caller _ ?_⟩
    rintro now ⟨⟩
    exact le_rfl
  | acquire caller want =>
    rw [Callers.step]
    split
    · exact h
    · rename_i now hreading
      have hsane := h.sane.acquireAt (h.reading_le caller now hreading) want
      have hkept := (s.limiter.acquireAt_rate want now).trans h.rate_eq
      have hreadings := h.update caller none nofun
      dsimp only
      split <;> rename_i heq <;> rw [heq] at hsane hkept <;> exact ⟨hkept, hsane, hreadings⟩
  | giveBack bytes =>
    rw [Callers.step]
    split
    · exact ⟨(s.limiter.giveBack_rate bytes).trans h.rate_eq, h.sane.giveBack bytes, h.reading_le⟩
    · exact h

def InOrder (s : Callers ι) : ShaperCall ι → Prop
  | .acquire caller want => ∀ now ∈ s.reading caller, s.limiter.InOrder want now s.clock
  | _ => True

instance (s : Callers ι) (call : ShaperCall ι) : Decidable (s.InOrder call) := by
  unfold InOrder
  split <;> infer_instance

theorem Sound.step_meter (h : s.Sound rate) (hrate : 0 < rate) {call : ShaperCall ι}
    (horder : s.InOrder call) :
    (s.step call).meter = s.meter ∨
      Meter.Step (burst rate) (accrued rate) s.meter (s.step call).meter := by
  have hnext := h.step call
  have hnonneg := hnext.sane.filled.refilled_nonneg (s.step call).clock
  have hburst := (s.step call).limiter.refilled_le (s.step call).clock
  rw [hnext.rate_eq] at hburst
  cases call with
  | tick nanos =>
    have hle : s.clock ≤ s.clock + nanos := Nat.le_add_right _ _
    exact .inr (.tick hle hnonneg hburst (h.rate_eq ▸ h.sane.refilled_tick hle))
  | readClock caller => exact .inl rfl
  | acquire caller want =>
    cases hreading : s.reading caller with
    | none => exact .inl (by rw [Callers.step, hreading])
    | some now =>
      have hlevel := (h.sane.acquireAt_level_iff (h.rate_eq ▸ hrate)
        (h.reading_le caller now hreading) want).mpr (horder now hreading)
      right
      rcases hanswer : s.limiter.acquireAt want now with ⟨wait | taken, limiter⟩ <;>
        rw [hanswer] at hlevel <;>
        simp only [Callers.step, hreading, hanswer] at hnonneg hburst ⊢
      · have hflow : limiter.refilled s.clock ≤ s.limiter.refilled s.clock := by
          simpa [Limiter.granted] using hlevel
        exact .tick le_rfl hnonneg hburst (by simpa [meter] using hflow)
      · exact .pass hnonneg hburst hlevel
  | giveBack bytes =>
    by_cases hheld : bytes ≤ s.held
    · rw [Callers.step, if_pos hheld] at hnonneg hburst ⊢
      exact .inr (.pass hnonneg hburst (s.limiter.giveBack_level bytes s.clock))
    · exact .inl (by rw [Callers.step, if_neg hheld])

/-- Where every `acquire` comes with a reading in order, in no window of time does more pass
than a burst and what the rate allows in it. -/
theorem passed_le_burst {rate : Nat} (hrate : 0 < rate) (clock : Nat)
    (calls : List (ShaperCall ι)) (horder : Along step InOrder (start rate clock) calls)
    {a b : Nat} (hwindow : a ≤ b) :
    passed (exec step (start rate clock) calls).log a b ≤ burst rate + secs (b - a) * rate := by
  let P (s : Callers ι) : Prop :=
    s.Sound rate ∧ s.meter.Sound (burst rate) (accrued rate)
  have hstart : P (start rate clock) :=
    ⟨.start rate clock, start_meter (ι := ι) rate clock ▸
      .start (accrued_mono rate) (burst_pos rate).le clock⟩
  have hstep (s : Callers ι) (call : ShaperCall ι) (h : P s) (hcall : s.InOrder call) :
      P (s.step call) := by
    refine ⟨h.1.step call, ?_⟩
    rcases h.1.step_meter hrate hcall with hsame | hmoved
    · exact hsame ▸ h.2
    · exact h.2.step (accrued_mono rate) hmoved
  have hrun : P (exec step (start rate clock) calls) := exec_invariant_along hstep horder hstart
  rw [secs_mul_rate hwindow]
  exact hrun.2.bounded a b hwindow

theorem passed_le_burst_returned :
    passed (exec step (start 65536 0) [.readClock false, .acquire false 4099, .giveBack 3,
      .tick 1000000000, .readClock true, .acquire true 20000]).log 0 1000000000 ≤
      burst 65536 + secs (1000000000 - 0) * (65536 : Nat) :=
  passed_le_burst (by decide) 0 _ (by decide +kernel) (by decide)

/-- A second after the start one caller empties the bucket, another takes the lock with a reading
from the start and sets the time stamp back, and the second is counted once more. -/
theorem not_bounded_setBack :
    ¬ ∀ (rate clock : Nat) (calls : List (ShaperCall Bool)) (s t : Nat), 0 < rate → s ≤ t →
      passed (exec step (start rate clock) calls).log s t ≤ burst rate + secs (t - s) * rate := by
  intro h
  have hwindow := h 65536 0 [.readClock false, .tick 1000000000, .readClock true,
    .acquire true 16384, .acquire false 16384, .readClock true, .acquire true 16384]
    1000000000 1000000000 (by decide) le_rfl
  revert hwindow
  decide +kernel

end Callers

end Tortor.Net
