import Mathlib.Algebra.BigOperators.Group.List.Basic
import Mathlib.Algebra.Order.Group.Defs
import Mathlib.Tactic.Abel
import Mathlib.Tactic.GCongr

/-! A meter that allowance flows into as time goes by and that spending empties.  In no window
of time does more pass than the meter can hold and what flowed in meanwhile. -/

namespace Tortor.Lib

universe u v

variable {Time : Type u} {K : Type v}

structure Meter (Time : Type u) (K : Type v) where
  clock : Time
  level : K
  /-- What passed and when, the latest first. -/
  log : List (Time × K)

section

variable [LinearOrder Time] [AddCommGroup K]

def passed (log : List (Time × K)) (s t : Time) : K :=
  ((log.filter fun e => decide (s ≤ e.1 ∧ e.1 ≤ t)).map Prod.snd).sum

@[simp] theorem passed_nil (s t : Time) : passed ([] : List (Time × K)) s t = 0 := rfl

variable {log : List (Time × K)} {s t c : Time}

theorem passed_cons_of_mem (amount : K) (hs : s ≤ c) (ht : c ≤ t) :
    passed ((c, amount) :: log) s t = amount + passed log s t := by
  simp [passed, hs, ht]

theorem passed_cons_of_not_mem (amount : K) (h : ¬ (s ≤ c ∧ c ≤ t)) :
    passed ((c, amount) :: log) s t = passed log s t := by
  rw [passed, List.filter_cons_of_neg (by simpa using h), passed]

theorem passed_of_before (h : ∀ e ∈ log, e.1 < s) : passed log s t = 0 := by
  have hnone : (log.filter fun e => decide (s ≤ e.1 ∧ e.1 ≤ t)) = [] := by
    rw [List.filter_eq_nil_iff]
    intro e he
    simp [(h e he).not_ge]
  rw [passed, hnone, List.map_nil, List.sum_nil]

/-- A window that lasts beyond the log is as good as one that ends with it. -/
theorem passed_of_past (h : ∀ e ∈ log, e.1 ≤ c) (hct : c ≤ t) :
    passed log s t = passed log s c := by
  have hsame : (log.filter fun e => decide (s ≤ e.1 ∧ e.1 ≤ t)) =
      log.filter fun e => decide (s ≤ e.1 ∧ e.1 ≤ c) := by
    apply List.filter_congr
    intro e he
    simp [h e he, (h e he).trans hct]
  rw [passed, hsame, passed]

end

namespace Meter

variable [LinearOrder Time] [AddCommGroup K] [LinearOrder K] [IsOrderedAddMonoid K]
  {cap : K} {accrued : Time → K} {m m' : Meter Time K}

/-- Time passes and allowance flows in, or an amount passes; an amount below zero comes back. -/
inductive Step (cap : K) (accrued : Time → K) (m : Meter Time K) : Meter Time K → Prop
  | tick {c : Time} {level : K} (clock_le : m.clock ≤ c) (nonneg : 0 ≤ level)
      (level_le : level ≤ cap) (flow : level ≤ m.level + (accrued c - accrued m.clock)) :
      Step cap accrued m { m with clock := c, level }
  | pass {amount level : K} (nonneg : 0 ≤ level) (level_le : level ≤ cap)
      (spent : amount + level ≤ m.level) :
      Step cap accrued m { m with level, log := (m.clock, amount) :: m.log }

/-- No window up to now has let pass more than it may, the level counted in. -/
structure Sound (cap : K) (accrued : Time → K) (m : Meter Time K) : Prop where
  nonneg : 0 ≤ m.level
  level_le : m.level ≤ cap
  past : ∀ e ∈ m.log, e.1 ≤ m.clock
  since : ∀ s ≤ m.clock,
    passed m.log s m.clock + m.level ≤ cap + (accrued m.clock - accrued s)
  bounded : ∀ s t, s ≤ t → passed m.log s t ≤ cap + (accrued t - accrued s)

theorem Sound.start (hmono : Monotone accrued) (hcap : 0 ≤ cap) (c : Time) :
    (⟨c, cap, []⟩ : Meter Time K).Sound cap accrued where
  nonneg := hcap
  level_le := le_rfl
  past := by simp
  since s hs := by simpa using hmono hs
  bounded s t hst := by
    rw [passed_nil]
    exact add_nonneg hcap (sub_nonneg.mpr (hmono hst))

theorem Sound.tick (h : m.Sound cap accrued) (hmono : Monotone accrued) {c : Time} {level : K}
    (hclock : m.clock ≤ c) (hnonneg : 0 ≤ level) (hlevel : level ≤ cap)
    (hflow : level ≤ m.level + (accrued c - accrued m.clock)) :
    ({ m with clock := c, level } : Meter Time K).Sound cap accrued where
  nonneg := hnonneg
  level_le := hlevel
  past e he := (h.past e he).trans hclock
  since s hs := by
    rcases le_or_gt s m.clock with hle | hgt
    · calc passed m.log s c + level = passed m.log s m.clock + level := by
            rw [passed_of_past h.past hclock]
        _ ≤ passed m.log s m.clock + (m.level + (accrued c - accrued m.clock)) := by gcongr
        _ = passed m.log s m.clock + m.level + (accrued c - accrued m.clock) := by abel
        _ ≤ cap + (accrued m.clock - accrued s) + (accrued c - accrued m.clock) :=
            add_le_add (h.since s hle) le_rfl
        _ = cap + (accrued c - accrued s) := by abel
    · change passed m.log s c + level ≤ cap + (accrued c - accrued s)
      rw [passed_of_before fun e he => (h.past e he).trans_lt hgt, zero_add]
      exact hlevel.trans (le_add_of_nonneg_right (sub_nonneg.mpr (hmono hs)))
  bounded := h.bounded

theorem Sound.pass (h : m.Sound cap accrued) (hmono : Monotone accrued) {amount level : K}
    (hnonneg : 0 ≤ level) (hlevel : level ≤ cap) (hspent : amount + level ≤ m.level) :
    ({ m with level, log := (m.clock, amount) :: m.log } : Meter Time K).Sound cap accrued := by
  have hsince : ∀ s ≤ m.clock, passed ((m.clock, amount) :: m.log) s m.clock + level ≤
      cap + (accrued m.clock - accrued s) := by
    intro s hs
    calc passed ((m.clock, amount) :: m.log) s m.clock + level
        = passed m.log s m.clock + (amount + level) := by
          rw [passed_cons_of_mem amount hs le_rfl]
          abel
      _ ≤ passed m.log s m.clock + m.level := by gcongr
      _ ≤ cap + (accrued m.clock - accrued s) := h.since s hs
  have hpast : ∀ e ∈ (m.clock, amount) :: m.log, e.1 ≤ m.clock := by
    simpa using h.past
  refine ⟨hnonneg, hlevel, hpast, hsince, ?_⟩
  intro s t hst
  by_cases hin : s ≤ m.clock ∧ m.clock ≤ t
  · calc passed ((m.clock, amount) :: m.log) s t
        = passed ((m.clock, amount) :: m.log) s m.clock := passed_of_past hpast hin.2
      _ ≤ passed ((m.clock, amount) :: m.log) s m.clock + level :=
          le_add_of_nonneg_right hnonneg
      _ ≤ cap + (accrued m.clock - accrued s) := hsince s hin.1
      _ ≤ cap + (accrued t - accrued s) := by
          gcongr
          exact hmono hin.2
  · change passed ((m.clock, amount) :: m.log) s t ≤ cap + (accrued t - accrued s)
    rw [passed_cons_of_not_mem amount hin]
    exact h.bounded s t hst

theorem Sound.step (h : m.Sound cap accrued) (hmono : Monotone accrued)
    (hstep : Step cap accrued m m') : m'.Sound cap accrued := by
  cases hstep with
  | tick hclock hnonneg hlevel hflow => exact h.tick hmono hclock hnonneg hlevel hflow
  | pass hnonneg hlevel hspent => exact h.pass hmono hnonneg hlevel hspent

end Meter

end Tortor.Lib
