import Tortor.Lib.Run

/-! What a run can still come to. -/

namespace Tortor.Lib

variable {State Input : Type} {step : State → Input → State} {C : State → Input → Prop}
  {P Q I : State → Prop} {s : State}

/-- Some run from `s` ends where `P` holds, and all its steps meet `C`. -/
def CanReach (step : State → Input → State) (C : State → Input → Prop) (P : State → Prop)
    (s : State) : Prop :=
  ∃ inputs, Along step C s inputs ∧ P (exec step s inputs)

namespace CanReach

theorem here (h : P s) : CanReach step C P s := ⟨[], trivial, h⟩

theorem next (input : Input) (hC : C s input) (h : CanReach step C P (step s input)) :
    CanReach step C P s := by
  obtain ⟨inputs, hinputs, hP⟩ := h
  exact ⟨input :: inputs, ⟨hC, hinputs⟩, hP⟩

theorem trans (h : CanReach step C Q s) (hnext : ∀ t, Q t → CanReach step C P t) :
    CanReach step C P s := by
  obtain ⟨inputs, hinputs, hQ⟩ := h
  obtain ⟨more, hmore, hP⟩ := hnext _ hQ
  refine ⟨inputs ++ more, (along_append s inputs more).mpr ⟨hinputs, hmore⟩, ?_⟩
  rwa [exec_append]

theorem mono (h : CanReach step C P s) (hPQ : ∀ t, P t → Q t) : CanReach step C Q s :=
  h.trans fun t ht => here (hPQ t ht)

theorem weaken {D : State → Input → Prop} (h : CanReach step C P s)
    (hstep : ∀ t input, I t → C t input → I (step t input) ∧ D t input) (hI : I s) :
    CanReach step D P s := by
  obtain ⟨inputs, hinputs, hP⟩ := h
  refine ⟨inputs, ?_, hP⟩
  clear hP
  induction inputs generalizing s with
  | nil => trivial
  | cons input inputs ih =>
    obtain ⟨hnext, hD⟩ := hstep s input hI hinputs.1
    exact ⟨hD, ih hnext hinputs.2⟩

theorem keeping (h : CanReach step C P s) (hstep : ∀ t input, I t → C t input → I (step t input))
    (hI : I s) : CanReach step C (fun t => I t ∧ P t) s := by
  obtain ⟨inputs, hinputs, hP⟩ := h
  exact ⟨inputs, hinputs, exec_invariant_along hstep hinputs hI, hP⟩

/-- As long as the measure can be made smaller, the run comes to where it is zero. -/
theorem descend (measure : State → Nat)
    (hless : ∀ t, I t → measure t ≠ 0 → CanReach step C (fun u => I u ∧ measure u < measure t) t)
    (hI : I s) : CanReach step C (fun t => I t ∧ measure t = 0) s := by
  induction hn : measure s using Nat.strongRecOn generalizing s with
  | ind n ih =>
    by_cases hzero : measure s = 0
    · exact here ⟨hI, hzero⟩
    · exact (hless s hI hzero).trans fun t ht => ih (measure t) (hn ▸ ht.2) ht.1 rfl

end CanReach
end Tortor.Lib
