/-! Runs of a deterministic step function over a list of inputs, and the one induction
every invariant below goes through.  A step that is not enabled leaves the state alone,
so every list of inputs is a run. -/

namespace Tortor.Lib

universe u v w

variable {State : Type u} {Input : Type v}

def exec (step : State → Input → State) (s : State) (inputs : List Input) : State :=
  inputs.foldl step s

/-- In this run the input came to this state. -/
def Comes (step : State → Input → State) (start : State) (inputs : List Input) (s : State)
    (i : Input) : Prop :=
  ∃ k, inputs[k]? = some i ∧ s = exec step start (inputs.take k)

/-- Every step of the run meets `C` in the state it is taken from. -/
def Along (step : State → Input → State) (C : State → Input → Prop) : State → List Input → Prop
  | _, [] => True
  | s, i :: is => C s i ∧ Along step C (step s i) is

instance Along.decidable (step : State → Input → State) (C : State → Input → Prop)
    [∀ s i, Decidable (C s i)] : ∀ s inputs, Decidable (Along step C s inputs)
  | _, [] => isTrue trivial
  | s, i :: is =>
    have := Along.decidable step C (step s i) is
    inferInstanceAs (Decidable (C s i ∧ Along step C (step s i) is))

variable {step : State → Input → State} {C : State → Input → Prop} {P : State → Prop}

@[simp] theorem exec_nil (s : State) : exec step s [] = s := rfl

@[simp] theorem exec_cons (s : State) (i : Input) (is : List Input) :
    exec step s (i :: is) = exec step (step s i) is := rfl

theorem exec_append (s : State) (is js : List Input) :
    exec step s (is ++ js) = exec step (exec step s is) js := List.foldl_append

theorem along_append (s : State) (is js : List Input) :
    Along step C s (is ++ js) ↔ Along step C s is ∧ Along step C (exec step s is) js := by
  induction is generalizing s with
  | nil => simp [Along]
  | cons i is ih => simp [Along, ih, and_assoc]

theorem Along.mono {D : State → Input → Prop} (h : ∀ s i, C s i → D s i) {s : State}
    {is : List Input} (hs : Along step C s is) : Along step D s is := by
  induction is generalizing s with
  | nil => trivial
  | cons i is ih => exact ⟨h s i hs.1, ih hs.2⟩

theorem Along.and {D : State → Input → Prop} {s : State} {is : List Input}
    (hC : Along step C s is) (hD : Along step D s is) :
    Along step (fun s i => C s i ∧ D s i) s is := by
  induction is generalizing s with
  | nil => trivial
  | cons i is ih => exact ⟨⟨hC.1, hD.1⟩, ih hC.2 hD.2⟩

/-- An invariant that every step meeting `C` keeps holds after every run along `C`. -/
theorem exec_invariant_along (hstep : ∀ s i, P s → C s i → P (step s i)) {s : State}
    {is : List Input} (hC : Along step C s is) (hs : P s) : P (exec step s is) := by
  induction is generalizing s with
  | nil => exact hs
  | cons i is ih => exact ih hC.2 (hstep s i hs hC.1)

theorem along_true (s : State) (is : List Input) : Along step (fun _ _ => True) s is := by
  induction is generalizing s with
  | nil => trivial
  | cons i is ih => exact ⟨trivial, ih _⟩

theorem along_of_forall {D : Input → Prop} {is : List Input} (h : ∀ i ∈ is, D i) (s : State) :
    Along step (fun _ => D) s is := by
  induction is generalizing s with
  | nil => trivial
  | cons i is ih =>
    exact ⟨h i List.mem_cons_self, ih (fun j hj => h j (List.mem_cons_of_mem i hj)) _⟩

theorem Comes.mem {start s : State} {inputs : List Input} {i : Input}
    (h : Comes step start inputs s i) : i ∈ inputs :=
  let ⟨_, hk, _⟩ := h
  List.mem_of_getElem? hk

theorem exec_invariant (hstep : ∀ s i, P s → P (step s i)) {s : State} (is : List Input)
    (hs : P s) : P (exec step s is) :=
  exec_invariant_along (fun s i h _ => hstep s i h) (along_true s is) hs

/-- What a log holds after a run: what it held before, and what each step added in the state it
was taken from. -/
theorem mem_log_exec {Entry : Type w} {log : State → List Entry} {adds : State → Input → List Entry}
    (hstep : ∀ s i, log (step s i) = log s ++ adds s i) {s : State} {is : List Input} {e : Entry} :
    e ∈ log (exec step s is) ↔
      e ∈ log s ∨ ∃ k i, is[k]? = some i ∧ e ∈ adds (exec step s (is.take k)) i := by
  induction is generalizing s with
  | nil => simp
  | cons i is ih =>
    rw [exec_cons, ih, hstep, List.mem_append, or_assoc]
    refine or_congr_right ⟨?_, ?_⟩
    · rintro (hhead | ⟨k, j, hj, he⟩)
      · exact ⟨0, i, rfl, hhead⟩
      · exact ⟨k + 1, j, hj, he⟩
    · rintro ⟨k, j, hj, he⟩
      cases k with
      | zero =>
        cases hj
        exact .inl he
      | succ k => exact .inr ⟨k, j, hj, he⟩

/-- Two conditions that agree wherever the run comes along the first one. -/
theorem along_iff {D : State → Input → Prop} {is : List Input}
    (hiff : ∀ s, ∀ i ∈ is, P s → (C s i ↔ D s i))
    (hstep : ∀ s, ∀ i ∈ is, P s → C s i → P (step s i)) {s : State} (hs : P s) :
    Along step C s is ↔ Along step D s is := by
  induction is generalizing s with
  | nil => exact Iff.rfl
  | cons i is ih =>
    have hrest (hc : C s i) := ih (fun s j hj => hiff s j (List.mem_cons_of_mem i hj))
      (fun s j hj => hstep s j (List.mem_cons_of_mem i hj)) (hstep s i List.mem_cons_self hs hc)
    have hhead := hiff s i List.mem_cons_self hs
    exact ⟨fun h => ⟨hhead.mp h.1, (hrest h.1).mp h.2⟩,
      fun h => ⟨hhead.mpr h.1, (hrest (hhead.mpr h.1)).mpr h.2⟩⟩

theorem forall_take_iff {s : State} {is : List Input} (hs : P s) :
    (∀ k, P (exec step s (is.take k))) ↔ Along step (fun s i => P (step s i)) s is := by
  induction is generalizing s with
  | nil => exact ⟨fun _ => trivial, fun _ k => by rw [List.take_nil]; exact hs⟩
  | cons i is ih =>
    constructor
    · intro hall
      have hnext : P (step s i) := by simpa using hall 1
      exact ⟨hnext, (ih hnext).mp fun k => hall (k + 1)⟩
    · rintro ⟨hnext, hrest⟩ k
      cases k with
      | zero => exact hs
      | succ k => exact (ih hnext).mpr hrest k

end Tortor.Lib
