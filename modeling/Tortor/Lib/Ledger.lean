/-! The books on something that several parties work on until it is done: how often it is
reserved, and how many claims the parties hold. -/

namespace Tortor.Lib

structure Ledger where
  done : Bool
  reserved : Nat
  held : Nat

namespace Ledger

/-- Which of the moves that upset the books may happen. -/
structure Rules where
  Take : Prop
  Lose : Prop
  Reopen : Prop

inductive Move (r : Rules) (a : Ledger) : Ledger → Prop
  | still : Move r a a
  | take (open_eq : a.done = false) (may : r.Take) :
      Move r a { a with reserved := a.reserved + 1, held := a.held + 1 }
  | giveBack {held : Nat} (held_eq : held + 1 = a.held) :
      Move r a { a with reserved := a.reserved - 1, held := held }
  | settle {held : Nat} (held_le : held ≤ a.held) : Move r a ⟨true, 0, held⟩
  | lose {held : Nat} (held_le : held ≤ a.held) (may : r.Lose) : Move r a { a with held := held }
  | reopen (may : r.Reopen) : Move r a { a with done := false }

def Settled (a : Ledger) : Prop := a.done = true → a.reserved = 0

/-- As long as it is not done, every claim is a reservation and the other way round. -/
def Exact (a : Ledger) : Prop := a.done = false → a.reserved = a.held

def Covered (a : Ledger) : Prop := a.reserved ≤ a.held

variable {r : Rules} {a b : Ledger}

theorem Move.exact (h : Move r a b) (hsettled : a.Settled) (hexact : a.Exact)
    (hlose : r.Lose → a.done = true) (hreopen : r.Reopen → a.held = 0) : b.Exact := by
  cases h with
  | still => exact hexact
  | take hopen =>
    intro _
    exact congrArg (· + 1) (hexact hopen)
  | giveBack hheld =>
    intro hopen
    have heq := hexact hopen
    dsimp only
    omega
  | settle => exact nofun
  | lose _ may =>
    intro hopen
    exact absurd (hopen.symm.trans (hlose may)) nofun
  | reopen may =>
    intro _
    change a.reserved = a.held
    cases hdone : a.done with
    | false => exact hexact hdone
    | true => rw [hsettled hdone, hreopen may]

theorem Move.covered (h : Move r a b) (hsettled : a.Settled) (hcovered : a.Covered)
    (hlose : r.Lose → a.done = true) : b.Covered := by
  cases h with
  | still => exact hcovered
  | take => exact Nat.succ_le_succ hcovered
  | giveBack hheld =>
    unfold Covered at hcovered ⊢
    dsimp only
    omega
  | settle => exact Nat.zero_le _
  | lose _ may =>
    unfold Covered
    rw [show a.reserved = 0 from hsettled (hlose may)]
    exact Nat.zero_le _
  | reopen => exact hcovered

theorem Move.held_le (h : Move r a b) (htake : ¬ r.Take) : b.held ≤ a.held := by
  cases h with
  | still => exact Nat.le_refl _
  | take _ may => exact absurd may htake
  | giveBack hheld => exact hheld ▸ Nat.le_succ _
  | settle hle => exact hle
  | lose hle => exact hle
  | reopen => exact Nat.le_refl _

theorem Move.reserved_le (h : Move r a b) (htake : ¬ r.Take) : b.reserved ≤ a.reserved := by
  cases h with
  | still | lose | reopen => exact Nat.le_refl _
  | take _ may => exact absurd may htake
  | giveBack => exact Nat.sub_le ..
  | settle => exact Nat.zero_le _

/-- Fewer than `limit` reservations are not backed by a claim, or nothing is left to be done. -/
def Free (limit : Nat) (a : Ledger) : Prop := a.done = true ∨ a.reserved < limit + a.held

theorem Move.free (h : Move r a b) {limit : Nat} (hlimit : 0 < limit) (hfree : a.Free limit)
    (hlose : ¬ r.Lose) (hreopen : ¬ r.Reopen) : b.Free limit := by
  cases h with
  | still => exact hfree
  | take hopen =>
    refine .inr ?_
    have hlt := hfree.resolve_left (by rw [hopen]; rintro ⟨⟩)
    dsimp only
    omega
  | giveBack hheld =>
    refine hfree.imp_right fun hlt => ?_
    dsimp only
    omega
  | settle => exact .inl rfl
  | lose _ may => exact absurd may hlose
  | reopen may => exact absurd may hreopen

end Ledger
end Tortor.Lib
