import Mathlib.Logic.Function.Basic
import Mathlib.Tactic.Common

/-! Names that point to inodes.  A rename is one change of the names; the names on stable storage
may be those of any earlier moment, and so may the data of an inode that was not synced. -/

namespace Tortor.Lib

structure Node where
  content : List UInt8
  synced : Bool
  deriving DecidableEq

/-- Bytes between the end of the file and `pos` read as zeros. -/
def overlay (content : List UInt8) (pos : Nat) (data : List UInt8) : List UInt8 :=
  content.take pos ++ List.replicate (pos - content.length) 0 ++ data ++
    content.drop (pos + data.length)

theorem overlay_length {content : List UInt8} {pos : Nat} (h : content.length = pos)
    (data : List UInt8) : overlay content pos data = content ++ data := by
  subst h
  simp [overlay]

structure Directory (Name : Type) where
  names : Name → Option Nat
  nodes : Nat → Node
  next : Nat
  /-- What the names were before, the last change first. -/
  past : List (Name → Option Nat)

namespace Directory

variable {Name : Type}

def read (d : Directory Name) (name : Name) : Option (List UInt8) :=
  (d.names name).map fun i => (d.nodes i).content

def relink (d : Directory Name) (names : Name → Option Nat) : Directory Name :=
  { d with names := names, past := d.names :: d.past }

def create [DecidableEq Name] (d : Directory Name) (name : Name) : Nat × Directory Name :=
  match d.names name with
  | some i => (i, { d with nodes := Function.update d.nodes i ⟨[], false⟩ })
  | none =>
    (d.next,
      { d with
        nodes := Function.update d.nodes d.next ⟨[], false⟩
        next := d.next + 1 }.relink (Function.update d.names name (some d.next)))

def write (d : Directory Name) (i pos : Nat) (data : List UInt8) : Directory Name :=
  { d with nodes := Function.update d.nodes i ⟨overlay (d.nodes i).content pos data, false⟩ }

def sync (d : Directory Name) (i : Nat) : Directory Name :=
  { d with nodes := Function.update d.nodes i ⟨(d.nodes i).content, true⟩ }

def rename [DecidableEq Name] (d : Directory Name) (src dst : Name) : Option (Directory Name) :=
  match d.names src with
  | none => none
  | some i => some (d.relink (Function.update (Function.update d.names dst (some i)) src none))

def remove [DecidableEq Name] (d : Directory Name) (name : Name) : Directory Name :=
  d.relink (Function.update d.names name none)

/-- What the machine may come up with after it has stopped. -/
structure Crash (d after : Directory Name) : Prop where
  names_mem : after.names ∈ d.names :: d.past
  content_eq : ∀ i, (d.nodes i).synced → (after.nodes i).content = (d.nodes i).content

def Led (d : Directory Name) (name : Name) (i : Nat) : Prop :=
  ∃ names ∈ d.names :: d.past, names name = some i

/-- Whatever a name has led to is on stable storage, and is what `P` allows. -/
structure Sealed (d : Directory Name) (name : Name) (P : Option (List UInt8) → Prop) : Prop where
  absent : ∀ names ∈ d.names :: d.past, names name = none → P none
  synced : ∀ i, d.Led name i → (d.nodes i).synced = true
  allowed : ∀ i, d.Led name i → P (some (d.nodes i).content)

variable {d : Directory Name} {name other : Name} {P Q : Option (List UInt8) → Prop} {i : Nat}

theorem led_of_names (h : d.names name = some i) : d.Led name i := ⟨_, List.mem_cons_self, h⟩

theorem Sealed.read (h : d.Sealed name P) : P (d.read name) := by
  unfold Directory.read
  cases hn : d.names name with
  | none => exact h.absent _ List.mem_cons_self hn
  | some i => exact h.allowed i (led_of_names hn)

/-- A crash leaves nothing under the name but what is allowed. -/
theorem Sealed.crash {after : Directory Name} (h : d.Sealed name P) (hcrash : d.Crash after) :
    P (after.read name) := by
  unfold Directory.read
  cases hn : after.names name with
  | none => exact h.absent _ hcrash.names_mem hn
  | some i =>
    have hled : d.Led name i := ⟨_, hcrash.names_mem, hn⟩
    rw [Option.map_some, hcrash.content_eq i (h.synced i hled)]
    exact h.allowed i hled

theorem Sealed.mono (h : d.Sealed name P) (hPQ : ∀ c, P c → Q c) : d.Sealed name Q where
  absent names hm hn := hPQ _ (h.absent names hm hn)
  synced := h.synced
  allowed i hi := hPQ _ (h.allowed i hi)

theorem led_relink {names : Name → Option Nat} :
    (d.relink names).Led name i ↔ names name = some i ∨ d.Led name i := by
  simp [Led, relink]

theorem led_relink_of_eq {names : Name → Option Nat} (hsame : names name = d.names name) :
    (d.relink names).Led name i ↔ d.Led name i := by
  rw [led_relink, hsame]
  exact ⟨fun h => h.elim led_of_names id, .inr⟩

theorem Sealed.relink (h : d.Sealed name P) {names : Name → Option Nat}
    (hsame : names name = d.names name) : (d.relink names).Sealed name P := by
  refine ⟨fun v hv hn => ?_, fun i hi => h.synced i ((led_relink_of_eq hsame).mp hi),
    fun i hi => h.allowed i ((led_relink_of_eq hsame).mp hi)⟩
  rcases List.mem_cons.mp hv with rfl | hv
  · exact h.absent d.names List.mem_cons_self (hsame.symm.trans hn)
  · exact h.absent v hv hn

theorem Sealed.update (h : d.Sealed name P) (hfree : ¬ d.Led name i) (node : Node) (next : Nat) :
    { d with nodes := Function.update d.nodes i node, next := next }.Sealed name P := by
  have hne {j : Nat} (hj : d.Led name j) : j ≠ i := fun he => hfree (he ▸ hj)
  refine ⟨h.absent, fun j hj => ?_, fun j hj => ?_⟩
  · simp only [Function.update_of_ne (hne hj)]
    exact h.synced j hj
  · simp only [Function.update_of_ne (hne hj)]
    exact h.allowed j hj

theorem Sealed.create [DecidableEq Name] (h : d.Sealed name P) (hne : other ≠ name)
    (hfree : ¬ d.Led name (d.create other).1) : (d.create other).2.Sealed name P := by
  unfold Directory.create at hfree ⊢
  cases hn : d.names other with
  | some i =>
    rw [hn] at hfree
    exact h.update hfree _ _
  | none =>
    rw [hn] at hfree
    exact (h.update hfree _ _).relink (Function.update_of_ne hne.symm _ _)

theorem led_create [DecidableEq Name] (hne : other ≠ name) :
    (d.create other).2.Led name i ↔ d.Led name i := by
  unfold Directory.create
  cases d.names other with
  | some i => exact Iff.rfl
  | none => exact led_relink_of_eq (Function.update_of_ne hne.symm _ _)

theorem names_create_self [DecidableEq Name] :
    (d.create name).2.names name = some (d.create name).1 := by
  unfold Directory.create
  cases hn : d.names name with
  | some i => exact hn
  | none => exact Function.update_self _ _ _

theorem nodes_create_self [DecidableEq Name] :
    (d.create name).2.nodes (d.create name).1 = ⟨[], false⟩ := by
  unfold Directory.create
  cases d.names name <;> exact Function.update_self _ _ _

theorem Sealed.remove [DecidableEq Name] (h : d.Sealed name P) (hne : other ≠ name) :
    (d.remove other).Sealed name P :=
  h.relink (Function.update_of_ne hne.symm _ _)

theorem led_remove [DecidableEq Name] (hne : other ≠ name) :
    (d.remove other).Led name i ↔ d.Led name i :=
  led_relink_of_eq (Function.update_of_ne hne.symm _ _)

def Known (d : Directory Name) : Prop := ∀ name i, d.Led name i → i < d.next

theorem Known.create [DecidableEq Name] (h : d.Known) (name : Name) :
    (d.create name).2.Known ∧ (d.create name).1 < (d.create name).2.next ∧
      d.next ≤ (d.create name).2.next := by
  unfold Directory.create
  cases hn : d.names name with
  | some i => exact ⟨h, h name i (led_of_names hn), Nat.le_refl _⟩
  | none =>
    refine ⟨fun name' i hi => ?_, Nat.lt_succ_self _, Nat.le_succ _⟩
    rcases led_relink.mp hi with hi | hi
    · by_cases he : name' = name
      · subst he
        rw [Function.update_self] at hi
        cases hi
        exact Nat.lt_succ_self _
      · rw [Function.update_of_ne he] at hi
        exact Nat.lt_succ_of_lt (h name' i (led_of_names hi))
    · exact Nat.lt_succ_of_lt (h name' i hi)

theorem Known.relink (h : d.Known) {names : Name → Option Nat}
    (hold : ∀ name i, names name = some i → ∃ name', d.names name' = some i) :
    (d.relink names).Known := by
  intro name i hi
  rcases led_relink.mp hi with hn | hi
  · obtain ⟨name', hn'⟩ := hold name i hn
    exact h name' i (led_of_names hn')
  · exact h name i hi

theorem Known.remove [DecidableEq Name] (h : d.Known) (name : Name) : (d.remove name).Known := by
  refine h.relink fun name' i hn => ⟨name', ?_⟩
  by_cases he : name' = name
  · subst he
    rw [Function.update_self] at hn
    cases hn
  · rwa [Function.update_of_ne he] at hn

theorem rename_eq [DecidableEq Name] {after : Directory Name}
    (hrename : d.rename other name = some after) : ∃ i, d.names other = some i ∧
      after = d.relink (Function.update (Function.update d.names name (some i)) other none) := by
  unfold Directory.rename at hrename
  split at hrename
  · cases hrename
  · cases hrename
    exact ⟨_, ‹_›, rfl⟩

theorem Known.rename [DecidableEq Name] (h : d.Known) {after : Directory Name}
    (hrename : d.rename other name = some after) : after.Known := by
  obtain ⟨i, hi, rfl⟩ := rename_eq hrename
  refine h.relink fun name' j hn => ?_
  by_cases he : name' = other
  · subst he
    rw [Function.update_self] at hn
    cases hn
  · rw [Function.update_of_ne he] at hn
    by_cases hen : name' = name
    · subst hen
      rw [Function.update_self] at hn
      exact ⟨other, hi.trans hn⟩
    · rw [Function.update_of_ne hen] at hn
      exact ⟨name', hn⟩

theorem led_rename [DecidableEq Name] {after : Directory Name}
    (hrename : d.rename other name = some after) (hne : other ≠ name) :
    after.Led name i ↔ d.names other = some i ∨ d.Led name i := by
  obtain ⟨j, hj, rfl⟩ := rename_eq hrename
  rw [led_relink, Function.update_of_ne hne.symm, Function.update_self, hj]

theorem Sealed.rename [DecidableEq Name] (h : d.Sealed name P) {after : Directory Name}
    (hrename : d.rename other name = some after) (hne : other ≠ name)
    (hnew : ∀ i, d.names other = some i →
      (d.nodes i).synced = true ∧ P (some (d.nodes i).content)) : after.Sealed name P := by
  have hled {j : Nat} (hj : after.Led name j) : d.names other = some j ∨ d.Led name j :=
    (led_rename hrename hne).mp hj
  obtain ⟨i, hi, rfl⟩ := rename_eq hrename
  refine ⟨fun v hv hn => ?_, fun j hj => ?_, fun j hj => ?_⟩
  · rcases List.mem_cons.mp hv with rfl | hv
    · simp [Directory.relink, hne.symm] at hn
    · exact h.absent v hv hn
  · exact (hled hj).elim (fun hn => (hnew j hn).1) (h.synced j)
  · exact (hled hj).elim (fun hn => (hnew j hn).2) (h.allowed j)

end Directory
end Tortor.Lib
