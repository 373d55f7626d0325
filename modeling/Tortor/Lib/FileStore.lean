import Mathlib.Logic.Function.Basic

/-! Files whose bytes reach stable storage only when they are synced.  A store maps names
to files; what a crash leaves is the durable content. -/

namespace Tortor.Lib

structure Inode where
  len : Nat
  content : Nat → UInt8
  durable : Nat → UInt8
  /-- Which bytes a write has put there; no operation looks at it. -/
  written : Nat → Bool

namespace Inode

def empty : Inode := ⟨0, fun _ => 0, fun _ => 0, fun _ => false⟩

def setLen (self : Inode) (len : Nat) : Inode where
  len := len
  content y := if y < self.len ∧ y < len then self.content y else 0
  durable := self.durable
  written y := decide (y < self.len ∧ y < len) && self.written y

def writeAt (self : Inode) (pos : Nat) (data : List UInt8) : Inode where
  len := max self.len (pos + data.length)
  content y := if pos ≤ y ∧ y < pos + data.length then data.getD (y - pos) 0 else self.content y
  durable := self.durable
  written y := decide (pos ≤ y ∧ y < pos + data.length) || self.written y

def readAt (self : Inode) (pos len : Nat) : Option (List UInt8) :=
  if pos + len ≤ self.len then some ((List.range len).map fun j => self.content (pos + j)) else none

def sync (self : Inode) : Inode := { self with durable := self.content }

/-- What is left of the file after the machine has stopped. -/
def crash (self : Inode) : Inode := { self with content := self.durable }

/-- Before a run, what is durable counts as written, and nothing else does. -/
def atStart (self : Inode) : Inode :=
  { self with written := fun y => decide (self.durable y = self.content y) }

theorem length_readAt {self : Inode} {pos len : Nat} {data : List UInt8}
    (h : self.readAt pos len = some data) : data.length = len := by
  unfold readAt at h
  split at h
  · rw [← Option.some.inj h, List.length_map, List.length_range]
  · cases h

theorem getD_readAt {self : Inode} {pos len : Nat} {data : List UInt8}
    (h : self.readAt pos len = some data) {j : Nat} (hj : j < len) :
    data.getD j 0 = self.content (pos + j) := by
  unfold readAt at h
  split at h
  · rw [← Option.some.inj h]
    simp [List.getD_eq_getElem?_getD, List.getElem?_map, List.getElem?_range hj]
  · cases h

end Inode

abbrev FileStore (Name : Type) := Name → Option Inode

namespace FileStore

def atStart {Name : Type} (self : FileStore Name) : FileStore Name :=
  fun name => (self name).map Inode.atStart

theorem durable_of_atStart {Name : Type} {fs : FileStore Name} {name : Name} {inode : Inode}
    (h : fs.atStart name = some inode) {y : Nat} (hw : inode.written y = true) :
    inode.durable y = inode.content y := by
  obtain ⟨old, -, rfl⟩ := Option.map_eq_some_iff.mp h
  exact of_decide_eq_true hw

variable {Name : Type} [DecidableEq Name]

def set (self : FileStore Name) (name : Name) (inode : Option Inode) : FileStore Name :=
  Function.update self name inode

@[simp] theorem set_self (fs : FileStore Name) (name : Name) (inode : Option Inode) :
    fs.set name inode name = inode := Function.update_self ..

@[simp] theorem set_of_ne {name other : Name} (h : other ≠ name) (fs : FileStore Name)
    (inode : Option Inode) : fs.set name inode other = fs other := Function.update_of_ne h ..

end FileStore
end Tortor.Lib
