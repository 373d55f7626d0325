import Mathlib.Data.Finset.Sort
import Mathlib.Data.List.AList
import Mathlib.Data.List.MinMax
import Mathlib.Data.Prod.Lex
import Tortor.Core.Selection

namespace Tortor.Core

def MAX_ENDGAME_HOLDERS : Nat := 3

inductive PieceState
  | missing
  | downloading
  | downloaded
  deriving DecidableEq

structure TorrentManager where
  totalPieces : Nat
  missing : List Nat
  /-- Piece index -> number of peers currently downloading it. -/
  inProgress : AList (fun _ : Nat => Nat)
  completed : Finset Nat
  /-- Number of connected peers that advertise each piece. -/
  availability : List Nat
  missingDirty : Bool
  selection : Selection
  wantedTotal : Nat
  wantedCompleted : Nat

namespace TorrentManager

def countWanted (totalPieces : Nat) (selection : Selection) : Nat :=
  ((List.range totalPieces).filter selection.wanted.has).length

def countCompleted (completed : Finset Nat) (selection : Selection) : Nat :=
  (completed.filter fun piece => selection.wanted.has piece).card

def withSelection (totalPieces : Nat) (completedPieces : List Nat) (selection : Selection) :
    TorrentManager :=
  let completed := (completedPieces.filter (· < totalPieces)).toFinset
  { totalPieces := totalPieces
    missing := (List.range totalPieces).filter fun piece =>
      selection.wanted.has piece && decide (piece ∉ completed)
    inProgress := ∅
    completed := completed
    availability := List.replicate totalPieces 0
    missingDirty := false
    selection := selection
    wantedTotal := countWanted totalPieces selection
    wantedCompleted := countCompleted completed selection }

def isWanted (self : TorrentManager) (piece : Nat) : Bool := self.selection.wanted.has piece

def isCompleted (self : TorrentManager) (piece : Nat) : Bool := decide (piece ∈ self.completed)

/-- Completed and fully stored on disk, so it may be offered to other peers. -/
def isServable (self : TorrentManager) (piece : Nat) : Bool :=
  self.isCompleted piece && !self.selection.unservable.has piece

def completedPieces (self : TorrentManager) : List Nat := self.completed.sort (· ≤ ·)

def servablePieces (self : TorrentManager) : List Nat :=
  self.completedPieces.filter fun piece => !self.selection.unservable.has piece

/-- Best queue position so far with its availability, and how many ties it had. -/
structure Scan where
  best : Option (Nat × Nat)
  ties : Nat

/-- One round of the rarest-first scan.  `rng pos` is the number drawn when the entry at
`pos` ties with the best one; `gen_range(0..=ties)` reduces it. -/
def Scan.visit (availability : List Nat) (peerHas : Bitfield) (rng : Nat → Nat) (scan : Scan)
    (entry : Nat × Nat) : Scan :=
  let (piece, pos) := entry
  if !peerHas.has piece then scan
  else
    let avail := availability.getD piece 0
    match scan.best with
    | none => ⟨some (pos, avail), 0⟩
    | some (_, bestAvail) =>
      if bestAvail < avail then scan
      else if avail = bestAvail then
        let ties := scan.ties + 1
        if rng pos % (ties + 1) = 0 then ⟨some (pos, avail), ties⟩ else ⟨scan.best, ties⟩
      else ⟨some (pos, avail), 0⟩

def rarest (self : TorrentManager) (peerHas : Bitfield) (rng : Nat → Nat) : Option (Nat × Nat) :=
  (self.missing.zipIdx.foldl (Scan.visit self.availability peerHas rng) ⟨none, 0⟩).best

def clean (self : TorrentManager) : TorrentManager :=
  if self.missingDirty then
    { self with
      missing := self.missing.filter fun piece => decide (piece ∉ self.completed)
      missingDirty := false }
  else self

def endgameCandidate (self : TorrentManager) (peerHas : Bitfield) : Option Nat :=
  let shared := self.inProgress.entries.filter fun entry =>
    decide (entry.2 < MAX_ENDGAME_HOLDERS) && peerHas.has entry.1
  (shared.argmin fun entry => toLex (entry.2, entry.1)).map Sigma.fst

def nextWorkFor (self : TorrentManager) (peerHas : Bitfield) (rng : Nat → Nat) :
    Option Nat × TorrentManager :=
  let self := self.clean
  match self.rarest peerHas rng with
  | some (pos, _) =>
    match self.missing[pos]? with
    | none => (none, self)
    | some piece =>
      (some piece,
        { self with
          missing := self.missing.eraseIdx pos
          inProgress := self.inProgress.insert piece 1 })
  | none =>
    if !self.missing.isEmpty then (none, self)
    else match self.endgameCandidate peerHas with
      | none => (none, self)
      | some candidate =>
        match self.inProgress.lookup candidate with
        | none => (none, self)
        | some holders =>
          (some candidate,
            { self with inProgress := self.inProgress.insert candidate (holders + 1) })

def returnWork (self : TorrentManager) (piece : Nat) : TorrentManager :=
  match self.inProgress.lookup piece with
  | none => self
  | some holders =>
    if holders - 1 = 0 then
      let self := { self with inProgress := self.inProgress.erase piece }
      if !self.isCompleted piece && self.isWanted piece then
        { self with missing := self.missing ++ [piece] }
      else self
    else { self with inProgress := self.inProgress.insert piece (holders - 1) }

/-- Switches to a new file selection.  Pieces in `refetch` lose their completed state;
the index is cast to `u32` on the way. -/
def applySelection (self : TorrentManager) (selection : Selection) (refetch : Bitfield) :
    TorrentManager :=
  let completed := refetch.iterOnes.foldl (fun done piece => done.erase (piece % 2 ^ 32))
    self.completed
  { self with
    completed := completed
    selection := selection
    wantedTotal := countWanted self.totalPieces selection
    wantedCompleted := countCompleted completed selection
    missing := (List.range self.totalPieces).filter fun piece =>
      selection.wanted.has piece && decide (piece ∉ completed) &&
        (self.inProgress.lookup piece).isNone
    missingDirty := false }

def markCompleted (self : TorrentManager) (piece : Nat) : TorrentManager :=
  if self.totalPieces ≤ piece then self
  else
    let self := { self with inProgress := self.inProgress.erase piece }
    if piece ∈ self.completed then self
    else
      { self with
        completed := insert piece self.completed
        missingDirty := true
        wantedCompleted := self.wantedCompleted + if self.isWanted piece then 1 else 0 }

def saturatingSucc (n : Nat) : Nat := min (n + 1) (2 ^ 16 - 1)

def addPeerPieces (self : TorrentManager) (pieces : Bitfield) : TorrentManager :=
  { self with
    availability := pieces.iterOnes.foldl (fun slots i => slots.modify i saturatingSucc)
      self.availability }

def removePeerPieces (self : TorrentManager) (pieces : Bitfield) : TorrentManager :=
  { self with
    availability := pieces.iterOnes.foldl (fun slots i => slots.modify i Nat.pred)
      self.availability }

def addPeerPiece (self : TorrentManager) (index : Nat) : TorrentManager :=
  { self with availability := self.availability.modify index saturatingSucc }

/-- The method `availability`, whose name the field has taken here. -/
def availabilityOf (self : TorrentManager) (index : Nat) : Nat := self.availability.getD index 0

def isDone (self : TorrentManager) : Bool := self.wantedCompleted == self.wantedTotal

def pieceState (self : TorrentManager) (piece : Nat) : Option PieceState :=
  if self.totalPieces ≤ piece then none
  else if self.isCompleted piece then some .downloaded
  else if (self.inProgress.lookup piece).isSome then some .downloading
  else some .missing

end TorrentManager
end Tortor.Core
