import Tortor.Core.MetadataAssembler
import Tortor.Lib.Run
import Tortor.Lib.Tiling

/-! The metadata put together from pieces that come in any order, any number of times, between
pieces that fit nowhere. -/

namespace Tortor.Core

open Tortor.Lib

namespace MetadataAssembler

variable {s t : MetadataAssembler} {info : List UInt8}

/-- A call of `add_piece`; one that fails leaves the assembler alone. -/
def add (s : MetadataAssembler) (c : Nat × List UInt8) : MetadataAssembler :=
  match s.addPiece c.1 c.2 with
  | .ok (_, t) => t
  | .error _ => s

def Takes (s : MetadataAssembler) (c : Nat × List UInt8) : Prop :=
  ∃ answer, s.addPiece c.1 c.2 = .ok answer

instance (s : MetadataAssembler) (c : Nat × List UInt8) : Decidable (s.Takes c) :=
  match h : s.addPiece c.1 c.2 with
  | .ok answer => .isTrue ⟨answer, h⟩
  | .error _ => .isFalse fun ⟨_, hok⟩ => nomatch h.symm.trans hok

def Carries (info : List UInt8) (s : MetadataAssembler) (c : Nat × List UInt8) : Prop :=
  s.Takes c → c.2 = slice info c.1

instance (info : List UInt8) (s : MetadataAssembler) (c : Nat × List UInt8) :
    Decidable (Carries info s c) :=
  inferInstanceAs (Decidable (_ → _))

theorem length_slice (info : List UInt8) (piece : Nat) :
    (slice info piece).length = min PIECE_SIZE (info.length - piece * PIECE_SIZE) := by
  rw [slice, List.length_take, List.length_drop]

theorem sum_slices (info : List UInt8) :
    ((List.range (pieceCount info.length)).map fun piece => (slice info piece).length).sum =
      info.length := by
  have hcount : pieceCount info.length * PIECE_SIZE < info.length + PIECE_SIZE := by
    unfold pieceCount PIECE_SIZE
    omega
  have hcover : min (pieceCount info.length * PIECE_SIZE) info.length = info.length := by
    unfold pieceCount PIECE_SIZE
    omega
  have hsum := (Tiling.chunks PIECE_SIZE info.length _ hcount).add_sum
  rw [hcover, Nat.zero_add] at hsum
  simp only [length_slice]
  exact hsum

theorem takes_iff (hsize : s.metadataSize = info.length)
    (htotal : s.totalPieces = pieceCount info.length) (c : Nat × List UInt8) :
    s.Takes c ↔ c.1 < pieceCount info.length ∧ c.2.length = (slice info c.1).length := by
  have hlen : min (c.1 * PIECE_SIZE + PIECE_SIZE) info.length - c.1 * PIECE_SIZE =
      (slice info c.1).length := by
    rw [length_slice]
    omega
  rw [Takes, addPiece, htotal, hsize]
  simp only [hlen]
  split
  case isTrue hout =>
    refine iff_of_false ?_ fun h => absurd h.1 (Nat.not_lt.mpr hout)
    rintro ⟨answer, hok⟩
    cases hok
  case isFalse hin =>
    split
    case isTrue hother =>
      refine iff_of_false ?_ fun h => absurd h.2 hother
      rintro ⟨answer, hok⟩
      cases hok
    case isFalse hsame => exact iff_of_true ⟨_, rfl⟩ ⟨Nat.not_le.mp hin, not_not.mp hsame⟩

theorem fails_iff (hsize : s.metadataSize = info.length)
    (htotal : s.totalPieces = pieceCount info.length) (piece : Nat) (data : List UInt8) :
    (∃ text, s.addPiece piece data = .error text) ↔
      pieceCount info.length ≤ piece ∨ data.length ≠ (slice info piece).length := by
  have htakes := takes_iff hsize htotal (piece, data)
  rw [← Nat.not_lt, ← not_and_or, ← htakes, Takes]
  cases s.addPiece piece data with
  | error text => exact iff_of_true ⟨text, rfl⟩ nofun
  | ok answer => exact iff_of_false nofun fun h => h ⟨answer, rfl⟩

theorem add_of_error {piece : Nat} {data : List UInt8} {text : String}
    (h : s.addPiece piece data = .error text) : s.add (piece, data) = s := by
  rw [add, h]

structure Fits (info : List UInt8) (s : MetadataAssembler) : Prop where
  valid : s.Valid
  size_eq : s.metadataSize = info.length

theorem Fits.total_eq (h : s.Fits info) : s.totalPieces = pieceCount info.length :=
  h.size_eq ▸ h.valid.total_eq

theorem Fits.add (h : s.Fits info) (c : Nat × List UInt8) : (s.add c).Fits info := by
  rw [MetadataAssembler.add]
  split
  case h_1 complete t hadd =>
    obtain ⟨hvalid, hsize, -⟩ := addPiece_ok h.valid hadd
    exact ⟨hvalid, hsize.trans h.size_eq⟩
  case h_2 => exact h

theorem Fits.exec (h : s.Fits info) (calls : List (Nat × List UInt8)) :
    (Lib.exec MetadataAssembler.add s calls).Fits info :=
  exec_invariant (P := Fits info) (fun _ c h => h.add c) calls h

theorem mem_received_add (h : s.Valid) (c : Nat × List UInt8) (piece : Nat) :
    piece ∈ (s.add c).receivedPieces ↔ piece ∈ s.receivedPieces ∨ (c.1 = piece ∧ s.Takes c) := by
  rw [add]
  split
  case h_1 complete t hadd =>
    rw [(addPiece_ok h hadd).2.2.2.1, Finset.mem_insert, or_comm, Takes, hadd]
    simp [eq_comm]
  case h_2 text hadd =>
    rw [Takes, hadd]
    simp

def Accepted (s : MetadataAssembler) (calls : List (Nat × List UInt8)) (piece : Nat) : Prop :=
  ∃ k data, calls[k]? = some (piece, data) ∧
    (Lib.exec add s (calls.take k)).Takes (piece, data)

theorem accepted_cons (s : MetadataAssembler) (c : Nat × List UInt8)
    (calls : List (Nat × List UInt8)) (piece : Nat) :
    s.Accepted (c :: calls) piece ↔ (c.1 = piece ∧ s.Takes c) ∨ (s.add c).Accepted calls piece := by
  constructor
  · rintro ⟨k, data, hcall, htakes⟩
    cases k with
    | zero =>
      cases hcall
      exact .inl ⟨rfl, htakes⟩
    | succ k => exact .inr ⟨k, data, hcall, htakes⟩
  · rintro (⟨rfl, htakes⟩ | ⟨k, data, hcall, htakes⟩)
    · exact ⟨0, c.2, rfl, htakes⟩
    · exact ⟨k + 1, data, hcall, htakes⟩

theorem mem_received_exec (h : s.Fits info) (calls : List (Nat × List UInt8)) (piece : Nat) :
    piece ∈ (exec add s calls).receivedPieces ↔
      piece ∈ s.receivedPieces ∨ s.Accepted calls piece := by
  induction calls generalizing s with
  | nil =>
    rw [exec_nil]
    refine (or_iff_left ?_).symm
    rintro ⟨k, data, hcall, -⟩
    cases hcall
  | cons c calls ih =>
    rw [exec_cons, ih (h.add c), mem_received_add h.valid, accepted_cons, or_assoc]

theorem Agrees.add (hagrees : s.Agrees info) (h : s.Fits info) {c : Nat × List UInt8}
    (hc : Carries info s c) : (s.add c).Agrees info := by
  rw [MetadataAssembler.add]
  split
  case h_1 complete t hadd =>
    have htakes : s.Takes c := ⟨_, hadd⟩
    have hpiece := ((takes_iff h.size_eq h.total_eq c).mp htakes).1
    obtain ⟨u, hslice, hu⟩ := addPiece_slice h.valid h.size_eq hpiece hagrees
    rw [hc htakes, hslice] at hadd
    cases hadd
    exact hu
  case h_2 => exact hagrees

theorem Agrees.exec (hagrees : s.Agrees info) (h : s.Fits info) {calls : List (Nat × List UInt8)}
    (hcalls : Along MetadataAssembler.add (Carries info) s calls) :
    (Lib.exec MetadataAssembler.add s calls).Agrees info :=
  (exec_invariant_along (P := fun s : MetadataAssembler => s.Fits info ∧ s.Agrees info)
    (fun _ c h hc => ⟨h.1.add c, h.2.add h.1 hc⟩) hcalls ⟨h, hagrees⟩).2

theorem nextPieceWhere_eq_some_iff (s : MetadataAssembler) (skip : Nat → Bool) (piece : Nat) :
    s.nextPieceWhere skip = some piece ↔
      piece < s.totalPieces ∧ piece ∉ s.receivedPieces ∧ skip piece = false ∧
        ∀ other < piece, other ∈ s.receivedPieces ∨ skip other = true := by
  rw [nextPieceWhere, List.find?_range_eq_some]
  simp only [List.mem_range, Bool.and_eq_true, decide_eq_true_eq, Bool.not_eq_true',
    Bool.and_eq_false_iff, decide_eq_false_iff_not, not_not, Bool.not_eq_false']
  tauto

theorem nextPieceWhere_eq_none_iff (s : MetadataAssembler) (skip : Nat → Bool) :
    s.nextPieceWhere skip = none ↔
      ∀ piece < s.totalPieces, piece ∈ s.receivedPieces ∨ skip piece = true := by
  rw [nextPieceWhere, List.find?_eq_none]
  simp only [List.mem_range, Bool.and_eq_true, decide_eq_true_eq, Bool.not_eq_true', not_and,
    Bool.not_eq_false]
  exact forall₂_congr fun piece _ => ⟨fun h => or_iff_not_imp_left.mpr h, fun h => h.resolve_left⟩

/-- Whatever the calls, a piece is refused for its index or its length alone, the metadata is
complete once every piece was taken, and then it is what the pieces were cut from. -/
theorem assembles_exactly (info : List UInt8) (hpos : 0 < info.length)
    (hle : info.length ≤ MAX_TORRENT_SIZE) (calls : List (Nat × List UInt8)) :
    ∃ start, new info.length = .ok start ∧
      let s := Lib.exec add start calls
      (∀ piece data,
        ((∃ text, s.addPiece piece data = .error text) ↔
          pieceCount info.length ≤ piece ∨ data.length ≠ (slice info piece).length) ∧
        ∀ text, s.addPiece piece data = .error text → s.add (piece, data) = s) ∧
      ((List.range (pieceCount info.length)).map fun piece => (slice info piece).length).sum =
        info.length ∧
      (s.isComplete = true ↔ ∀ piece < pieceCount info.length, start.Accepted calls piece) ∧
      (Along add (Carries info) start calls → s.isComplete = true → s.buffer = info) ∧
      (∀ skip piece, s.nextPieceWhere skip = some piece ↔
        piece < pieceCount info.length ∧ ¬ start.Accepted calls piece ∧ skip piece = false ∧
          ∀ other < piece, start.Accepted calls other ∨ skip other = true) ∧
      ∀ skip, s.nextPieceWhere skip = none ↔
        ∀ piece < pieceCount info.length, start.Accepted calls piece ∨ skip piece = true := by
  obtain ⟨start, hnew, hvalid, hsize, hnone⟩ := new_ok ⟨hpos.ne', hle⟩
  have hstart : start.Fits info := ⟨hvalid, hsize⟩
  refine ⟨start, hnew, ?_⟩
  intro s
  have hs : s.Fits info := hstart.exec calls
  have hreceived (piece : Nat) : piece ∈ s.receivedPieces ↔ start.Accepted calls piece := by
    rw [mem_received_exec hstart, hnone]
    exact or_iff_right (Finset.notMem_empty piece)
  refine ⟨fun piece data => ⟨fails_iff hs.size_eq hs.total_eq piece data, fun text => add_of_error⟩,
    sum_slices info, ?_, fun hcalls hcomplete => ?_, fun skip piece => ?_, fun skip => ?_⟩
  · rw [hs.valid.isComplete_iff, hs.size_eq]
    exact forall₂_congr fun piece _ => hreceived piece
  · have hagrees : start.Agrees info := fun i hi => by
      rw [hnone] at hi
      exact absurd hi (Finset.notMem_empty _)
    exact (hagrees.exec hstart hcalls).buffer_eq hs.valid hs.size_eq hcomplete
  · rw [nextPieceWhere_eq_some_iff, hs.total_eq]
    simp only [hreceived]
  · rw [nextPieceWhere_eq_none_iff, hs.total_eq]
    simp only [hreceived]

theorem assembles_exactly_short : ∃ start, new 3 = .ok start ∧
    (Lib.exec add start [(0, [9]), (1, [4]), (0, [1, 2, 3])]).buffer = [1, 2, 3] := by
  obtain ⟨start, hnew, -, -, -, hbuffer, -⟩ := assembles_exactly [1, 2, 3] (by decide) (by decide)
    [(0, [9]), (1, [4]), (0, [1, 2, 3])]
  have hstart : new 3 = .ok ⟨3, [0, 0, 0], ∅, 1⟩ := by decide
  cases hstart.symm.trans hnew
  exact ⟨_, hstart, hbuffer (by decide) (by decide)⟩

end MetadataAssembler

end Tortor.Core
