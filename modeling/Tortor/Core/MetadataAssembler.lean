import Mathlib.Data.Finset.Card
import Mathlib.Data.Finset.Range
import Tortor.Core.BencodeScan

namespace Tortor.Core

structure MetadataAssembler where
  metadataSize : Nat
  buffer : List UInt8
  receivedPieces : Finset Nat
  totalPieces : Nat
  deriving DecidableEq

namespace MetadataAssembler

def PIECE_SIZE : Nat := 16384

def Acceptable (metadataSize : Nat) : Prop :=
  metadataSize ≠ 0 ∧ metadataSize ≤ MAX_TORRENT_SIZE

instance (metadataSize : Nat) : Decidable (Acceptable metadataSize) :=
  inferInstanceAs (Decidable (_ ∧ _))

/-- `metadataSize` is advertised by the remote peer, so it is bounded here. -/
def new (metadataSize : Nat) : Except String MetadataAssembler :=
  if metadataSize = 0 ∨ MAX_TORRENT_SIZE < metadataSize then
    .error s!"unacceptable metadata size: {metadataSize}"
  else
    .ok {
      metadataSize := metadataSize
      buffer := List.replicate metadataSize 0
      receivedPieces := ∅
      totalPieces := (metadataSize + PIECE_SIZE - 1) / PIECE_SIZE % 2 ^ 32 }

def isComplete (self : MetadataAssembler) : Bool :=
  self.receivedPieces.card == self.totalPieces

def addPiece (self : MetadataAssembler) (piece : Nat) (data : List UInt8) :
    Except String (Bool × MetadataAssembler) :=
  if self.totalPieces ≤ piece then .error "Piece index out of bounds"
  else
    let start := piece * PIECE_SIZE
    let stop := min (start + PIECE_SIZE) self.metadataSize
    if data.length ≠ stop - start then
      .error s!"Invalid metadata piece size: expected {stop - start}, got {data.length}"
    else
      let self := { self with
        buffer := self.buffer.take start ++ data ++ self.buffer.drop stop
        receivedPieces := insert piece self.receivedPieces }
      .ok (self.isComplete, self)

/-- First piece that is neither received nor accepted by `skip`. -/
def nextPieceWhere (self : MetadataAssembler) (skip : Nat → Bool) : Option Nat :=
  (List.range self.totalPieces).find? fun i => decide (i ∉ self.receivedPieces) && !skip i

def pieceCount (size : Nat) : Nat := (size + PIECE_SIZE - 1) / PIECE_SIZE

theorem start_lt {piece size : Nat} (h : piece < pieceCount size) : piece * PIECE_SIZE < size := by
  unfold pieceCount PIECE_SIZE at h
  unfold PIECE_SIZE
  omega

def slice (info : List UInt8) (piece : Nat) : List UInt8 :=
  (info.drop (piece * PIECE_SIZE)).take PIECE_SIZE

structure Valid (s : MetadataAssembler) : Prop where
  acceptable : Acceptable s.metadataSize
  length_buffer : s.buffer.length = s.metadataSize
  total_eq : s.totalPieces = pieceCount s.metadataSize
  received_lt : s.receivedPieces ⊆ Finset.range s.totalPieces

theorem new_ok {size : Nat} (h : Acceptable size) : ∃ assembler, new size = .ok assembler ∧
    assembler.Valid ∧ assembler.metadataSize = size ∧ assembler.receivedPieces = ∅ := by
  have hsmall : pieceCount size < 2 ^ 32 := by
    have hle := h.2
    unfold MAX_TORRENT_SIZE at hle
    unfold pieceCount PIECE_SIZE
    omega
  refine ⟨_, if_neg (not_or.mpr ⟨h.1, Nat.not_lt.mpr h.2⟩), ⟨h, ?_, ?_, ?_⟩, rfl, rfl⟩
  · exact List.length_replicate
  · exact Nat.mod_eq_of_lt hsmall
  · exact Finset.empty_subset _

theorem new_ok_iff {size : Nat} : (∃ assembler, new size = .ok assembler) ↔ Acceptable size := by
  constructor
  · rintro ⟨assembler, h⟩
    unfold new at h
    split at h
    · cases h
    case isFalse hne =>
      rw [not_or, Nat.not_lt] at hne
      exact hne
  · intro h
    obtain ⟨assembler, hnew, -⟩ := new_ok h
    exact ⟨assembler, hnew⟩

theorem addPiece_ok {s t : MetadataAssembler} {piece : Nat} {data : List UInt8} {complete : Bool}
    (h : s.Valid) (hadd : s.addPiece piece data = .ok (complete, t)) :
    t.Valid ∧ t.metadataSize = s.metadataSize ∧ t.totalPieces = s.totalPieces ∧
      t.receivedPieces = insert piece s.receivedPieces ∧ complete = t.isComplete := by
  simp only [addPiece] at hadd
  split at hadd
  · cases hadd
  case isFalse hpiece =>
    split at hadd
    · cases hadd
    case isFalse hlen =>
      cases hadd
      rw [not_not] at hlen
      refine ⟨⟨h.acceptable, ?_, h.total_eq, ?_⟩, rfl, rfl, rfl, rfl⟩
      · have hstart : piece * PIECE_SIZE < s.metadataSize := start_lt (h.total_eq ▸ Nat.not_le.mp hpiece)
        have hend : piece * PIECE_SIZE + data.length ≤ s.metadataSize := by omega
        simp only [List.length_append, List.length_take, List.length_drop, h.length_buffer]
        omega
      · intro i hi
        rcases Finset.mem_insert.mp hi with rfl | hi
        · exact Finset.mem_range.mpr (Nat.not_le.mp hpiece)
        · exact h.received_lt hi

def Agrees (s : MetadataAssembler) (info : List UInt8) : Prop :=
  ∀ i, i / PIECE_SIZE ∈ s.receivedPieces → s.buffer[i]? = info[i]?

theorem addPiece_slice {s : MetadataAssembler} {info : List UInt8} {piece : Nat} (h : s.Valid)
    (hsize : s.metadataSize = info.length) (hpiece : piece < pieceCount info.length)
    (hagrees : s.Agrees info) : ∃ t : MetadataAssembler,
      s.addPiece piece (slice info piece) = .ok (t.isComplete, t) ∧ t.Agrees info := by
  have hbuffer := h.length_buffer
  have htotal := h.total_eq
  rw [hsize] at hbuffer htotal
  obtain ⟨start, hstart⟩ : ∃ start, piece * PIECE_SIZE = start := ⟨_, rfl⟩
  obtain ⟨stop, hstop⟩ : ∃ stop, min (start + PIECE_SIZE) info.length = stop := ⟨_, rfl⟩
  have hmine {i : Nat} (hi : i / PIECE_SIZE = piece) : start ≤ i ∧ i < start + PIECE_SIZE := by
    unfold PIECE_SIZE at hi hstart ⊢
    omega
  have hinfo : start < info.length := hstart ▸ start_lt hpiece
  have hlen : (slice info piece).length = stop - start := by
    rw [slice, List.length_take, List.length_drop, hstart]
    omega
  have hroom : ¬ s.totalPieces ≤ piece := by rw [htotal]; exact Nat.not_le.mpr hpiece
  refine ⟨{ s with
    buffer := s.buffer.take start ++ slice info piece ++ s.buffer.drop stop
    receivedPieces := insert piece s.receivedPieces }, ?_, fun i hi => ?_⟩
  · simp only [addPiece, hroom, if_false, hstart, hsize, hstop, hlen, ne_eq, not_true_eq_false]
  have hfront : (s.buffer.take start).length = start := by
    rw [List.length_take]
    omega
  change (s.buffer.take start ++ slice info piece ++ s.buffer.drop stop)[i]? = info[i]?
  have hold : ¬ (start ≤ i ∧ i < start + PIECE_SIZE) → s.buffer[i]? = info[i]? := by
    intro hother
    rcases Finset.mem_insert.mp hi with hi | hi
    · exact absurd (hmine hi) hother
    · exact hagrees i hi
  by_cases hbefore : i < start
  · rw [List.append_assoc, List.getElem?_append_left (by omega), List.getElem?_take_of_lt hbefore]
    exact hold (by omega)
  by_cases hinside : i < stop
  · rw [List.getElem?_append_left (by rw [List.length_append]; omega),
      List.getElem?_append_right (by omega), hfront, slice, hstart,
      List.getElem?_take_of_lt (by omega), List.getElem?_drop,
      Nat.add_sub_cancel' (Nat.not_lt.mp hbefore)]
  · have hskip : stop + (i - (start + (stop - start))) = i := by omega
    rw [List.getElem?_append_right (by rw [List.length_append]; omega), List.length_append,
      hfront, hlen, List.getElem?_drop, hskip]
    by_cases hend : info.length ≤ i
    · rw [List.getElem?_eq_none (hbuffer ▸ hend), List.getElem?_eq_none hend]
    · exact hold (by omega)

theorem Valid.isComplete_iff {s : MetadataAssembler} (h : s.Valid) :
    s.isComplete = true ↔ ∀ piece < pieceCount s.metadataSize, piece ∈ s.receivedPieces := by
  have htotal := h.total_eq
  have hall : s.isComplete = true ↔ s.receivedPieces = Finset.range s.totalPieces := by
    rw [isComplete, beq_iff_eq]
    constructor
    · intro hcard
      exact Finset.eq_of_subset_of_card_le h.received_lt (by rw [Finset.card_range, hcard])
    · intro heq
      rw [heq, Finset.card_range]
  rw [hall, htotal]
  constructor
  · intro heq piece hpiece
    rw [heq, Finset.mem_range]
    exact hpiece
  · intro hevery
    refine Finset.Subset.antisymm (htotal ▸ h.received_lt) fun piece hpiece => ?_
    exact hevery piece (Finset.mem_range.mp hpiece)

theorem Agrees.buffer_eq {s : MetadataAssembler} {info : List UInt8} (h : s.Valid)
    (hsize : s.metadataSize = info.length) (hagrees : s.Agrees info)
    (hcomplete : s.isComplete = true) : s.buffer = info := by
  have hall := h.isComplete_iff.mp hcomplete
  apply List.ext_getElem?
  intro i
  by_cases hi : i < info.length
  · apply hagrees
    apply hall
    rw [hsize]
    unfold pieceCount PIECE_SIZE
    omega
  · have hlen : s.buffer.length = info.length := h.length_buffer.trans hsize
    rw [List.getElem?_eq_none (by omega), List.getElem?_eq_none (by omega)]

end MetadataAssembler
end Tortor.Core
