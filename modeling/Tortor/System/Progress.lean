import Mathlib.Data.Finset.Insert
import Mathlib.Logic.Relation
import Tortor.Core.DiskLaws

/-! What a torrent has achieved, apart from how the coordinator gets there: the pieces that
count as completed, the bytes on the disk and what the resume file has said. -/

namespace Tortor.System

open Tortor.Core Tortor.Core.Disk Relation

structure Progress where
  checking : Bool
  completed : Finset Nat
  cells : Nat → Cell
  saved : List (List UInt8)

/-- What the moves of one torrent may rely on. -/
structure Rules where
  pieceLength : Nat
  total : Nat
  /-- Nothing of a write is lost without a report. -/
  arrives : Prop
  /-- What is delivered as the data of a piece. -/
  Good : Nat → List UInt8 → Prop
  /-- What the file check takes for the data of a piece. -/
  Accepts : Nat → List UInt8 → Prop
  /-- Whether a resume file lists a piece. -/
  Lists : List UInt8 → Nat → Prop
  /-- Pieces that reach into a file that becomes selected are given up. -/
  refetches : Prop
  /-- Pieces that are never given up. -/
  Keeps : Nat → Prop

inductive Move (r : Rules) (a : Progress) : Progress → Prop
  | store (index : Nat) (data : List UInt8) (completed : Finset Nat) (cells : Nat → Cell)
      (running : a.checking = false) (missing : index ∉ a.completed) (good : r.Good index data)
      (wrote : Wrote r.arrives (index * r.pieceLength) data data.length a.cells cells)
      (marked : Marked (index * r.pieceLength) data.length cells)
      (grows : completed = a.completed ∨ completed = insert index a.completed) :
      Move r a { a with completed := completed, cells := cells }
  /-- A write that failed on its way. -/
  | spoil (index : Nat) (data : List UInt8) (k : Nat) (cells : Nat → Cell)
      (running : a.checking = false) (missing : index ∉ a.completed) (good : r.Good index data)
      (part : k ≤ data.length)
      (wrote : Wrote False (index * r.pieceLength) data k a.cells cells) :
      Move r a { a with cells := cells }
  | verify (index : Nat) (data : List UInt8) (running : a.checking = true)
      (accepted : r.Accepts index data)
      (reads : ∀ j < data.length, data.getD j 0 = shown (a.cells (index * r.pieceLength + j))) :
      Move r a { a with completed := insert index a.completed }
  | enter : Move r a { a with checking := false }
  | flush (cells : Nat → Cell)
      (flushes : ∀ x, cells x = a.cells x ∨
        (a.cells x).dirty = true ∧ cells x = flushed (a.cells x)) :
      Move r a { a with cells := cells }
  | switch (completed : Finset Nat) (cells : Nat → Cell)
      (switched : ∀ x, Switched (a.cells x) (cells x)) (shrinks : completed ⊆ a.completed)
      (refetched : r.refetches → ∀ x < r.total, (a.cells x).opened = false →
        (cells x).opened = true → x / r.pieceLength ∉ completed)
      (kept : ∀ p, r.Keeps p → p ∈ a.completed → p ∈ completed) :
      Move r a { a with completed := completed, cells := cells }

structure Saves (r : Rules) (a b : Progress) : Prop where
  clean : ∀ x, (a.cells x).dirty = false
  lists : ∃ content, b = { a with saved := content :: a.saved } ∧
    ∀ p, r.Lists content p → p ∈ a.completed

/-- What one step of the coordinator comes to. -/
def Advance (r : Rules) (a b : Progress) : Prop :=
  ∃ c, ReflTransGen (Move r) a c ∧ (b = c ∨ Saves r c b)

variable {r : Rules} {a b c : Progress}

theorem Advance.refl (r : Rules) (a : Progress) : Advance r a a := ⟨a, .refl, .inl rfl⟩

theorem Move.advance (h : Move r a b) : Advance r a b := ⟨b, .single h, .inl rfl⟩

theorem Advance.head (h : Move r a b) (hb : Advance r b c) : Advance r a c := by
  obtain ⟨d, hd, hc⟩ := hb
  exact ⟨d, .head h hd, hc⟩

theorem Move.saved_eq (h : Move r a b) : b.saved = a.saved := by cases h <;> rfl

theorem saved_eq_of_moves (h : ReflTransGen (Move r) a b) : b.saved = a.saved := by
  induction h with
  | refl => rfl
  | tail _ hm ih => exact hm.saved_eq.trans ih

theorem Advance.invariant {P : Progress → Prop} (hmove : ∀ a b, Move r a b → P a → P b)
    (hsave : ∀ a content, P a → P { a with saved := content :: a.saved }) (h : Advance r a b)
    (ha : P a) : P b := by
  obtain ⟨c, hmoves, hb⟩ := h
  have hc : P c := by
    clear hb
    induction hmoves with
    | refl => exact ha
    | tail _ hm ih => exact hmove _ _ hm ih
  rcases hb with rfl | ⟨-, content, rfl, -⟩
  · exact hc
  · exact hsave c content hc

def pieceData (pieceLength total : Nat) (authentic : Nat → UInt8) (index : Nat) : List UInt8 :=
  (List.range (min pieceLength (total - index * pieceLength))).map fun j =>
    authentic (index * pieceLength + j)

@[simp] theorem length_pieceData (pieceLength total : Nat) (authentic : Nat → UInt8)
    (index : Nat) : (pieceData pieceLength total authentic index).length =
      min pieceLength (total - index * pieceLength) := by simp [pieceData]

theorem getD_pieceData {pieceLength total : Nat} (authentic : Nat → UInt8) {index j : Nat}
    (h : j < (pieceData pieceLength total authentic index).length) :
    (pieceData pieceLength total authentic index).getD j 0 =
      authentic (index * pieceLength + j) := by
  rw [length_pieceData] at h
  simp [pieceData, List.getD_eq_getElem?_getD, List.getElem?_map, List.getElem?_range h]

theorem div_eq_iff_inPiece {pieceLength total x : Nat} (hL : 0 < pieceLength) (hx : x < total)
    (index : Nat) : x / pieceLength = index ↔ index * pieceLength ≤ x ∧
      x < index * pieceLength + min pieceLength (total - index * pieceLength) := by
  rw [Nat.div_eq_iff hL]
  omega

/-! The bytes of completed pieces are the authentic ones. -/

section Stored

variable {authentic : Nat → UInt8}

def Stored (r : Rules) (authentic : Nat → UInt8) (a : Progress) : Prop :=
  ∀ x < r.total, (a.cells x).opened = true → x / r.pieceLength ∈ a.completed →
    (a.cells x).content = authentic x

def Authentic (r : Rules) (authentic : Nat → UInt8) (deliver : Nat → List UInt8 → Prop) : Prop :=
  ∀ index data, deliver index data → data = pieceData r.pieceLength r.total authentic index

theorem content_of_wrote (hgood : Authentic r authentic r.Good) {index k : Nat}
    {data : List UInt8} (hdata : r.Good index data) (hk : k ≤ data.length) {arrives : Prop}
    {before after : Nat → Cell} (hw : Wrote arrives (index * r.pieceLength) data k before after)
    (x : Nat) : (after x).content = authentic x ∨ (after x).content = (before x).content := by
  obtain ⟨-, -, -, -, -, -, hb⟩ := hw x
  split at hb
  case isTrue hin =>
    rcases hb with hb | ⟨-, hb⟩
    case inr => exact .inr hb.1
    refine .inl (hb.1.trans ?_)
    have hlt : x - index * r.pieceLength < data.length := by omega
    rw [hgood index data hdata] at hlt ⊢
    rw [getD_pieceData authentic hlt]
    congr 1
    omega
  case isFalse => exact .inr hb.1

theorem Move.stored (hL : 0 < r.pieceLength) (harrives : r.arrives)
    (hgood : Authentic r authentic r.Good) (haccepts : Authentic r authentic r.Accepts) (hrefetch : r.refetches) (h : Move r a b)
    (hs : Stored r authentic a) : Stored r authentic b := by
  intro x hx ho hc
  cases h with
  | store index data completed cells _ _ good wrote _ grows =>
    obtain ⟨hopened, -, -, -, -, -, hb⟩ := wrote x
    by_cases hp : x / r.pieceLength = index
    · -- The whole piece has been written, so this byte has been as well.
      have hin := (div_eq_iff_inPiece hL hx index).mp hp
      have hlen : data.length = min r.pieceLength (r.total - index * r.pieceLength) := by
        rw [hgood index data good, length_pieceData]
      rw [if_pos ⟨hin.1, hlen ▸ hin.2, hopened.symm.trans ho⟩] at hb
      have hlt : x - index * r.pieceLength < data.length := by omega
      refine (hb.resolve_right fun hlost => hlost.1 harrives).1.trans ?_
      rw [hgood index data good] at hlt ⊢
      rw [getD_pieceData authentic hlt]
      congr 1
      omega
    · have hold : x / r.pieceLength ∈ a.completed := by
        rcases grows with rfl | rfl
        · exact hc
        · exact (Finset.mem_insert.mp hc).resolve_left hp
      rcases content_of_wrote hgood good (Nat.le_refl _) wrote x with h | h
      · exact h
      · exact h.trans (hs x hx (hopened.symm.trans ho) hold)
  | spoil index data k cells _ _ good part wrote =>
    rcases content_of_wrote hgood good part wrote x with h | h
    · exact h
    · exact h.trans (hs x hx ((wrote x).1.symm.trans ho) hc)
  | verify index data _ accepted reads =>
    by_cases hp : x / r.pieceLength = index
    · have hin := (div_eq_iff_inPiece hL hx index).mp hp
      have hdata := haccepts index data accepted
      have hlt : x - index * r.pieceLength < data.length := by
        rw [hdata, length_pieceData]; omega
      have hread := reads _ hlt
      rw [Nat.add_sub_cancel' hin.1, shown, if_pos ho] at hread
      rw [← hread]
      rw [hdata] at hlt ⊢
      rw [getD_pieceData authentic hlt, Nat.add_sub_cancel' hin.1]
    · exact hs x hx ho ((Finset.mem_insert.mp hc).resolve_left hp)
  | enter => exact hs x hx ho hc
  | flush cells flushes =>
    have hsame : (cells x).content = (a.cells x).content ∧
        (cells x).opened = (a.cells x).opened := by
      rcases flushes x with h | ⟨-, h⟩
      · rw [h]; exact ⟨rfl, rfl⟩
      · rw [h, flushed]; split <;> exact ⟨rfl, rfl⟩
    exact hsame.1.trans (hs x hx (hsame.2.symm.trans ho) hc)
  | switch completed cells switched shrinks refetched _ =>
    cases hold : (a.cells x).opened with
    | true =>
      have hkept : cells x = a.cells x := (switched x).kept (ho.trans hold.symm)
      exact (congrArg Cell.content hkept).trans (hs x hx hold (shrinks hc))
    | false => exact absurd hc (refetched hrefetch x hx hold ho)

/-- A byte that is on the disk in its place stays there, whatever happens to its piece. -/
def Placed (authentic : Nat → UInt8) (x : Nat) (a : Progress) : Prop :=
  (a.cells x).present = true ∧ (a.cells x).content = authentic x

theorem Move.placed (hgood : Authentic r authentic r.Good) {x : Nat} (h : Move r a b)
    (hs : Placed authentic x a) : Placed authentic x b := by
  have hwrote {index k : Nat} {data : List UInt8} {cells : Nat → Cell} {arrives : Prop}
      (good : r.Good index data) (part : k ≤ data.length)
      (wrote : Wrote arrives (index * r.pieceLength) data k a.cells cells) :
      (cells x).present = true ∧ (cells x).content = authentic x := by
    refine ⟨(wrote x).2.2.2.1.trans hs.1, ?_⟩
    rcases content_of_wrote hgood good part wrote x with h | h
    · exact h
    · exact h.trans hs.2
  cases h with
  | store index data completed cells _ _ good wrote _ _ => exact hwrote good (Nat.le_refl _) wrote
  | spoil index data k cells _ _ good part wrote => exact hwrote good part wrote
  | verify | enter => exact hs
  | flush cells flushes =>
    rcases flushes x with h | ⟨-, h⟩
    · exact ⟨(congrArg Cell.present h).trans hs.1, (congrArg Cell.content h).trans hs.2⟩
    · have hsame : (cells x).present = (a.cells x).present ∧
          (cells x).content = (a.cells x).content := by
        rw [h, flushed]; split <;> exact ⟨rfl, rfl⟩
      exact ⟨hsame.1.trans hs.1, hsame.2.trans hs.2⟩
  | switch completed cells switched _ _ _ =>
    have hsame : (cells x).present = true ∧ (cells x).content = (a.cells x).content := by
      cases hold : (a.cells x).opened <;> cases hnew : (cells x).opened
      · rw [(switched x).kept (hnew.trans hold.symm)]; exact ⟨hs.1, rfl⟩
      · exact ((switched x).opens hold hnew).present hs.1
      · rw [(switched x).releases hold hnew]; exact ⟨hs.1, rfl⟩
      · rw [(switched x).kept (hnew.trans hold.symm)]; exact ⟨hs.1, rfl⟩
    exact ⟨hsame.1, hsame.2.trans hs.2⟩

end Stored

/-! What has been written is durable by the time it is recorded. -/

/-- A written byte is durable, or the next flush or release makes it so, or its piece has to
be written again. -/
def Recoverable (r : Rules) (a : Progress) : Prop :=
  ∀ x < r.total, (a.cells x).written = true → (a.cells x).durable = (a.cells x).content ∨
    (a.cells x).opened = true ∧ ((a.cells x).dirty = true ∨
      a.checking = false ∧ x / r.pieceLength ∉ a.completed)

def Whole (r : Rules) : Prop :=
  ∀ index data, r.Good index data →
    data.length = min r.pieceLength (r.total - index * r.pieceLength)

theorem eq_of_wrote (hL : 0 < r.pieceLength) (hwhole : Whole r) {index k : Nat}
    {data : List UInt8} (hdata : r.Good index data) (hk : k ≤ data.length) {arrives : Prop}
    {before after : Nat → Cell} (hw : Wrote arrives (index * r.pieceLength) data k before after)
    {x : Nat} (hx : x < r.total) (hp : x / r.pieceLength ≠ index) :
    (after x).content = (before x).content ∧ (after x).written = (before x).written := by
  obtain ⟨-, -, -, -, -, -, hb⟩ := hw x
  have hlen := hwhole index data hdata
  have hout := mt (div_eq_iff_inPiece hL hx index).mpr hp
  rw [if_neg fun h => hout ⟨h.1, by omega⟩] at hb
  exact hb

theorem flushed_durable {c : Cell}
    (h : c.durable = c.content ∨ c.opened = true) : (flushed c).durable = (flushed c).content := by
  unfold flushed
  cases ho : c.opened with
  | true => rfl
  | false =>
    rcases h with h | h
    · exact h
    · rw [ho] at h; cases h

theorem durable_of_switched {before after : Cell} (h : Switched before after)
    (hw : after.written = true) :
    before.written = true ∧ (before.durable = before.content → after.durable = after.content) ∧
      (before.opened = true → after = before ∨ after.durable = after.content) := by
  cases hold : before.opened <;> cases hnew : after.opened
  · rw [h.kept (hnew.trans hold.symm)] at hw ⊢
    exact ⟨hw, id, nofun⟩
  · obtain ⟨-, -, -, hd, -, -, hwritten⟩ := h.opens hold hnew
    exact ⟨(hwritten hw).1, fun he => hd.trans (he.trans (hwritten hw).2.symm), nofun⟩
  · rw [h.releases hold hnew] at hw ⊢
    exact ⟨hw, fun _ => rfl, fun _ => .inr rfl⟩
  · rw [h.kept (hnew.trans hold.symm)] at hw ⊢
    exact ⟨hw, id, fun _ => .inl rfl⟩

/-- After a write a byte is still recoverable, or it belongs to the piece that was written. -/
theorem recoverable_of_wrote (hL : 0 < r.pieceLength) (hwhole : Whole r) (hs : Recoverable r a)
    {index k : Nat} {data : List UInt8} (good : r.Good index data) (hk : k ≤ data.length)
    {arrives : Prop} {cells : Nat → Cell}
    (hwrote : Wrote arrives (index * r.pieceLength) data k a.cells cells) {x : Nat} (hx : x < r.total) (hw : (cells x).written = true) :
    (cells x).durable = (cells x).content ∨ (cells x).opened = true ∧
      (x / r.pieceLength = index ∨ x / r.pieceLength ≠ index ∧
        ((cells x).dirty = true ∨ a.checking = false ∧ x / r.pieceLength ∉ a.completed)) := by
  obtain ⟨hopened, hdurable, -, -, hdirty, hclosed, -⟩ := hwrote x
  by_cases hp : x / r.pieceLength = index
  · cases ho : (cells x).opened with
    | true => exact .inr ⟨rfl, .inl hp⟩
    | false =>
      have hsame := hclosed (hopened.symm.trans ho)
      rw [hsame] at hw ho ⊢
      rcases hs x hx hw with h | ⟨h, -⟩
      · exact .inl h
      · exact absurd (h.symm.trans ho) nofun
  · obtain ⟨hcontent, hwritten⟩ := eq_of_wrote hL hwhole good hk hwrote hx hp
    rcases hs x hx (hwritten.symm.trans hw) with h | ⟨ho, h | h⟩
    · exact .inl (hdurable.trans (h.trans hcontent.symm))
    · exact .inr ⟨hopened.trans ho, .inr ⟨hp, .inl (hdirty h)⟩⟩
    · exact .inr ⟨hopened.trans ho, .inr ⟨hp, .inr h⟩⟩

theorem Move.recoverable (hL : 0 < r.pieceLength) (hwhole : Whole r) (h : Move r a b)
    (hs : Recoverable r a) : Recoverable r b := by
  intro x hx hw
  cases h with
  | store index data completed cells running missing good wrote marked grows =>
    rcases recoverable_of_wrote hL hwhole hs good (Nat.le_refl _) wrote hx hw with
      h | ⟨ho, hp | ⟨hp, h | ⟨hc, hm⟩⟩⟩
    · exact .inl h
    · have hin := (div_eq_iff_inPiece hL hx index).mp hp
      exact .inr ⟨ho, .inl (marked x hin.1 (by rw [hwhole index data good]; exact hin.2) ho)⟩
    · exact .inr ⟨ho, .inl h⟩
    · refine .inr ⟨ho, .inr ⟨hc, ?_⟩⟩
      rcases grows with rfl | rfl
      · exact hm
      · exact fun h => hm ((Finset.mem_insert.mp h).resolve_left hp)
  | spoil index data k cells running missing good part wrote =>
    rcases recoverable_of_wrote hL hwhole hs good part wrote hx hw with
      h | ⟨ho, hp | ⟨-, h⟩⟩
    · exact .inl h
    · exact .inr ⟨ho, .inr ⟨running, hp ▸ missing⟩⟩
    · exact .inr ⟨ho, h⟩
  | verify index data running accepted reads =>
    rcases hs x hx hw with h | ⟨ho, h | ⟨hc, -⟩⟩
    · exact .inl h
    · exact .inr ⟨ho, .inl h⟩
    · exact absurd (running.symm.trans hc) nofun
  | enter =>
    rcases hs x hx hw with h | ⟨ho, h | h⟩
    · exact .inl h
    · exact .inr ⟨ho, .inl h⟩
    · exact .inr ⟨ho, .inr ⟨rfl, h.2⟩⟩
  | flush cells flushes =>
    rcases flushes x with h | ⟨-, h⟩
    · have hold := hs x hx ((congrArg Cell.written h).symm.trans hw)
      simpa only [h] using hold
    · have hold : (a.cells x).written = true :=
        (written_flushed _).symm.trans ((congrArg Cell.written h).symm.trans hw)
      refine .inl ?_
      simp only [h]
      exact flushed_durable ((hs x hx hold).imp id And.left)
  | switch completed cells switched shrinks _ _ =>
    obtain ⟨hold, hdurable, hopen⟩ := durable_of_switched (switched x) hw
    rcases hs x hx hold with h | ⟨ho, h⟩
    · exact .inl (hdurable h)
    · rcases hopen ho with hsame | h'
      · refine .inr ⟨(congrArg Cell.opened hsame).trans ho, h.imp ?_ ?_⟩
        · exact fun hd => (congrArg Cell.dirty hsame).trans hd
        · exact fun hm => ⟨hm.1, fun hc => hm.2 (shrinks hc)⟩
      · exact .inl h'

structure Lasting (r : Rules) (p : Nat) (a : Progress) : Prop where
  completed : p ∈ a.completed
  durable : ∀ x < r.total, x / r.pieceLength = p → (a.cells x).written = true →
    (a.cells x).durable = (a.cells x).content

theorem Saves.lasting (h : Saves r a b) (hs : Recoverable r a) :
    ∃ content rest, b.saved = content :: rest ∧ ∀ p, r.Lists content p → Lasting r p b := by
  obtain ⟨hclean, content, rfl, hlists⟩ := h
  refine ⟨content, a.saved, rfl, fun p hp => ⟨hlists p hp, fun x hx hxp hw => ?_⟩⟩
  rcases hs x hx hw with h | ⟨-, h | h⟩
  · exact h
  · exact absurd ((hclean x).symm.trans h) nofun
  · exact absurd (hxp ▸ hlists p hp) h.2

/-- A step that writes the resume file lists lasting pieces only. -/
theorem Advance.lasting (hL : 0 < r.pieceLength) (hwhole : Whole r) (h : Advance r a b)
    (hs : Recoverable r a) {content : List UInt8} (hsaved : b.saved = content :: a.saved) {p : Nat}
    (hp : r.Lists content p) : Lasting r p b := by
  obtain ⟨c, hmoves, hb⟩ := h
  have hc : Recoverable r c := by
    clear hb
    induction hmoves with
    | refl => exact hs
    | tail _ hm ih => exact hm.recoverable hL hwhole ih
  have hsame := saved_eq_of_moves hmoves
  rcases hb with rfl | hsave
  · -- Nothing was written.
    rw [hsame] at hsaved
    exact absurd (congrArg List.length hsaved) (by simp)
  · obtain ⟨content', rest, he, hlasting⟩ := hsave.lasting hc
    rw [he] at hsaved
    exact hlasting p ((List.cons.inj hsaved).1 ▸ hp)

theorem Move.lasting (hL : 0 < r.pieceLength) (hwhole : Whole r) {p : Nat} (hp : r.Keeps p)
    (h : Move r a b) (hs : Lasting r p a) : Lasting r p b := by
  have hwrote {index k : Nat} {data : List UInt8} {cells : Nat → Cell} {arrives : Prop}
      (missing : index ∉ a.completed) (good : r.Good index data) (part : k ≤ data.length)
      (wrote : Wrote arrives (index * r.pieceLength) data k a.cells cells) {x : Nat}
      (hx : x < r.total) (hxp : x / r.pieceLength = p) (hw : (cells x).written = true) :
      (cells x).durable = (cells x).content := by
    obtain ⟨hcontent, hwritten⟩ := eq_of_wrote hL hwhole good part wrote hx
      (hxp ▸ fun he => missing (he ▸ hs.completed))
    exact (wrote x).2.1.trans ((hs.durable x hx hxp (hwritten.symm.trans hw)).trans
      hcontent.symm)
  cases h with
  | store index data completed cells _ missing good wrote _ grows =>
    refine ⟨?_, fun x hx hxp hw => hwrote missing good (Nat.le_refl _) wrote hx hxp hw⟩
    rcases grows with rfl | rfl
    · exact hs.completed
    · exact Finset.mem_insert_of_mem hs.completed
  | spoil index data k cells _ missing good part wrote =>
    exact ⟨hs.completed, fun x hx hxp hw => hwrote missing good part wrote hx hxp hw⟩
  | verify index data _ _ _ => exact ⟨Finset.mem_insert_of_mem hs.completed, hs.durable⟩
  | enter => exact ⟨hs.completed, hs.durable⟩
  | flush cells flushes =>
    refine ⟨hs.completed, fun x hx hxp hw => ?_⟩
    rcases flushes x with h | ⟨-, h⟩
    · have hold := hs.durable x hx hxp ((congrArg Cell.written h).symm.trans hw)
      simpa only [h] using hold
    · have hold : (a.cells x).written = true :=
        (written_flushed _).symm.trans ((congrArg Cell.written h).symm.trans hw)
      simp only [h]
      exact flushed_durable (.inl (hs.durable x hx hxp hold))
  | switch completed cells switched _ _ kept =>
    refine ⟨kept p hp hs.completed, fun x hx hxp hw => ?_⟩
    obtain ⟨hold, hdurable, -⟩ := durable_of_switched (switched x) hw
    exact hdurable (hs.durable x hx hxp hold)

end Tortor.System
