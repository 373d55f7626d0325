import Tortor.Net.WireLaws

/-! The buffer of a message decoder while `next` is called, cancelled and called again. -/

namespace Tortor.Net

open Tortor.Lib

def READ_CHUNK : Nat := 16 * 1024

inductive NextPhase
  | idle
  | decoding
  | reading
  deriving DecidableEq

structure NextCall where
  decoder : MessageDecoder
  phase : NextPhase
  returned : List (Except String PeerMessage)

inductive NextInput
  | call
  | decode
  | read (data : List UInt8)
  | fail
  | cancel

namespace NextCall

def start : NextCall := ⟨.new, .idle, []⟩

/-- A call is cancelled where it waits; a read of no bytes is the end of the stream. -/
def step (s : NextCall) (input : NextInput) : NextCall :=
  match s.phase, input with
  | .idle, .call => { s with phase := .decoding }
  | .decoding, .decode =>
    match s.decoder.decode with
    | (.ok none, decoder) => { s with decoder, phase := .reading }
    | (.ok (some msg), decoder) =>
      { decoder, phase := .idle, returned := s.returned ++ [.ok msg] }
    | (.error error, decoder) =>
      { decoder, phase := .idle, returned := s.returned ++ [.error error] }
  | .reading, .read data =>
    if data.length = 0 then
      { s with phase := .idle, returned := s.returned ++ [.error "peer closed the connection"] }
    else if data.length ≤ READ_CHUNK then
      { s with decoder := s.decoder.feed data, phase := .decoding }
    else s
  | .reading, .fail =>
    { s with phase := .idle, returned := s.returned ++ [.error "failed to read from peer"] }
  | .reading, .cancel => { s with phase := .idle }
  | _, _ => s

end NextCall

namespace MessageDecoder

theorem length_lt_of_more {xs : List UInt8} (h : wireFraming.head xs = .more) :
    xs.length < 4 + MAX_MESSAGE_LEN := by
  change wireHead xs = .more at h
  rw [wireHead] at h
  split at h
  case isTrue hshort => omega
  case isFalse =>
    dsimp only at h
    split at h
    · cases h
    case isFalse hmax =>
      split at h
      case isTrue hmore => omega
      case isFalse =>
        split at h
        · cases h
        · split at h <;> cases h

theorem length_compact_lt {d : MessageDecoder} (h : d.Valid)
    (hmore : wireFraming.head d.pending = .more) :
    d.compact.buf.length < COMPACT_THRESHOLD + 4 + MAX_MESSAGE_LEN := by
  have hvalid : d.pos ≤ d.buf.length := h
  have hpending := length_lt_of_more hmore
  rw [pending, List.length_drop] at hpending
  rw [compact]
  split
  · exact Nat.lt_of_lt_of_le (by decide : 0 < COMPACT_THRESHOLD) (by omega)
  split
  · rw [List.length_drop]
    omega
  case isFalse hbelow =>
    omega

/-- `decode` keeps the bytes where it finds a message or an error, and compacts where it finds
neither. -/
theorem decodeLoop_buffer {fuel : Nat} {d : MessageDecoder} (h : d.Valid)
    (hfuel : d.pending.length < fuel) :
    (∃ e : MessageDecoder, e.Valid ∧ wireFraming.head e.pending = .more ∧
      decodeLoop fuel d = (.ok none, e.compact)) ∨
    ∃ d' : MessageDecoder, d'.Valid ∧ d'.buf = d.buf ∧ (decodeLoop fuel d).2 = d' ∧
      (decodeLoop fuel d).1 ≠ .ok none := by
  induction fuel generalizing d with
  | zero => exact absurd hfuel (Nat.not_lt_zero _)
  | succ fuel ih =>
    rw [decodeLoop_succ]
    cases hverdict : wireFraming.head d.pending with
    | more => exact .inl ⟨d, h, hverdict, rfl⟩
    | fail error => exact .inr ⟨d, h, rfl, rfl, nofun⟩
    | emit msg used =>
      have hused := wireFraming.emit_used _ _ _ hverdict
      exact .inr ⟨d.advance used, valid_advance h hused.2, rfl, rfl, nofun⟩
    | skip used =>
      have hused := wireFraming.skip_used _ _ hverdict
      have hless : (d.advance used).pending.length < fuel := by
        rw [pending_advance, List.length_drop]
        omega
      exact ih (valid_advance h hused.2) hless

theorem decode_buffer {d : MessageDecoder} (h : d.Valid) :
    (∃ e : MessageDecoder, e.Valid ∧ wireFraming.head e.pending = .more ∧
      d.decode = (.ok none, e.compact)) ∨
    ∃ d' : MessageDecoder, d'.Valid ∧ d'.buf = d.buf ∧ d.decode.2 = d' ∧ d.decode.1 ≠ .ok none :=
  decodeLoop_buffer h d.length_pending

end MessageDecoder

namespace NextCall

/-- The buffer holds a read more than it holds while the next one is awaited. -/
structure Bounded (s : NextCall) : Prop where
  pos_le : s.decoder.Valid
  length_le : s.decoder.buf.length ≤ COMPACT_THRESHOLD + 4 + MAX_MESSAGE_LEN + READ_CHUNK
  reading : s.phase = .reading →
    s.decoder.buf.length < COMPACT_THRESHOLD + 4 + MAX_MESSAGE_LEN

variable {s : NextCall}

theorem Bounded.start : start.Bounded where
  pos_le := MessageDecoder.valid_new
  length_le := Nat.zero_le _
  reading := nofun

theorem Bounded.decode (h : s.Bounded) (hphase : s.phase = .decoding) :
    (s.step .decode).Bounded := by
  simp only [step, hphase]
  rcases MessageDecoder.decode_buffer h.pos_le with
    ⟨e, he, hmore, heq⟩ | ⟨d, hd, hsame, hdecoder, hanswer⟩
  · have hcompact := MessageDecoder.length_compact_lt he hmore
    simp only [heq]
    exact ⟨(MessageDecoder.compact_spec he).1, Nat.le_add_right_of_le (Nat.le_of_lt hcompact),
      fun _ => hcompact⟩
  · have hlength : d.buf.length ≤ COMPACT_THRESHOLD + 4 + MAX_MESSAGE_LEN + READ_CHUNK :=
      hsame ▸ h.length_le
    rcases hresult : s.decoder.decode with ⟨error | msg, decoder⟩ <;>
      rw [hresult] at hdecoder hanswer <;> cases hdecoder
    · exact ⟨hd, hlength, nofun⟩
    · cases msg with
      | none => exact absurd rfl hanswer
      | some msg => exact ⟨hd, hlength, nofun⟩

theorem Bounded.read (h : s.Bounded) (hphase : s.phase = .reading) (data : List UInt8) :
    (s.step (.read data)).Bounded := by
  simp only [step, hphase]
  split
  · exact ⟨h.pos_le, h.length_le, nofun⟩
  split
  case isTrue hchunk =>
    have hreading := h.reading hphase
    refine ⟨(MessageDecoder.feed_spec h.pos_le data).1, ?_, nofun⟩
    rw [MessageDecoder.feed, List.length_append]
    exact Nat.add_le_add (Nat.le_of_lt hreading) hchunk
  case isFalse => exact h

theorem Bounded.step (h : s.Bounded) (input : NextInput) : (s.step input).Bounded := by
  cases hphase : s.phase with
  | idle =>
    cases input with
    | call =>
      simp only [NextCall.step, hphase]
      exact ⟨h.pos_le, h.length_le, nofun⟩
    | decode | read | fail | cancel =>
      simp only [NextCall.step, hphase]
      exact h
  | decoding =>
    cases input with
    | decode => exact h.decode hphase
    | call | read | fail | cancel =>
      simp only [NextCall.step, hphase]
      exact h
  | reading =>
    cases input with
    | read data => exact h.read hphase data
    | fail | cancel =>
      simp only [NextCall.step, hphase]
      exact ⟨h.pos_le, h.length_le, nofun⟩
    | call | decode =>
      simp only [NextCall.step, hphase]
      exact h

/-- Whatever the peer sends and whenever a call is cancelled, the buffer stays within bounds. -/
theorem buffer_bounded (inputs : List NextInput) :
    let s := exec step start inputs
    s.decoder.pos ≤ s.decoder.buf.length ∧
      s.decoder.buf.length ≤ COMPACT_THRESHOLD + 4 + MAX_MESSAGE_LEN + READ_CHUNK := by
  intro s
  have hbounded : s.Bounded :=
    exec_invariant (P := Bounded) (fun _ input h => h.step input) inputs Bounded.start
  exact ⟨hbounded.pos_le, hbounded.length_le⟩

end NextCall

end Tortor.Net
