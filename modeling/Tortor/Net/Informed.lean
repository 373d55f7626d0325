import Tortor.Net.SessionWrites

/-! How a peer learns about a piece: the session has announced it, or the event about it is in the
queue, or the opening messages are still to come and will name it. -/

namespace Tortor.Net

open Tortor.Core

def PeerMessage.announces (p : Nat) : PeerMessage → Bool
  | .have index => index == p
  | .bitfield payload => hasBit payload p
  | _ => false

def announces (sent : List PeerMessage) (p : Nat) : Bool := sent.any (·.announces p)

theorem announces_append (new sent : List PeerMessage) (p : Nat) :
    announces (new ++ sent) p = (announces new p || announces sent p) := List.any_append

theorem announces_fromIndices {len p : Nat} {pieces : List Nat} (hp : p < len)
    (hmem : p ∈ pieces) (sent : List PeerMessage) :
    announces (.bitfield (Bitfield.fromIndices len pieces).bytes :: sent) p = true := by
  have hhas : (Bitfield.fromIndices len pieces).has p = true :=
    (Bitfield.has_fromIndices len pieces p).mpr ⟨hmem, hp⟩
  rw [Bitfield.has_eq_hasBit] at hhas
  rw [announces, List.any_cons, PeerMessage.announces, hhas, Bool.true_or]

namespace PeerSession

variable {ctx : PeerContext} {sha1 : List UInt8 → Digest} {id p : Nat} {turn : Turn}
  {s t : PeerSession} {u : UploadSlots}

inductive Informed (s : PeerSession) (p : Nat) : Prop
  | gone (phase : s.phase.connected = false)
  | opening (phase : s.phase = .opening)
      (reply : ∀ pieces, s.reply = some (.completedPieces pieces) → p ∈ pieces)
  | queued (event : .pieceCompleted p ∈ s.events)
  | announced (sent : announces s.sent p)

/-- In a turn that handles the event about the piece, the write succeeds. -/
def Announces (s : PeerSession) (turn : Turn) (p : Nat) : Prop :=
  s.outbox = [] → s.phase = .selecting → turn.stimulus = .event →
    s.events.head? = some (.pieceCompleted p) → turn.writes 0 = true

theorem announced_of_writes {P : PeerMessage → Prop} (h : Writes P s t)
    (hp : announces s.sent p) : announces t.sent p := by
  obtain ⟨new, hnew, -⟩ := h.sent
  rw [hnew, announces_append, hp, Bool.or_true]

theorem informed_finish (s : PeerSession) (p : Nat) : s.finish.Informed p := by
  apply Informed.gone
  unfold finish
  dsimp only
  split <;> rfl

theorem informed_opened {pieces : List Nat} (hp : p < ctx.expectedHashes.length)
    (hmem : p ∈ pieces) (turn : Turn) (s : PeerSession) :
    (s.opened ctx turn pieces).Informed p := by
  unfold opened
  dsimp only
  rw [if_neg (by simpa using List.ne_nil_of_mem hmem)]
  unfold writeThen
  split
  · split
    · apply Informed.announced
      have hbitfield := announces_fromIndices hp hmem s.sent
      change announces ([.interested] ++ _) p = true
      rw [announces_append]
      exact Bool.or_eq_true_iff.mpr (.inr hbitfield)
    · exact informed_finish _ p
  · exact informed_finish _ p

theorem informed_pieceCompleted (ctx : PeerContext) (hwrite : turn.writes 0 = true)
    (s : PeerSession) :
    (s.handleEvent ctx turn (.pieceCompleted p)).Informed p := by
  apply Informed.announced
  unfold handleEvent tryWrite
  dsimp only
  rw [if_pos hwrite]
  split <;> simp [write, announces, PeerMessage.announces]

theorem events_handleExtended (ctx : PeerContext) (extensionId : UInt8) (payload : List UInt8)
    (s : PeerSession) : (s.handleExtended ctx extensionId payload).events = s.events := by
  obtain ⟨remotePexId, pexReceived, heq⟩ := handleExtended_eq ctx extensionId payload s
  rw [heq]

theorem events_takeIn (ctx : PeerContext) (hlag : ∀ missed, turn.stimulus ≠ .lagged missed)
    (s : PeerSession) :
    (s.takeIn ctx turn).events = s.events ∨
      (s.outbox = [] ∧ s.phase = .selecting ∧ turn.stimulus = .event) ∧
        (s.takeIn ctx turn).events = s.events.tail := by
  unfold takeIn
  split
  case isTrue => exact .inl rfl
  case isFalse hempty =>
    have houtbox : s.outbox = [] := by simpa using hempty
    split
    case h_1 msg _ _ =>
      left
      unfold hear
      cases msg with
      | extended extensionId payload => exact events_handleExtended ctx extensionId payload _
      | _ => rfl
    case h_2 hphase hstimulus => exact .inr ⟨⟨houtbox, hphase, hstimulus⟩, rfl⟩
    case h_3 hstimulus => exact absurd hstimulus (hlag _)
    case h_4 => exact .inl rfl

theorem informed_turn (h : s.Informed p) (hp : p < ctx.expectedHashes.length)
    (hlag : ∀ missed, turn.stimulus ≠ .lagged missed) (hwrite : s.Announces turn p) :
    (s.turn ctx sha1 id false turn u).1.Informed p := by
  have hwrites := writes_turn ctx sha1 id false turn s u
  have hkept := h
  cases h with
  | gone hphase =>
    unfold PeerSession.turn
    split
    case isTrue => exact hkept
    case isFalse =>
      split
      case h_11 => exact .gone rfl
      case h_12 => exact hkept
      all_goals
        have hopen : s.phase = _ := ‹_›
        rw [hopen] at hphase
        cases hphase
  | opening hphase hreply =>
    unfold PeerSession.turn
    split
    case isTrue => exact hkept
    case isFalse =>
      split
      case h_1 hnamed => exact informed_opened hp (hreply _ hnamed) turn _
      case h_2 => exact hkept
      case h_12 => exact hkept
      all_goals cases hphase.symm.trans ‹s.phase = _›
  | queued hevent =>
    rcases events_takeIn ctx hlag s with hsame | ⟨⟨houtbox, hphase, hstimulus⟩, htail⟩
    · exact .queued (by rw [hwrites.events, hsame]; exact hevent)
    · cases hevents : s.events with
      | nil => rw [hevents] at hevent; cases hevent
      | cons event events =>
        rw [hevents] at hevent
        rcases List.mem_cons.mp hevent with rfl | hlater
        · rw [turn_of_event houtbox hphase hstimulus hevents]
          have hsucceeds := hwrite houtbox hphase hstimulus (by rw [hevents]; rfl)
          exact informed_pieceCompleted ctx hsucceeds _
        · exact .queued (by rw [hwrites.events, htail, hevents]; exact hlater)
  | announced hsent =>
    refine .announced (announced_of_writes hwrites ?_)
    rw [sent_takeIn]
    exact hsent

theorem informed_connect (h : s.Valid ctx sha1 id) (hphase : s.phase = .dialing)
    (supportsExtensions : Bool) (turn : Turn) (p : Nat) :
    (s.connect ctx id supportsExtensions turn).Informed p := by
  obtain ⟨sent, heq⟩ := connect_eq ctx id supportsExtensions turn s
  have hreply : s.reply = none := h.silent (by rw [hphase]; rfl)
  rw [heq]
  exact .opening rfl fun pieces hpieces => nomatch hreply.symm.trans hpieces

/-- An answer to the opening request names the piece, or the event about it is on its way. -/
theorem informed_receive {reply : Reply} (h : s.Informed p)
    (hreply : s.phase = .opening → ∀ pieces, reply = .completedPieces pieces →
      p ∈ pieces ∨ .pieceCompleted p ∈ s.events) : (s.receive reply).Informed p := by
  unfold receive
  split
  case h_1 => exact h
  case h_2 =>
    cases h with
    | gone hphase => exact .gone hphase
    | opening hphase =>
      by_cases hevent : .pieceCompleted p ∈ s.events
      · exact .queued hevent
      · refine .opening hphase fun pieces hpieces => ?_
        rw [Option.some.injEq] at hpieces
        exact (hreply hphase pieces hpieces).resolve_right hevent
    | queued hevent => exact .queued hevent
    | announced hsent => exact .announced hsent

theorem Informed.announces (h : s.Informed p) (hconnected : s.phase.connected)
    (hopened : s.phase ≠ .opening) (hevents : s.events = []) : announces s.sent p := by
  cases h with
  | gone hphase => exact absurd (hconnected.symm.trans hphase) nofun
  | opening hphase => exact absurd hphase hopened
  | queued hevent =>
    rw [hevents] at hevent
    cases hevent
  | announced hsent => exact hsent

end PeerSession
end Tortor.Net
