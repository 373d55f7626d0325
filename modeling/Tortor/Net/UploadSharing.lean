import Tortor.Lib.Tally
import Tortor.Net.SessionWrites

/-! Sessions that share one counter of upload slots. -/

namespace Tortor.Net

open Tortor.Core Tortor.Lib

namespace PeerSession

variable {ctx : PeerContext} {sha1 : List UInt8 → Digest} {id : Nat} {input : SessionInput}
  {s : PeerSession} {u : UploadSlots}

theorem holds_connect (ctx : PeerContext) (id : Nat) (supportsExtensions : Bool) (turn : Turn)
    (s : PeerSession) :
    (s.connect ctx id supportsExtensions turn).holdsUploadSlot = s.holdsUploadSlot := by
  obtain ⟨sent, heq⟩ := connect_eq ctx id supportsExtensions turn s
  rw [heq]

theorem shifts_react (h : s.Valid ctx sha1 id) (input : SessionInput) (u : UploadSlots) :
    Shifts u (s.react ctx sha1 id input u).2 s.holdsUploadSlot
      (s.react ctx sha1 id input u).1.holdsUploadSlot := by
  unfold react
  split
  case h_1 supportsExtensions turn =>
    split
    case h_1 =>
      rw [holds_connect]
      exact .refl u _
    case h_2 => exact .refl u _
  case h_2 gone turn => exact (turned_turn h gone turn).shifts
  case h_3 reply =>
    split
    case isTrue hopen =>
      simp only [Bool.and_eq_true] at hopen
      rw [receive_eq hopen.1.1]
      exact .refl u _
    case isFalse => exact .refl u _
  case h_4 => split <;> exact .refl u _
  case h_5 =>
    split
    case h_1 => exact .refl u _
    case h_2 =>
      rw [holds_sendFailed]
      exact .refl u _
  case h_6 => exact .refl u _

theorem amChoking_turn {index begin : Nat} {block : List UInt8}
    (hphase : s.phase = .serving index begin) (hreply : s.reply = some (.block (some block)))
    (gone : Bool) (turn : Turn) : (s.turn ctx sha1 id gone turn u).1.amChoking = s.amChoking := by
  unfold PeerSession.turn
  split
  case isTrue => rfl
  case isFalse =>
    rw [hphase, hreply]
    dsimp only [takeBlock, writeThen]
    split
    · rfl
    · unfold finish
      dsimp only
      split <;> rfl

theorem pieces_react (h : s.Valid ctx sha1 id) (input : SessionInput) (u : UploadSlots) :
    ∃ new, (s.react ctx sha1 id input u).1.sent = new ++ s.sent ∧
      ∀ index begin block, .piece index begin block ∈ new →
        s.amChoking = false ∧ (s.react ctx sha1 id input u).1.amChoking = false := by
  have hnone {t : PeerSession} (ht : t.sent = s.sent) : ∃ new, t.sent = new ++ s.sent ∧
      ∀ index begin block, PeerMessage.piece index begin block ∈ new →
        s.amChoking = false ∧ t.amChoking = false := ⟨[], ht, nofun⟩
  unfold react
  split
  case h_1 supportsExtensions turn =>
    split
    case h_1 =>
      obtain ⟨new, hnew, hextended⟩ := sent_connect ctx id supportsExtensions turn s
      refine ⟨new, hnew, fun index begin block hm => ?_⟩
      obtain ⟨payload, he⟩ := hextended _ hm
      cases he
    case h_2 => exact hnone rfl
  case h_2 gone turn =>
    obtain ⟨new, hnew, hwritten⟩ := (writes_turn ctx sha1 id gone turn s u).sent
    rw [sent_takeIn] at hnew
    refine ⟨new, hnew, fun index begin block hm => ?_⟩
    cases hwritten _ hm with
    | plain hplain => cases hplain
    | piece index begin block hphase hreply =>
      have hunchoked := h.serving index begin hphase
      exact ⟨hunchoked, (amChoking_turn hphase hreply gone turn).trans hunchoked⟩
  case h_3 reply =>
    split
    case isTrue hopen =>
      simp only [Bool.and_eq_true] at hopen
      rw [receive_eq hopen.1.1]
      exact hnone rfl
    case isFalse => exact hnone rfl
  case h_4 => split <;> exact hnone rfl
  case h_5 =>
    split
    case h_1 => exact hnone rfl
    case h_2 msg rest houtbox =>
      apply hnone
      rw [sendFailed_eq]
      split
      · exact sent_finish _
      · rfl
  case h_6 => exact hnone rfl

end PeerSession

theorem used_set {α : Type} {holders : List α} (holds : α → Bool) {i : Nat} {a b : α}
    {before after : UploadSlots} (hi : holders[i]? = some a)
    (hused : before.used = tally (fun a => (holds a).toNat) holders)
    (h : PeerSession.Shifts before after (holds a) (holds b)) :
    after.used = tally (fun a => (holds a).toNat) (holders.set i b) := by
  have hle : (holds a).toNat ≤ before.used :=
    hused ▸ le_tally (List.mem_of_getElem? hi) fun a => (holds a).toNat
  have hslots := h.slots_eq hle
  have hset := tally_set hi (fun a => (holds a).toNat) b
  omega

/-- The sessions of one torrent, whatever the coordinator does. -/
structure Crowd where
  sessions : List PeerSession
  slots : UploadSlots

namespace Crowd

def start (ctx : PeerContext) (peerAddrs : List SocketAddr) (max : Nat) : Crowd :=
  ⟨peerAddrs.map (.new ctx), .new max⟩

def step (ctx : PeerContext) (sha1 : List UInt8 → Digest) (s : Crowd) : Nat × SessionInput → Crowd
  | (i, input) =>
    match s.sessions[i]? with
    | none => s
    | some session =>
      let (session, slots) := session.react ctx sha1 i input s.slots
      ⟨s.sessions.set i session, slots⟩

/-- Every session is as it should be, and the counter counts those with a slot. -/
structure Fair (ctx : PeerContext) (sha1 : List UInt8 → Digest) (max : Nat) (s : Crowd) : Prop where
  valid : ∀ (i : Nat) (session : PeerSession), s.sessions[i]? = some session →
    session.Valid ctx sha1 i
  used : s.slots.used = tally (·.holdsUploadSlot.toNat) s.sessions
  max_eq : s.slots.max = max
  used_le : s.slots.used ≤ max

variable {ctx : PeerContext} {sha1 : List UInt8 → Digest} {max : Nat} {s : Crowd}

theorem Fair.start (ctx : PeerContext) (sha1 : List UInt8 → Digest) (peerAddrs : List SocketAddr)
    (max : Nat) : (Crowd.start ctx peerAddrs max).Fair ctx sha1 max where
  valid i session hi := by
    obtain ⟨peerAddr, -, rfl⟩ := List.mem_map.mp (List.mem_of_getElem? hi)
    exact PeerSession.valid_new ctx sha1 i peerAddr
  used := by
    have hnone : ∀ session ∈ (Crowd.start ctx peerAddrs max).sessions,
        session.holdsUploadSlot.toNat = 0 := by
      intro session hs
      obtain ⟨peerAddr, -, rfl⟩ := List.mem_map.mp hs
      rfl
    exact (tally_eq_zero.mpr hnone).symm
  max_eq := rfl
  used_le := Nat.zero_le max

theorem Fair.step (h : s.Fair ctx sha1 max) (input : Nat × SessionInput) :
    (s.step ctx sha1 input).Fair ctx sha1 max := by
  obtain ⟨i, input⟩ := input
  unfold Crowd.step
  dsimp only
  split
  case h_1 => exact h
  case h_2 session hsession =>
    have hvalid := h.valid i session hsession
    have hshifts := PeerSession.shifts_react hvalid input s.slots
    refine ⟨fun j other hj => ?_, used_set (·.holdsUploadSlot) hsession h.used hshifts,
      hshifts.max_eq.trans h.max_eq, ?_⟩
    · rw [List.getElem?_set] at hj
      split at hj
      case isTrue he =>
        split at hj <;> cases hj
        exact he ▸ PeerSession.valid_react hvalid input s.slots
      case isFalse => exact h.valid j other hj
    · have hle := hshifts.used_le (h.used_le.trans_eq h.max_eq.symm)
      exact hle.trans_eq h.max_eq

end Crowd

variable (ctx : PeerContext) (sha1 : List UInt8 → Digest)

/-- The counter says how many sessions have a slot and stays within its bound, an unchoked peer
has a slot, only such a peer is sent blocks, and a session that is over has none. -/
theorem upload_slots_bounded (peerAddrs : List SocketAddr) (max : Nat)
    (inputs : List (Nat × SessionInput)) :
    let s := exec (Crowd.step ctx sha1) (.start ctx peerAddrs max) inputs
    s.slots.used = s.sessions.countP (·.holdsUploadSlot) ∧ s.slots.used ≤ max ∧
      ∀ (i : Nat) (session : PeerSession), s.sessions[i]? = some session →
        (session.phase ≠ .ended → session.amChoking = false → session.holdsUploadSlot = true) ∧
          (session.phase = .ended → session.holdsUploadSlot = false) ∧
          ∀ input, let next := (session.react ctx sha1 i input s.slots).1
            ∃ new, next.sent = new ++ session.sent ∧
              ∀ index begin block, .piece index begin block ∈ new →
                session.amChoking = false ∧ next.amChoking = false := by
  intro s
  have hfair : s.Fair ctx sha1 max :=
    exec_invariant (P := Crowd.Fair ctx sha1 max) (fun _ input h => h.step input) inputs
      (Crowd.Fair.start ctx sha1 peerAddrs max)
  refine ⟨hfair.used.trans (tally_eq_countP fun _ _ => rfl), hfair.used_le, fun i session hi => ?_⟩
  have hvalid := hfair.valid i session hi
  exact ⟨hvalid.unchoked, fun hended => (hvalid.idle (.inr hended)).2,
    fun input => PeerSession.pieces_react hvalid input s.slots⟩

end Tortor.Net
