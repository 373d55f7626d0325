import Tortor.Net.SessionPosts

/-! A session that is told to stop comes to its end, whatever it was doing. -/

namespace Tortor.Net

open Tortor.Core

def Phase.distance : Phase → Nat
  | ended => 0
  | dialing | closing => 1
  | selecting => 2
  | requesting => 3
  | looping => 4
  | _ => 5

def Turn.smooth (stimulus : Stimulus) : Turn := ⟨0, stimulus, fun _ => true, false, .dedup⟩

def Turn.quitting : Turn := .smooth .shutdown

namespace PeerSession

variable {ctx : PeerContext} {sha1 : List UInt8 → Digest} {id : Nat} {s : PeerSession}
  {u : UploadSlots}

/-- What a session has yet to do; a message that it posts is less than what a turn does. -/
def remaining (s : PeerSession) : Nat := 8 * s.phase.distance + 2 * s.outbox.length

theorem remaining_finish {n : Nat} (h : s.outbox.length ≤ n) : s.finish.remaining ≤ 12 + 2 * n := by
  have hfailed : (s.job.map fun job => CoordinatorMsg.pieceFailed job.index).toList.length ≤ 1 := by
    cases s.job <;> simp
  have hlength : s.finish.outbox.length ≤ n + 2 := by
    unfold finish
    dsimp only
    split
    · simp only [List.length_append, List.length_singleton]
      omega
    · simp only [List.length_append]
      omega
  rw [remaining, phase_finish, Phase.distance]
  omega

theorem remaining_of_nil (h : s.outbox = []) : s.remaining = 8 * s.phase.distance := by
  rw [remaining, h]
  rfl

theorem remaining_fillPipeline (turn : Turn) (h : s.outbox = []) :
    (s.fillPipeline turn).remaining ≤ 16 := by
  have hselecting {t : PeerSession} (ht : t.outbox = []) (hphase : t.phase = .selecting) :
      t.remaining ≤ 16 := by
    rw [remaining_of_nil ht, hphase]
    exact Nat.le_refl _
  simp only [fillPipeline]
  split
  · exact hselecting h rfl
  · split
    · exact hselecting h rfl
    · split
      · exact hselecting h rfl
      · refine (remaining_finish (n := 0) ?_).trans (by decide)
        exact (congrArg List.length h).le

theorem remaining_looping (h : s.outbox = []) (hphase : s.phase = .looping) :
    s.remaining = 32 := by
  rw [remaining_of_nil h, hphase]
  rfl

theorem remaining_opened (completed : List Nat) (h : s.outbox = []) :
    (s.opened ctx .quitting completed).remaining = 32 := by
  simp only [opened]
  split <;> exact remaining_looping h rfl

theorem remaining_maybeRequestWork (turn : Turn) (h : s.outbox = []) :
    (s.maybeRequestWork id turn).remaining ≤ 26 := by
  simp only [maybeRequestWork]
  split
  · exact (remaining_fillPipeline turn h).trans (by decide)
  · simp [remaining, post, Phase.distance, h]

theorem remaining_takeWork (turn : Turn) (piece : Option Nat) (h : s.outbox = []) :
    (s.takeWork ctx turn piece).remaining ≤ 16 := by
  unfold takeWork
  split
  · apply remaining_fillPipeline
    exact h
  · split
    · apply remaining_fillPipeline
      exact h
    · refine (remaining_finish (n := 1) ?_).trans (by decide)
      simp [post, h]

theorem remaining_takeHash (turn : Turn) (job : Job) (buffer : List UInt8) (h : s.outbox = []) :
    (s.takeHash sha1 turn job buffer).remaining ≤ 34 := by
  unfold takeHash
  split
  · exact (remaining_finish (n := 0) (congrArg List.length h).le).trans (by decide)
  · split
    · simp [remaining, post, Phase.distance, h]
    · refine (remaining_finish (n := 1) ?_).trans (by decide)
      simp [post, h]

theorem remaining_takeBlock (index begin : Nat) (data : Option (List UInt8)) (h : s.outbox = []) :
    (s.takeBlock .quitting index begin data).remaining = 32 := by
  cases data <;> exact remaining_looping h rfl

theorem remaining_tend (now : Nat) (h : s.outbox = []) :
    (s.tend now .quitting u).1.remaining ≤ 32 := by
  have hrest {t : PeerSession} (ht : t.outbox = []) (p : Prop) [Decidable p] :
      (if p then t.finish else { t with phase := .looping }).remaining ≤ 32 := by
    split
    · exact (remaining_finish (n := 0) (congrArg List.length ht).le).trans (by decide)
    · exact (remaining_looping (s := { t with phase := .looping }) ht rfl).le
  have hunchoke := (outbox_tryUnchoke .quitting s u).1
  unfold tend
  split
  case h_1 t v he =>
    rw [he] at hunchoke
    exact (remaining_finish (n := 0) (congrArg List.length (hunchoke.trans h)).le).trans (by decide)
  case h_2 t v he =>
    rw [he] at hunchoke
    dsimp only
    split
    · exact @hrest { t.write .keepAlive with lastKeepalive := now } (hunchoke.trans h) _ _
    · exact hrest (hunchoke.trans h) _

theorem remaining_closed (h : s.outbox = []) :
    { (s.releaseUploadSlot u).1 with phase := .ended }.remaining = 0 := by
  rw [remaining_of_nil]
  · rfl
  · exact (outbox_releaseUploadSlot s u).1.trans h

theorem drops_of_stimulus {turn : Turn} (hstimulus : turn.stimulus ≠ .event)
    (hfails : turn.hashFails = false) : s.drops turn = none := by
  unfold drops
  split
  · split
    · rw [hfails]
      rfl
    case h_2 hevent _ => exact absurd hevent hstimulus
    · rfl
  · rfl

theorem ended_of_remaining (h : s.remaining = 0) : s.phase = .ended := by
  rw [remaining] at h
  have hdistance : s.phase.distance = 0 := by omega
  cases hphase : s.phase <;> rw [hphase] at hdistance <;> first | rfl | cases hdistance

/-- Unless it is over, or waits for something, a session that is told to stop comes nearer to its
end with each turn. -/
theorem remaining_turn (houtbox : s.outbox = []) (hdialing : s.phase ≠ .dialing)
    (hended : s.phase ≠ .ended)
    (hreply : s.phase.awaits = true → ∃ reply, s.reply = some reply ∧ s.phase.expects reply) :
    (s.turn ctx sha1 id false .quitting u).1.remaining < s.remaining := by
  have hless {t : PeerSession} {phase : Phase} {n : Nat} (ht : t.remaining ≤ n)
      (hphase : s.phase = phase) (hn : n < 8 * phase.distance) : t.remaining < s.remaining := by
    rw [remaining_of_nil houtbox, hphase]
    exact ht.trans_lt hn
  unfold turn
  split
  case isTrue hfull =>
    rw [houtbox] at hfull
    cases hfull
  case isFalse =>
    split
    case h_1 pieces hphase _ =>
      exact hless (remaining_opened (s := { s with reply := none }) pieces houtbox).le hphase
        (by decide)
    case h_3 hphase => exact hless (remaining_maybeRequestWork _ houtbox) hphase (by decide)
    case h_4 piece hphase _ =>
      exact hless (remaining_takeWork (s := { s with reply := none }) _ piece houtbox) hphase
        (by decide)
    case h_6 hphase =>
      exact hless (remaining_finish (n := 0) (congrArg List.length houtbox).le) hphase (by decide)
    case h_7 index begin data hphase _ =>
      exact hless (remaining_takeBlock (s := { s with reply := none }) index begin data houtbox).le
        hphase (show 32 < 40 by decide)
    case h_9 job buffer hphase =>
      exact hless (remaining_takeHash _ job buffer houtbox) hphase (show 34 < 40 by decide)
    case h_10 now hphase =>
      exact hless (remaining_tend now houtbox) hphase (show 32 < 40 by decide)
    case h_11 hphase => exact hless (remaining_closed houtbox).le hphase (by decide)
    case h_2 hphase hnone | h_5 hphase hnone | h_8 index begin hphase hnone =>
      obtain ⟨reply, hr, -⟩ := hreply (by rw [hphase]; rfl)
      cases hnone.symm.trans hr
    case h_12 hlooping hselecting hhashing htending hclosing hopening _ hrequesting _ hserving _ =>
      -- an answer of another kind does not come
      exfalso
      cases hphase : s.phase with
      | dialing => exact hdialing hphase
      | ended => exact hended hphase
      | looping => exact hlooping hphase
      | selecting => exact hselecting hphase
      | hashing job buffer => exact hhashing job buffer hphase
      | tending now => exact htending now hphase
      | closing => exact hclosing hphase
      | opening | requesting | serving =>
        obtain ⟨reply, hr, hexpects⟩ := hreply (by rw [hphase]; rfl)
        rw [hphase] at hexpects
        cases reply <;> cases hexpects
        first | exact hopening _ hphase hr | exact hrequesting _ hphase hr |
          exact hserving _ _ _ hphase hr

end PeerSession
end Tortor.Net
