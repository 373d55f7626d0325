import Tortor.Net.SessionLaws

/-! What happens to a session from outside: it is connected, its messages are taken, it is
answered, it hears of events, and it is aborted. -/

namespace Tortor.Net

open Tortor.Core

namespace PeerSession

variable {ctx : PeerContext} {sha1 : List UInt8 → Digest} {id : Nat} {s : PeerSession}
  {msg : CoordinatorMsg} {rest : List CoordinatorMsg}

theorem valid_new (ctx : PeerContext) (sha1 : List UInt8 → Digest) (id : Nat)
    (peerAddr : SocketAddr) :
    (new ctx peerAddr).Valid ctx sha1 id where
  len := rfl
  heard _ := Bitfield.has_new _ _
  truthful := trivial
  slot := nofun
  unchoked _ := nofun
  serving := nofun
  single := Nat.zero_le 1
  jobs := nofun
  hashing := nofun
  verified := nofun
  ready := nofun
  silent _ := rfl
  asks := nofun
  waits _ := nofun
  alone := nofun
  jobless _ := rfl
  idle _ := ⟨rfl, rfl⟩
  fresh _ := ⟨rfl, rfl⟩

theorem connect_eq (ctx : PeerContext) (id : Nat) (supportsExtensions : Bool) (turn : Turn)
    (s : PeerSession) : ∃ sent, s.connect ctx id supportsExtensions turn =
      { s with
        supportsExtensions := supportsExtensions
        phase := .opening
        nextWorkPoll := turn.now
        lastRecv := turn.now
        lastUseful := turn.now
        lastKeepalive := turn.now
        sent := sent
        outbox := s.outbox ++ [.getCompletedPieces id] } := by
  unfold connect sendHandshake
  dsimp only
  split
  · split
    · rw [tryWrite_eq]
      exact ⟨_, rfl⟩
    · exact ⟨_, rfl⟩
  · exact ⟨_, rfl⟩

theorem valid_connect (h : s.Valid ctx sha1 id) (hphase : s.phase = .dialing)
    (supportsExtensions : Bool) (turn : Turn) :
    (s.connect ctx id supportsExtensions turn).Valid ctx sha1 id := by
  obtain ⟨houtbox, hheld⟩ := h.idle (.inl hphase)
  obtain ⟨hreceived, hchoking⟩ := h.fresh hphase
  have hjob : s.job = none := h.jobless (by rw [hphase]; rfl)
  have hreply : s.reply = none := h.silent (by rw [hphase]; rfl)
  obtain ⟨sent, heq⟩ := connect_eq ctx id supportsExtensions turn s
  have hnot : [CoordinatorMsg.getCompletedPieces id].filterMap CoordinatorMsg.returned = [] := rfl
  rw [heq, houtbox, List.nil_append]
  refine ⟨h.len, fun p => ?_, ?_, fun _ => ?_, fun _ hu => ?_, by simp, ?_, h.jobs, by simp, ?_, by simp,
    fun _ => hreply, ?_, ?_, ?_, fun hc => ?_, fun hi => ?_, by simp⟩
  · have hnone := h.heard p
    rw [hphase] at hnone
    exact hnone.trans (by rw [hreceived]; rfl)
  · simp [Truthful]
  · exact hheld.trans (by rw [hchoking]; rfl)
  · exact absurd (hu.symm.trans hchoking) Bool.false_ne_true
  · simp only [burden, hjob, hreply, hnot]
    exact Nat.zero_le 1
  · simp
  · simp [Phase.asks]
  · simp
  · intro msg hm _
    rw [List.mem_singleton] at hm
    exact ⟨by rw [hm], hreply, rfl⟩
  · cases hc
  · exact absurd hi (by simp)

theorem burden_idle (h : s.Valid ctx sha1 id) (hphase : s.phase = .dialing ∨ s.phase = .ended) :
    s.burden = [] := by
  have houtbox := (h.idle hphase).1
  have hjob : s.job = none := h.jobless (by rcases hphase with hp | hp <;> rw [hp] <;> rfl)
  have hreply : s.reply = none := h.silent (by rcases hphase with hp | hp <;> rw [hp] <;> rfl)
  have hpiece : s.phase.piece = none := by rcases hphase with hp | hp <;> rw [hp] <;> rfl
  rw [burden, houtbox, hjob, hreply, hpiece]
  rfl

theorem burden_connect (h : s.Valid ctx sha1 id) (hphase : s.phase = .dialing)
    (supportsExtensions : Bool) (turn : Turn) :
    (s.connect ctx id supportsExtensions turn).burden = [] := by
  have houtbox := (h.idle (.inl hphase)).1
  have hjob : s.job = none := h.jobless (by rw [hphase]; rfl)
  have hreply : s.reply = none := h.silent (by rw [hphase]; rfl)
  obtain ⟨sent, heq⟩ := connect_eq ctx id supportsExtensions turn s
  rw [heq, houtbox]
  simp [burden, Phase.piece, hjob, hreply]

theorem mem_of_outbox (houtbox : s.outbox = msg :: rest) : msg ∈ s.outbox :=
  houtbox ▸ List.mem_cons_self

theorem burden_sent (houtbox : s.outbox = msg :: rest) :
    s.burden.Perm (msg.returned.toList ++ { s with outbox := rest }.burden) := by
  rw [burden, burden, houtbox, List.filterMap_cons]
  cases msg.returned with
  | none => exact List.Perm.refl _
  | some index => exact List.perm_middle

theorem burden_returned (h : s.Valid ctx sha1 id) (houtbox : s.outbox = msg :: rest) {index : Nat}
    (hreturned : msg.returned = some index) :
    s.burden = [index] ∧ { s with outbox := rest }.burden = [] := by
  have hperm := burden_sent houtbox
  have hlen := hperm.length_eq
  have hsingle := h.single
  rw [hreturned] at hperm hlen
  rw [List.length_append, show (some index).toList.length = 1 from rfl] at hlen
  have hrest : { s with outbox := rest }.burden = [] := List.eq_nil_of_length_eq_zero (by omega)
  rw [hrest] at hperm
  exact ⟨List.perm_singleton.mp hperm, hrest⟩

theorem valid_sent (h : s.Valid ctx sha1 id) (houtbox : s.outbox = msg :: rest) :
    { s with outbox := rest }.Valid ctx sha1 id := by
  have hmem {other : CoordinatorMsg} (hm : other ∈ rest) : other ∈ s.outbox :=
    houtbox ▸ List.mem_cons_of_mem msg hm
  have htruthful := h.truthful
  rw [houtbox] at htruthful
  refine ⟨h.len, h.heard, htruthful.1, h.slot, h.unchoked, h.serving, ?_, h.jobs, h.hashing,
    fun index data hm => h.verified index data (hmem hm), fun hp => ⟨(h.ready hp).1, ?_⟩, h.silent,
    fun other hm => h.asks other (hmem hm), fun ha other hm => h.waits ha other (hmem hm),
    fun other hm hn => ?_, h.jobless, fun hi => ?_, h.fresh⟩
  · have hperm := (burden_sent houtbox).length_eq
    have hsingle := h.single
    rw [List.length_append] at hperm
    omega
  · have hnone := (h.ready hp).2
    rw [houtbox, List.filterMap_eq_nil_iff] at hnone
    exact List.filterMap_eq_nil_iff.mpr fun other hm => hnone other (List.mem_cons_of_mem msg hm)
  · have halone := (h.alone other (hmem hm) hn).1
    rw [houtbox, List.cons.injEq] at halone
    rw [halone.2] at hm
    cases hm
  · exact absurd (houtbox.symm.trans (h.idle hi).1) nofun

theorem told_sent_cases (h : s.Valid ctx sha1 id) (houtbox : s.outbox = msg :: rest) (p : Nat) :
    (told s.peerHas s.outbox p = told s.peerHas rest p ∧ ∀ n, msg.counted p n = n) ∨
      (told s.peerHas s.outbox p = true ∧ told s.peerHas rest p = false ∧
        ∀ n, msg.counted p n = n - 1) ∨
      (told s.peerHas s.outbox p = false ∧ told s.peerHas rest p = true ∧
        ∀ n, msg.counted p n = TorrentManager.saturatingSucc n) := by
  have htruthful := h.truthful
  rw [houtbox] at htruthful ⊢
  obtain ⟨-, hmade⟩ := htruthful
  cases msg with
  | peerGone pieces =>
    have hafter : told s.peerHas rest p = false := hmade p
    cases hp : pieces.has p with
    | false => exact .inl ⟨by rw [told, hp, hafter], fun n => by simp [hp]⟩
    | true => exact .inr (.inl ⟨by rw [told, hp], hafter, fun n => by simp [hp]⟩)
  | peerBitfield pieces =>
    have hafter : told s.peerHas rest p = pieces.has p := hmade p
    cases hp : pieces.has p with
    | false => exact .inl ⟨by rw [told, hafter, hp], fun n => by simp [hp]⟩
    | true => exact .inr (.inr ⟨by rw [told], by rw [hafter, hp], fun n => by simp [hp]⟩)
  | peerHave index =>
    have hafter : told s.peerHas rest index = true := hmade
    by_cases hp : p = index
    · subst hp
      exact .inr (.inr ⟨by simp [told], hafter, fun n => by simp⟩)
    · have hne : ¬ index = p := fun he => hp he.symm
      exact .inl ⟨by simp [told, bne, beq_false_of_ne hp], fun n => by simp [hne]⟩
  | _ => exact .inl ⟨rfl, fun _ => rfl⟩

theorem told_sent (h : s.Valid ctx sha1 id) (houtbox : s.outbox = msg :: rest) (p n : Nat)
    (hn : n < 2 ^ 16 - 1) :
    msg.counted p (n + (told s.peerHas s.outbox p).toNat) = n + (told s.peerHas rest p).toNat := by
  rcases told_sent_cases h houtbox p with ⟨hsame, hcounted⟩ | ⟨hbefore, hafter, hcounted⟩ |
    ⟨hbefore, hafter, hcounted⟩
  · rw [hcounted, hsame]
  · rw [hcounted, hbefore, hafter]
    rfl
  · rw [hcounted, hbefore, hafter, TorrentManager.saturatingSucc]
    simp only [Bool.toNat_false, Bool.toNat_true]
    omega

theorem told_sent_le (h : s.Valid ctx sha1 id) (houtbox : s.outbox = msg :: rest) {p n count : Nat}
    (hcount : count ≤ n + (told s.peerHas s.outbox p).toNat) :
    msg.counted p count ≤ n + (told s.peerHas rest p).toNat := by
  rcases told_sent_cases h houtbox p with ⟨hsame, hcounted⟩ | ⟨hbefore, hafter, hcounted⟩ |
    ⟨hbefore, hafter, hcounted⟩
  · rwa [hcounted, ← hsame]
  · rw [hbefore, Bool.toNat_true] at hcount
    rw [hcounted, hafter, Bool.toNat_false]
    omega
  · rw [hbefore, Bool.toNat_false] at hcount
    rw [hcounted, hafter, Bool.toNat_true, TorrentManager.saturatingSucc]
    omega

theorem outcome_sendFailed {u : UploadSlots} (h : s.Valid ctx sha1 id)
    (houtbox : s.outbox = msg :: rest) (hneeded : isNeeded msg) :
    Outcome ctx sha1 id (s.job.map Job.index).toList s.peerHas.has s.holdsUploadSlot u
      ({ s with outbox := rest }.finish, u) := by
  obtain ⟨hrest, hreply, hconnected⟩ := h.alone msg (mem_of_outbox houtbox) hneeded
  rw [houtbox, List.cons.injEq] at hrest
  rw [hrest.2]
  have hrunning : Running ctx (s.job.map Job.index).toList s.peerHas.has s.holdsUploadSlot
      { s with outbox := [] } :=
    ⟨h.len, rfl, hreply, h.jobs, rfl, fun _ => rfl, rfl, fun hu => by
      change s.holdsUploadSlot = true
      rw [h.slot hconnected, show s.amChoking = false from hu]
      rfl⟩
  exact outcome_finish hrunning

theorem sendFailed_eq (msg : CoordinatorMsg) (s : PeerSession) :
    s.sendFailed msg = if isNeeded msg then s.finish else s := by
  cases msg <;> rfl

theorem valid_sendFailed (h : s.Valid ctx sha1 id) (houtbox : s.outbox = msg :: rest) :
    ({ s with outbox := rest }.sendFailed msg).Valid ctx sha1 id := by
  rw [sendFailed_eq]
  split
  case isTrue hneeded =>
    exact (outcome_sendFailed (u := ⟨0, 0⟩) h houtbox hneeded).valid
  case isFalse => exact valid_sent h houtbox

theorem holds_sendFailed (msg : CoordinatorMsg) (s : PeerSession) :
    (s.sendFailed msg).holdsUploadSlot = s.holdsUploadSlot := by
  rw [sendFailed_eq]
  unfold finish
  split
  · dsimp only
    split <;> rfl
  · rfl

theorem receive_eq {reply : Reply} (hexpects : s.phase.expects reply) :
    s.receive reply = { s with reply := some reply } := by
  unfold receive
  split
  case h_1 hphase => rw [hphase] at hexpects; cases hexpects
  case h_2 => rfl

theorem receive_ended (hphase : s.phase = .ended) (reply : Reply) : s.receive reply = s := by
  unfold receive
  rw [hphase]

theorem burden_receive {reply : Reply} (hexpects : s.phase.expects reply)
    (hreply : s.reply = none) : (s.receive reply).burden.Perm (reply.piece.toList ++ s.burden) := by
  rw [receive_eq hexpects, burden, burden, hreply]
  have hcomm := (List.perm_append_comm : ((s.job.map Job.index).toList ++ s.phase.piece.toList ++
    reply.piece.toList).Perm _).append_right (s.outbox.filterMap CoordinatorMsg.returned)
  simpa using hcomm

theorem awaits_of_expects {phase : Phase} {reply : Reply} (h : phase.expects reply) :
    phase.awaits = true := by
  cases phase <;> cases reply <;> first | rfl | cases h

theorem valid_receive {reply : Reply} (h : s.Valid ctx sha1 id) (hexpects : s.phase.expects reply)
    (houtbox : s.outbox = []) (hreply : s.reply = none) : (s.receive reply).Valid ctx sha1 id := by
  have hawaits := awaits_of_expects hexpects
  have hburden := (burden_receive hexpects hreply).length_eq
  have hsingle : (reply.piece.toList ++ s.burden).length ≤ 1 := by
    cases reply with
    | work piece =>
      have hphase : s.phase = .requesting := by
        cases hp : s.phase <;> rw [hp] at hexpects <;> first | rfl | cases hexpects
      rw [burden, (h.ready hphase).1, hphase, hreply, houtbox]
      simp [Phase.piece, Reply.piece]
    | _ => exact h.single
  rw [receive_eq hexpects] at hburden ⊢
  exact
    { h with
      single := hburden.trans_le hsingle
      silent := fun ha => absurd (ha.symm.trans hawaits) Bool.false_ne_true
      alone := fun msg hm => by
        rw [show s.outbox = [] from houtbox] at hm
        cases hm }

theorem valid_announce (h : s.Valid ctx sha1 id) (event : SessionEvent) :
    (s.announce event).Valid ctx sha1 id := { h with }

theorem valid_drop (h : s.Valid ctx sha1 id) : s.drop.Valid ctx sha1 id where
  len := h.len
  heard _ := Bitfield.has_new _ _
  truthful := trivial
  slot := nofun
  unchoked hp := absurd rfl hp
  serving := nofun
  single := Nat.zero_le 1
  jobs := nofun
  hashing := nofun
  verified := nofun
  ready := nofun
  silent _ := rfl
  asks := nofun
  waits _ := nofun
  alone := nofun
  jobless _ := rfl
  idle _ := ⟨rfl, rfl⟩
  fresh := nofun

end PeerSession
end Tortor.Net
