import Tortor.Net.SessionSteps

/-! What a session posts to the coordinator, and when. -/

namespace Tortor.Net

open Tortor.Core

def isReport : CoordinatorMsg → Bool
  | .peerBitfield _ | .peerHave _ | .peerGone _ | .pieceDownloaded .. | .pieceFailed _ => true
  | _ => false

theorem replyTo_of_isReport {msg : CoordinatorMsg} (h : isReport msg) : msg.replyTo = none := by
  cases msg <;> first | rfl | cases h

/-- The messages that session `id` may have for the coordinator at each of its awaits. -/
inductive Posted (ctx : PeerContext) (id : Nat) : Phase → CoordinatorMsg → Prop
  | report {phase : Phase} {msg : CoordinatorMsg} (idle : phase.awaits = false)
      (report : isReport msg) : Posted ctx id phase msg
  | completed : Posted ctx id .opening (.getCompletedPieces id)
  | work (peerHas : Bitfield) : Posted ctx id .requesting (.requestWork peerHas id)
  | block (index begin length : Nat)
      (bounded : (pieceLenAt index ctx.pieceLength ctx.totalLength).any
        (decide <| begin + length ≤ ·)) :
      Posted ctx id (.serving index begin) (.readPiece index begin length id)

namespace PeerSession

structure Polite (ctx : PeerContext) (id : Nat) (s : PeerSession) : Prop where
  posted : ∀ msg ∈ s.outbox, Posted ctx id s.phase msg
  asks : s.phase.awaits → s.outbox ≠ []

variable {ctx : PeerContext} {id : Nat} {s : PeerSession} {u : UploadSlots} {turn : Turn}
  {msg : CoordinatorMsg}

theorem polite_of_nil (h : s.outbox = []) (hidle : s.phase.awaits = false) : s.Polite ctx id where
  posted msg hm := by
    rw [h] at hm
    cases hm
  asks ha := by
    rw [hidle] at ha
    cases ha

theorem polite_post (h : s.outbox = []) (hmsg : Posted ctx id s.phase msg) :
    (s.post msg).Polite ctx id where
  posted other hm := by
    rw [post, h, List.nil_append, List.mem_singleton] at hm
    exact hm ▸ hmsg
  asks _ := List.append_ne_nil_of_right_ne_nil _ (List.cons_ne_nil _ _)

theorem phase_finish (s : PeerSession) : s.finish.phase = .closing := by
  unfold finish
  dsimp only
  split <;> rfl

theorem polite_finish (h : ∀ msg ∈ s.outbox, isReport msg) : s.finish.Polite ctx id where
  posted msg hm := by
    rw [phase_finish]
    apply Posted.report rfl
    have hfailed : ∀ msg ∈ (s.job.map fun job => CoordinatorMsg.pieceFailed job.index).toList,
        isReport msg := by
      cases s.job with
      | none => exact List.forall_mem_nil _
      | some job => exact List.forall_mem_singleton.mpr rfl
    unfold finish at hm
    dsimp only at hm
    split at hm
    · rcases List.mem_append.mp hm with hm | hm
      · exact (List.mem_append.mp hm).elim (h msg) (hfailed msg)
      · rw [List.mem_singleton.mp hm]
        rfl
    · exact (List.mem_append.mp hm).elim (h msg) (hfailed msg)
  asks ha := by
    rw [phase_finish] at ha
    cases ha

theorem polite_finish_nil (h : s.outbox = []) : s.finish.Polite ctx id :=
  polite_finish fun msg hm => by rw [h] at hm; cases hm

theorem polite_writeThen {n : Nat} {msg : PeerMessage} {next : PeerSession → PeerSession}
    (h : s.outbox = []) (hnext : (next (s.write msg)).Polite ctx id) :
    (s.writeThen turn n msg next).Polite ctx id := by
  unfold writeThen
  split
  · exact hnext
  · exact polite_finish_nil h

theorem polite_fillPipeline (h : s.outbox = []) : (s.fillPipeline turn).Polite ctx id := by
  simp only [fillPipeline]
  split
  · exact polite_of_nil h rfl
  · split
    · exact polite_of_nil h rfl
    · split
      · exact polite_of_nil h rfl
      · apply polite_finish_nil
        exact h

theorem polite_maybeRequestWork (h : s.outbox = []) :
    (s.maybeRequestWork id turn).Polite ctx id := by
  simp only [maybeRequestWork]
  split
  · exact polite_fillPipeline h
  · apply polite_post
    exacts [h, .work _]

theorem polite_takeWork {piece : Option Nat} (h : s.outbox = []) :
    (s.takeWork ctx turn piece).Polite ctx id := by
  unfold takeWork
  split
  · apply polite_fillPipeline
    exact h
  · split
    · apply polite_fillPipeline
      exact h
    · apply polite_finish
      rw [post, h]
      exact List.forall_mem_singleton.mpr rfl

theorem polite_opened {completed : List Nat} (h : s.outbox = []) :
    (s.opened ctx turn completed).Polite ctx id := by
  have hinterested {t : PeerSession} (ht : t.outbox = []) :
      (t.writeThen turn 1 .interested fun self =>
        { self with phase := .looping, amInterested := true }).Polite ctx id :=
    polite_writeThen ht (polite_of_nil ht rfl)
  simp only [opened]
  split
  · exact hinterested h
  · exact polite_writeThen h (hinterested h)

theorem polite_handleEvent {event : SessionEvent} (h : s.outbox = []) :
    (s.handleEvent ctx turn event).Polite ctx id := by
  cases event with
  | pieceCompleted index =>
    rw [handleEvent, tryWrite_eq]
    dsimp only
    split <;> exact polite_of_nil h rfl
  | selectionChanged =>
    simp only [handleEvent]
    split
    · exact polite_of_nil h rfl
    · exact polite_writeThen h (polite_of_nil h rfl)
  | downloadComplete =>
    rw [handleEvent, tryWrite_eq]
    split <;> exact polite_of_nil h rfl
  | activePeersSnapshot currentPeers =>
    obtain ⟨peers, sent, heq⟩ := handleSnapshot_eq ctx turn currentPeers { s with phase := .looping }
    simp only [handleEvent, heq]
    exact polite_of_nil h rfl

theorem outbox_tryUnchoke (turn : Turn) (s : PeerSession) (u : UploadSlots) :
    (s.tryUnchoke turn u).2.1.outbox = s.outbox ∧ (s.tryUnchoke turn u).2.1.phase = s.phase := by
  unfold tryUnchoke
  dsimp only
  repeat' split
  all_goals exact ⟨rfl, rfl⟩

theorem outbox_releaseUploadSlot (s : PeerSession) (u : UploadSlots) :
    (s.releaseUploadSlot u).1.outbox = s.outbox ∧
      (s.releaseUploadSlot u).1.phase = s.phase := by
  unfold releaseUploadSlot
  split <;> exact ⟨rfl, rfl⟩

theorem polite_releaseUploadSlot (h : s.outbox = []) (hidle : s.phase.awaits = false) :
    (s.releaseUploadSlot u).1.Polite ctx id := by
  obtain ⟨houtbox, hphase⟩ := outbox_releaseUploadSlot s u
  exact polite_of_nil (houtbox.trans h) (hphase ▸ hidle)

theorem polite_choke (h : s.outbox = []) (hidle : s.phase.awaits = false) :
    (s.choke turn u).1.Polite ctx id := by
  unfold choke
  split
  · exact polite_releaseUploadSlot h hidle
  · split
    · exact polite_releaseUploadSlot h hidle
    · exact polite_finish_nil h

theorem polite_handleHave {index : Nat} (h : s.outbox = []) (hidle : s.phase.awaits = false) :
    (s.handleHave turn index).Polite ctx id := by
  unfold handleHave
  dsimp only
  split
  · exact polite_finish_nil h
  · split
    · apply polite_post
      exacts [h, .report hidle rfl]
    · exact polite_of_nil h hidle

theorem polite_handleBitfield {payload : List UInt8} (h : s.outbox = [])
    (hidle : s.phase.awaits = false) : (s.handleBitfield turn payload).Polite ctx id := by
  unfold handleBitfield
  split
  · exact polite_finish_nil h
  · dsimp only
    split
    · refine ⟨fun msg hm => .report hidle ?_, fun ha => absurd (hidle.symm.trans ha) nofun⟩
      simp only [post, h, List.nil_append, List.cons_append, List.mem_cons, List.not_mem_nil,
        or_false] at hm
      rcases hm with rfl | rfl <;> rfl
    · apply polite_post
      exacts [h, .report hidle rfl]

theorem polite_handleRequest {index begin length : Nat} (h : s.outbox = [])
    (hidle : s.phase.awaits = false) :
    (s.handleRequest ctx id index begin length).Polite ctx id := by
  unfold handleRequest
  split
  · exact polite_of_nil h hidle
  · dsimp only
    split
    case isTrue hvalid =>
      rw [Bool.and_eq_true] at hvalid
      apply polite_post
      exacts [h, .block index begin length hvalid.2]
    case isFalse => exact polite_finish_nil h

theorem polite_handlePiece {index begin : Nat} {block : List UInt8} (h : s.outbox = [])
    (hidle : s.phase.awaits = false) : (s.handlePiece turn index begin block).Polite ctx id := by
  unfold handlePiece
  dsimp only
  split
  · exact polite_of_nil h hidle
  · split
    · split
      · exact polite_of_nil h hidle
      · exact polite_of_nil h hidle
      · split
        · exact polite_of_nil h hidle
        · apply polite_finish_nil
          exact h
        · exact polite_of_nil h rfl
    · exact polite_of_nil h hidle

theorem polite_takeHash {sha1 : List UInt8 → Digest} {job : Job} {buffer : List UInt8}
    (h : s.outbox = []) : (s.takeHash sha1 turn job buffer).Polite ctx id := by
  unfold takeHash
  split
  · exact polite_finish_nil h
  · split
    · apply polite_post
      exacts [h, .report rfl rfl]
    · apply polite_finish
      rw [post, h]
      exact List.forall_mem_singleton.mpr rfl

theorem polite_handleMessage {msg : PeerMessage} (h : s.outbox = []) :
    (s.handleMessage ctx id turn msg u).1.Polite ctx id := by
  cases msg with
  | keepAlive | choke | unchoke => exact polite_of_nil h rfl
  | interested =>
    have hsame := outbox_tryUnchoke turn { s with
      phase := .looping, lastRecv := turn.now, received := .interested :: s.received
      peerInterested := true } u
    simp only [handleMessage]
    split
    case h_1 heq =>
      rw [heq] at hsame
      exact polite_of_nil (hsame.1.trans h) (congrArg Phase.awaits hsame.2)
    case h_2 heq =>
      rw [heq] at hsame
      exact polite_finish_nil (hsame.1.trans h)
  | notInterested => exact polite_choke h rfl
  | «have» index => exact polite_handleHave h rfl
  | bitfield payload => exact polite_handleBitfield h rfl
  | extended extensionId payload =>
    obtain ⟨remotePexId, pexReceived, heq⟩ := handleExtended_eq ctx extensionId payload
      { s with
        phase := .looping, lastRecv := turn.now, received := .extended extensionId payload :: s.received }
    simp only [handleMessage, heq]
    exact polite_of_nil h rfl
  | request index begin length => exact polite_handleRequest h rfl
  | piece index begin block => exact polite_handlePiece h rfl

theorem polite_tend {now : Nat} (h : s.outbox = []) : (s.tend now turn u).1.Polite ctx id := by
  have houtbox := (outbox_tryUnchoke turn s u).1.trans h
  simp only [tend]
  split
  case h_1 heq =>
    rw [heq] at houtbox
    exact polite_finish_nil houtbox
  case h_2 heq =>
    rw [heq] at houtbox
    dsimp only at houtbox ⊢
    split
    · dsimp only
      apply polite_writeThen houtbox
      split
      · apply polite_finish_nil
        exact houtbox
      · exact polite_of_nil houtbox rfl
    · split
      · exact polite_finish_nil houtbox
      · exact polite_of_nil houtbox rfl

theorem polite_housekeeping (h : s.outbox = []) : (s.housekeeping turn u).1.Polite ctx id := by
  unfold housekeeping
  split
  · exact polite_finish_nil h
  · split
    · exact polite_tend h
    · dsimp only
      split
      · apply polite_post
        exacts [h, .report rfl rfl]
      · split
        · exact polite_finish_nil h
        · exact polite_tend h

theorem polite_select (h : s.outbox = []) (hidle : s.phase.awaits = false) :
    (s.select ctx id turn u).1.Polite ctx id := by
  unfold select
  split
  · exact polite_finish_nil h
  · split
    · exact polite_of_nil h hidle
    · apply polite_handleEvent
      exact h
  · exact polite_of_nil h rfl
  · exact polite_handleMessage h
  · exact polite_finish_nil h
  · exact polite_housekeeping h

theorem polite_turn (ctx : PeerContext) (sha1 : List UInt8 → Digest) (id : Nat) (gone : Bool)
    (turn : Turn) (s : PeerSession) (u : UploadSlots) :
    (s.turn ctx sha1 id gone turn u).1 = s ∨ (s.turn ctx sha1 id gone turn u).1.Polite ctx id := by
  unfold PeerSession.turn
  split
  case isTrue => exact .inl rfl
  case isFalse hempty =>
    have h : s.outbox = [] := by simpa using hempty
    split
    case h_1 => exact .inr (polite_opened h)
    case h_2 =>
      cases gone with
      | false => exact .inl rfl
      | true =>
        right
        simp only [if_true]
        exact polite_opened h
    case h_3 => exact .inr (polite_maybeRequestWork h)
    case h_4 => exact .inr (polite_takeWork h)
    case h_5 =>
      cases gone with
      | false => exact .inl rfl
      | true =>
        right
        simp only [if_true]
        exact polite_takeWork h
    case h_6 hphase => exact .inr (polite_select h (by rw [hphase]; rfl))
    case h_7 index begin data _ _ =>
      cases data with
      | none => exact .inr (polite_of_nil h rfl)
      | some block =>
        right
        dsimp only [takeBlock]
        apply polite_writeThen
        exacts [h, polite_of_nil h rfl]
    case h_8 =>
      cases gone with
      | false => exact .inl rfl
      | true => exact .inr (polite_of_nil h rfl)
    case h_9 => exact .inr (polite_takeHash h)
    case h_10 => exact .inr (polite_tend h)
    case h_11 => exact .inr (polite_of_nil ((outbox_releaseUploadSlot s u).1.trans h) rfl)
    case h_12 => exact .inl rfl

theorem polite_connect {supportsExtensions : Bool} (h : s.outbox = []) :
    (s.connect ctx id supportsExtensions turn).Polite ctx id := by
  obtain ⟨sent, heq⟩ := connect_eq ctx id supportsExtensions turn s
  rw [heq]
  refine ⟨fun msg hm => ?_, fun _ => List.append_ne_nil_of_right_ne_nil _ (List.cons_ne_nil _ _)⟩
  rw [h, List.nil_append, List.mem_singleton] at hm
  subst hm
  exact .completed

structure Proper (ctx : PeerContext) (sha1 : List UInt8 → Digest) (id : Nat) (s : PeerSession) :
    Prop where
  valid : s.Valid ctx sha1 id
  posted : ∀ msg ∈ s.outbox, Posted ctx id s.phase msg

section Proper

variable {sha1 : List UInt8 → Digest} {rest : List CoordinatorMsg}

theorem Proper.of_nil (h : s.Valid ctx sha1 id) (houtbox : s.outbox = []) :
    s.Proper ctx sha1 id where
  valid := h
  posted msg hm := by
    rw [houtbox] at hm
    cases hm

theorem proper_new (ctx : PeerContext) (sha1 : List UInt8 → Digest) (id : Nat)
    (peerAddr : SocketAddr) : (PeerSession.new ctx peerAddr).Proper ctx sha1 id :=
  .of_nil (valid_new ctx sha1 id peerAddr) rfl

theorem proper_connect (h : s.Proper ctx sha1 id) (hphase : s.phase = .dialing)
    (supportsExtensions : Bool) (turn : Turn) :
    (s.connect ctx id supportsExtensions turn).Proper ctx sha1 id where
  valid := valid_connect h.valid hphase supportsExtensions turn
  posted := (polite_connect (h.valid.idle (.inl hphase)).1).posted

theorem proper_turn (h : s.Proper ctx sha1 id) (gone : Bool) (turn : Turn) (u : UploadSlots) :
    (s.turn ctx sha1 id gone turn u).1.Proper ctx sha1 id where
  valid := (turned_turn h.valid gone turn).valid
  posted := by
    rcases polite_turn ctx sha1 id gone turn s u with he | hpolite
    · rw [he]
      exact h.posted
    · exact hpolite.posted

theorem reply_turn (h : s.Valid ctx sha1 id) (gone : Bool) (turn : Turn) (u : UploadSlots) :
    (s.turn ctx sha1 id gone turn u).1 = s ∨ (s.turn ctx sha1 id gone turn u).1.reply = none := by
  rcases polite_turn ctx sha1 id gone turn s u with he | hpolite
  · exact .inl he
  · right
    have hvalid := (turned_turn (u := u) h gone turn).valid
    cases ha : (s.turn ctx sha1 id gone turn u).1.phase.awaits with
    | false => exact hvalid.silent ha
    | true =>
      obtain ⟨msg, hm⟩ := List.exists_mem_of_ne_nil _ (hpolite.asks ha)
      have hposted := hpolite.posted msg hm
      refine (hvalid.alone msg hm ?_).2.1
      generalize (s.turn ctx sha1 id gone turn u).1.phase = phase at ha hposted
      cases hposted with
      | report hidle => cases hidle.symm.trans ha
      | completed | work | block => rfl

theorem proper_sent (h : s.Proper ctx sha1 id) (houtbox : s.outbox = msg :: rest) :
    { s with outbox := rest }.Proper ctx sha1 id where
  valid := valid_sent h.valid houtbox
  posted other hm := h.posted other (houtbox ▸ List.mem_cons_of_mem msg hm)

theorem proper_sendFailed (h : s.Proper ctx sha1 id) (houtbox : s.outbox = msg :: rest) :
    ({ s with outbox := rest }.sendFailed msg).Proper ctx sha1 id where
  valid := valid_sendFailed h.valid houtbox
  posted := by
    rw [sendFailed_eq]
    split
    case isTrue hneeded =>
      obtain ⟨hrest, -⟩ := h.valid.alone msg (mem_of_outbox houtbox) hneeded
      rw [houtbox, List.cons.injEq] at hrest
      exact (polite_finish_nil hrest.2).posted
    case isFalse => exact (proper_sent h houtbox).posted

theorem proper_receive {reply : Reply} (h : s.Proper ctx sha1 id) (hexpects : s.phase.expects reply)
    (houtbox : s.outbox = []) (hreply : s.reply = none) : (s.receive reply).Proper ctx sha1 id where
  valid := valid_receive h.valid hexpects houtbox hreply
  posted := by
    rw [receive_eq hexpects]
    exact h.posted

theorem proper_drop (h : s.Proper ctx sha1 id) : s.drop.Proper ctx sha1 id :=
  .of_nil (valid_drop h.valid) rfl

end Proper

end PeerSession
end Tortor.Net
