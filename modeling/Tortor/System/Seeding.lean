import Tortor.Core.PiecePicking
import Tortor.Net.SessionFetching
import Tortor.System.Draining

/-! A torrent at rest fetches one more piece from a new peer that has it. -/

namespace Tortor.Core

open Tortor.Lib (FileStore)

namespace TorrentManager

variable {m : TorrentManager} {p : Nat} {peerHas : Bitfield}

def Offers (m : TorrentManager) (p : Nat) : Prop :=
  m.Queued p ∨ (∀ q, ¬ m.Queued q) ∧
    ∃ holders, m.inProgress.lookup p = some holders ∧ holders < MAX_ENDGAME_HOLDERS

theorem Inv.nextWorkFor_offered (h : m.Inv) (hoffers : m.Offers p)
    (hhas : ∀ q, peerHas.has q = true ↔ q = p) (rng : Nat → Nat) :
    (m.nextWorkFor peerHas rng).1 = some p := by
  obtain hqueued | ⟨hnone, holders, hlookup, hlt⟩ := hoffers
  · obtain ⟨pos, q, -, hq, -, he⟩ := h.nextWorkFor_queue rng ⟨p, hqueued, (hhas p).mpr rfl⟩
    rw [he, (hhas q).mp hq]
  · rw [h.nextWorkFor_endgame peerHas rng hnone, endgameCandidate_eq_some_iff]
    refine ⟨holders, ⟨hlookup, hlt, (hhas p).mpr rfl⟩, fun q others hq => ?_⟩
    obtain ⟨hother, -, hqhas⟩ := hq
    obtain rfl := (hhas q).mp hqhas
    cases hlookup.symm.trans hother
    exact .inr ⟨rfl, Nat.le_refl q⟩

/-- Unless all is done or too many work on everything that is left, some wanted piece is offered. -/
theorem Inv.exists_offered (h : m.Inv) (hdone : m.isDone = false)
    (hfree : ∀ p, m.isWanted p = true → p ∉ m.completed → m.reserved p < MAX_ENDGAME_HOLDERS) :
    ∃ p, m.Offers p ∧ p < m.totalPieces ∧ m.isWanted p = true ∧ p ∉ m.completed := by
  by_cases hqueued : ∃ q, m.Queued q
  · obtain ⟨q, hq⟩ := hqueued
    exact ⟨q, .inl hq, h.missing_lt q hq.1, h.missing_wanted q hq.1, hq.2⟩
  · have hopen : ∃ p, p < m.totalPieces ∧ m.isWanted p = true ∧ p ∉ m.completed := by
      by_contra hnone
      push Not at hnone
      refine absurd ((isDone_iff h).mpr fun p hp hw => ?_) (by rw [hdone]; exact Bool.false_ne_true)
      exact decide_eq_true (hnone p hp hw)
    obtain ⟨p, hp, hwanted, hmissing⟩ := hopen
    cases hlookup : m.inProgress.lookup p with
    | none => exact absurd ⟨p, h.queued p hp hwanted hmissing hlookup, hmissing⟩ hqueued
    | some holders =>
      have hlt := hfree p hwanted hmissing
      rw [reserved, hlookup] at hlt
      exact ⟨p, .inr ⟨fun q hq => hqueued ⟨q, hq⟩, holders, hlookup, hlt⟩, hp, hwanted, hmissing⟩

def outstanding (m : TorrentManager) : Finset Nat :=
  (Finset.range m.totalPieces).filter fun p => m.isWanted p = true ∧ p ∉ m.completed

theorem mem_outstanding : p ∈ m.outstanding ↔
    p < m.totalPieces ∧ m.isWanted p = true ∧ p ∉ m.completed := by
  rw [outstanding, Finset.mem_filter, Finset.mem_range]

theorem Inv.isDone_iff_outstanding (h : m.Inv) :
    m.isDone = true ↔ m.outstanding.card = 0 := by
  rw [isDone_iff h, Finset.card_eq_zero, outstanding, Finset.filter_eq_empty_iff]
  simp only [Finset.mem_range, not_and, not_not, isCompleted, decide_eq_true_eq]

theorem Onward.outstanding_subset {m' : TorrentManager} (h : m.Onward m') :
    m'.outstanding ⊆ m.outstanding := by
  intro q hq
  obtain ⟨hlt, hwanted, hopen⟩ := mem_outstanding.mp hq
  rw [isWanted, h.selection] at hwanted
  exact mem_outstanding.mpr ⟨h.totalPieces ▸ hlt, hwanted, fun hin => hopen (h.completed hin)⟩

theorem Onward.outstanding_lt {m' : TorrentManager} (h : m.Onward m') (hp : p ∈ m.outstanding)
    (hdone : p ∈ m'.completed) : m'.outstanding.card < m.outstanding.card := by
  refine Finset.card_lt_card ((Finset.ssubset_iff_of_subset h.outstanding_subset).mpr ⟨p, hp, ?_⟩)
  exact fun hin => (mem_outstanding.mp hin).2.2 hdone

end TorrentManager

namespace Coordinator

variable {manager : TorrentManager} {disk : Disk} {hasCompleted : Bool} {fs : FileStore Path}
  {resumeFile : List (List UInt8)} {index : Nat} {data : List UInt8}

theorem completed_pieceDownloaded (hlt : index < manager.totalPieces)
    (hwrite : (disk.writePiece .calm index data fs).1 = true) (paused : Bool) :
    index ∈ (handle .calm ⟨.downloadingData manager disk paused hasCompleted, fs, resumeFile⟩
      (.pieceDownloaded index data)).1.state.manager.completed := by
  have hmarked : index ∈ (manager.markCompleted index).completed :=
    (TorrentManager.mem_completed_markCompleted manager index index).mpr (.inr ⟨rfl, hlt⟩)
  simp only [handle, handlePieceDownloaded]
  split
  case isTrue hdone => exact of_decide_eq_true hdone
  case isFalse =>
    split
    case h_1 he => cases (congrArg Prod.fst he).symm.trans hwrite
    case h_2 => split <;> exact hmarked

end Coordinator
end Tortor.Core

namespace Tortor.System

open Tortor.Core Tortor.Net Tortor.Lib

namespace Swarm

variable {sha1 : List UInt8 → Digest} {codec : ExtensionCodec} {info : TorrentMeta} {s : Swarm}
  {id p : Nat} {P Q : PeerSession → Prop} {c : Coordinator} {msg : CoordinatorMsg} {windows : Bool}

structure Hosts (id : Nat) (P : PeerSession → Prop) (c : Coordinator) (s : Swarm) : Prop where
  running : s.stopped = false
  mailbox : s.mailbox = []
  coordinator : s.coordinator = c
  peer : ∃ peer, s.peers[id]? = some peer ∧ P peer.session

theorem can_turn (h : s.Hosts id P c)
    (hturn : ∀ session, P session → ∃ stimulus, stimulus ≠ .event ∧ ∀ u,
      Q (session.turn (peerContext codec info) sha1 id false (.smooth stimulus) u).1) :
    CanReach (step sha1 codec info) Gentle (Hosts id Q c) s := by
  obtain ⟨peer, hpeer, hP⟩ := h.peer
  obtain ⟨stimulus, hstimulus, hQ⟩ := hturn _ hP
  refine .next (.turn id (.smooth stimulus))
    (fun _ _ => PeerSession.drops_of_stimulus hstimulus rfl) (.here ?_)
  have hlt := (List.getElem?_eq_some_iff.mp hpeer).1
  simp only [step, hpeer, h.running]
  exact ⟨h.running, h.mailbox, h.coordinator, _, List.getElem?_set_self hlt, hQ _⟩

theorem step_send_deliver (h : s.Hosts id P c) {peer : ActivePeer}
    (hpeer : s.peers[id]? = some peer) (houtbox : peer.session.outbox = [msg]) :
    ((s.step sha1 codec info (.send id)).step sha1 codec info (.deliver .calm)) =
      (s.withSession id peer { peer.session with outbox := [] }).resume (c.handle .calm msg) := by
  have hsend : s.step sha1 codec info (.send id) =
      { s.withSession id peer { peer.session with outbox := [] } with mailbox := [msg] } := by
    simp [step, sendNext, hpeer, houtbox, h.running, h.mailbox]
  have hrunning : (s.step sha1 codec info (.send id)).stopped = false := by
    rw [hsend]
    exact h.running
  rw [step_deliver hrunning (congrArg mailbox hsend) .calm, hsend]
  obtain ⟨coordinator, stopped, mailbox, peers, uploadSlots, closing⟩ := s
  obtain ⟨-, rfl, rfl, -⟩ := h
  rfl

theorem can_tell (msg : CoordinatorMsg) (h : s.Hosts id P c) (hnobody : msg.replyTo = none)
    (hP : ∀ session, P session → session.outbox = [msg] ∧
      ∀ events, Q { session with outbox := [], events := session.events ++ events }) :
    CanReach (step sha1 codec info) Gentle (Hosts id Q (c.handle .calm msg).1) s := by
  obtain ⟨peer, hpeer, hsession⟩ := h.peer
  obtain ⟨houtbox, hQ⟩ := hP _ hsession
  refine .next (.send id) trivial (.next (.deliver .calm) trivial (.here ?_))
  rw [step_send_deliver h hpeer houtbox]
  obtain ⟨-, hnotices⟩ | ⟨id, reply, hid, -, -⟩ := effects_handle .calm c msg
  · have hlt := (List.getElem?_eq_some_iff.mp hpeer).1
    rw [resume_notices hnotices]
    refine ⟨h.running, h.mailbox, rfl, ActivePeer.inform (announced (c.handle .calm msg).2)
      { peer with session := { peer.session with outbox := [] } }, ?_, hQ _⟩
    rw [List.getElem?_map, withSession, List.getElem?_set_self hlt]
    rfl
  · cases hnobody.symm.trans hid

theorem can_ask (msg : CoordinatorMsg) (reply : Reply) (h : s.Hosts id P c)
    (heffects : (c.handle .calm msg).2 = [answering id reply])
    (hP : ∀ session, P session → session.outbox = [msg] ∧ session.phase.expects reply ∧
      Q { session with outbox := [], reply := some reply }) :
    CanReach (step sha1 codec info) Gentle (Hosts id Q (c.handle .calm msg).1) s := by
  obtain ⟨peer, hpeer, hsession⟩ := h.peer
  obtain ⟨houtbox, hexpects, hQ⟩ := hP _ hsession
  have hlt := (List.getElem?_eq_some_iff.mp hpeer).1
  refine .next (.send id) trivial (.next (.deliver .calm) trivial (.here ?_))
  rw [step_send_deliver h hpeer houtbox, resume_answer heffects, answer]
  dsimp only [withSession]
  rw [List.getElem?_set_self hlt]
  refine ⟨h.running, h.mailbox, rfl, _, List.getElem?_set_self ?_, ?_⟩
  · rwa [List.length_set]
  · have hreceive := PeerSession.receive_eq (s := { peer.session with outbox := [] }) hexpects
    dsimp only at hreceive ⊢
    rwa [hreceive]

theorem can_fetch {peerHas : Bitfield} {index missing : Nat} {D : List UInt8} {hash : Digest}
    (hsize : D.length < 2 ^ 32) (hmissing : missing ≠ 0)
    (h : s.Hosts id (fun session => ∃ job : Job, job.Fetches index D hash missing ∧
      session.Stands .selecting false peerHas (some job) []) c) :
    CanReach (step sha1 codec info) Gentle
      (Hosts id (fun session => ∃ job : Job, job.index = index ∧ job.expectedHash = hash ∧
        session.Stands (.hashing job D) false peerHas none []) c) s := by
  induction missing using Nat.strongRecOn generalizing s with
  | ind missing ih =>
    have hblock : CanReach (step sha1 codec info) Gentle (Hosts id (fun session =>
        (∃ job : Job, job.index = index ∧ job.expectedHash = hash ∧
          session.Stands (.hashing job D) false peerHas none []) ∨
        ∃ (job : Job) (fewer : Nat), fewer ≠ 0 ∧ fewer < missing ∧ job.Fetches index D hash fewer ∧
          session.Stands .looping false peerHas (some job) []) c) s := by
      refine can_turn h fun session hsession => ?_
      obtain ⟨job, hjob, hstands⟩ := hsession
      obtain ⟨begin, block, hnext⟩ := PeerSession.stands_block hstands hjob hmissing hsize
      exact ⟨.message (.piece index begin block), by rintro ⟨⟩, hnext⟩
    refine hblock.trans fun t ht => ?_
    obtain ⟨peer, hpeer, hdone | ⟨job, fewer, hfewer, hless, hjob, hstands⟩⟩ := ht.peer
    · exact .here ⟨ht.running, ht.mailbox, ht.coordinator, peer, hpeer, hdone⟩
    · have hworks : t.Hosts id (fun session => ∃ job : Job, job.Fetches index D hash fewer ∧
          session.Stands .looping false peerHas (some job) []) c :=
        ⟨ht.running, ht.mailbox, ht.coordinator, peer, hpeer, job, hjob, hstands⟩
      refine (can_turn hworks fun session hsession => ?_).trans fun v hv => ih fewer hless hfewer hv
      obtain ⟨job, hjob, hstands⟩ := hsession
      exact ⟨.tick, by rintro ⟨⟩, fun u => PeerSession.stands_working hstands hjob⟩

section Steps

variable {peerHas : Bitfield} {index : Nat} {D : List UInt8}

theorem can_open {pieces : List Nat}
    (h : s.Hosts id (PeerSession.Stands .opening true peerHas none [.getCompletedPieces id]) c)
    (heffects : (c.handle .calm (.getCompletedPieces id)).2 = [.completedPieces id pieces]) :
    CanReach (step sha1 codec info) Gentle
      (Hosts id (PeerSession.Stands .selecting true peerHas none [])
        (c.handle .calm (.getCompletedPieces id)).1) s := by
  have hasked : CanReach (step sha1 codec info) Gentle (Hosts id (fun session =>
      session.Stands .opening true peerHas none [] ∧
        session.reply = some (.completedPieces pieces))
        (c.handle .calm (.getCompletedPieces id)).1) s := by
    refine can_ask (.getCompletedPieces id) (.completedPieces pieces) h heffects
      fun session hs => ?_
    exact ⟨hs.outbox_eq, by rw [hs.phase_eq]; rfl, hs.posted _ session.events, rfl⟩
  refine hasked.trans fun t ht => ?_
  have hopened : CanReach (step sha1 codec info) Gentle
      (Hosts id (PeerSession.Stands .looping true peerHas none [])
        (c.handle .calm (.getCompletedPieces id)).1) t :=
    can_turn ht fun session hs =>
      ⟨.tick, by rintro ⟨⟩, fun u => PeerSession.stands_opened hs.1 hs.2⟩
  refine hopened.trans fun v hv => ?_
  exact can_turn hv fun session hs => ⟨.tick, by rintro ⟨⟩, fun u => PeerSession.stands_choked hs⟩

theorem can_announce
    (h : s.Hosts id (PeerSession.Stands .selecting true peerHas none []) c)
    (hindex : index < peerHas.len) (hcount : (peerHas.set index).2.count ≠ 0) :
    CanReach (step sha1 codec info) Gentle
      (Hosts id (PeerSession.Stands .requesting false (peerHas.set index).2 none
        [.requestWork (peerHas.set index).2 id]) (c.handle .calm (.peerHave index)).1) s := by
  have hheard : CanReach (step sha1 codec info) Gentle
      (Hosts id (PeerSession.Stands .looping true (peerHas.set index).2 none [.peerHave index]) c)
        s :=
    can_turn h fun session hs =>
      ⟨.message (.have index), by rintro ⟨⟩, fun u => PeerSession.stands_have hs hindex⟩
  refine hheard.trans fun t ht => ?_
  have htold : CanReach (step sha1 codec info) Gentle
      (Hosts id (PeerSession.Stands .looping true (peerHas.set index).2 none [])
        (c.handle .calm (.peerHave index)).1) t :=
    can_tell (.peerHave index) ht rfl fun session hs =>
      ⟨hs.outbox_eq, fun _ => hs.posted session.reply _⟩
  refine htold.trans fun v hv => ?_
  have hchoked : CanReach (step sha1 codec info) Gentle
      (Hosts id (PeerSession.Stands .selecting true (peerHas.set index).2 none [])
        (c.handle .calm (.peerHave index)).1) v :=
    can_turn hv fun session hs => ⟨.tick, by rintro ⟨⟩, fun u => PeerSession.stands_choked hs⟩
  refine hchoked.trans fun w hw => ?_
  have hunchoked : CanReach (step sha1 codec info) Gentle
      (Hosts id (PeerSession.Stands .looping false (peerHas.set index).2 none [])
        (c.handle .calm (.peerHave index)).1) w :=
    can_turn hw fun session hs =>
      ⟨.message .unchoke, by rintro ⟨⟩, fun u => PeerSession.stands_unchoke hs⟩
  refine hunchoked.trans fun x hx => ?_
  exact can_turn hx fun session hs =>
    ⟨.tick, by rintro ⟨⟩, fun u => PeerSession.stands_idle hs hcount⟩

theorem can_download
    (h : s.Hosts id (PeerSession.Stands .requesting false peerHas none [.requestWork peerHas id]) c)
    (heffects : (c.handle .calm (.requestWork peerHas id)).2 = [.work id (some index)])
    (hverified : Verified (peerContext codec info) sha1 index D) (hpos : 0 < D.length)
    (hsize : D.length < 2 ^ 32) :
    CanReach (step sha1 codec info) Gentle
      (Hosts id (PeerSession.Stands .looping false peerHas none [.pieceDownloaded index D])
        (c.handle .calm (.requestWork peerHas id)).1) s := by
  have hasked : CanReach (step sha1 codec info) Gentle (Hosts id (fun session =>
      session.Stands .requesting false peerHas none [] ∧ session.reply = some (.work (some index)))
        (c.handle .calm (.requestWork peerHas id)).1) s := by
    refine can_ask (.requestWork peerHas id) (.work (some index)) h heffects fun session hs => ?_
    exact ⟨hs.outbox_eq, by rw [hs.phase_eq]; rfl, hs.posted _ session.events, rfl⟩
  refine hasked.trans fun t ht => ?_
  have hhanded : CanReach (step sha1 codec info) Gentle (Hosts id (fun session =>
      ∃ (job : Job) (missing : Nat), missing ≠ 0 ∧ job.Fetches index D (sha1 D) missing ∧
        session.Stands .selecting false peerHas (some job) [])
        (c.handle .calm (.requestWork peerHas id)).1) t :=
    can_turn ht fun session hs =>
      ⟨.tick, by rintro ⟨⟩, fun u => PeerSession.stands_handed hs.1 hs.2 hverified hpos⟩
  refine hhanded.trans fun v hv => ?_
  obtain ⟨peer, hpeer, job, missing, hmissing, hjob, hstands⟩ := hv.peer
  refine (can_fetch hsize hmissing
    ⟨hv.running, hv.mailbox, hv.coordinator, peer, hpeer, job, hjob, hstands⟩).trans fun w hw => ?_
  refine can_turn hw fun session hs => ?_
  obtain ⟨job, rfl, hhash, hstands⟩ := hs
  exact ⟨.tick, by rintro ⟨⟩, fun u => PeerSession.stands_hashed hstands hhash⟩

end Steps

/-- What it takes to have a peer give out piece `p`. -/
structure Fetchable (sha1 : List UInt8 → Digest) (codec : ExtensionCodec) (info : TorrentMeta)
    (m : TorrentManager) (disk : Disk) (p : Nat) (D : List UInt8) : Prop where
  inv : m.Inv
  offers : m.Offers p
  lt : p < m.totalPieces
  known : p < info.pieces.length
  verified : Verified (peerContext codec info) sha1 p D
  pos : 0 < D.length
  size : D.length < 2 ^ 32
  written : ∀ fs, (disk.writePiece .calm p D fs).1 = true

theorem can_serve {m : TorrentManager} {disk : Disk} {hasCompleted : Bool} {fs : FileStore Path}
    {saved : List (List UInt8)} {D : List UInt8} (hp : Fetchable sha1 codec info m disk p D)
    (h : s.Hosts id (PeerSession.Stands .opening true (.new info.pieces.length) none
      [.getCompletedPieces id]) ⟨.downloadingData m disk false hasCompleted, fs, saved⟩) :
    CanReach (step sha1 codec info) Gentle (fun t => p ∈ t.manager.completed) s := by
  have hhas (q : Nat) : ((Bitfield.new info.pieces.length).set p).2.has q = true ↔ q = p := by
    rw [Bitfield.has_set, Bitfield.has_new]
    simp [hp.known]
  generalize hnew : Bitfield.new info.pieces.length = blank at h hhas
  have hlen : p < blank.len := by
    rw [← hnew]
    exact hp.known
  have hcount : (blank.set p).2.count ≠ 0 := fun hzero =>
    absurd ((hhas p).mpr rfl) (by rw [Bitfield.count_eq_zero.mp hzero p]; exact Bool.false_ne_true)
  have hinv : (m.addPeerPiece p).Inv := hp.inv.call (.addPeerPiece p)
  have hwork : ((m.addPeerPiece p).nextWorkFor (blank.set p).2 Env.calm.rng).1 = some p :=
    hinv.nextWorkFor_offered hp.offers hhas _
  have htotal : ((m.addPeerPiece p).nextWorkFor (blank.set p).2 Env.calm.rng).2.totalPieces =
      m.totalPieces := (TorrentManager.alike_nextWorkFor ..).totalPieces
  refine (can_open h rfl).trans fun t ht => ?_
  refine (can_announce ht hlen hcount).trans fun v hv => ?_
  refine (can_download hv (congrArg (fun piece => [Effect.work id piece]) hwork) hp.verified hp.pos
    hp.size).trans fun w hw => ?_
  have htold : CanReach (step sha1 codec info) Gentle (Hosts id (fun _ => True) _) w :=
    can_tell (.pieceDownloaded p D) hw rfl fun session hs => ⟨hs.outbox_eq, fun _ => trivial⟩
  refine htold.mono fun x hx => ?_
  rw [manager, hx.coordinator]
  exact Coordinator.completed_pieceDownloaded (hp.lt.trans_eq htotal.symm) (hp.written fs) false

theorem can_resume {m : TorrentManager} {disk : Disk} {paused hasCompleted : Bool}
    {fs : FileStore Path} {saved : List (List UInt8)} (hrunning : s.stopped = false)
    (hmailbox : s.mailbox = [])
    (hcoordinator : s.coordinator = ⟨.downloadingData m disk paused hasCompleted, fs, saved⟩) :
    CanReach (step sha1 codec info) Gentle (fun t => t.stopped = false ∧ t.mailbox = [] ∧
      t.coordinator = ⟨.downloadingData m disk false hasCompleted, fs, saved⟩) s := by
  refine .next (.command .resume) rfl (.next (.deliver .calm) trivial (.here ?_))
  have hcommand : s.step sha1 codec info (.command .resume) = { s with mailbox := [.resume] } := by
    simp [step, hrunning, hmailbox, isCommand]
  have hstill := (congrArg stopped hcommand).trans hrunning
  have hposted : (s.step sha1 codec info (.command .resume)).mailbox = [.resume] :=
    congrArg mailbox hcommand
  have hsame := (congrArg Swarm.coordinator hcommand).trans hcoordinator
  rw [step_deliver hstill hposted, mailbox_resume, (resume_frame _ _).1, (resume_frame _ _).2,
    hsame]
  exact ⟨hstill, rfl, rfl⟩

theorem can_dial (hrunning : s.stopped = false) (hmailbox : s.mailbox = []) :
    CanReach (step sha1 codec info) Gentle (Hosts s.peers.length
      (PeerSession.Stands .opening true (.new info.pieces.length) none
        [.getCompletedPieces s.peers.length]) s.coordinator) s := by
  refine .next (.dial (.v4 0 0) 0) trivial (.next (.connect s.peers.length false (.smooth .tick))
    trivial (.here ?_))
  have hpeer : (s.step sha1 codec info (.dial (.v4 0 0) 0)).peers[s.peers.length]? =
      some ⟨.new (peerContext codec info) (.v4 0 0), 0⟩ := List.getElem?_concat_length
  have hlt := (List.getElem?_eq_some_iff.mp hpeer).1
  have hconnect : (s.step sha1 codec info (.dial (.v4 0 0) 0)).step sha1 codec info
      (.connect s.peers.length false (.smooth .tick)) =
        (s.step sha1 codec info (.dial (.v4 0 0) 0)).withSession s.peers.length
          ⟨.new (peerContext codec info) (.v4 0 0), 0⟩
          ((PeerSession.new (peerContext codec info) (.v4 0 0)).connect (peerContext codec info)
            s.peers.length false (.smooth .tick)) := by
    generalize s.step sha1 codec info (.dial (.v4 0 0) 0) = t at hpeer
    simp only [step, hpeer]
    rfl
  rw [hconnect]
  exact ⟨hrunning, hmailbox, rfl, _, List.getElem?_set_self hlt,
    PeerSession.stands_connect (peerContext codec info) _⟩

theorem fits_of_verified (haccepted : ∃ raw infoHash, buildMeta windows raw infoHash = .ok info)
    {index : Nat} {D : List UInt8} (h : Verified (peerContext codec info) sha1 index D) :
    index * info.pieceLength + D.length ≤ totalSize info ∧ 0 < D.length ∧ D.length < 2 ^ 32 := by
  obtain ⟨raw, infoHash, hbuilt⟩ := haccepted
  obtain ⟨total, hwell⟩ := wellFormed_of_buildMeta hbuilt
  have hpos := hwell.pieceLength_pos
  have hmax : info.pieceLength < 2 ^ 32 :=
    (pieceLength_le_of_buildMeta hbuilt).trans_lt (by decide)
  have hlength := h.length
  rw [WellFormed.totalSize_eq hwell]
  change pieceLenAt index info.pieceLength info.totalLength = _ at hlength
  rw [hwell.totalLength] at hlength
  unfold pieceLenAt at hlength
  dsimp only at hlength
  split at hlength
  · cases hlength
  · split at hlength
    · cases hlength
    · rw [Nat.mod_eq_of_lt (by omega), Option.some.injEq] at hlength
      omega

theorem held_of_quiet (h : s.Quiet) (hsteady : s.Steady sha1 codec info) (p : Nat) :
    s.held p = 0 := by
  have hnone : tally (fun peer : ActivePeer => peer.session.burden.count p) s.peers = 0 := by
    refine tally_eq_zero.mpr fun peer hmem => ?_
    obtain ⟨id, hpeer⟩ := List.getElem?_of_mem hmem
    rw [PeerSession.burden_idle (hsteady.valid id peer hpeer) (.inr (h.ended peer hmem))]
    rfl
  rw [held, hnone, h.mailbox]
  rfl

/-- A torrent at rest can get one more of the pieces that it wants. -/
theorem can_progress (haccepted : ∃ raw infoHash, buildMeta windows raw infoHash = .ok info)
    (hpublished : ∀ index < info.pieces.length, ∃ D, Verified (peerContext codec info) sha1 index D)
    (h : s.Able sha1 codec info) (hquiet : s.Quiet) (hdone : s.manager.isDone = false) :
    ∃ p ∈ s.manager.outstanding,
      CanReach (step sha1 codec info) Gentle (fun t => p ∈ t.manager.completed) s := by
  have hsteady := h.steady h.running
  have hfree (p : Nat) (hwanted : s.manager.isWanted p = true) (hopen : p ∉ s.manager.completed) :
      s.manager.reserved p < MAX_ENDGAME_HOLDERS := by
    have hlt := (h.free p hwanted).resolve_left fun hdone => hopen (of_decide_eq_true hdone)
    rwa [ledger, Coordinator.books, held_of_quiet hquiet hsteady] at hlt
  obtain ⟨p, hoffers, hlt, hwanted, hopen⟩ := h.inv.exists_offered hdone hfree
  have hknown : p < info.pieces.length := hlt.trans_le h.totalPieces
  obtain ⟨D, hverified⟩ := hpublished p hknown
  obtain ⟨hfits, hpos, hsize⟩ := fits_of_verified haccepted hverified
  refine ⟨p, TorrentManager.mem_outstanding.mpr ⟨hlt, hwanted, hopen⟩, ?_⟩
  have hcontiguous := h.contiguous
  have hlength := h.pieceLength
  have hinv := h.inv
  have hdownloading := hquiet.downloading
  unfold manager at hlt hoffers hinv ⊢
  generalize hc : s.coordinator = c at *
  obtain ⟨state, fs, saved⟩ := c
  cases state with
  | checkingFiles => cases hdownloading
  | downloadingData m disk paused hasCompleted =>
    have hp : Fetchable sha1 codec info m disk p D :=
      ⟨hinv, hoffers, hlt, hknown, hverified, hpos, hsize,
        Disk.writePiece_calm hcontiguous (by
          change p * disk.shape.2 + _ ≤ _
          rw [show disk.shape.2 = info.pieceLength from hlength]
          exact hfits)⟩
    refine (can_resume h.running hquiet.mailbox hc).trans fun t ht => ?_
    refine (can_dial ht.1 ht.2.1).trans fun v hv => ?_
    rw [ht.2.2] at hv
    exact can_serve hp hv

end Swarm
end Tortor.System
