import Tortor.Core.CoordinatorLaws
import Tortor.Net.Session

/-! What a turn of a session does to the things that others rely on: the piece it was handed, what
it has told the coordinator about its peer, the answer it waits for, and its upload slot. -/

namespace Tortor.Net

open Tortor.Core

/-- The pieces a peer has claimed to have in the messages it sent, the newest one first. -/
def advertises (len : Nat) : List PeerMessage → Nat → Bool
  | [], _ => false
  | .have index :: rest, p => p == index || advertises len rest p
  | .bitfield payload :: _, p => decide (p < len) && hasBit payload p
  | _ :: rest, p => advertises len rest p

def Phase.piece : Phase → Option Nat
  | hashing job _ => some job.index
  | _ => none

def Phase.connected : Phase → Bool
  | dialing | closing | ended => false
  | _ => true

def Phase.awaits : Phase → Bool
  | opening | requesting | serving .. => true
  | _ => false

def Phase.asks : Phase → CoordinatorMsg → Bool
  | opening, .getCompletedPieces _ | requesting, .requestWork .. | serving .., .readPiece .. => true
  | _, _ => false

def Phase.expects : Phase → Reply → Bool
  | opening, .completedPieces _ | requesting, .work _ | serving .., .block _ => true
  | _, _ => false

def isNeeded : CoordinatorMsg → Bool
  | .requestWork .. | .pieceDownloaded .. | .getCompletedPieces _ | .readPiece .. => true
  | _ => false

def Reply.piece : Reply → Option Nat
  | work piece => piece
  | _ => none

structure Job.Valid (ctx : PeerContext) (job : Job) : Prop where
  hash : ctx.expectedHashes[job.index]? = some job.expectedHash
  length : pieceLenAt job.index ctx.pieceLength ctx.totalLength = some job.assembler.expectedLength
  buffer : job.assembler.buffer.length = job.assembler.expectedLength

structure Verified (ctx : PeerContext) (sha1 : List UInt8 → Digest) (index : Nat)
    (data : List UInt8) : Prop where
  hash : ctx.expectedHashes[index]? = some (sha1 data)
  length : pieceLenAt index ctx.pieceLength ctx.totalLength = some data.length

namespace PeerSession

/-- The pieces that the session was handed and has not given back. -/
def burden (self : PeerSession) : List Nat :=
  (self.job.map Job.index).toList ++ self.phase.piece.toList ++
    (self.reply.bind Reply.piece).toList ++ self.outbox.filterMap CoordinatorMsg.returned

/-- The pieces that count for a peer, when `outbox` has yet to be sent. -/
def told (peerHas : Bitfield) : List CoordinatorMsg → Nat → Bool
  | [], p => peerHas.has p
  | .peerGone pieces :: _, p => pieces.has p
  | .peerBitfield _ :: _, _ => false
  | .peerHave index :: rest, p => p != index && told peerHas rest p
  | _ :: rest, p => told peerHas rest p

def Truthful (peerHas : Bitfield) : List CoordinatorMsg → Prop
  | [] => True
  | msg :: rest => Truthful peerHas rest ∧
    match msg with
    | .peerGone _ => ∀ p, told peerHas rest p = false
    | .peerBitfield pieces => ∀ p, told peerHas rest p = pieces.has p
    | .peerHave index => told peerHas rest index = true
    | _ => True

def asked (id : Nat) (self : PeerSession) : Nat :=
  self.outbox.countP (·.replyTo == some id) + self.reply.isSome.toNat

structure Valid (ctx : PeerContext) (sha1 : List UInt8 → Digest) (id : Nat) (s : PeerSession) :
    Prop where
  len : s.peerHas.len = ctx.expectedHashes.length
  heard : ∀ p, s.peerHas.has p =
    (s.phase.connected && advertises ctx.expectedHashes.length s.received p)
  truthful : Truthful s.peerHas s.outbox
  slot : s.phase.connected → s.holdsUploadSlot = !s.amChoking
  unchoked : s.phase ≠ .ended → s.amChoking = false → s.holdsUploadSlot = true
  serving : ∀ index begin, s.phase = .serving index begin → s.amChoking = false
  single : s.burden.length ≤ 1
  jobs : ∀ job, s.job = some job → job.Valid ctx
  hashing : ∀ job buffer, s.phase = .hashing job buffer →
    job.Valid ctx ∧ buffer.length = job.assembler.expectedLength
  verified : ∀ index data, .pieceDownloaded index data ∈ s.outbox → Verified ctx sha1 index data
  ready : s.phase = .requesting →
    s.job = none ∧ s.outbox.filterMap CoordinatorMsg.returned = []
  silent : s.phase.awaits = false → s.reply = none
  asks : ∀ msg ∈ s.outbox, msg.replyTo.isSome → msg.replyTo = some id ∧ s.phase.asks msg
  waits : s.phase.awaits → ∀ msg ∈ s.outbox, msg.replyTo.isSome
  alone : ∀ msg ∈ s.outbox, isNeeded msg →
    s.outbox = [msg] ∧ s.reply = none ∧ s.phase.connected
  jobless : s.phase.connected = false → s.job = none
  idle : s.phase = .dialing ∨ s.phase = .ended → s.outbox = [] ∧ s.holdsUploadSlot = false
  fresh : s.phase = .dialing → s.received = [] ∧ s.amChoking = true

/-- What one piece of code between two awaits leaves behind: the pieces in hand, the pieces that
count for the peer, the requests underway, and the upload slots. -/
structure Outcome (ctx : PeerContext) (sha1 : List UInt8 → Digest) (id : Nat) (pieces : List Nat)
    (has : Nat → Bool) (held : Bool) (before : UploadSlots) (result : PeerSession × UploadSlots) :
    Prop where
  valid : result.1.Valid ctx sha1 id
  burden_eq : result.1.burden = pieces
  told_eq : ∀ p, told result.1.peerHas result.1.outbox p = has p
  asked_eq : result.1.asked id = result.1.phase.awaits.toNat
  max_eq : result.2.max = before.max
  used_le : before.used ≤ before.max → result.2.used ≤ before.max
  slots_eq : held.toNat ≤ before.used →
    result.2.used + held.toNat = before.used + result.1.holdsUploadSlot.toNat

/-- A session whose code has the floor: it holds `pieces` and, when `held`, an upload slot, and
`has` are the pieces of its peer. -/
structure Running (ctx : PeerContext) (pieces : List Nat) (has : Nat → Bool) (held : Bool)
    (s : PeerSession) : Prop where
  len : s.peerHas.len = ctx.expectedHashes.length
  outbox : s.outbox = []
  reply : s.reply = none
  jobs : ∀ job, s.job = some job → job.Valid ctx
  job_eq : (s.job.map Job.index).toList = pieces
  has_eq : ∀ p, s.peerHas.has p = has p
  held_eq : s.holdsUploadSlot = held
  unchoked : s.amChoking = false → s.holdsUploadSlot = true

structure Active (ctx : PeerContext) (pieces : List Nat) (has : Nat → Bool) (held : Bool)
    (s : PeerSession) : Prop extends Running ctx pieces has held s where
  heard : ∀ p, s.peerHas.has p = advertises ctx.expectedHashes.length s.received p
  slot : s.holdsUploadSlot = !s.amChoking

variable {ctx : PeerContext} {sha1 : List UInt8 → Digest} {id : Nat} {s : PeerSession}
  {u : UploadSlots} {pieces : List Nat} {has : Nat → Bool} {held : Bool}

theorem length_toList_le (o : Option Nat) : o.toList.length ≤ 1 := by cases o <;> simp

theorem Running.single (h : Running ctx pieces has held s) : pieces.length ≤ 1 :=
  h.job_eq ▸ length_toList_le _

structure Goes (ctx : PeerContext) (sha1 : List UInt8 → Digest) (id : Nat) (pieces : List Nat)
    (has : Nat → Bool) (held : Bool) (s : PeerSession) : Prop where
  len : s.peerHas.len = ctx.expectedHashes.length
  heard : ∀ p, s.peerHas.has p = advertises ctx.expectedHashes.length s.received p
  slot : s.holdsUploadSlot = !s.amChoking
  held_eq : s.holdsUploadSlot = held
  reply : s.reply = none
  jobs : ∀ job, s.job = some job → job.Valid ctx
  connected : s.phase.connected
  serving : ∀ index begin, s.phase = .serving index begin → s.amChoking = false
  hashing : ∀ job buffer, s.phase = .hashing job buffer →
    job.Valid ctx ∧ buffer.length = job.assembler.expectedLength
  ready : s.phase = .requesting →
    s.job = none ∧ s.outbox.filterMap CoordinatorMsg.returned = []
  verified : ∀ index data, .pieceDownloaded index data ∈ s.outbox → Verified ctx sha1 index data
  asks : ∀ msg ∈ s.outbox, msg.replyTo.isSome → msg.replyTo = some id ∧ s.phase.asks msg
  waits : s.phase.awaits → ∀ msg ∈ s.outbox, msg.replyTo.isSome
  alone : ∀ msg ∈ s.outbox, isNeeded msg → s.outbox = [msg]
  truthful : Truthful s.peerHas s.outbox
  burden : s.burden = pieces
  single : pieces.length ≤ 1
  told : ∀ p, told s.peerHas s.outbox p = has p
  asked : s.outbox.countP (·.replyTo == some id) = s.phase.awaits.toNat

theorem Goes.outcome (h : Goes ctx sha1 id pieces has held s) :
    Outcome ctx sha1 id pieces has held u (s, u) where
  valid :=
    { h with
      heard := fun p => by rw [h.connected, Bool.true_and]; exact h.heard p
      slot := fun _ => h.slot
      unchoked := fun _ hu => by rw [h.slot, hu]; rfl
      single := h.burden ▸ h.single
      silent := fun _ => h.reply
      alone := fun msg hm hn => ⟨h.alone msg hm hn, h.reply, h.connected⟩
      jobless := fun hc => absurd (h.connected.symm.trans hc) nofun
      idle := by
        rintro (he | he) <;> have hc := h.connected <;> rw [show s.phase = _ from he] at hc <;>
          cases hc
      fresh := fun he => by
        have hc := h.connected
        rw [he] at hc
        cases hc }
  burden_eq := h.burden
  told_eq := h.told
  asked_eq := by simpa [PeerSession.asked, h.reply] using h.asked
  max_eq := rfl
  used_le hle := hle
  slots_eq _ := by rw [h.held_eq]

structure Ends (ctx : PeerContext) (sha1 : List UInt8 → Digest) (id : Nat) (pieces : List Nat)
    (has : Nat → Bool) (held : Bool) (s : PeerSession) : Prop where
  len : s.peerHas.len = ctx.expectedHashes.length
  held_eq : s.holdsUploadSlot = held
  unchoked : s.amChoking = false → s.holdsUploadSlot = true
  reply : s.reply = none
  job : s.job = none
  phase : s.phase = .closing
  none : ∀ p, s.peerHas.has p = false
  plain : ∀ msg ∈ s.outbox, isNeeded msg = false
  truthful : Truthful s.peerHas s.outbox
  burden : s.burden = pieces
  single : pieces.length ≤ 1
  told : ∀ p, told s.peerHas s.outbox p = has p

theorem isSome_replyTo {msg : CoordinatorMsg} (h : msg.replyTo.isSome) : isNeeded msg := by
  cases msg <;> first | rfl | cases h

theorem Ends.outcome (h : Ends ctx sha1 id pieces has held s) :
    Outcome ctx sha1 id pieces has held u (s, u) where
  valid :=
    { len := h.len
      heard := fun p => by rw [h.phase]; exact h.none p
      truthful := h.truthful
      slot := fun hc => by rw [h.phase] at hc; cases hc
      unchoked := fun _ => h.unchoked
      serving := fun _ _ hp => nomatch h.phase.symm.trans hp
      single := h.burden ▸ h.single
      jobs := fun job hj => nomatch h.job.symm.trans hj
      hashing := fun _ _ hp => nomatch h.phase.symm.trans hp
      verified := fun _ _ hm => nomatch h.plain _ hm
      ready := fun hp => nomatch h.phase.symm.trans hp
      silent := fun _ => h.reply
      asks := fun msg hm hr => absurd ((h.plain msg hm).symm.trans (isSome_replyTo hr)) nofun
      waits := fun ha => by rw [h.phase] at ha; cases ha
      alone := fun msg hm hn => absurd ((h.plain msg hm).symm.trans hn) nofun
      jobless := fun _ => h.job
      idle := fun hp => hp.elim (fun hp => nomatch h.phase.symm.trans hp)
        fun hp => nomatch h.phase.symm.trans hp
      fresh := fun hp => nomatch h.phase.symm.trans hp }
  burden_eq := h.burden
  told_eq := h.told
  asked_eq := by
    have hnone : s.outbox.countP (·.replyTo == some id) = 0 :=
      List.countP_eq_zero.mpr fun msg hm hr => by
        have hplain := h.plain msg hm
        rw [isSome_replyTo (by rw [beq_iff_eq.mp hr]; rfl)] at hplain
        cases hplain
    rw [PeerSession.asked, h.reply, h.phase, hnone]
    rfl
  max_eq := rfl
  used_le hle := hle
  slots_eq _ := by rw [h.held_eq]

/-! Messages that give pieces back neither tell of one nor ask for anything. -/

theorem told_failed (peerHas : Bitfield) (pieces : List Nat) (rest : List CoordinatorMsg) (p : Nat) :
    told peerHas (pieces.map CoordinatorMsg.pieceFailed ++ rest) p = told peerHas rest p := by
  induction pieces with
  | nil => rfl
  | cons index pieces ih => exact ih

theorem truthful_failed {peerHas : Bitfield} {rest : List CoordinatorMsg}
    (h : Truthful peerHas rest) (pieces : List Nat) :
    Truthful peerHas (pieces.map CoordinatorMsg.pieceFailed ++ rest) := by
  induction pieces with
  | nil => exact h
  | cons index pieces ih => exact ⟨ih, trivial⟩

theorem returned_failed (pieces : List Nat) :
    (pieces.map CoordinatorMsg.pieceFailed).filterMap CoordinatorMsg.returned = pieces := by
  rw [List.filterMap_map]
  exact List.filterMap_some

/-- However a session ends, it has first given back what it had. -/
theorem outcome_ends (hlen : s.peerHas.len = ctx.expectedHashes.length) (hreply : s.reply = none)
    (hhas : ∀ p, s.peerHas.has p = has p) (hheld : s.holdsUploadSlot = held)
    (hunchoked : s.amChoking = false → s.holdsUploadSlot = true) (hsingle : pieces.length ≤ 1)
    (hgives : s.outbox ++ (s.job.map fun job => CoordinatorMsg.pieceFailed job.index).toList =
      pieces.map CoordinatorMsg.pieceFailed) :
    Outcome ctx sha1 id pieces has held u (s.finish, u) := by
  have hreturned := returned_failed pieces
  have hplain : ∀ msg ∈ pieces.map CoordinatorMsg.pieceFailed, isNeeded msg = false :=
    List.forall_mem_map.mpr fun _ _ => rfl
  apply Ends.outcome
  by_cases hcount : 0 < s.peerHas.count
  · have hgone : Truthful (.new s.peerHas.len) [.peerGone s.peerHas] :=
      ⟨trivial, fun _ => Bitfield.has_new _ _⟩
    simp only [finish, hcount, if_true, hgives]
    exact ⟨hlen, hheld, hunchoked, hreply, rfl, rfl, fun _ => Bitfield.has_new _ _,
      List.forall_mem_append.mpr ⟨hplain, List.forall_mem_singleton.mpr rfl⟩,
      truthful_failed hgone pieces, by simp [burden, hreply, Phase.piece, hreturned], hsingle,
      fun p => (told_failed _ pieces _ p).trans (hhas p)⟩
  · have hnone : ∀ p, s.peerHas.has p = false := Bitfield.count_eq_zero.mp (by omega)
    have htruthful : Truthful s.peerHas (pieces.map CoordinatorMsg.pieceFailed) := by
      simpa using @truthful_failed s.peerHas [] trivial pieces
    have htold (p : Nat) : told s.peerHas (pieces.map CoordinatorMsg.pieceFailed) p = has p := by
      rw [← hhas p, ← List.append_nil (pieces.map _), told_failed, told]
    simp only [finish, hcount, if_false, hgives]
    exact ⟨hlen, hheld, hunchoked, hreply, rfl, rfl, hnone, hplain, htruthful,
      by simp [burden, hreply, Phase.piece, hreturned], hsingle, htold⟩

theorem outcome_finish (h : Running ctx pieces has held s) :
    Outcome ctx sha1 id pieces has held u (s.finish, u) := by
  refine outcome_ends h.len h.reply h.has_eq h.held_eq h.unchoked h.single ?_
  rw [h.outbox, ← h.job_eq]
  cases s.job <;> rfl

theorem outcome_failed (h : Running ctx [] has held s) (index : Nat) :
    Outcome ctx sha1 id [index] has held u ((s.post (.pieceFailed index)).finish, u) := by
  have hnojob : s.job = none := by simpa using h.job_eq
  refine outcome_ends h.len h.reply h.has_eq h.held_eq h.unchoked le_rfl ?_
  simp [post, h.outbox, hnojob]

theorem outcome_stay (h : Active ctx pieces has held s) (hc : s.phase.connected)
    (hp : s.phase.piece = none) (ha : s.phase.awaits = false) :
    Outcome ctx sha1 id pieces has held u (s, u) :=
  Goes.outcome
    { h with
      connected := hc
      serving := fun _ _ he => by rw [he] at ha; cases ha
      hashing := fun _ _ he => by rw [he] at hp; cases hp
      ready := fun he => by rw [he] at ha; cases ha
      verified := by simp [h.outbox]
      asks := by simp [h.outbox]
      waits := by simp [h.outbox]
      alone := by simp [h.outbox]
      truthful := by simp [h.outbox, Truthful]
      burden := by simp [PeerSession.burden, hp, h.reply, h.outbox, h.job_eq]
      single := h.single
      told := by simpa [h.outbox, PeerSession.told] using h.has_eq
      asked := by simp [h.outbox, ha] }

theorem question {msg : CoordinatorMsg} (h : msg.replyTo = some id) :
    msg.returned = none ∧ (∀ peerHas p, told peerHas [msg] p = peerHas.has p) ∧
      ∀ peerHas, Truthful peerHas [msg] := by
  cases msg <;> first
    | exact ⟨rfl, fun _ _ => rfl, fun _ => ⟨trivial, trivial⟩⟩
    | cases h

theorem outcome_ask (h : Active ctx pieces has held s) (hc : s.phase.connected)
    (hp : s.phase.piece = none) (ha : s.phase.awaits = true)
    (hserving : ∀ index begin, s.phase = .serving index begin → s.amChoking = false)
    (hready : s.phase = .requesting → s.job = none) {msg : CoordinatorMsg}
    (hid : msg.replyTo = some id) (hasks : s.phase.asks msg) :
    Outcome ctx sha1 id pieces has held u (s.post msg, u) := by
  obtain ⟨hreturned, htold, htruthful⟩ := question hid
  have hnot : [msg].filterMap CoordinatorMsg.returned = [] := List.filterMap_cons_none hreturned
  have hone : [msg].countP (·.replyTo == some id) = 1 :=
    List.countP_cons_of_pos (beq_iff_eq.mpr hid)
  have houtbox : (s.post msg).outbox = [msg] := by rw [post, h.outbox, List.nil_append]
  apply Goes.outcome
  refine ⟨h.len, h.heard, h.slot, h.held_eq, h.reply, h.jobs, hc, hserving, ?_,
    fun he => ⟨hready he, ?_⟩, ?_, ?_, ?_, ?_, ?_, ?_, h.single, fun p => ?_, ?_⟩
  · exact fun _ _ he => by rw [show s.phase = _ from he] at hp; cases hp
  · rw [houtbox, hnot]
  · intro index data hin
    rw [houtbox, List.mem_singleton] at hin
    rw [← hin] at hid
    cases hid
  · intro other hm _
    rw [houtbox, List.mem_singleton] at hm
    rw [hm]
    exact ⟨hid, hasks⟩
  · intro _ other hm
    rw [houtbox, List.mem_singleton] at hm
    rw [hm, hid]
    rfl
  · intro other hm _
    rw [houtbox, List.mem_singleton] at hm
    rw [houtbox, hm]
  · rw [houtbox]
    exact htruthful s.peerHas
  · rw [burden, houtbox, hnot]
    simp [post, hp, h.reply, h.job_eq]
  · rw [houtbox]
    exact (htold s.peerHas p).trans (h.has_eq p)
  · rw [houtbox]
    exact hone.trans (by rw [post, ha]; rfl)

/-! Requests change neither the length of a piece nor what has been received of it. -/

theorem sameContents_nextRequest {a b : PieceAssembler} {now timeout : Nat}
    {request : Nat × Nat × Bool} (h : a.nextRequest now timeout = some (request, b)) :
    b.expectedLength = a.expectedLength ∧ b.buffer = a.buffer := by
  obtain ⟨⟨r, blocks⟩, -, he⟩ := Option.map_eq_some_iff.mp h
  cases he
  exact ⟨rfl, rfl⟩

theorem sameContents_requestLoop (turn : Turn) (index rounds : Nat) (a : PieceAssembler)
    (sent : List PeerMessage) :
    (requestLoop turn index rounds a sent).2.1.expectedLength = a.expectedLength ∧
      (requestLoop turn index rounds a sent).2.1.buffer = a.buffer := by
  induction rounds generalizing a sent with
  | zero => exact ⟨rfl, rfl⟩
  | succ rounds ih =>
    unfold requestLoop
    split
    case isFalse => exact ⟨rfl, rfl⟩
    case isTrue =>
      split
      case h_1 => exact ⟨rfl, rfl⟩
      case h_2 begin len retry b hnext =>
        have hb := sameContents_nextRequest hnext
        split
        · exact ⟨(ih b _).1.trans hb.1, (ih b _).2.trans hb.2⟩
        · exact hb

theorem outcome_fillPipeline (h : Active ctx pieces has held s) (turn : Turn) :
    Outcome ctx sha1 id pieces has held u (s.fillPipeline turn, u) := by
  simp only [fillPipeline]
  split
  · exact outcome_stay { h with } rfl rfl rfl
  · split
    case h_1 => exact outcome_stay { h with } rfl rfl rfl
    case h_2 job hjob =>
      have hsame := sameContents_requestLoop turn job.index PIPELINE_DEPTH job.assembler s.sent
      have hvalid := h.jobs job hjob
      have hjobs : ∀ other, some { job with assembler := (requestLoop turn job.index PIPELINE_DEPTH
          job.assembler s.sent).2.1 } = some other → other.Valid ctx := by
        rintro _ ⟨⟩
        exact ⟨hvalid.hash, hsame.1 ▸ hvalid.length, hsame.1 ▸ hsame.2 ▸ hvalid.buffer⟩
      have hpieces := h.job_eq
      rw [hjob] at hpieces
      split
      · exact outcome_stay { h with jobs := hjobs, job_eq := hpieces } rfl rfl rfl
      · exact outcome_finish { h with jobs := hjobs, job_eq := hpieces }

theorem outcome_maybeRequestWork (h : Active ctx pieces has held s) (turn : Turn) :
    Outcome ctx sha1 id pieces has held u (s.maybeRequestWork id turn, u) := by
  simp only [maybeRequestWork]
  split
  case isTrue => exact outcome_fillPipeline h turn
  case isFalse hidle =>
    have hjob : s.job = none := by simp_all
    apply outcome_ask (s := { s with phase := .requesting })
    exacts [{ h with }, rfl, rfl, rfl, nofun, fun _ => hjob, rfl, rfl]

theorem outcome_takeWork (h : Active ctx [] has held s) (turn : Turn) (piece : Option Nat) :
    Outcome ctx sha1 id piece.toList has held u (s.takeWork ctx turn piece, u) := by
  cases piece with
  | none =>
    apply outcome_fillPipeline
    exact { h with }
  | some index =>
    simp only [takeWork]
    split
    case h_1 expectedHash length hhash hlength =>
      have hjobs : ∀ job, some (Job.mk index expectedHash (.new index length) turn.now) = some job →
          job.Valid ctx := by
        rintro _ ⟨⟩
        exact ⟨hhash, hlength, List.length_replicate⟩
      apply outcome_fillPipeline
      exact { h with jobs := hjobs, job_eq := rfl }
    case h_2 => exact outcome_failed h.toRunning index

theorem outcome_opened (h : Active ctx pieces has held s) (turn : Turn) (completed : List Nat) :
    Outcome ctx sha1 id pieces has held u (s.opened ctx turn completed, u) := by
  have hinterested {t : PeerSession} (ht : Active ctx pieces has held t) :
      Outcome ctx sha1 id pieces has held u (t.writeThen turn 1 .interested fun self =>
        { self with phase := .looping, amInterested := true }, u) := by
    unfold writeThen
    split
    · apply outcome_stay
      exacts [{ ht with }, rfl, rfl, rfl]
    · exact outcome_finish ht.toRunning
  simp only [opened]
  split
  · exact hinterested h
  · unfold writeThen
    split
    · apply hinterested
      exact { h with }
    · exact outcome_finish h.toRunning

theorem outcome_takeBlock (h : Active ctx pieces has held s) (turn : Turn) (index begin : Nat)
    (data : Option (List UInt8)) :
    Outcome ctx sha1 id pieces has held u (s.takeBlock turn index begin data, u) := by
  cases data with
  | none =>
    apply outcome_stay
    exacts [{ h with }, rfl, rfl, rfl]
  | some block =>
    simp only [takeBlock, writeThen]
    split
    · apply outcome_stay
      exacts [{ h with }, rfl, rfl, rfl]
    · exact outcome_finish h.toRunning

theorem outcome_takeHash (h : Active ctx [] has held s) {job : Job} {buffer : List UInt8}
    (hjob : job.Valid ctx) (hbuffer : buffer.length = job.assembler.expectedLength) (turn : Turn) :
    Outcome ctx sha1 id (if turn.hashFails then [] else [job.index]) has held u
      (s.takeHash sha1 turn job buffer, u) := by
  unfold takeHash
  split
  case isTrue => exact outcome_finish h.toRunning
  case isFalse =>
    split
    case isTrue hsha1 =>
      have hnone : s.job = none := by simpa using h.job_eq
      apply Goes.outcome
      refine ⟨h.len, h.heard, h.slot, h.held_eq, h.reply, h.jobs, rfl, nofun, nofun, nofun, ?_,
        by simp [post, h.outbox], nofun, by simp [post, h.outbox], ?_, ?_, Nat.le_refl 1,
        fun p => ?_, ?_⟩
      · intro index data hin
        rw [post, h.outbox, List.nil_append, List.mem_singleton] at hin
        cases hin
        exact ⟨hsha1 ▸ hjob.hash, hbuffer ▸ hjob.length⟩
      · simp [post, h.outbox, Truthful]
      · simp [burden, post, h.outbox, h.reply, hnone, Phase.piece]
      · simpa [post, h.outbox, told] using h.has_eq p
      · simp [post, h.outbox, Phase.awaits]
    case isFalse => exact outcome_failed h.toRunning job.index

theorem tryWrite_eq (turn : Turn) (msg : PeerMessage) (s : PeerSession) :
    s.tryWrite turn msg = { s with sent := (s.tryWrite turn msg).sent } := by
  unfold tryWrite
  split <;> rfl

theorem handleSnapshot_eq (ctx : PeerContext) (turn : Turn) (currentPeers : List SocketAddr)
    (s : PeerSession) : ∃ peers sent, s.handleSnapshot ctx turn currentPeers =
      { s with lastSentPeers := peers, sent := sent } := by
  unfold handleSnapshot
  split
  · exact ⟨_, _, rfl⟩
  · dsimp only
    split
    · exact ⟨_, _, rfl⟩
    · split
      · rw [tryWrite_eq]
        exact ⟨_, _, rfl⟩
      · exact ⟨_, _, rfl⟩

theorem handleExtended_eq (ctx : PeerContext) (id : UInt8) (payload : List UInt8)
    (s : PeerSession) : ∃ remotePexId pexReceived, s.handleExtended ctx id payload =
      { s with remotePexId := remotePexId, pexReceived := pexReceived } := by
  unfold handleExtended
  repeat' split
  all_goals exact ⟨_, _, rfl⟩

theorem outcome_loop (h : Active ctx pieces has held s) (hphase : s.phase = .looping) :
    Outcome ctx sha1 id pieces has held u (s, u) := by
  apply outcome_stay h <;> rw [hphase] <;> rfl

theorem outcome_handleEvent (h : Active ctx pieces has held s) (turn : Turn) (event : SessionEvent)
    (hkeep : ∀ index, event = .pieceCompleted index → s.job.any (·.index == index) = false) :
    Outcome ctx sha1 id pieces has held u (s.handleEvent ctx turn event, u) := by
  cases event with
  | pieceCompleted index =>
    have hnot := hkeep index rfl
    rw [handleEvent, tryWrite_eq]
    simp only [hnot, Bool.false_eq_true, if_false]
    exact outcome_loop { h with } rfl
  | selectionChanged =>
    simp only [handleEvent, writeThen]
    split
    · exact outcome_loop { h with } rfl
    · split
      · exact outcome_loop { h with } rfl
      · apply outcome_finish
        exact { h with }
  | downloadComplete =>
    rw [handleEvent, tryWrite_eq]
    split <;> exact outcome_loop { h with } rfl
  | activePeersSnapshot currentPeers =>
    obtain ⟨peers, sent, heq⟩ := handleSnapshot_eq ctx turn currentPeers { s with phase := .looping }
    simp only [handleEvent, heq]
    exact outcome_loop { h with } rfl

theorem outcome_dropped (h : Active ctx pieces has held s) (turn : Turn) {index : Nat}
    (hdrop : s.job.any (·.index == index) = true) :
    Outcome ctx sha1 id [] has held u (s.handleEvent ctx turn (.pieceCompleted index), u) := by
  rw [handleEvent, tryWrite_eq]
  simp only [hdrop, if_true]
  apply outcome_loop
  exacts [{ h with jobs := nofun, job_eq := rfl }, rfl]

theorem Outcome.told_congr {before : UploadSlots} {result : PeerSession × UploadSlots}
    {has' : Nat → Bool} (h : Outcome ctx sha1 id pieces has held before result)
    (heq : ∀ p, has p = has' p) : Outcome ctx sha1 id pieces has' held before result :=
  { h with told_eq := fun p => (h.told_eq p).trans (heq p) }

/-! The messages of the peer, in a session that has read them and not acted on them yet. -/

section Message

variable {received : List PeerMessage} {turn : Turn}

/-- A piece that is announced once more stops to count until the message is sent. -/
theorem outcome_handleHave (h : Running ctx pieces has held s)
    (hslot : s.holdsUploadSlot = !s.amChoking) (hphase : s.phase = .looping) {index : Nat}
    (hreceived : s.received = .have index :: received)
    (hheard : ∀ p, s.peerHas.has p = advertises ctx.expectedHashes.length received p) :
    Outcome ctx sha1 id pieces (fun p => p != index && has p) held u
      (s.handleHave turn index, u) := by
  unfold handleHave
  split
  case isTrue hout =>
    refine (outcome_finish h).told_congr fun p => ?_
    rw [← h.has_eq]
    by_cases hp : p = index
    · have hno : s.peerHas.has p = false := by
        rw [Bool.eq_false_iff]
        intro hhas
        have hlt := Bitfield.has_lt hhas
        omega
      simp [hno]
    · simp [hp]
  case isFalse hin =>
    have hlt : index < s.peerHas.len := by omega
    have hset (p : Nat) : (s.peerHas.set index).2.has p = (p == index || s.peerHas.has p) := by
      rw [Bool.eq_iff_iff, Bitfield.has_set]
      simp [hlt, or_comm]
    simp only [Bitfield.set_fst, hlt, decide_true, if_true]
    apply Goes.outcome
    refine ⟨(Bitfield.len_set _ _).trans h.len, fun p => ?_, hslot, h.held_eq, h.reply, h.jobs, ?_, ?_,
      ?_, ?_, ?_, by simp [post, h.outbox], ?_, by simp [post, h.outbox], ?_, ?_, h.single,
      fun p => ?_, ?_⟩
    · change (s.peerHas.set index).2.has p = advertises _ s.received p
      rw [hset, hheard, hreceived]
      rfl
    · rw [post, hphase]
      rfl
    · exact fun _ _ hp => absurd (hphase.symm.trans hp) (by simp)
    · exact fun _ _ hp => absurd (hphase.symm.trans hp) (by simp)
    · exact fun hp => absurd (hphase.symm.trans hp) (by simp)
    · simp [post, h.outbox]
    · simp [post, hphase, Phase.awaits]
    · simp [post, h.outbox, Truthful, told, hset]
    · simp [burden, post, h.outbox, h.reply, hphase, h.job_eq, Phase.piece]
    · rw [← h.has_eq]
      cases hp : p == index <;> simp [post, h.outbox, told, hset, bne, hp]
    · simp [post, h.outbox, hphase, Phase.awaits]

theorem has_of_fromWire {len : Nat} {payload : List UInt8} {field : Bitfield}
    (h : Bitfield.fromWire len payload = some field) (p : Nat) :
    field.has p = (decide (p < len) && hasBit payload p) := by
  unfold Bitfield.fromWire at h
  split at h
  · split at h
    · cases h
      rfl
    · cases h
  · cases h

theorem outcome_handleBitfield (h : Running ctx pieces has held s)
    (hslot : s.holdsUploadSlot = !s.amChoking) (hphase : s.phase = .looping) {payload : List UInt8}
    (hreceived : s.received = .bitfield payload :: received) :
    Outcome ctx sha1 id pieces has held u (s.handleBitfield turn payload, u) := by
  unfold handleBitfield
  split
  case h_1 => exact outcome_finish h
  case h_2 peerHas hwire =>
    have hlen : peerHas.len = ctx.expectedHashes.length :=
      (Bitfield.len_fromWire hwire).trans h.len
    have hheard (p : Nat) :
        peerHas.has p = advertises ctx.expectedHashes.length s.received p := by
      rw [has_of_fromWire hwire, hreceived, h.len]
      rfl
    have hrest (outbox : List CoordinatorMsg) {t : PeerSession}
        (ht : t = { s with peerHas := peerHas, nextWorkPoll := turn.now, outbox := outbox })
        (hnotes : ∀ msg ∈ outbox, isNeeded msg = false ∧ msg.returned = none)
        (htruthful : Truthful peerHas outbox) (htold : ∀ p, told peerHas outbox p = has p) :
        Outcome ctx sha1 id pieces has held u (t, u) := by
      have hreturned : outbox.filterMap CoordinatorMsg.returned = [] :=
        List.filterMap_eq_nil_iff.mpr fun msg hm => (hnotes msg hm).2
      have hplain (msg : CoordinatorMsg) (hm : msg ∈ outbox) : ¬ isNeeded msg := by
        rw [(hnotes msg hm).1]
        nofun
      rw [ht]
      apply Goes.outcome
      refine ⟨hlen, hheard, hslot, h.held_eq, h.reply, h.jobs, ?_, ?_, ?_, ?_, ?_, ?_, ?_, ?_,
        htruthful, ?_, h.single, htold, ?_⟩
      · rw [hphase]
        rfl
      · exact fun _ _ hp => nomatch hphase.symm.trans hp
      · exact fun _ _ hp => nomatch hphase.symm.trans hp
      · exact fun hp => nomatch hphase.symm.trans hp
      · exact fun index data hin => nomatch (hnotes _ hin).2
      · exact fun msg hm hr => absurd (isSome_replyTo hr) (hplain msg hm)
      · exact fun ha => by rw [hphase] at ha; cases ha
      · exact fun msg hm hn => absurd hn (hplain msg hm)
      · simp [burden, hreturned, h.reply, hphase, h.job_eq, Phase.piece]
      · rw [hphase, List.countP_eq_zero.mpr fun msg hm hr =>
          hplain msg hm (isSome_replyTo (by rw [beq_iff_eq.mp hr]; rfl))]
        rfl
    simp only
    split
    case isTrue hold =>
      refine hrest [.peerGone s.peerHas, .peerBitfield peerHas] ?_ ?_ ?_ fun p => ?_
      · simp [post, h.outbox]
      · simp [isNeeded]
      · simp [Truthful, told]
      · simpa [told] using h.has_eq p
    case isFalse hold =>
      have hnone : ∀ p, s.peerHas.has p = false := Bitfield.count_eq_zero.mp (by omega)
      refine hrest [.peerBitfield peerHas] ?_ ?_ ?_ fun p => ?_
      · simp [post, h.outbox]
      · simp [isNeeded]
      · simp [Truthful, told]
      · simpa [told, hnone] using h.has_eq p

theorem outcome_handleRequest (h : Active ctx pieces has held s) (hphase : s.phase = .looping)
    (index begin length : Nat) :
    Outcome ctx sha1 id pieces has held u (s.handleRequest ctx id index begin length, u) := by
  simp only [handleRequest]
  split
  case isTrue => exact outcome_loop h hphase
  case isFalse hunchoked =>
    split
    · apply outcome_ask (s := { s with phase := .serving index begin })
      exacts [{ h with }, rfl, rfl, rfl, fun _ _ _ => Bool.eq_false_iff.mpr hunchoked, nofun, rfl,
        rfl]
    · exact outcome_finish h.toRunning

theorem valid_addBlock {job : Job} (h : job.Valid ctx) (begin now : Nat) (block : List UInt8) :
    Job.Valid ctx { job with
      assembler := (job.assembler.addBlock begin block).2, lastBlock := now } ∧
      ∀ buffer, (job.assembler.addBlock begin block).1 = .complete buffer →
        buffer.length = (job.assembler.addBlock begin block).2.expectedLength := by
  obtain ⟨hhash, hlength, hbuffer⟩ := h
  unfold PieceAssembler.addBlock
  split
  case isTrue => exact ⟨⟨hhash, hlength, hbuffer⟩, nofun⟩
  case isFalse hin =>
    split
    case h_1 => exact ⟨⟨hhash, hlength, hbuffer⟩, nofun⟩
    case h_2 =>
      split
      case isTrue => exact ⟨⟨hhash, hlength, hbuffer⟩, nofun⟩
      case isFalse =>
        have hwritten : (job.assembler.buffer.take begin ++ block ++
            job.assembler.buffer.drop (begin + block.length)).length =
              job.assembler.expectedLength := by
          simp only [List.length_append, List.length_take, List.length_drop]
          omega
        refine ⟨⟨hhash, hlength, hwritten⟩, fun buffer hcomplete => ?_⟩
        dsimp only at hcomplete
        split at hcomplete
        · cases hcomplete
          exact hwritten
        · cases hcomplete

theorem outcome_handlePiece (h : Active ctx pieces has held s) (hphase : s.phase = .looping)
    (index begin : Nat) (block : List UInt8) :
    Outcome ctx sha1 id pieces has held u (s.handlePiece turn index begin block, u) := by
  have hpieces := h.job_eq
  unfold handlePiece
  split
  case h_1 => exact outcome_loop h hphase
  case h_2 job hjob =>
    rw [hjob] at hpieces
    obtain ⟨hvalid, hcomplete⟩ := valid_addBlock (h.jobs job hjob) begin turn.now block
    have hjobs : ∀ other, some { job with
        assembler := (job.assembler.addBlock begin block).2, lastBlock := turn.now } = some other →
          other.Valid ctx := by
      rintro _ ⟨⟩
      exact hvalid
    split
    case isFalse => exact outcome_loop h hphase
    case isTrue =>
      split
      case h_1 | h_2 => exact outcome_loop h hphase
      case h_3 =>
        dsimp only
        split
        case h_1 => exact outcome_loop { h with jobs := hjobs, job_eq := hpieces } hphase
        case h_2 =>
          apply outcome_finish
          exact { h with jobs := hjobs, job_eq := hpieces }
        case h_3 buffer hstate =>
          apply Goes.outcome
          refine ⟨h.len, h.heard, h.slot, h.held_eq, h.reply, nofun, rfl, nofun, ?_, nofun,
            by simp [h.outbox], by simp [h.outbox], nofun, by simp [h.outbox],
            by simp [h.outbox, Truthful], ?_, h.single,
            by simpa [h.outbox, told] using h.has_eq, by simp [h.outbox, Phase.awaits]⟩
          · rintro _ _ ⟨⟩
            exact ⟨hvalid, hcomplete _ hstate⟩
          · simpa [burden, h.outbox, h.reply, Phase.piece] using hpieces

end Message

structure Shifts (before after : UploadSlots) (held held' : Bool) : Prop where
  max_eq : after.max = before.max
  used_le : before.used ≤ before.max → after.used ≤ before.max
  slots_eq : held.toNat ≤ before.used → after.used + held.toNat = before.used + held'.toNat

theorem Shifts.refl (u : UploadSlots) (held : Bool) : Shifts u u held held := ⟨rfl, id, fun _ => rfl⟩

theorem Outcome.after {before between : UploadSlots} {result : PeerSession × UploadSlots}
    {held' : Bool} (h : Outcome ctx sha1 id pieces has held' between result)
    (hs : Shifts before between held held') :
    Outcome ctx sha1 id pieces has held before result :=
  { h with
    max_eq := h.max_eq.trans hs.max_eq
    used_le := fun hle => by
      have hbetween := hs.used_le hle
      have hresult := h.used_le (by rw [hs.max_eq]; exact hbetween)
      rwa [hs.max_eq] at hresult
    slots_eq := fun hle => by
      have hbetween := hs.slots_eq hle
      have hresult := h.slots_eq (by omega)
      omega }

theorem shifts_tryAcquire (u : UploadSlots) : Shifts u u.tryAcquire.2 false u.tryAcquire.1 := by
  unfold UploadSlots.tryAcquire
  split
  case isTrue hroom => exact ⟨rfl, fun _ => hroom, fun _ => rfl⟩
  case isFalse => exact .refl u false

theorem tryUnchoke_spec (h : Active ctx pieces has held s) (turn : Turn) (u : UploadSlots) :
    let r := s.tryUnchoke turn u
    r.2.1.phase = s.phase ∧ Shifts u r.2.2 held r.2.1.holdsUploadSlot ∧
      Running ctx pieces has r.2.1.holdsUploadSlot r.2.1 ∧
      (r.1 = true → Active ctx pieces has r.2.1.holdsUploadSlot r.2.1) := by
  have hheld := h.held_eq
  have hsame : Active ctx pieces has s.holdsUploadSlot s := { h with held_eq := rfl }
  simp only [tryUnchoke]
  split
  case isFalse => exact ⟨rfl, hheld ▸ .refl u _, hsame.toRunning, fun _ => hsame⟩
  case isTrue hunchoke =>
    have hfree : s.holdsUploadSlot = false := by
      rw [h.slot]
      simp_all
    have hshifts := shifts_tryAcquire u
    split
    case h_1 slots hacquired =>
      rw [hacquired] at hshifts
      have hshift : Shifts u slots held true := by rwa [← hheld, hfree]
      split
      · exact ⟨rfl, hshift, { h with held_eq := rfl, unchoked := fun _ => rfl },
          fun _ => { h with held_eq := rfl, unchoked := fun _ => rfl, slot := rfl }⟩
      · exact ⟨rfl, hshift, { h with held_eq := rfl, unchoked := fun _ => rfl }, nofun⟩
    case h_2 slots hacquired =>
      rw [hacquired] at hshifts
      have hshift : Shifts u slots held s.holdsUploadSlot := by rwa [← hheld, hfree]
      exact ⟨rfl, hshift, hsame.toRunning, fun _ => hsame⟩

theorem releaseUploadSlot_spec (s : PeerSession) (u : UploadSlots) :
    (s.releaseUploadSlot u).1 = { s with holdsUploadSlot := false } ∧
      Shifts u (s.releaseUploadSlot u).2 s.holdsUploadSlot false := by
  unfold releaseUploadSlot
  split
  case isTrue hholds =>
    rw [hholds]
    refine ⟨rfl, rfl, fun hle => ?_, fun hle => ?_⟩
    · exact (Nat.sub_le _ _).trans hle
    · exact Nat.sub_add_cancel hle
  case isFalse hholds =>
    rw [Bool.not_eq_true] at hholds
    rw [hholds]
    exact ⟨by rw [← hholds], .refl u false⟩

theorem outcome_choke (h : Active ctx pieces has held s) (hphase : s.phase = .looping)
    (turn : Turn) : Outcome ctx sha1 id pieces has held u (s.choke turn u) := by
  have hreleased {t : PeerSession} (ht : Running ctx pieces has held t)
      (hheard : ∀ p, t.peerHas.has p = advertises ctx.expectedHashes.length t.received p)
      (hp : t.phase = .looping) (hchoking : t.amChoking = true) :
      Outcome ctx sha1 id pieces has held u (t.releaseUploadSlot u) := by
    obtain ⟨hsession, hshifts⟩ := releaseUploadSlot_spec t u
    rw [ht.held_eq] at hshifts
    have hactive : Active ctx pieces has false { t with holdsUploadSlot := false } :=
      { ht with
        held_eq := rfl
        unchoked := fun hu => absurd (hchoking.symm.trans hu) nofun
        heard := hheard
        slot := by rw [hchoking]; rfl }
    have hstay : Outcome ctx sha1 id pieces has false (t.releaseUploadSlot u).2
        ({ t with holdsUploadSlot := false }, (t.releaseUploadSlot u).2) :=
      outcome_loop hactive hp
    rw [← hsession] at hstay
    exact hstay.after hshifts
  unfold choke
  split
  case isTrue hchoking => exact hreleased h.toRunning h.heard hphase hchoking
  case isFalse =>
    split
    · exact hreleased { h with unchoked := nofun } h.heard hphase rfl
    · exact outcome_finish h.toRunning

theorem outcome_interested (h : Active ctx pieces has held s) (hphase : s.phase = .looping)
    (turn : Turn) : Outcome ctx sha1 id pieces has held u
      (match s.tryUnchoke turn u with
      | (true, self, slots) => (self, slots)
      | (false, self, slots) => (self.finish, slots)) := by
  obtain ⟨hp, hshifts, hfailed, hdone⟩ := tryUnchoke_spec h turn u
  split <;> rename_i t u' htry <;> rw [htry] at hp hshifts hfailed hdone
  · exact (outcome_loop (hdone rfl) (hp.trans hphase)).after hshifts
  · exact (outcome_finish hfailed).after hshifts

theorem outcome_tend (h : Active ctx pieces has held s) (now : Nat) (turn : Turn) :
    Outcome ctx sha1 id pieces has held u (s.tend now turn u) := by
  obtain ⟨-, hshifts, hfailed, hdone⟩ := tryUnchoke_spec h turn u
  unfold tend
  split
  case h_1 t u' htry =>
    rw [htry] at hshifts hfailed
    exact (outcome_finish hfailed).after hshifts
  case h_2 t u' htry =>
    rw [htry] at hshifts hdone
    have ht := hdone rfl
    have hrest {v : PeerSession} (hv : Active ctx pieces has t.holdsUploadSlot v) :
        Outcome ctx sha1 id pieces has t.holdsUploadSlot u'
          (if v.job.isNone && decide (USELESS_TIMEOUT < now - v.lastUseful) &&
            (!v.peerInterested || v.amChoking) then v.finish
          else { v with phase := .looping }, u') := by
      split
      · exact outcome_finish hv.toRunning
      · exact outcome_loop { hv with } rfl
    refine Outcome.after ?_ hshifts
    dsimp only
    split
    · unfold writeThen
      split
      · exact hrest (v := { t.write .keepAlive with lastKeepalive := now }) { ht with }
      · exact outcome_finish ht.toRunning
    · exact hrest ht

theorem outcome_housekeeping (h : Active ctx pieces has held s) (turn : Turn) :
    Outcome ctx sha1 id pieces has held u (s.housekeeping turn u) := by
  have hpieces := h.job_eq
  unfold housekeeping
  split
  · exact outcome_finish h.toRunning
  · split
    case h_1 => exact outcome_tend h turn.now turn
    case h_2 job hjob =>
      rw [hjob] at hpieces
      dsimp only
      split
      · apply Goes.outcome
        exact ⟨h.len, h.heard, h.slot, h.held_eq, h.reply, nofun, rfl, nofun, nofun, nofun,
          by simp [post, h.outbox], by simp [post, h.outbox], nofun, by simp [post, h.outbox],
          by simp [post, h.outbox, Truthful],
          by simpa [burden, post, h.outbox, h.reply, Phase.piece] using hpieces, h.single,
          by simpa [post, h.outbox, told] using h.has_eq, by simp [post, h.outbox, Phase.awaits]⟩
      · split
        · exact outcome_finish h.toRunning
        · exact outcome_tend h turn.now turn

def drops (s : PeerSession) (turn : Turn) : Option Nat :=
  if s.outbox.isEmpty then
    match s.phase, turn.stimulus, s.events with
    | .hashing job _, _, _ => if turn.hashFails then some job.index else none
    | .selecting, .event, .pieceCompleted index :: _ =>
      if s.job.any (·.index == index) then some index else none
    | _, _, _ => none
  else none

def repeats (s : PeerSession) (turn : Turn) (p : Nat) : Bool :=
  s.outbox.isEmpty &&
    match s.phase, turn.stimulus with
    | .selecting, .message (.have index) => p == index && s.peerHas.has p
    | _, _ => false

structure Turned (ctx : PeerContext) (sha1 : List UInt8 → Digest) (id : Nat) (gone : Bool)
    (turn : Turn) (s : PeerSession) (u : UploadSlots) (result : PeerSession × UploadSlots) :
    Prop where
  valid : result.1.Valid ctx sha1 id
  burden_eq : s.burden = (s.drops turn).toList ++ result.1.burden
  told_eq : ∀ p, told result.1.peerHas result.1.outbox p =
    (!s.repeats turn p && told s.peerHas s.outbox p)
  asked_eq : gone = false →
    result.1.asked id + s.phase.awaits.toNat = s.asked id + result.1.phase.awaits.toNat
  shifts : Shifts u result.2 s.holdsUploadSlot result.1.holdsUploadSlot

theorem outcome_handleMessage (h : Active ctx pieces has held s) (turn : Turn) (msg : PeerMessage) :
    Outcome ctx sha1 id pieces
      (fun p => !(match msg with
        | .have index => p == index && s.peerHas.has p
        | _ => false) && has p) held u (s.handleMessage ctx id turn msg u) := by
  let t : PeerSession :=
    { s with phase := .looping, lastRecv := turn.now, received := msg :: s.received }
  have hrunning : Running ctx pieces has held t := { h with }
  have hactive (hsame : ∀ p, advertises ctx.expectedHashes.length (msg :: s.received) p =
      advertises ctx.expectedHashes.length s.received p) : Active ctx pieces has held t :=
    { h with heard := fun p => (h.heard p).trans (hsame p).symm }
  cases msg with
  | keepAlive => exact outcome_loop (hactive fun _ => rfl) rfl
  | choke =>
    have ht := hactive fun _ => rfl
    refine outcome_loop (s := { t with
      peerChoking := true
      job := t.job.map fun job => { job with assembler := job.assembler.resetRequests } })
      { ht with jobs := ?_, job_eq := ?_ } rfl
    · intro job hjob
      obtain ⟨old, hold, rfl⟩ := Option.map_eq_some_iff.mp hjob
      have hvalid := h.jobs old hold
      exact ⟨hvalid.hash, hvalid.length, hvalid.buffer⟩
    · rw [← h.job_eq, Option.map_map]
      rfl
  | unchoke =>
    have ht := hactive fun _ => rfl
    exact outcome_loop (s := { t with peerChoking := false, nextWorkPoll := turn.now })
      { ht with } rfl
  | interested =>
    have ht := hactive fun _ => rfl
    exact outcome_interested (s := { t with peerInterested := true }) { ht with } rfl turn
  | notInterested =>
    have ht := hactive fun _ => rfl
    exact outcome_choke (s := { t with peerInterested := false }) { ht with } rfl turn
  | «have» index =>
    refine (outcome_handleHave hrunning h.slot rfl rfl h.heard).told_congr fun p => ?_
    rw [← h.has_eq]
    cases hp : p == index <;> simp [bne, hp]
  | bitfield payload => exact outcome_handleBitfield hrunning h.slot rfl rfl
  | request index begin length =>
    exact outcome_handleRequest (hactive fun _ => rfl) rfl index begin length
  | piece index begin block =>
    exact outcome_handlePiece (hactive fun _ => rfl) rfl index begin block
  | extended id payload =>
    have ht := hactive fun _ => rfl
    obtain ⟨remotePexId, pexReceived, heq⟩ := handleExtended_eq ctx id payload t
    change Outcome _ _ _ _ _ _ _ (t.handleExtended ctx id payload, u)
    rw [heq]
    exact outcome_loop { ht with } rfl

theorem turned_stay (h : s.Valid ctx sha1 id) {gone : Bool} {turn : Turn}
    (hdrops : s.drops turn = none) (hrepeats : ∀ p, s.repeats turn p = false) :
    Turned ctx sha1 id gone turn s u (s, u) where
  valid := h
  burden_eq := by rw [hdrops]; rfl
  told_eq p := by rw [hrepeats]; rfl
  asked_eq _ := Nat.add_comm _ _ ▸ rfl
  shifts := .refl u _

theorem Outcome.turned {gone : Bool} {turn : Turn} {result : PeerSession × UploadSlots}
    (h : Outcome ctx sha1 id pieces has s.holdsUploadSlot u result)
    (hburden : s.burden = (s.drops turn).toList ++ pieces)
    (htold : ∀ p, has p = (!s.repeats turn p && told s.peerHas s.outbox p))
    (hasked : gone = false → s.asked id = s.phase.awaits.toNat) :
    Turned ctx sha1 id gone turn s u result where
  valid := h.valid
  burden_eq := by rw [h.burden_eq, hburden]
  told_eq p := (h.told_eq p).trans (htold p)
  asked_eq hgone := by rw [h.asked_eq, hasked hgone, Nat.add_comm]
  shifts := ⟨h.max_eq, h.used_le, h.slots_eq⟩

theorem Valid.active (h : s.Valid ctx sha1 id) (hc : s.phase.connected) (houtbox : s.outbox = [])
    (events : List SessionEvent) :
    Active ctx (s.job.map Job.index).toList s.peerHas.has s.holdsUploadSlot
      { s with reply := none, events := events } where
  len := h.len
  outbox := houtbox
  reply := rfl
  jobs := h.jobs
  job_eq := rfl
  has_eq _ := rfl
  held_eq := rfl
  unchoked hu := by rw [h.slot hc, hu]; rfl
  heard p := by rw [h.heard, hc, Bool.true_and]
  slot := h.slot hc

theorem Valid.active_silent (h : s.Valid ctx sha1 id) (hc : s.phase.connected)
    (houtbox : s.outbox = []) (hreply : s.reply = none) :
    Active ctx (s.job.map Job.index).toList s.peerHas.has s.holdsUploadSlot s := by
  have hactive := h.active hc houtbox s.events
  have hs : { s with reply := none, events := s.events } = s := by rw [← hreply]
  rwa [hs] at hactive

theorem turned_select (h : s.Valid ctx sha1 id) (hphase : s.phase = .selecting)
    (houtbox : s.outbox = []) {gone : Bool} (turn : Turn) :
    Turned ctx sha1 id gone turn s u (s.select ctx id turn u) := by
  have hc : s.phase.connected := by rw [hphase]; rfl
  have hreply : s.reply = none := h.silent (by rw [hphase]; rfl)
  have hactive := h.active_silent hc houtbox hreply
  have hburden : s.burden = (s.job.map Job.index).toList := by
    simp [burden, hphase, Phase.piece, hreply, houtbox]
  have hasked : gone = false → s.asked id = s.phase.awaits.toNat := fun _ => by
    simp [asked, houtbox, hreply, hphase, Phase.awaits]
  have htold (p : Nat) : told s.peerHas s.outbox p = s.peerHas.has p := by rw [houtbox]; rfl
  have hquiet {result : PeerSession × UploadSlots}
      (hdrops : s.drops turn = none) (hrepeats : ∀ p, s.repeats turn p = false)
      (hr : Outcome ctx sha1 id (s.job.map Job.index).toList s.peerHas.has s.holdsUploadSlot u
        result) : Turned ctx sha1 id gone turn s u result :=
    hr.turned (by rw [hdrops, hburden]; rfl) (fun p => by rw [hrepeats, htold]; rfl) hasked
  unfold select
  split
  case h_1 hst =>
    exact hquiet (by simp [drops, houtbox, hphase, hst]) (by simp [repeats, houtbox, hphase, hst])
      (outcome_finish hactive.toRunning)
  case h_2 hst =>
    have hrepeats (p : Nat) : s.repeats turn p = false := by simp [repeats, hphase, hst]
    split
    case h_1 hevents =>
      exact turned_stay h (by simp [drops, houtbox, hphase, hst, hevents]) hrepeats
    case h_2 event events hevents =>
      have ht := h.active hc houtbox events
      have hs : { s with reply := none, events := events } = { s with events := events } := by
        rw [← hreply]
      rw [hs] at ht
      by_cases hdrop : ∃ index, event = .pieceCompleted index ∧ s.job.any (·.index == index) = true
      · obtain ⟨index, rfl, hany⟩ := hdrop
        have hdrops : s.drops turn = some index := by
          simp [drops, houtbox, hphase, hst, hevents, hany]
        have hpiece : (s.job.map Job.index).toList = [index] := by
          cases hjob : s.job with
          | none => rw [hjob] at hany; cases hany
          | some job =>
            rw [hjob, Option.any_some, beq_iff_eq] at hany
            simp [hany]
        exact (outcome_dropped ht turn hany).turned (by rw [hdrops, hburden, hpiece]; rfl)
          (fun p => by rw [hrepeats, htold]; rfl) hasked
      · have hkeep : ∀ index, event = .pieceCompleted index →
            s.job.any (·.index == index) = false := fun index he =>
          Bool.eq_false_iff.mpr fun hany => hdrop ⟨index, he, hany⟩
        refine hquiet ?_ hrepeats (outcome_handleEvent ht turn event hkeep)
        cases event with
        | pieceCompleted index =>
          have hnot := hkeep index rfl
          simp [drops, houtbox, hphase, hst, hevents, hnot]
        | _ => simp [drops, houtbox, hphase, hst, hevents]
  case h_3 missed hst =>
    refine hquiet (by simp [drops, houtbox, hphase, hst]) (by simp [repeats, hphase, hst])
      (outcome_loop ?_ rfl)
    exact { hactive with }
  case h_4 msg hst =>
    refine (outcome_handleMessage hactive turn msg).turned ?_ (fun p => ?_) hasked
    · simp [drops, houtbox, hphase, hst, hburden]
    · rw [htold]
      cases msg <;> simp [repeats, houtbox, hphase, hst]
  case h_5 hst =>
    exact hquiet (by simp [drops, houtbox, hphase, hst]) (by simp [repeats, hphase, hst])
      (outcome_finish hactive.toRunning)
  case h_6 hst =>
    exact hquiet (by simp [drops, houtbox, hphase, hst]) (by simp [repeats, hphase, hst])
      (outcome_housekeeping hactive turn)

theorem drops_eq_none (turn : Turn) (hhashing : ∀ job buffer, s.phase ≠ .hashing job buffer)
    (hselecting : s.phase ≠ .selecting) : s.drops turn = none := by
  unfold drops
  split
  · split
    · exact absurd ‹_› (hhashing _ _)
    · contradiction
    · rfl
  · rfl

theorem repeats_eq_false (turn : Turn) (hselecting : s.phase ≠ .selecting) (p : Nat) :
    s.repeats turn p = false := by
  unfold repeats
  split
  · contradiction
  · exact Bool.and_false _

/-- Code that is not in the middle of hashing and does not pick a stimulus goes on with the pieces
it had and the one that the answer brings. -/
theorem turned_plain {gone : Bool} {turn : Turn} {result : PeerSession × UploadSlots} {phase : Phase}
    (hphase : s.phase = phase) (hp : phase.piece = none) (hs : phase ≠ .selecting)
    (houtbox : s.outbox = []) (hasked : gone = false → s.reply.isSome = phase.awaits)
    (hpieces : (s.job.map Job.index).toList ++ (s.reply.bind Reply.piece).toList = pieces)
    (hr : Outcome ctx sha1 id pieces s.peerHas.has s.holdsUploadSlot u result) :
    Turned ctx sha1 id gone turn s u result := by
  subst hphase
  refine hr.turned ?_ (fun p => ?_) fun hgone => ?_
  · rw [drops_eq_none turn (fun job buffer he => by rw [he] at hp; cases hp) hs, ← hpieces]
    simp [burden, hp, houtbox]
  · rw [repeats_eq_false turn hs, houtbox]
    rfl
  · rw [asked, houtbox, hasked hgone]
    exact Nat.zero_add _

/-- Whoever waits for an answer stays where it is until the answer comes, or goes on without one
when nobody can give it any more. -/
theorem turned_waiting (h : s.Valid ctx sha1 id) {gone : Bool} {turn : Turn} {next : PeerSession}
    {phase : Phase} (hphase : s.phase = phase) (hp : phase.piece = none) (hs : phase ≠ .selecting)
    (houtbox : s.outbox = []) (hreply : s.reply = none)
    (hr : Outcome ctx sha1 id (s.job.map Job.index).toList s.peerHas.has s.holdsUploadSlot u
      (next, u)) : Turned ctx sha1 id gone turn s u (if gone then next else s, u) := by
  cases gone with
  | false =>
    subst hphase
    exact turned_stay h (drops_eq_none turn (fun job buffer he => by rw [he] at hp; cases hp) hs)
      (repeats_eq_false turn hs)
  | true =>
    exact turned_plain hphase hp hs houtbox nofun (by rw [hreply]; exact List.append_nil _) hr

/-- The hash of a piece is there.  The job went into the hashing, so the session has no other. -/
theorem turned_hashing (h : s.Valid ctx sha1 id) {job : Job} {buffer : List UInt8}
    (hphase : s.phase = .hashing job buffer) (houtbox : s.outbox = []) {gone : Bool} (turn : Turn) :
    Turned ctx sha1 id gone turn s u (s.takeHash sha1 turn job buffer, u) := by
  have hreply : s.reply = none := h.silent (by rw [hphase]; rfl)
  have hnojob : s.job = none := by
    have hsingle := h.single
    cases hjob : s.job with
    | none => rfl
    | some other =>
      rw [burden, hphase, hjob, hreply] at hsingle
      simp [Phase.piece] at hsingle
  have hsilent := h.active_silent (by rw [hphase]; rfl) houtbox hreply
  rw [hnojob] at hsilent
  obtain ⟨hjob, hbuffer⟩ := h.hashing job buffer hphase
  refine (outcome_takeHash hsilent hjob hbuffer turn).turned ?_ (fun p => ?_) fun _ => ?_
  · cases hfails : turn.hashFails <;>
      simp [burden, drops, hphase, hreply, houtbox, hnojob, Phase.piece, hfails]
  · simp [repeats, hphase, houtbox, told]
  · simp [asked, houtbox, hreply, hphase, Phase.awaits]

theorem outcome_closed (h : s.Valid ctx sha1 id) (hphase : s.phase = .closing)
    (houtbox : s.outbox = []) :
    Outcome ctx sha1 id [] s.peerHas.has s.holdsUploadSlot u
      ({ (s.releaseUploadSlot u).1 with phase := .ended }, (s.releaseUploadSlot u).2) := by
  obtain ⟨hsession, hshifts⟩ := releaseUploadSlot_spec s u
  have hreply : s.reply = none := h.silent (by rw [hphase]; rfl)
  have hjob : s.job = none := h.jobless (by rw [hphase]; rfl)
  have hnone (p : Nat) : s.peerHas.has p = false := by rw [h.heard, hphase]; rfl
  rw [hsession]
  refine ⟨⟨h.len, hnone, ?_, nofun, fun he => absurd rfl he, nofun, ?_, ?_, nofun, ?_, nofun,
    fun _ => hreply, ?_, nofun, ?_, fun _ => hjob, fun _ => ⟨houtbox, rfl⟩, nofun⟩, ?_, ?_, ?_,
    hshifts.max_eq, hshifts.used_le, hshifts.slots_eq⟩
  all_goals simp [burden, told, asked, Truthful, houtbox, hjob, hreply, Phase.piece, Phase.awaits]

theorem turned_turn (h : s.Valid ctx sha1 id) (gone : Bool) (turn : Turn) :
    Turned ctx sha1 id gone turn s u (s.turn ctx sha1 id gone turn u) := by
  unfold PeerSession.turn
  split
  case isTrue hfull => refine turned_stay h ?_ fun p => ?_ <;> simp_all [drops, repeats]
  case isFalse hempty =>
    have houtbox : s.outbox = [] := by simpa using hempty
    have hactive (hc : s.phase.connected) := h.active hc houtbox s.events
    split
    case h_1 pieces hphase hreply =>
      exact turned_plain hphase rfl (by simp) houtbox
        (fun _ => by rw [hreply]; rfl) (by rw [hreply]; exact List.append_nil _)
        (outcome_opened (hactive (by rw [hphase]; rfl)) turn pieces)
    case h_2 hphase hreply =>
      have hsilent := h.active_silent (by rw [hphase]; rfl) houtbox hreply
      exact turned_waiting h hphase rfl (by simp) houtbox hreply (outcome_opened hsilent turn [])
    case h_3 hphase =>
      have hreply : s.reply = none := h.silent (by rw [hphase]; rfl)
      have hsilent := h.active_silent (by rw [hphase]; rfl) houtbox hreply
      exact turned_plain hphase rfl (by simp) houtbox
        (fun _ => by rw [hreply]; rfl) (by rw [hreply]; exact List.append_nil _)
        (outcome_maybeRequestWork hsilent turn)
    case h_4 piece hphase hreply =>
      have hnone : (s.job.map Job.index).toList = [] := by rw [(h.ready hphase).1]; rfl
      have ht := hactive (by rw [hphase]; rfl)
      have hpieces : (s.job.map Job.index).toList ++ (s.reply.bind Reply.piece).toList =
          piece.toList := by rw [hnone, hreply]; rfl
      rw [hnone] at ht
      exact turned_plain hphase rfl (by simp) houtbox
        (fun _ => by rw [hreply]; rfl) hpieces (outcome_takeWork ht turn piece)
    case h_5 hphase hreply =>
      have hnone : (s.job.map Job.index).toList = [] := by rw [(h.ready hphase).1]; rfl
      have hsilent := h.active_silent (by rw [hphase]; rfl) houtbox hreply
      rw [hnone] at hsilent
      exact turned_waiting h hphase rfl (by simp) houtbox hreply
        (hnone ▸ outcome_takeWork hsilent turn none)
    case h_6 hphase => exact turned_select h hphase houtbox turn
    case h_7 index begin data hphase hreply =>
      exact turned_plain hphase rfl (by simp) houtbox
        (fun _ => by rw [hreply]; rfl) (by rw [hreply]; exact List.append_nil _)
        (outcome_takeBlock (hactive (by rw [hphase]; rfl)) turn index begin data)
    case h_8 index begin hphase hreply =>
      have hsilent := h.active_silent (by rw [hphase]; rfl) houtbox hreply
      exact turned_waiting h hphase rfl (by simp) houtbox hreply
        (outcome_takeBlock hsilent turn index begin none)
    case h_9 job buffer hphase => exact turned_hashing h hphase houtbox turn
    case h_10 now hphase =>
      have hreply : s.reply = none := h.silent (by rw [hphase]; rfl)
      have hsilent := h.active_silent (by rw [hphase]; rfl) houtbox hreply
      exact turned_plain hphase rfl (by simp) houtbox
        (fun _ => by rw [hreply]; rfl) (by rw [hreply]; exact List.append_nil _)
        (outcome_tend hsilent now turn)
    case h_11 hphase =>
      have hreply : s.reply = none := h.silent (by rw [hphase]; rfl)
      have hjob : s.job = none := h.jobless (by rw [hphase]; rfl)
      exact turned_plain hphase rfl (by simp) houtbox
        (fun _ => by rw [hreply]; rfl) (by rw [hreply, hjob]; rfl)
        (outcome_closed h hphase houtbox)
    case h_12 hselecting hhashing _ _ _ _ _ _ _ _ =>
      have hselect : s.phase ≠ .selecting := fun he => hselecting he
      exact turned_stay h (drops_eq_none turn (fun job buffer he => hhashing job buffer he) hselect)
        (repeats_eq_false turn hselect)

end PeerSession
end Tortor.Net
