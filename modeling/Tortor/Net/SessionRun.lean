import Tortor.Lib.Run
import Tortor.Net.SessionSteps

/-! One session on its own.  Whatever the coordinator answers, whatever the peer sends and in
which order, what the session reports about its jobs can be relied on. -/

namespace Tortor.Net

open Tortor.Core Tortor.Lib

inductive SessionInput
  | connect (supportsExtensions : Bool) (turn : Turn)
  | turn (gone : Bool) (turn : Turn)
  | receive (reply : Reply)
  | taken
  | refused
  | announce (event : SessionEvent)

/-- An answer comes while the session waits for it; what is not possible changes nothing. -/
def PeerSession.react (ctx : PeerContext) (sha1 : List UInt8 → Digest) (id : Nat)
    (input : SessionInput) (self : PeerSession) (slots : UploadSlots) :
    PeerSession × UploadSlots :=
  match input with
  | .connect supportsExtensions turn =>
    match self.phase with
    | .dialing => (self.connect ctx id supportsExtensions turn, slots)
    | _ => (self, slots)
  | .turn gone turn => self.turn ctx sha1 id gone turn slots
  | .receive reply =>
    if self.phase.expects reply && self.outbox.isEmpty && self.reply.isNone then
      (self.receive reply, slots)
    else (self, slots)
  | .taken =>
    match self.outbox with
    | [] => (self, slots)
    | _ :: outbox => ({ self with outbox := outbox }, slots)
  | .refused =>
    match self.outbox with
    | [] => (self, slots)
    | msg :: outbox => ({ self with outbox := outbox }.sendFailed msg, slots)
  | .announce event => (self.announce event, slots)

inductive JobEvent
  | assigned (index : Nat)
  | reported (msg : CoordinatorMsg)
  deriving DecidableEq

structure Employed where
  session : PeerSession
  history : List JobEvent

namespace Employed

def start (ctx : PeerContext) (peerAddr : SocketAddr) : Employed := ⟨.new ctx peerAddr, []⟩

def noted (input : SessionInput) (session : PeerSession) : List JobEvent :=
  match input with
  | .receive (.work (some index)) =>
    if session.phase.expects (.work (some index)) && session.outbox.isEmpty &&
        session.reply.isNone then [.assigned index]
    else []
  | .taken => (session.outbox.head?.filter fun msg => msg.returned.isSome).toList.map .reported
  | _ => []

def step (ctx : PeerContext) (sha1 : List UInt8 → Digest) (id : Nat) (s : Employed)
    (input : SessionInput × UploadSlots) : Employed where
  session := (s.session.react ctx sha1 id input.1 input.2).1
  history := noted input.1 s.session ++ s.history

end Employed

variable {ctx : PeerContext} {sha1 : List UInt8 → Digest} {id : Nat} {input : SessionInput}

namespace PeerSession

variable {s : PeerSession} {u : UploadSlots}

theorem valid_react (h : s.Valid ctx sha1 id) (input : SessionInput) (u : UploadSlots) :
    (s.react ctx sha1 id input u).1.Valid ctx sha1 id := by
  unfold react
  split
  case h_1 =>
    split
    case h_1 hphase => exact valid_connect h hphase _ _
    case h_2 => exact h
  case h_2 gone turn => exact (turned_turn h gone turn).valid
  case h_3 reply =>
    split
    case isTrue hopen =>
      simp only [Bool.and_eq_true, List.isEmpty_iff, Option.isNone_iff_eq_none] at hopen
      exact valid_receive h hopen.1.1 hopen.1.2 hopen.2
    case isFalse => exact h
  case h_4 =>
    split
    case h_1 => exact h
    case h_2 houtbox => exact valid_sent h houtbox
  case h_5 =>
    split
    case h_1 => exact h
    case h_2 houtbox => exact valid_sendFailed h houtbox
  case h_6 event => exact valid_announce h event

end PeerSession

namespace Employed

variable {s : Employed}

def Reports (ctx : PeerContext) (sha1 : List UInt8 → Digest) (index : Nat) (msg : CoordinatorMsg) :
    Prop :=
  msg = .pieceFailed index ∨ ∃ data, msg = .pieceDownloaded index data ∧ Verified ctx sha1 index data

/-- What is in hand is the job that was assigned last, and every report follows its job. -/
structure Sound (ctx : PeerContext) (sha1 : List UInt8 → Digest) (id : Nat) (s : Employed) : Prop where
  valid : s.session.Valid ctx sha1 id
  pending : ∀ index ∈ s.session.burden, ∃ earlier, s.history = .assigned index :: earlier
  reports : ∀ msg earlier, (.reported msg :: earlier) <:+ s.history →
    ∃ index before, earlier = .assigned index :: before ∧ Reports ctx sha1 index msg

theorem Sound.of_subset (h : s.Sound ctx sha1 id) {session : PeerSession}
    (hvalid : session.Valid ctx sha1 id) (hsub : session.burden ⊆ s.session.burden) :
    Sound ctx sha1 id ⟨session, s.history⟩ :=
  ⟨hvalid, fun index hi => h.pending index (hsub hi), h.reports⟩

theorem Sound.start (ctx : PeerContext) (sha1 : List UInt8 → Digest) (id : Nat)
    (peerAddr : SocketAddr) : Sound ctx sha1 id (start ctx peerAddr) where
  valid := PeerSession.valid_new ctx sha1 id peerAddr
  pending index hi := by cases hi
  reports msg earlier h := by cases List.suffix_nil.mp h

theorem Sound.receive (h : s.Sound ctx sha1 id) {reply : Reply}
    (hexpects : s.session.phase.expects reply) (houtbox : s.session.outbox = [])
    (hreply : s.session.reply = none) :
    Sound ctx sha1 id ⟨s.session.receive reply, noted (.receive reply) s.session ++ s.history⟩ := by
  have hvalid := PeerSession.valid_receive h.valid hexpects houtbox hreply
  have hperm := PeerSession.burden_receive hexpects hreply
  cases hpiece : reply.piece with
  | none =>
    have hnoted : noted (.receive reply) s.session = [] := by
      cases reply with
      | work piece =>
        rw [show piece = none from hpiece]
        rfl
      | _ => rfl
    rw [hpiece] at hperm
    rw [hnoted]
    exact h.of_subset hvalid hperm.subset
  | some index =>
    have hwork : reply = .work (some index) := by
      cases reply with
      | work piece => rw [show piece = some index from hpiece]
      | _ => cases hpiece
    have hnoted : noted (.receive reply) s.session = [.assigned index] := by
      rw [hwork] at hexpects ⊢
      rw [noted, hexpects, houtbox, hreply]
      rfl
    have hfree : s.session.burden = [] := by
      have hlen := hperm.length_eq
      have hsingle := hvalid.single
      rw [hpiece, List.length_append] at hlen
      exact List.eq_nil_of_length_eq_zero (by simp at hlen; omega)
    rw [hfree, hpiece] at hperm
    rw [hnoted]
    refine ⟨hvalid, fun other ho => ⟨s.history, ?_⟩, fun msg earlier hs => ?_⟩
    · rw [List.mem_singleton.mp (hperm.subset ho)]
      rfl
    · rcases List.suffix_cons_iff.mp hs with he | hs
      · cases he
      · exact h.reports msg earlier hs

theorem Sound.taken (h : s.Sound ctx sha1 id) {msg : CoordinatorMsg} {rest : List CoordinatorMsg}
    (houtbox : s.session.outbox = msg :: rest) :
    Sound ctx sha1 id ⟨{ s.session with outbox := rest }, noted .taken s.session ++ s.history⟩ := by
  have hvalid := PeerSession.valid_sent h.valid houtbox
  have hperm := PeerSession.burden_sent houtbox
  cases hreturned : msg.returned with
  | none =>
    have hnoted : noted .taken s.session = [] := by
      simp only [noted, houtbox, List.head?_cons, Option.filter_some, hreturned]
      rfl
    rw [hreturned] at hperm
    rw [hnoted]
    exact h.of_subset hvalid hperm.symm.subset
  | some index =>
    have hnoted : noted .taken s.session = [.reported msg] := by
      simp only [noted, houtbox, List.head?_cons, Option.filter_some, hreturned]
      rfl
    obtain ⟨hburden, hdone⟩ := PeerSession.burden_returned h.valid houtbox hreturned
    obtain ⟨earlier, hhistory⟩ := h.pending index (hburden ▸ List.mem_singleton_self index)
    have hreport : Reports ctx sha1 index msg := by
      cases msg with
      | pieceDownloaded i data =>
        cases hreturned
        exact .inr ⟨data, rfl, h.valid.verified index data (PeerSession.mem_of_outbox houtbox)⟩
      | pieceFailed i =>
        cases hreturned
        exact .inl rfl
      | _ => cases hreturned
    rw [hnoted]
    refine ⟨hvalid, fun other ho => ?_, fun other before hs => ?_⟩
    · rw [hdone] at ho
      cases ho
    · rcases List.suffix_cons_iff.mp hs with he | hs
      · cases he
        exact ⟨index, earlier, hhistory, hreport⟩
      · exact h.reports other before hs

theorem Sound.step (h : s.Sound ctx sha1 id) (input : SessionInput × UploadSlots) :
    (s.step ctx sha1 id input).Sound ctx sha1 id := by
  obtain ⟨input, u⟩ := input
  have hvalid := PeerSession.valid_react h.valid input u
  unfold Employed.step
  unfold PeerSession.react at hvalid ⊢
  cases input with
  | connect supportsExtensions turn =>
    refine h.of_subset hvalid ?_
    dsimp only
    split
    case h_1 hphase =>
      rw [PeerSession.burden_connect h.valid hphase supportsExtensions turn]
      exact List.nil_subset _
    case h_2 => exact List.Subset.refl _
  | turn gone turn =>
    refine h.of_subset hvalid ?_
    rw [(PeerSession.turned_turn h.valid gone turn).burden_eq]
    exact List.subset_append_right _ _
  | receive reply =>
    dsimp only at hvalid ⊢
    split
    case isTrue hopen =>
      simp only [Bool.and_eq_true, List.isEmpty_iff, Option.isNone_iff_eq_none] at hopen
      exact h.receive hopen.1.1 hopen.1.2 hopen.2
    case isFalse hclosed =>
      have hnoted : noted (.receive reply) s.session = [] := by
        unfold noted
        split
        · cases ‹SessionInput.receive reply = _›
          exact if_neg hclosed
        · cases ‹SessionInput.receive reply = _›
        · rfl
      rw [hnoted]
      exact h
  | taken =>
    dsimp only at hvalid ⊢
    split
    case h_1 houtbox =>
      have hnoted : noted .taken s.session = [] := by simp [noted, houtbox]
      rw [hnoted]
      exact h
    case h_2 houtbox => exact h.taken houtbox
  | refused =>
    refine h.of_subset hvalid ?_
    dsimp only
    split
    case h_1 => exact List.Subset.refl _
    case h_2 msg rest houtbox =>
      have hrest := (PeerSession.burden_sent houtbox).symm.subset
      have hkept : PeerSession.burden { s.session with outbox := rest } ⊆ s.session.burden :=
        fun index hi => hrest (List.mem_append_right _ hi)
      rw [PeerSession.sendFailed_eq]
      split
      case isTrue hneeded =>
        rw [(PeerSession.outcome_sendFailed (u := u) h.valid houtbox hneeded).burden_eq]
        intro index hi
        simp [PeerSession.burden, hi]
      case isFalse => exact hkept
  | announce event => exact h.of_subset hvalid (List.Subset.refl _)

end Employed

/-! The blocks that the decoder lets through are short enough for their length to be told. -/

theorem length_of_parse {typeId : UInt8} {payload : List UInt8} {index begin : Nat}
    {block : List UInt8}
    (h : PeerMessage.parse typeId payload = .ok (some (.piece index begin block))) :
    block.length ≤ payload.length := by
  unfold PeerMessage.parse at h
  dsimp only at h
  repeat' split at h
  all_goals cases h
  rw [List.length_drop]
  exact Nat.sub_le _ _

theorem length_of_decodeLoop {fuel : Nat} {decoder : MessageDecoder} {index begin : Nat}
    {block : List UInt8}
    (h : (MessageDecoder.decodeLoop fuel decoder).1 = .ok (some (.piece index begin block))) :
    block.length ≤ MAX_MESSAGE_LEN := by
  induction fuel generalizing decoder with
  | zero => cases h
  | succ fuel ih =>
    unfold MessageDecoder.decodeLoop at h
    dsimp only at h
    split at h
    case isTrue => cases h
    case isFalse =>
      split at h
      case isTrue => cases h
      case isFalse hlen =>
        split at h
        case isTrue => cases h
        case isFalse =>
          split at h
          case h_1 => cases h
          case h_2 parsed hparsed =>
            split at h
            case h_1 msg =>
              cases h
              split at hparsed
              case isTrue => cases hparsed
              case isFalse =>
                have hparse := length_of_parse hparsed
                rw [List.length_drop, List.length_take] at hparse
                omega
            case h_2 => exact ih h

/-- A turn takes the exit for errors of the assembler. -/
def PeerSession.AssemblerFails (s : PeerSession) (turn : Turn) : Prop :=
  s.outbox = [] ∧ s.phase = .selecting ∧ ∃ index begin block job text,
    turn.stimulus = .message (.piece index begin block) ∧ s.job = some job ∧ job.index = index ∧
      job.assembler.classifyBlock begin (block.length % 2 ^ 32) = .expectedNew ∧
      (job.assembler.addBlock begin block).1 = .error text

def Turn.Decoded (turn : Turn) : Prop :=
  ∀ msg, turn.stimulus = .message msg →
    ∃ decoder : MessageDecoder, decoder.decode.1 = .ok (some msg)

theorem addBlock_of_expectedNew {assembler : PieceAssembler} {begin : Nat} {block : List UInt8}
    (hlen : block.length < 2 ^ 32)
    (h : assembler.classifyBlock begin (block.length % 2 ^ 32) = .expectedNew) (text : String) :
    (assembler.addBlock begin block).1 ≠ .error text := by
  have hmod : block.length % 2 ^ 32 = block.length := Nat.mod_eq_of_lt hlen
  unfold PieceAssembler.classifyBlock at h
  rw [hmod] at h
  unfold PieceAssembler.addBlock
  rw [hmod]
  split at h
  case isTrue => cases h
  case isFalse hin =>
    rw [if_neg hin]
    split at h
    case h_1 found hfound =>
      rw [hfound]
      dsimp only
      split
      · nofun
      · split <;> nofun
    case h_2 => cases h

theorem not_assemblerFails {s : PeerSession} {turn : Turn} (h : turn.Decoded) :
    ¬ s.AssemblerFails turn := by
  rintro ⟨-, -, index, begin, block, job, text, hstimulus, -, -, hexpected, herror⟩
  obtain ⟨decoder, hdecode⟩ := h _ hstimulus
  have hlen : block.length ≤ MAX_MESSAGE_LEN := length_of_decodeLoop hdecode
  exact addBlock_of_expectedNew (Nat.lt_of_le_of_lt hlen (by decide)) hexpected text herror

/-- A report names the job that was assigned last, at most one follows each job, a piece that is
handed over has the length and the hash it should have, and the assembler never fails. -/
theorem reports_verified (ctx : PeerContext) (sha1 : List UInt8 → Digest) (id : Nat)
    (peerAddr : SocketAddr) (inputs : List (SessionInput × UploadSlots)) :
    let s := exec (Employed.step ctx sha1 id) (.start ctx peerAddr) inputs
    (∀ msg earlier, (.reported msg :: earlier) <:+ s.history →
      ∃ index before, earlier = .assigned index :: before ∧
        (msg = .pieceFailed index ∨ ∃ data, msg = .pieceDownloaded index data ∧
          pieceLenAt index ctx.pieceLength ctx.totalLength = some data.length ∧
          ctx.expectedHashes[index]? = some (sha1 data))) ∧
      ∀ turn : Turn, turn.Decoded → ¬ s.session.AssemblerFails turn := by
  intro s
  have hsound : s.Sound ctx sha1 id :=
    exec_invariant (P := Employed.Sound ctx sha1 id) (fun _ input h => h.step input) inputs
      (Employed.Sound.start ctx sha1 id peerAddr)
  refine ⟨fun msg earlier hsuffix => ?_, fun turn hdecoded => not_assemblerFails hdecoded⟩
  obtain ⟨index, before, hbefore, hfailed | ⟨data, hmsg, hverified⟩⟩ :=
    hsound.reports msg earlier hsuffix
  · exact ⟨index, before, hbefore, .inl hfailed⟩
  · exact ⟨index, before, hbefore, .inr ⟨data, hmsg, hverified.length, hverified.hash⟩⟩

end Tortor.Net
