import Tortor.Core.BlockClasses
import Tortor.Core.BlockRequests
import Tortor.Net.SessionEnding

/-! What a session does with a peer that has a piece, unchokes us, and sends block after block. -/

namespace Tortor.Core.PieceAssembler

open Tortor.Lib

variable {a b : PieceAssembler} {D : List UInt8}

theorem classifyBlock_of_mem (h : a.Intact) {block : BlockRequest} (hmem : block ∈ a.blocks)
    (hnew : block.completed = false) : a.classifyBlock block.begin block.length = .expectedNew := by
  have hinside := (h.tiling.within hmem).2
  unfold classifyBlock
  rw [if_neg (by omega)]
  cases hfind : a.findBlock block.begin block.length with
  | none =>
    have hnone := List.find?_eq_none.mp hfind block hmem
    simp at hnone
  | some found =>
    have hfound := List.mem_of_find?_eq_some hfind
    have hplace := List.find?_some hfind
    rw [Bool.and_eq_true, beq_iff_eq, beq_iff_eq] at hplace
    have hlong := h.nonempty block hmem
    have hsame : found = block := h.tiling.eq_of_mem hfound hmem (x := block.begin)
      ⟨by omega, by omega⟩ ⟨Nat.le_refl _, by omega⟩
    rw [hsame]
    simp [hnew]

theorem incompleteCount_eq_zero : a.incompleteCount = 0 ↔ a.AllCompleted := by
  simp [incompleteCount, AllCompleted, List.countP_eq_zero]

theorem Assembling.addBlock_next (h : Assembling D a) (hsize : D.length < 2 ^ 32)
    {block : BlockRequest} (hmem : block ∈ a.blocks) (hnew : block.completed = false) :
    let data := (D.drop block.begin).take block.length
    a.classifyBlock block.begin (data.length % 2 ^ 32) = .expectedNew ∧
      Assembling D (a.addBlock block.begin data).2 ∧
      ((a.addBlock block.begin data).1 = .complete D ∨
        (a.addBlock block.begin data).1 = .inProgress ∧
          (a.addBlock block.begin data).2.incompleteCount ≠ 0 ∧
          (a.addBlock block.begin data).2.incompleteCount < a.incompleteCount) := by
  intro data
  have hinside := (h.tiling.within hmem).2
  have hlength : data.length = block.length := by
    rw [List.length_take, List.length_drop]
    omega
  have hclass : a.classifyBlock block.begin data.length = .expectedNew := by
    rw [hlength]
    exact classifyBlock_of_mem h.intact hmem hnew
  have hcarries : Carries D a (.addBlock block.begin data) := fun _ => by rw [hlength]
  have hnext := (h.step hsize hcarries).1
  rw [PieceAssembler.call] at hnext
  refine ⟨by rw [Nat.mod_eq_of_lt (by omega), hclass], hnext, ?_⟩
  have hcases := addBlock_cases (h.expected ▸ hsize) block.begin data
  rw [hclass] at hcases
  obtain ⟨-, before, found, after, hsplit, -, -, hfound, hafter, hanswer⟩ := hcases
  have hless : (a.addBlock block.begin data).2.incompleteCount < a.incompleteCount := by
    rw [hafter, incompleteCount, incompleteCount, hsplit]
    simp only [List.countP_append, List.countP_cons, hfound]
    simp
  have hiff := hnext.received_iff
  rw [hnext.expected, ← h.expected] at hiff
  rw [hanswer]
  by_cases hall : (a.addBlock block.begin data).2.AllCompleted
  · rw [if_pos (hiff.mpr hall), hnext.buffer_eq hall]
    exact .inl rfl
  · rw [if_neg (mt hiff.mp hall)]
    exact .inr ⟨rfl, mt incompleteCount_eq_zero.mp hall, hless⟩

end Tortor.Core.PieceAssembler

namespace Tortor.Net

open Tortor.Core

structure Job.Fetches (index : Nat) (D : List UInt8) (hash : Digest) (missing : Nat) (job : Job) :
    Prop where
  index_eq : job.index = index
  hash_eq : job.expectedHash = hash
  assembling : job.assembler.Assembling D
  missing_eq : job.assembler.incompleteCount = missing

namespace PeerSession

variable {ctx : PeerContext} {sha1 : List UInt8 → Digest} {id index : Nat} {s : PeerSession}
  {u : UploadSlots} {peerHas : Bitfield} {job : Option Job} {choking : Bool}

/-- Where the session is, and what it has in hand. -/
structure Stands (phase : Phase) (choking : Bool) (peerHas : Bitfield) (job : Option Job)
    (outbox : List CoordinatorMsg) (s : PeerSession) : Prop where
  phase_eq : s.phase = phase
  choking_eq : s.peerChoking = choking
  has_eq : s.peerHas = peerHas
  job_eq : s.job = job
  outbox_eq : s.outbox = outbox
  poll_eq : s.nextWorkPoll = 0

theorem Stands.posted {phase : Phase} {outbox : List CoordinatorMsg}
    (h : s.Stands phase choking peerHas job outbox) (reply : Option Reply)
    (events : List SessionEvent) :
    { s with outbox := [], reply := reply, events := events }.Stands phase choking peerHas job [] :=
  ⟨h.phase_eq, h.choking_eq, h.has_eq, h.job_eq, rfl, h.poll_eq⟩

theorem stands_connect (ctx : PeerContext) (peerAddr : SocketAddr) :
    ((new ctx peerAddr).connect ctx id false (.smooth .tick)).Stands .opening true
      (.new ctx.expectedHashes.length) none [.getCompletedPieces id] :=
  ⟨rfl, rfl, rfl, rfl, rfl, rfl⟩

section Turns

variable {turn : Turn}

theorem turn_looping (houtbox : s.outbox = []) (hphase : s.phase = .looping) :
    s.turn ctx sha1 id false turn u = (s.maybeRequestWork id turn, u) := by
  simp [PeerSession.turn, houtbox, hphase]

theorem turn_selecting (houtbox : s.outbox = []) (hphase : s.phase = .selecting) :
    s.turn ctx sha1 id false turn u = s.select ctx id turn u := by
  simp [PeerSession.turn, houtbox, hphase]

theorem turn_hashing {job : Job} {buffer : List UInt8} (houtbox : s.outbox = [])
    (hphase : s.phase = .hashing job buffer) :
    s.turn ctx sha1 id false turn u = (s.takeHash sha1 turn job buffer, u) := by
  simp [PeerSession.turn, houtbox, hphase]

theorem turn_opening {pieces : List Nat} (houtbox : s.outbox = []) (hphase : s.phase = .opening)
    (hreply : s.reply = some (.completedPieces pieces)) :
    s.turn ctx sha1 id false turn u = ({ s with reply := none }.opened ctx turn pieces, u) := by
  simp [PeerSession.turn, houtbox, hphase, hreply]

theorem turn_requesting {piece : Option Nat} (houtbox : s.outbox = [])
    (hphase : s.phase = .requesting) (hreply : s.reply = some (.work piece)) :
    s.turn ctx sha1 id false turn u = ({ s with reply := none }.takeWork ctx turn piece, u) := by
  simp [PeerSession.turn, houtbox, hphase, hreply]

end Turns

theorem stands_opened {pieces : List Nat} (h : s.Stands .opening choking peerHas job [])
    (hreply : s.reply = some (.completedPieces pieces)) :
    (s.turn ctx sha1 id false (.smooth .tick) u).1.Stands .looping choking peerHas job [] := by
  rw [turn_opening h.outbox_eq h.phase_eq hreply]
  simp only [opened]
  split <;> exact ⟨rfl, h.choking_eq, h.has_eq, h.job_eq, h.outbox_eq, h.poll_eq⟩

theorem stands_choked (h : s.Stands .looping true peerHas job []) :
    (s.turn ctx sha1 id false (.smooth .tick) u).1.Stands .selecting true peerHas job [] := by
  rw [turn_looping h.outbox_eq h.phase_eq]
  have hfill : s.maybeRequestWork id (.smooth .tick) = s.fillPipeline (.smooth .tick) := by
    simp [maybeRequestWork, h.choking_eq]
  have hsame : s.fillPipeline (.smooth .tick) = { s with phase := .selecting } := by
    simp [fillPipeline, h.choking_eq]
  rw [hfill, hsame]
  exact ⟨rfl, h.choking_eq, h.has_eq, h.job_eq, h.outbox_eq, h.poll_eq⟩

theorem stands_have (h : s.Stands .selecting choking peerHas job [])
    (hindex : index < peerHas.len) :
    (s.turn ctx sha1 id false (.smooth (.message (.have index))) u).1.Stands .looping choking
      (peerHas.set index).2 job [.peerHave index] := by
  rw [turn_selecting h.outbox_eq h.phase_eq]
  simp only [select, Turn.smooth, handleMessage, handleHave, h.has_eq]
  rw [if_neg (Nat.not_le.mpr hindex), peerHas.set_fst, if_pos (decide_eq_true hindex)]
  exact ⟨rfl, h.choking_eq, rfl, h.job_eq, by simp [post, h.outbox_eq], rfl⟩

theorem stands_unchoke (h : s.Stands .selecting choking peerHas job []) :
    (s.turn ctx sha1 id false (.smooth (.message .unchoke)) u).1.Stands .looping false peerHas job
      [] := by
  rw [turn_selecting h.outbox_eq h.phase_eq]
  exact ⟨rfl, rfl, h.has_eq, h.job_eq, h.outbox_eq, rfl⟩

theorem stands_idle (h : s.Stands .looping false peerHas none []) (hcount : peerHas.count ≠ 0) :
    (s.turn ctx sha1 id false (.smooth .tick) u).1.Stands .requesting false peerHas none
      [.requestWork peerHas id] := by
  rw [turn_looping h.outbox_eq h.phase_eq]
  have hasks : s.maybeRequestWork id (.smooth .tick) =
      { s with phase := .requesting }.post (.requestWork peerHas id) := by
    simp [maybeRequestWork, h.choking_eq, h.job_eq, h.has_eq, h.poll_eq, hcount, Turn.smooth]
  rw [hasks]
  exact ⟨rfl, h.choking_eq, h.has_eq, h.job_eq, by simp [post, h.outbox_eq], h.poll_eq⟩

section Blocks

variable {D : List UInt8} {hash : Digest} {missing : Nat} {working : Job} {phase : Phase}

theorem requestLoop_smooth (index : Nat) (stimulus : Stimulus) (rounds : Nat) {a : PieceAssembler}
    (h : a.Assembling D) (sent : List PeerMessage) :
    let r := requestLoop (.smooth stimulus) index rounds a sent
    r.1 = true ∧ r.2.1.Assembling D ∧ r.2.1.incompleteCount = a.incompleteCount := by
  induction rounds generalizing a sent with
  | zero => exact ⟨rfl, h, rfl⟩
  | succ rounds ih =>
    unfold requestLoop
    split
    case isFalse => exact ⟨rfl, h, rfl⟩
    case isTrue =>
      split
      case h_1 => exact ⟨rfl, h, rfl⟩
      case h_2 begin len retry b hnext =>
        have hrequests := PieceAssembler.nextRequest_eq_some hnext
        have hb : b.Assembling D := by
          rw [hrequests.same]
          exact h.congr rfl rfl rfl hrequests.progress
        obtain ⟨hok, hlast, hcount⟩ := ih hb (.request index begin len :: sent)
        exact ⟨hok, hlast, hcount.trans hrequests.incompleteCount_eq⟩

theorem stands_filled (stimulus : Stimulus) (h : s.Stands phase false peerHas (some working) [])
    (hjob : working.Fetches index D hash missing) : ∃ job : Job, job.Fetches index D hash missing ∧
      (s.fillPipeline (.smooth stimulus)).Stands .selecting false peerHas (some job) [] := by
  obtain ⟨hok, hassembling, hcount⟩ := requestLoop_smooth working.index stimulus PIPELINE_DEPTH
    hjob.assembling s.sent
  refine ⟨{ working with
    assembler := (requestLoop (.smooth stimulus) working.index PIPELINE_DEPTH working.assembler
      s.sent).2.1 }, ⟨hjob.index_eq, hjob.hash_eq, hassembling, hcount.trans hjob.missing_eq⟩, ?_⟩
  simp only [fillPipeline, h.choking_eq, h.job_eq, hok, Bool.false_eq_true, if_false, if_true]
  exact ⟨rfl, rfl, h.has_eq, rfl, h.outbox_eq, h.poll_eq⟩

theorem stands_working (h : s.Stands .looping false peerHas (some working) [])
    (hjob : working.Fetches index D hash missing) : ∃ job : Job, job.Fetches index D hash missing ∧
      (s.turn ctx sha1 id false (.smooth .tick) u).1.Stands .selecting false peerHas (some job)
        [] := by
  rw [turn_looping h.outbox_eq h.phase_eq]
  have hfill : s.maybeRequestWork id (.smooth .tick) = s.fillPipeline (.smooth .tick) := by
    simp [maybeRequestWork, h.job_eq]
  rw [hfill]
  exact stands_filled .tick h hjob

theorem stands_handed (h : s.Stands .requesting false peerHas none [])
    (hreply : s.reply = some (.work (some index))) (hverified : Verified ctx sha1 index D)
    (hpos : 0 < D.length) : ∃ (job : Job) (missing : Nat),
      missing ≠ 0 ∧ job.Fetches index D (sha1 D) missing ∧
        (s.turn ctx sha1 id false (.smooth .tick) u).1.Stands .selecting false peerHas (some job)
          [] := by
  have hassembling := PieceAssembler.assembling_new index hpos
  have hmissing : (PieceAssembler.new index D.length).incompleteCount ≠ 0 := by
    rw [ne_eq, PieceAssembler.incompleteCount_eq_zero]
    intro hall
    obtain ⟨block, hmem, -⟩ := hassembling.tiling.exists_mem (Nat.zero_le 0) hpos
    exact absurd (hall block hmem) (by
      rw [(PieceAssembler.blank_new hpos hmem).2]
      exact Bool.false_ne_true)
  rw [turn_requesting h.outbox_eq h.phase_eq hreply]
  simp only [takeWork, hverified.hash, hverified.length]
  have hstart : { s with
      reply := none
      job := some ⟨index, sha1 D, .new index D.length, 0⟩ }.Stands .requesting false peerHas
        (some ⟨index, sha1 D, .new index D.length, 0⟩) [] :=
    ⟨h.phase_eq, h.choking_eq, h.has_eq, rfl, h.outbox_eq, h.poll_eq⟩
  obtain ⟨job, hjob, hstands⟩ := stands_filled .tick hstart ⟨rfl, rfl, hassembling, rfl⟩
  exact ⟨job, _, hmissing, hjob, hstands⟩

theorem stands_block (h : s.Stands .selecting false peerHas (some working) [])
    (hjob : working.Fetches index D hash missing) (hmissing : missing ≠ 0)
    (hsize : D.length < 2 ^ 32) : ∃ begin block, ∀ u,
      let t := (s.turn ctx sha1 id false (.smooth (.message (.piece index begin block))) u).1
      (∃ job : Job, job.index = index ∧ job.expectedHash = hash ∧
        t.Stands (.hashing job D) false peerHas none []) ∨
      ∃ (job : Job) (fewer : Nat), fewer ≠ 0 ∧ fewer < missing ∧ job.Fetches index D hash fewer ∧
        t.Stands .looping false peerHas (some job) [] := by
  obtain ⟨block, hmem, hnew⟩ : ∃ block ∈ working.assembler.blocks, block.completed = false := by
    rw [← hjob.missing_eq, PieceAssembler.incompleteCount, ← Nat.pos_iff_ne_zero,
      List.countP_pos_iff] at hmissing
    simpa using hmissing
  obtain ⟨hclass, hnext, hanswer⟩ := hjob.assembling.addBlock_next hsize hmem hnew
  generalize hdata : (D.drop block.begin).take block.length = data at hclass hnext hanswer
  obtain rfl := hjob.index_eq
  refine ⟨block.begin, data, fun u => ?_⟩
  intro t
  have ht : t = (handlePiece (.smooth (.message (.piece working.index block.begin data)))
      working.index block.begin data { s with
        phase := .looping
        lastRecv := 0
        received := .piece working.index block.begin data :: s.received }) := by
    change (s.turn ctx sha1 id false _ u).1 = _
    rw [turn_selecting h.outbox_eq h.phase_eq]
    rfl
  rw [ht]
  simp only [handlePiece, h.job_eq, if_true, hclass]
  let job : Job :=
    { working with assembler := (working.assembler.addBlock block.begin data).2, lastBlock := 0 }
  obtain hlast | ⟨hmore, hfewer, hless⟩ := hanswer
  · rw [hlast]
    refine .inl ⟨job, rfl, hjob.hash_eq, ?_⟩
    exact ⟨rfl, h.choking_eq, h.has_eq, rfl, h.outbox_eq, h.poll_eq⟩
  · rw [hmore]
    refine .inr ⟨job, _, hfewer, hjob.missing_eq ▸ hless, ⟨rfl, hjob.hash_eq, hnext, rfl⟩, ?_⟩
    exact ⟨rfl, h.choking_eq, h.has_eq, rfl, h.outbox_eq, h.poll_eq⟩

theorem stands_hashed (h : s.Stands (.hashing working D) choking peerHas none [])
    (hhash : working.expectedHash = sha1 D) :
    (s.turn ctx sha1 id false (.smooth .tick) u).1.Stands .looping choking peerHas none
      [.pieceDownloaded working.index D] := by
  rw [turn_hashing h.outbox_eq h.phase_eq]
  have hposts : s.takeHash sha1 (.smooth .tick) working D =
      { s with phase := .looping }.post (.pieceDownloaded working.index D) := by
    simp [takeHash, Turn.smooth, hhash]
  rw [hposts]
  exact ⟨rfl, h.choking_eq, h.has_eq, h.job_eq, by simp [post, h.outbox_eq], h.poll_eq⟩

end Blocks

end PeerSession
end Tortor.Net
