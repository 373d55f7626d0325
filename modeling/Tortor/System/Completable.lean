import Tortor.System.Seeding

/-! When a download can still be completed. -/

namespace Tortor.System

open Tortor.Core Tortor.Net Tortor.Lib

namespace Swarm

variable {sha1 : List UInt8 → Digest} {codec : ExtensionCodec} {info : TorrentMeta} {s : Swarm}
  {action : Action} {p : Nat} {windows : Bool}

def Allowed (s : Swarm) (action : Action) : Prop :=
  selects action = false ∧ (s.closing = true → ∀ peerAddr now, action ≠ .dial peerAddr now)

theorem can_complete (haccepted : ∃ raw infoHash, buildMeta windows raw infoHash = .ok info)
    (hpublished : ∀ index < info.pieces.length, ∃ D, Verified (peerContext codec info) sha1 index D)
    (h : s.Able sha1 codec info) :
    CanReach (step sha1 codec info) Gentle (fun t => t.manager.isDone = true) s := by
  have hdescend : CanReach (step sha1 codec info) Gentle
      (fun t => t.Able sha1 codec info ∧ t.manager.outstanding.card = 0) s := by
    refine CanReach.descend (fun t : Swarm => t.manager.outstanding.card) ?_ h
    intro t hable hleft
    -- first everything that is underway comes to an end, and then one more piece is fetched
    refine (can_rest hable).trans fun u hu => ?_
    obtain ⟨hable', honward, hquiet⟩ := hu
    cases hdone : u.manager.isDone with
    | true =>
      have hzero := hable'.inv.isDone_iff_outstanding.mp hdone
      exact .here ⟨hable', hzero ▸ Nat.pos_of_ne_zero hleft⟩
    | false =>
      obtain ⟨p, hp, hprogress⟩ := can_progress haccepted hpublished hable' hquiet hdone
      have hkept := hprogress.keeping (I := fun v => v.Able sha1 codec info ∧
        u.manager.Onward v.manager) (fun v action hv hgentle => ⟨able_step hv.1 hgentle,
          hv.2.trans (onward_step sha1 codec info hv.1.unchanging action)⟩) ⟨hable', .refl _⟩
      refine hkept.mono fun v hv => ⟨hv.1.1, ?_⟩
      have hless := hv.1.2.outstanding_lt hp hv.2
      exact hless.trans_le (Finset.card_le_card honward.outstanding_subset)
  exact hdescend.mono fun t ht => ht.1.inv.isDone_iff_outstanding.mpr ht.2

theorem manager_of_stopped (h : (s.step sha1 codec info action).stopped = true) :
    (s.step sha1 codec info action).manager = s.manager := by
  have hchange := change_step sha1 codec info s action
  generalize s.step sha1 codec info action = s' at hchange h ⊢
  cases hchange with
  | deliver env hrunning =>
    rw [(resume_frame _ _).2] at h
    cases hrunning.symm.trans h
  | tick env hrunning =>
    rw [(resume_frame _ _).2] at h
    cases hrunning.symm.trans h
  | shutdown env => exact manager_shutdown env s.coordinator
  | _ => rfl

structure Hopeless (sha1 : List UInt8 → Digest) (codec : ExtensionCodec) (info : TorrentMeta)
    (p : Nat) (s : Swarm) : Prop where
  founded : s.Founded sha1 codec info
  unchanging : s.Unchanging
  stranded : s.Stranded p

theorem Hopeless.not_done (h : s.Hopeless sha1 codec info p) : s.manager.isDone = false := by
  have hinv := h.founded.inv
  refine Bool.eq_false_iff.mpr fun hdone => h.stranded.missing (of_decide_eq_true ?_)
  exact (TorrentManager.isDone_iff hinv).mp hdone p (lt_of_stranded hinv h.stranded)
    h.stranded.wanted

theorem hopeless_step (h : s.Hopeless sha1 codec info p) (haction : selects action = false)
    (hstill : (s.step sha1 codec info action).stopped = false) :
    (s.step sha1 codec info action).Hopeless sha1 codec info p :=
  have hrunning := running_of_step hstill
  ⟨founded_step h.founded action, unchanging_step h.founded.orderly h.unchanging haction,
    stranded_step (h.founded.steady hrunning) (h.founded.untouched hrunning) h.unchanging hstill
      h.stranded⟩

theorem cannot_complete (h : s.Hopeless sha1 codec info p) {actions : List Action}
    (hactions : Along (step sha1 codec info) Allowed s actions) :
    (exec (step sha1 codec info) s actions).manager.isDone = false := by
  refine (exec_invariant_along (P := fun t => t.manager.isDone = false ∧
    (t.stopped = false → t.Hopeless sha1 codec info p)) (fun t action ht hallowed => ?_) hactions
      ⟨h.not_done, fun _ => h⟩).1
  cases hstill : (t.step sha1 codec info action).stopped with
  | true => exact ⟨(congrArg _ (manager_of_stopped hstill)).trans ht.1, by rintro ⟨⟩⟩
  | false =>
    have hnext := hopeless_step (ht.2 (running_of_step hstill)) hallowed.1 hstill
    exact ⟨hnext.not_done, fun _ => hnext⟩

end Swarm

/-- While the coordinator and the swarm manager run, and no change of the selection and no request
of a session that is over is underway: a download can still be completed, by whatever peers there
will be, if and only if no piece that is wanted is reserved as often as it may be without anybody
who works on it. -/
theorem download_can_complete_iff {sha1 : List UInt8 → Digest} {codec : ExtensionCodec}
    {info : TorrentMeta} {l : Launch} {fs : FileStore Path} {task : BackgroundTask}
    (haccepted : ∃ raw infoHash, buildMeta l.windows raw infoHash = .ok info)
    (hpublished : ∀ index < info.pieces.length, ∃ D, Verified (peerContext codec info) sha1 index D)
    (hlaunch : launch info l fs = some task) (actions : List Action) :
    let s := exec (Swarm.step sha1 codec info) (.start task.coordinator) actions
    s.stopped = false → s.closing = false → s.Unchanging → s.Served →
      (CanReach (Swarm.step sha1 codec info) Swarm.Allowed (fun t => t.manager.isDone = true) s ↔
        ∀ p, ¬ s.Stranded p) := by
  intro s hrunning hopen hunchanging hserved
  have hfounded : s.Founded sha1 codec info :=
    exec_invariant (P := Swarm.Founded sha1 codec info)
      (fun _ action h => Swarm.founded_step h action) actions
      (Swarm.founded_start sha1 codec haccepted hlaunch)
  constructor
  · rintro ⟨later, hlater, hdone⟩ p hstranded
    have hnot := Swarm.cannot_complete ⟨hfounded, hunchanging, hstranded⟩ hlater
    cases hnot.symm.trans hdone
  · intro hnone
    have hable : s.Able sha1 codec info := by
      refine ⟨hfounded, hrunning, hopen, hunchanging, hserved, fun p hwanted => ?_⟩
      by_cases hdone : p ∈ s.manager.completed
      · exact .inl (decide_eq_true hdone)
      · have hle := Swarm.reserved_le hfounded.inv p
        have hcases : s.manager.reserved p ≠ MAX_ENDGAME_HOLDERS ∨ s.held p ≠ 0 := by
          by_contra hboth
          push Not at hboth
          exact hnone p ⟨hwanted, hdone, hboth.1, hboth.2⟩
        refine .inr ?_
        change s.manager.reserved p < MAX_ENDGAME_HOLDERS + s.held p
        omega
    refine (Swarm.can_complete haccepted hpublished hable).weaken
      (I := Swarm.Able sha1 codec info) (fun t action ht hgentle => ?_) hable
    refine ⟨Swarm.able_step ht hgentle, Swarm.selects_of_gentle hgentle, fun hclosing => ?_⟩
    cases ht.dialing.symm.trans hclosing

/-! A torrent of one piece, which three sessions fetch at once. -/

def lonePiece : TorrentMeta := .new "t" 2 1 [zeroDigest] (some 2) none zeroDigest

def loneLaunch : Launch := { plainLaunch none with selection := fileSelection lonePiece none }

def startLone : Swarm :=
  .start ((launch lonePiece loneLaunch fun _ => none).get (by decide +kernel)).coordinator

theorem accepted_lonePiece : ∃ raw infoHash, buildMeta false raw infoHash = .ok lonePiece :=
  ⟨⟨"t", 2, List.replicate 20 0, some 2, none⟩, zeroDigest, by decide +kernel⟩

/-- Then nothing is heard of the peers, and the swarm manager aborts the sessions. -/
def silentActions : List Action :=
  fetchActions 0 ++ fetchActions 1 ++ fetchActions 2 ++
    [.abort 0 400000, .abort 1 400000, .abort 2 400000]

theorem download_cannot_complete_silent : ¬ CanReach (Swarm.step sameHash noCodec lonePiece)
    Swarm.Allowed (fun t => t.manager.isDone = true)
    (exec (Swarm.step sameHash noCodec lonePiece) startLone silentActions) := by
  have hpublished : ∀ index < lonePiece.pieces.length, ∃ D,
      Verified (peerContext noCodec lonePiece) sameHash index D := by
    intro index hindex
    obtain rfl : index = 0 := Nat.lt_one_iff.mp hindex
    exact ⟨[0, 0], by decide +kernel, by decide +kernel⟩
  have hmailbox : (exec (Swarm.step sameHash noCodec lonePiece) startLone silentActions).mailbox =
      [] := by decide +kernel
  have hunchanging : Swarm.Unchanging
      (exec (Swarm.step sameHash noCodec lonePiece) startLone silentActions) := by
    rw [Swarm.Unchanging, hmailbox]
    exact List.forall_mem_nil _
  have hserved : Swarm.Served
      (exec (Swarm.step sameHash noCodec lonePiece) startLone silentActions) := by
    rintro id peer - - ⟨peerHas, hm⟩
    rw [hmailbox] at hm
    cases hm
  intro hreach
  exact (download_can_complete_iff (l := loneLaunch) accepted_lonePiece hpublished
    (Option.some_get _).symm silentActions (by decide +kernel) (by decide +kernel) hunchanging
      hserved).mp hreach 0 ⟨by decide +kernel, by decide +kernel, by decide +kernel,
        by decide +kernel⟩

end Tortor.System
