import Tortor.Core.CoordinatorLaws
import Tortor.System.Torrent

/-! When the end of a download is reported. -/

namespace Tortor.Core

def CoordinatorState.hasCompleted : CoordinatorState → Bool
  | checkingFiles .. => false
  | downloadingData _ _ _ hasCompleted => hasCompleted

namespace Coordinator

def reports (effects : List Effect) : Nat := effects.count (.ui .downloadComplete)

theorem reports_append (xs ys : List Effect) : reports (xs ++ ys) = reports xs + reports ys :=
  List.count_append

structure Reported (before : Bool) (r : Coordinator × List Effect) : Prop where
  hasCompleted_eq : r.1.state.hasCompleted = r.1.state.manager.isDone
  reports_eq : reports r.2 = (!before && r.1.state.manager.isDone).toNat

theorem Reported.quiet {before : Bool} {r : Coordinator × List Effect}
    (hflag : r.1.state.hasCompleted = before) (hdone : r.1.state.manager.isDone = before)
    (hnone : reports r.2 = 0) : Reported before r where
  hasCompleted_eq := hflag.trans hdone.symm
  reports_eq := by rw [hnone, hdone, Bool.not_and_self]; rfl

variable {c : Coordinator}

theorem hasCompleted_mapManager (f : TorrentManager → TorrentManager) :
    (c.mapManager f).state.hasCompleted = c.state.hasCompleted := by
  obtain ⟨state, fs, saved⟩ := c
  cases state <;> rfl

theorem reported_mapManager {f : TorrentManager → TorrentManager}
    (hflag : c.state.hasCompleted = c.state.manager.isDone)
    (hdone : (f c.state.manager).isDone = c.state.manager.isDone) :
    Reported c.state.manager.isDone (c.mapManager f, []) :=
  .quiet ((hasCompleted_mapManager f).trans hflag) (by rw [manager_mapManager, hdone]) rfl

theorem reported_handleRequestWork (hinv : c.state.manager.Inv)
    (hflag : c.state.hasCompleted = c.state.manager.isDone) (env : Env) (peerHas : Bitfield)
    (reply : Nat) : Reported c.state.manager.isDone (c.handleRequestWork env peerHas reply) := by
  obtain ⟨state, fs, saved⟩ := c
  cases state with
  | checkingFiles => exact .quiet hflag rfl rfl
  | downloadingData manager disk paused hasCompleted =>
    cases paused with
    | true => exact .quiet hflag rfl rfl
    | false =>
      exact .quiet hflag ((manager.alike_nextWorkFor peerHas env.rng).isDone_eq hinv
        (TorrentManager.Inv.nextWorkFor hinv peerHas env.rng)) rfl

theorem reported_handlePieceDownloaded (hinv : c.state.manager.Inv)
    (hflag : c.state.hasCompleted = c.state.manager.isDone) (env : Env) (index : Nat)
    (data : List UInt8) :
    Reported c.state.manager.isDone (c.handlePieceDownloaded env index data) := by
  obtain ⟨state, fs, saved⟩ := c
  cases state with
  | checkingFiles => exact .quiet hflag rfl rfl
  | downloadingData manager disk paused hasCompleted =>
    simp only [CoordinatorState.manager, CoordinatorState.hasCompleted] at hinv hflag ⊢
    simp only [handlePieceDownloaded]
    split
    · exact .quiet hflag rfl rfl
    · split
      · exact .quiet hflag ((manager.alike_returnWork index).isDone_eq hinv
          (hinv.returnWork index)) rfl
      · have hkept := hinv.isDone_markCompleted index
        have hnone : reports (if (manager.markCompleted index).isServable index then
            [Effect.announce (.pieceCompleted index)] else []) = 0 := by
          split <;> rfl
        split
        case isTrue hends =>
          obtain ⟨hdone, hopen⟩ := Bool.and_eq_true_iff.mp hends
          have hbefore : manager.isDone = false := by rw [← hflag]; simpa using hopen
          refine ⟨hdone.symm, ?_⟩
          rw [reports_append, hnone, hbefore]
          simp only [CoordinatorState.manager, hdone]
          rfl
        case isFalse hstill =>
          have hsame : (manager.markCompleted index).isDone = manager.isDone := by
            cases hbefore : manager.isDone with
            | true => exact hkept hbefore
            | false =>
              rw [hflag, hbefore] at hstill
              simpa using hstill
          exact .quiet hflag hsame hnone

theorem reported_handleSetSelection (hrunning : c.state.isChecking = false)
    (hflag : c.state.hasCompleted = c.state.manager.isDone) (env : Env) (selection : Selection)
    (selectedFiles : List Bool) (refetch : Bitfield) :
    Reported c.state.manager.isDone
      (c.handleSetSelection env selection selectedFiles refetch) := by
  obtain ⟨state, fs, saved⟩ := c
  cases state with
  | checkingFiles => cases hrunning
  | downloadingData manager disk paused hasCompleted =>
    simp only [CoordinatorState.manager, CoordinatorState.hasCompleted] at hflag ⊢
    simp only [handleSetSelection]
    split
    · exact .quiet hflag rfl rfl
    · refine ⟨rfl, ?_⟩
      rw [hflag]
      simp only [CoordinatorState.manager]
      cases manager.isDone <;> cases (manager.applySelection selection refetch).isDone <;> rfl

theorem reported_handle (hinv : c.state.manager.Inv) (hrunning : c.state.isChecking = false)
    (hflag : c.state.hasCompleted = c.state.manager.isDone) (env : Env) (msg : CoordinatorMsg) :
    Reported c.state.manager.isDone (c.handle env msg) := by
  cases msg with
  | requestWork peerHas reply => exact reported_handleRequestWork hinv hflag env peerHas reply
  | peerBitfield | peerHave | peerGone => exact reported_mapManager hflag rfl
  | pieceDownloaded index data => exact reported_handlePieceDownloaded hinv hflag env index data
  | pieceFailed index =>
    simp only [handle]
    split
    · exact reported_mapManager hflag
        ((TorrentManager.alike_returnWork _ index).isDone_eq hinv (hinv.returnWork index))
    · exact .quiet hflag rfl rfl
  | getCompletedPieces =>
    simp only [handle]
    split <;> exact .quiet hflag rfl rfl
  | readPiece =>
    simp only [handle, handleReadPiece]
    split <;> exact .quiet hflag rfl rfl
  | pause | resume =>
    obtain ⟨state, fs, saved⟩ := c
    cases state <;> exact .quiet hflag rfl rfl
  | setSelection selection selectedFiles refetch =>
    exact reported_handleSetSelection hrunning hflag env selection selectedFiles refetch

theorem inv_checkTick (sha1 : List UInt8 → Digest) (env : Env) (h : c.state.manager.Inv) :
    (c.checkTick sha1 env).1.state.manager.Inv := by
  obtain ⟨-, he | ⟨-, he | ⟨index, he⟩⟩⟩ := checkTick_cases sha1 env c <;> rw [he]
  exacts [h, h, h.markCompleted index]

end Coordinator
end Tortor.Core

namespace Tortor.System

open Tortor.Core Tortor.Lib

/-- How a coordinator comes to exchange data: at once, or when its files have been checked. -/
inductive Entrance
  | started
  | checked
  deriving DecidableEq

def Built (manager : TorrentManager) : Prop :=
  ∃ totalPieces completedPieces selection calls, manager =
    exec TorrentManager.call (.withSelection totalPieces completedPieces selection) calls

theorem Built.inv {manager : TorrentManager} (h : Built manager) : manager.Inv := by
  obtain ⟨totalPieces, completedPieces, selection, calls, rfl⟩ := h
  exact exec_invariant (fun _ c hm => hm.call c) calls
    (TorrentManager.inv_withSelection totalPieces completedPieces selection)

inductive Entered : Entrance → Coordinator → List Effect → Prop
  | started {manager : TorrentManager} (hbuilt : Built manager) (disk : Disk)
      (requiresCheck : Bool) (pieces : List Digest) (pieceLength totalLength : Nat)
      (startPaused : Bool) (fs : FileStore Path) (resumeFile : List (List UInt8))
      (hdata : (initialCoordinatorState manager disk requiresCheck pieces pieceLength totalLength
        startPaused).isChecking = false) :
      Entered .started ⟨initialCoordinatorState manager disk requiresCheck pieces pieceLength
        totalLength startPaused, fs, resumeFile⟩ []
  | checked {c : Coordinator} (hbuilt : Built c.state.manager) (hchecking : c.state.isChecking)
      (sha1 : List UInt8 → Digest) (env : Env)
      (hdata : (c.checkTick sha1 env).1.state.isChecking = false) :
      Entered .checked (c.checkTick sha1 env).1 (c.checkTick sha1 env).2

/-- A coordinator with the number of reports it has made and of times it came to be done. -/
structure Reporting where
  coordinator : Coordinator
  reports : Nat
  changes : Nat

namespace Reporting

def start (c : Coordinator) (effects : List Effect) : Reporting :=
  ⟨c, Coordinator.reports effects, c.state.manager.isDone.toNat⟩

def step (s : Reporting) (input : Env × CoordinatorMsg) : Reporting :=
  let (c, effects) := s.coordinator.handle input.1 input.2
  { coordinator := c
    reports := s.reports + Coordinator.reports effects
    changes := s.changes +
      (!s.coordinator.state.manager.isDone && c.state.manager.isDone).toNat }

structure Exact (s : Reporting) : Prop where
  inv : s.coordinator.state.manager.Inv
  running : s.coordinator.state.isChecking = false
  hasCompleted_eq : s.coordinator.state.hasCompleted = s.coordinator.state.manager.isDone
  reports_eq : s.reports = s.changes

theorem exact_step {s : Reporting} (h : s.Exact) (input : Env × CoordinatorMsg) :
    (s.step input).Exact := by
  obtain ⟨env, msg⟩ := input
  have hreported := Coordinator.reported_handle h.inv h.running h.hasCompleted_eq env msg
  refine ⟨?_, ?_, hreported.hasCompleted_eq, ?_⟩
  · obtain ⟨calls, he⟩ := Coordinator.handle_calls env s.coordinator msg
    show (s.coordinator.handle env msg).1.state.manager.Inv
    rw [he]
    exact exec_invariant (fun _ c hm => hm.call c) calls h.inv
  · exact (Coordinator.isChecking_handle env s.coordinator msg).trans h.running
  · exact congrArg₂ (· + ·) h.reports_eq hreported.reports_eq

end Reporting

theorem reports_checkTick {c : Coordinator} (hchecking : c.state.isChecking)
    (sha1 : List UInt8 → Digest) (env : Env)
    (hdata : (c.checkTick sha1 env).1.state.isChecking = false) :
    (c.checkTick sha1 env).1.state.hasCompleted =
        (c.checkTick sha1 env).1.state.manager.isDone ∧
      Coordinator.reports (c.checkTick sha1 env).2 =
        (c.checkTick sha1 env).1.state.manager.isDone.toNat := by
  have henter (manager : TorrentManager) :
      Coordinator.reports ((if manager.isDone then [Effect.ui .downloadComplete,
        .announce .downloadComplete] else []) ++ [.ui (.status "File check complete")]) =
          manager.isDone.toNat := by
    cases manager.isDone <;> rfl
  obtain ⟨state, fs, saved⟩ := c
  cases state with
  | downloadingData => cases hchecking
  | checkingFiles manager disk hashes pieceLength totalLength index =>
    revert hdata
    simp only [Coordinator.checkTick]
    split
    · exact fun _ => ⟨rfl, henter manager⟩
    · generalize Coordinator.verified sha1 env manager disk hashes pieceLength totalLength index fs =
        found
      generalize (if found then manager.markCompleted index else manager) = after
      have hnone : Coordinator.reports (if found && after.isServable index then
          [Effect.announce (.pieceCompleted index)] else []) = 0 := by
        split <;> rfl
      split
      · intro _
        refine ⟨rfl, ?_⟩
        rw [Coordinator.reports_append, hnone, Nat.zero_add]
        exact henter after
      · intro hdata
        cases hdata

/-- The flag is right and completion is reported once for each time the download comes to be
done, whatever is handled, unless the download is done when it starts without a check. -/
theorem completion_reported_iff {entrance : Entrance} {c : Coordinator} {effects : List Effect}
    (h : Entered entrance c effects) :
    (∀ inputs, let s := exec Reporting.step (.start c effects) inputs
      (inputs ≠ [] → s.coordinator.state.hasCompleted = s.coordinator.state.manager.isDone) ∧
        s.reports = s.changes) ↔
      (entrance = .started → c.state.manager.isDone = false) := by
  constructor
  · intro hall hstarted
    have hnone := (hall []).2
    cases h with
    | started => simpa [Reporting.start, Coordinator.reports] using hnone.symm
    | checked => cases hstarted
  · intro hdone inputs
    have hexact : (Reporting.start c effects).Exact := by
      cases h with
      | started hbuilt disk requiresCheck pieces pieceLength totalLength startPaused _ _ hdata =>
        have hopen := hdone rfl
        unfold initialCoordinatorState at hdata hopen
        unfold initialCoordinatorState
        split at hdata
        · cases hdata
        case isFalse hno =>
          rw [if_neg hno] at hopen
          rw [if_neg hno]
          refine ⟨hbuilt.inv, rfl, hopen.symm, ?_⟩
          simp only [Reporting.start, hopen]
          rfl
      | checked hbuilt hchecking sha1 env hdata =>
        obtain ⟨hflag, hreports⟩ := reports_checkTick hchecking sha1 env hdata
        exact ⟨Coordinator.inv_checkTick sha1 env hbuilt.inv, hdata, hflag, hreports⟩
    have hend := exec_invariant (P := Reporting.Exact) (fun _ i hs => Reporting.exact_step hs i)
      inputs hexact
    exact ⟨fun _ => hend.hasCompleted_eq, hend.reports_eq⟩

/-! A torrent of one piece, with and without that piece in its resume file. -/

def onePiece (completedPieces : List Nat) : TorrentManager :=
  .withSelection 1 completedPieces (.all 1)

def startOnePiece (completedPieces : List Nat) : Coordinator :=
  { state := initialCoordinatorState (onePiece completedPieces)
      ⟨.standard, [⟨["a"], true, 0, 1, false⟩], 1⟩ false [] 1 1 false
    fs := fun _ => some (Lib.Inode.empty.setLen 1)
    resumeFile := [] }

theorem entered_onePiece (completedPieces : List Nat) :
    Entered .started (startOnePiece completedPieces) [] :=
  .started ⟨1, completedPieces, .all 1, [], rfl⟩ _ _ _ _ _ _ _ _ rfl

theorem completion_reported_onePiece :
    let s := exec Reporting.step (.start (startOnePiece []) [])
      [(.calm, .pieceDownloaded 0 [7]), (.calm, .pieceDownloaded 0 [7])]
    s.coordinator.state.hasCompleted = s.coordinator.state.manager.isDone ∧
      s.reports = s.changes ∧ s.changes = 1 :=
  have h := (completion_reported_iff (entered_onePiece [])).mpr (by decide)
    [(.calm, .pieceDownloaded 0 [7]), (.calm, .pieceDownloaded 0 [7])]
  ⟨h.1 (List.cons_ne_nil _ _), h.2, by decide +kernel⟩

/-- A download that is complete when it is resumed is never reported, and its flag stays unset. -/
theorem completion_unreported : ¬ ∀ entrance c effects, Entered entrance c effects → ∀ inputs,
    let s := exec Reporting.step (.start c effects) inputs
    (inputs ≠ [] → s.coordinator.state.hasCompleted = s.coordinator.state.manager.isDone) ∧
      s.reports = s.changes := by
  intro hall
  have h := hall _ _ _ (entered_onePiece [0]) [(.calm, .pause)]
  exact absurd (h.1 (List.cons_ne_nil _ _)) (by decide)

end Tortor.System
