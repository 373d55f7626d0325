import Tortor.Core.Storage
import Tortor.System.TorrentLaws

/-! What the resume file records is on stable storage. -/

namespace Tortor.System

open Tortor.Core Tortor.Core.Disk Tortor.Lib

/-- A crash leaves the byte `x` of the torrent as it is, when it has been written. -/
def Survives (plans : List FilePlan) (fs : FileStore Path) (x : Nat) : Prop :=
  ∀ plan ∈ plans, plan.start ≤ x ∧ x < plan.stop → ∀ inode ∈ fs plan.path,
    inode.written (x - plan.start) = true →
    inode.crash.content (x - plan.start) = inode.content (x - plan.start)

instance (plans : List FilePlan) (fs : FileStore Path) (x : Nat) :
    Decidable (Survives plans fs x) :=
  inferInstanceAs (Decidable (∀ plan ∈ plans, plan.start ≤ x ∧ x < plan.stop →
    ∀ inode ∈ fs plan.path, inode.written (x - plan.start) = true →
      inode.crash.content (x - plan.start) = inode.content (x - plan.start)))

/-- Pieces are delivered whole, and files are changed with success. -/
def Undisturbed (info : TorrentMeta) (s : BackgroundTask) : Input → Prop
  | .message _ (.pieceDownloaded index data) =>
    data.length = min info.pieceLength (totalSize info - index * info.pieceLength)
  | .message env (.setSelection _ flags _) =>
    (s.coordinator.state.disk.setSelection env.io flags s.coordinator.fs).1 = true
  | .message .. => True
  | .tick _ => True
  | .selectionChanged env after => s.requests info after = true →
    (s.coordinator.state.disk.setSelection env.io after s.coordinator.fs).1 = true
  | .shutdown _ => True

def NotRefetched (info : TorrentMeta) (p : Nat) (s : BackgroundTask) : Input → Prop
  | .message _ (.setSelection _ _ refetch) => ∀ j, refetch.has j → j % 2 ^ 32 ≠ p
  | .selectionChanged _ after => ∀ files, info.files = some files →
    s.requests info after = true → ∀ j, (Selection.piecesToRefetch files s.currentFlags after
      info.pieceLength info.pieces.length).has j → j % 2 ^ 32 ≠ p
  | _ => True

def durableRules (info : TorrentMeta) (keeps : Nat → Prop) : Rules :=
  rules info False (fun index data =>
    data.length = min info.pieceLength (totalSize info - index * info.pieceLength))
    (fun _ _ => True) False keeps

section Durable

variable {sha1 : List UInt8 → Digest} {info : TorrentMeta} {l : Launch} {fs : FileStore Path}
  {s : BackgroundTask}

theorem fair_of_undisturbed {keeps : Nat → Prop} {i : Input} (hi : Undisturbed info s i)
    (hkeeps : ∀ p, keeps p → NotRefetched info p s i) :
    Fair info (durableRules info keeps) sha1 s i := by
  cases i with
  | message env msg =>
    cases msg with
    | pieceDownloaded => exact ⟨hi, False.elim⟩
    | setSelection => exact ⟨hi, nofun, hkeeps⟩
    | _ => trivial
  | tick => exact fun _ _ _ => trivial
  | selectionChanged env after =>
    exact fun files hfiles hreq => ⟨hi hreq, nofun, fun p hp => hkeeps p hp files hfiles hreq⟩
  | shutdown => trivial

theorem whole_durableRules (keeps : Nat → Prop) : Whole (durableRules info keeps) :=
  fun _ _ h => h

theorem survives_iff {torrent : List TorrentFile} {files : List FileMapping}
    {fs : FileStore Path} (hl : Laid torrent (files.map FileMapping.plan)) {x : Nat} :
    Survives (files.map FileMapping.plan) fs x ↔
      ((cell files fs x).written = true → (cell files fs x).durable = (cell files fs x).content) := by
  constructor
  · intro h hw
    have hin : ∃ i, InFile torrent i x := by
      by_contra hno
      rw [hl.cell_void fun i hi => hno ⟨i, hi⟩] at hw
      cases hw
    obtain ⟨i, hi⟩ := hin
    obtain ⟨m, hm⟩ := hl.exists_mapping hi
    rw [hl.cell_eq hm hi] at hw ⊢
    cases hfs : fs m.path with
    | none => rfl
    | some inode =>
      rw [hfs] at hw
      exact h m.plan (List.mem_map_of_mem (List.mem_of_getElem? hm)) ((hl.inFile_iff hm x).mp hi)
        inode hfs hw
  · intro h plan hplan hrange inode hfs hw
    obtain ⟨m, hmem, rfl⟩ := List.mem_map.mp hplan
    obtain ⟨i, hm⟩ := List.mem_iff_getElem?.mp hmem
    rw [hl.cell_eq hm ((hl.inFile_iff hm x).mpr hrange)] at h
    simp only [cellOf, show fs m.path = some inode from hfs, Option.getD_some] at h
    exact h hw

structure Safe (info : TorrentMeta) (plans : List FilePlan) (s : BackgroundTask) : Prop where
  sound : Sound info s.coordinator
  plan_eq : s.coordinator.state.disk.files.map FileMapping.plan = plans
  recoverable : Recoverable (durableRules info fun _ => False) (progress s.coordinator)

theorem safe_step (hw : info.WellFormed (totalSize info)) {plans : List FilePlan}
    (h : Safe info plans s) {i : Input} (hi : Undisturbed info s i) :
    Safe info plans (s.step sha1 info i) := by
  have hfair : Fair info (durableRules info fun _ => False) sha1 s i :=
    fair_of_undisturbed hi nofun
  obtain ⟨hsound, hadvance, hplan⟩ := advance_step (fit_rules info _ _ _ _ _) hw h.sound hfair
  exact ⟨hsound, hplan.trans h.plan_eq, hadvance.invariant
    (fun _ _ hm => hm.recoverable hw.pieceLength_pos (whole_durableRules _)) (fun _ _ h => h)
    h.recoverable⟩

theorem start_durable {plans : List FilePlan} (hinit : Initial info l plans fs.atStart s) {x : Nat}
    (hw : ((progress s.coordinator).cells x).written = true) :
    ((progress s.coordinator).cells x).durable = ((progress s.coordinator).cells x).content := by
  obtain ⟨hold, hcontent⟩ := hinit.fresh.written x hw
  have hl : Laid (torrentFiles info) ((plans.map unopened).map FileMapping.plan) := by
    rw [map_plan_unopened]; exact hinit.fresh.laid
  refine (hinit.fresh.durable x).trans (Eq.trans ?_ hcontent.symm)
  exact (survives_iff hl).mp
    (fun _ _ _ _ hfs hw => FileStore.durable_of_atStart (Option.mem_def.mp hfs) hw) hold

theorem safe_start (hstart : Started info l fs.atStart s) {plans : List FilePlan}
    (hplans : filePlans info l = .ok plans) : Safe info plans s := by
  obtain ⟨plans', hplans', hinit⟩ := hstart.initial
  cases hplans.symm.trans hplans'
  exact ⟨hinit.sound, hinit.fresh.plan_eq, fun x _ hw => .inl (start_durable hinit hw)⟩

theorem survives_of_lasting (hw : info.WellFormed (totalSize info)) {keeps : Nat → Prop}
    {plans : List FilePlan} (hs : Sound info s.coordinator)
    (hplan : s.coordinator.state.disk.files.map FileMapping.plan = plans) {p : Nat}
    (h : Lasting (durableRules info keeps) p (progress s.coordinator)) {x : Nat}
    (hx : x / info.pieceLength = p) : Survives plans s.coordinator.fs x := by
  rw [← hplan, survives_iff hs.laid]
  intro hwritten
  have hin : ∃ i, InFile (torrentFiles info) i x := by
    by_contra hno
    rw [hs.laid.cell_void fun i hi => hno ⟨i, hi⟩] at hwritten
    cases hwritten
  obtain ⟨i, hi⟩ := hin
  have hlt : x < totalSize info := by
    rw [← sum_torrentFiles hw, ← fileStart_eq_total (Nat.le_refl _)]
    exact Nat.lt_of_lt_of_le hi.2 (fileStart_mono _ hi.lt_length)
  exact h.durable x hlt hx hwritten

theorem lasting_step (hw : info.WellFormed (totalSize info)) {plans : List FilePlan} {p : Nat}
    (h : Safe info plans s ∧ Lasting (durableRules info (· = p)) p (progress s.coordinator))
    {i : Input} (hi : Undisturbed info s i ∧ NotRefetched info p s i) :
    Safe info plans (s.step sha1 info i) ∧
      Lasting (durableRules info (· = p)) p (progress (s.step sha1 info i).coordinator) := by
  have hfair : Fair info (durableRules info (· = p)) sha1 s i :=
    fair_of_undisturbed hi.1 (by rintro _ rfl; exact hi.2)
  obtain ⟨-, hadvance, -⟩ := advance_step (fit_rules info _ _ _ _ _) hw h.1.sound hfair
  exact ⟨safe_step hw h.1 hi.1, hadvance.invariant
    (fun _ _ hm => hm.lasting hw.pieceLength_pos (whole_durableRules _) rfl)
    (fun _ _ h => ⟨h.completed, h.durable⟩) h.2⟩

theorem survives_run (hw : info.WellFormed (totalSize info)) {plans : List FilePlan} {p : Nat}
    (hsafe : Safe info plans s)
    (hlasts : Lasting (durableRules info (· = p)) p (progress s.coordinator))
    {inputs : List Input} (hrun : Along (BackgroundTask.step sha1 info) (Undisturbed info) s inputs)
    (hkept : Along (BackgroundTask.step sha1 info) (NotRefetched info p) s inputs) {x : Nat}
    (hx : x / info.pieceLength = p) :
    Survives plans (exec (BackgroundTask.step sha1 info) s inputs).coordinator.fs x := by
  obtain ⟨hend, hlasts'⟩ := exec_invariant_along (P := fun u => Safe info plans u ∧
    Lasting (durableRules info (· = p)) p (progress u.coordinator))
    (fun _ _ h hi => lasting_step hw h hi) (hrun.and hkept) ⟨hsafe, hlasts⟩
  exact survives_of_lasting hw hend.sound hend.plan_eq hlasts' hx

/-- Whenever the resume file is written, the bytes of every piece it lists that were durable at the
start or have been written since are durable.  They stay so until the piece is fetched again, and so
do those of the pieces that were completed at the start. -/
theorem recorded_pieces_survive (hstart : Started info l fs.atStart s) {plans : List FilePlan}
    (hplans : filePlans info l = .ok plans) (inputs : List Input)
    (hrun : Along (BackgroundTask.step sha1 info) (Undisturbed info) s inputs) :
    (∀ p ∈ s.coordinator.state.manager.completed,
      Along (BackgroundTask.step sha1 info) (NotRefetched info p) s inputs →
      ∀ x, x / info.pieceLength = p →
        Survives plans (exec (BackgroundTask.step sha1 info) s inputs).coordinator.fs x) ∧
    ∀ before input after, inputs = before ++ input :: after →
      let t := exec (BackgroundTask.step sha1 info) s before
      let t' := t.step sha1 info input
      ∀ content, t'.coordinator.resumeFile = content :: t.coordinator.resumeFile →
        ∀ json state, FastResumeState.decode json content = .ok state → ∀ p ∈ state.completed,
          (∀ x, x / info.pieceLength = p → Survives plans t'.coordinator.fs x) ∧
          (Along (BackgroundTask.step sha1 info) (NotRefetched info p) t' after →
            ∀ x, x / info.pieceLength = p →
              Survives plans (exec (BackgroundTask.step sha1 info) t' after).coordinator.fs x) := by
  have hw := hstart.wellFormed
  have hsafe₀ := safe_start hstart hplans
  refine ⟨fun p hp hkept x hx => ?_, ?_⟩
  · obtain ⟨plans', hplans', hinit⟩ := hstart.initial
    cases hplans.symm.trans hplans'
    refine survives_run hw hsafe₀ ⟨hp, fun x _ _ hwritten => ?_⟩ hrun hkept hx
    exact start_durable hinit hwritten
  · rintro before input after rfl t t' content hcontent json state hdecode p hp
    obtain ⟨hbefore, hinput, hafter⟩ := (along_append _ _ _).mp hrun
    have hsafe : Safe info plans t := exec_invariant_along (P := Safe info plans)
      (fun _ _ h hi => safe_step hw h hi) hbefore hsafe₀
    have hsafe' : Safe info plans t' := safe_step hw hsafe hinput
    have hfair : Fair info (durableRules info fun _ => False) sha1 t input :=
      fair_of_undisturbed hinput nofun
    obtain ⟨-, hadvance, -⟩ := advance_step (fit_rules info _ _ _ _ _) hw hsafe.sound hfair
    obtain ⟨hcompleted, hlasting⟩ := hadvance.lasting hw.pieceLength_pos (whole_durableRules _)
      hsafe.recoverable hcontent ⟨json, state, hdecode, hp⟩
    have hlasts : Lasting (durableRules info (· = p)) p (progress t'.coordinator) :=
      ⟨hcompleted, hlasting⟩
    exact ⟨fun x hx => survives_of_lasting hw hsafe'.sound hsafe'.plan_eq hlasts hx,
      fun hkept x hx => survives_run hw hsafe' hlasts hafter hkept hx⟩

end Durable

theorem recorded_pieces_survive_twoFiles :
    let s := startTwoFiles (some [true, false]) rfl
    Survives twoPlans (exec (BackgroundTask.step (fun _ => zeroDigest) twoFiles) s
      [.message .calm (.pieceDownloaded 0 [5, 6])]).coordinator.fs 0 := by
  intro s
  have hstart : Started twoFiles (plainLaunch (some [true, false]))
      (FileStore.atStart fun _ => none) s := started_twoFiles (Option.some_get rfl).symm
  have hrun : Along (BackgroundTask.step (fun _ => zeroDigest) twoFiles) (Undisturbed twoFiles) s
      [.message .calm (.pieceDownloaded 0 [5, 6])] := ⟨rfl, trivial⟩
  have h := (recorded_pieces_survive hstart (filePlans_twoFiles _) _ hrun).2 []
    (.message .calm (.pieceDownloaded 0 [5, 6])) [] rfl
    [0x54, 0x54, 0x52, 0x53, 2, 1, 0, 0, 0, 0x80] (by decide +kernel) (fun _ => none)
    ⟨FORMAT_VERSION, 1, [0]⟩ (by decide +kernel) 0 (by decide)
  exact h.1 0 (by decide)

/-- A run that starts with nothing completed and after which the resume file lists the piece of the
byte `x`, which a crash would lose. -/
def Loses (info : TorrentMeta) (l : Launch) (fs : FileStore Path) (inputs : List Input) (x : Nat) :
    Prop :=
  ∃ raw infoHash plans s, buildMeta l.windows raw infoHash = .ok info ∧
    filePlans info l = .ok plans ∧ launch info l fs = some s ∧ l.completed = [] ∧
    let t := exec (BackgroundTask.step (fun _ => zeroDigest) info) s inputs
    Along (BackgroundTask.step (fun _ => zeroDigest) info) (Undisturbed info) s inputs ∧
      (∃ state, loadFastresume (fun _ => none) t.coordinator.resumeFile = .ok (some state) ∧
        x / info.pieceLength ∈ state.completed) ∧
      ¬ Survives plans t.coordinator.fs x

def unsynced : Env := { Env.calm with io := { Io.calm with syncFails := fun _ => true } }

/-- The second file is selected, which has the recorded piece fetched again, but writing the resume
file fails; then syncing fails after the piece has come once more.  Or the file check finds a piece
that was never synced.  Or two files share one path, and a piece of the one is written over a piece
of the other. -/
theorem not_survives_twoFiles :
    Loses twoFiles (plainLaunch (some [true, false])) (fun _ => none)
        [.message .calm (.pieceDownloaded 0 [5, 6]),
          .selectionChanged { Env.calm with persistFails := true } [true, true],
          .message unsynced (.pieceDownloaded 0 [5, 6])] 1 ∧
      Loses twoFiles { plainLaunch none with requiresCheck := true }
        (fun _ => some ⟨1, fun _ => 5, fun _ => 0, fun _ => true⟩)
        [.tick .calm, .shutdown .calm] 0 ∧
      Loses (twoFilesMeta "a" "a" zeroHash) { plainLaunch none with selection := .all 2 }
        (fun _ => none) [.message { Env.calm with elapsed := true } (.pieceDownloaded 0 [5]),
          .message unsynced (.pieceDownloaded 1 [6])] 0 := by
  refine ⟨?refetched, ?checked, ?shared⟩
  case refetched =>
    exact ⟨_, _, _, startTwoFiles (some [true, false]) rfl, accepted_twoFiles, rfl,
      (Option.some_get rfl).symm, rfl, ⟨rfl, fun _ => rfl, rfl, trivial⟩,
      ⟨⟨FORMAT_VERSION, 1, [0]⟩, by decide +kernel, by decide⟩, by decide +kernel⟩
  case checked =>
    exact ⟨_, _, _, (launch twoFiles _ _).get (by decide +kernel), accepted_twoFiles, rfl,
      (Option.some_get (by decide +kernel)).symm, rfl, ⟨trivial, trivial, trivial⟩,
      ⟨⟨FORMAT_VERSION, 1, [0]⟩, by decide +kernel, by decide⟩, by decide +kernel⟩
  case shared =>
    exact ⟨_, _, _, (launch (twoFilesMeta "a" "a" zeroHash) _ _).get (by decide +kernel),
      buildMeta_same, rfl, (Option.some_get (by decide +kernel)).symm, rfl, ⟨rfl, rfl, trivial⟩,
      ⟨⟨FORMAT_VERSION, 2, [0]⟩, by decide +kernel, by decide⟩, by decide +kernel⟩

end Tortor.System
