import Tortor.System.TorrentLaws

/-! What counts as completed is on the disk, in every file that is selected. -/

namespace Tortor.System

open Tortor.Core Tortor.Core.Disk Tortor.Lib

/-- The pieces that are delivered are authentic, files are changed as the dashboard does it,
and that succeeds; the file check meets no collision of hashes. -/
def Delivers (sha1 : List UInt8 → Digest) (info : TorrentMeta) (authentic : Nat → UInt8)
    (s : BackgroundTask) : Input → Prop
  | .message _ (.pieceDownloaded index data) =>
    data = pieceData info.pieceLength (totalSize info) authentic index
  | .message _ (.setSelection ..) => False
  | .message .. => True
  | .tick env => ∀ index data, Verifies sha1 env s.coordinator index data →
    data = pieceData info.pieceLength (totalSize info) authentic index
  | .selectionChanged env after => s.requests info after = true →
    (s.coordinator.state.disk.setSelection env.io after s.coordinator.fs).1 = true
  | .shutdown _ => True

/-- No piece is written with success of which something fails after `write_all` has returned. -/
def WritesArrive (s : BackgroundTask) : Input → Prop
  | .message env (.pieceDownloaded index data) => Arrives env s.coordinator index data
  | _ => True

instance (s : BackgroundTask) (i : Input) : Decidable (WritesArrive s i) := by
  unfold WritesArrive
  split <;> infer_instance

def authenticRules (info : TorrentMeta) (authentic : Nat → UInt8) : Rules :=
  rules info True (fun index data => data = pieceData info.pieceLength (totalSize info) authentic index)
    (fun index data => data = pieceData info.pieceLength (totalSize info) authentic index)
    True fun _ => False

/-- The flags of the dashboard, the handles of the disk and the pieces that the manager
withholds speak of the same files. -/
structure Agreed (info : TorrentMeta) (s : BackgroundTask) : Prop where
  opened : ∀ (i : Nat) (m : FileMapping), s.coordinator.state.disk.files[i]? = some m →
    m.opened = isSelected (some s.currentFlags) i
  unservable : ∀ p i, s.currentFlags[i]? = some false →
    Overlaps (torrentFiles info) info.pieceLength p i → p < info.pieces.length →
      s.coordinator.state.manager.selection.unservable.has p

section Agreed

variable {sha1 : List UInt8 → Digest} {info : TorrentMeta} {authentic : Nat → UInt8}
  {s : BackgroundTask}

theorem isSelected_eq_false {flags : List Bool} {i : Nat} :
    isSelected (some flags) i = false ↔ flags[i]? = some false := by
  rw [isSelected, List.getD_eq_getElem?_getD]
  cases flags[i]? <;> simp

theorem length_of_validFlags {files : List TorrentFile} (hfiles : info.files = some files)
    {after : List Bool} (h : validFlags info after = true) : after.length = files.length := by
  rw [validFlags, hfiles, Bool.and_eq_true, beq_iff_eq] at h
  exact h.1

/-- A piece that reaches into a file to be opened is one that the dashboard has fetched again. -/
theorem applies_of_agreed (hs : Sound info s.coordinator)
    (hw : info.WellFormed (totalSize info)) (ha : Agreed info s) {env : Env} {after : List Bool}
    {files : List TorrentFile} (hfiles : info.files = some files)
    (hreq : s.requests info after = true)
    (hok : (s.coordinator.state.disk.setSelection env.io after s.coordinator.fs).1 = true) :
    Applies info (authenticRules info authentic) env s.coordinator after
      (Selection.piecesToRefetch files s.currentFlags after info.pieceLength
        info.pieces.length) := by
  refine ⟨hok, fun _ i m p hm hclosed hafter hoverlaps hp => ⟨p, ?_, ?_⟩, nofun⟩
  · have hvalid : validFlags info after = true := by
      rw [BackgroundTask.requests, Bool.and_eq_true] at hreq
      exact hreq.1
    have htorrent : torrentFiles info = files := by simp [torrentFiles, hfiles]
    obtain ⟨x, hx, hxp⟩ := hoverlaps
    have hlt : i < after.length := by
      rw [length_of_validFlags hfiles hvalid, ← htorrent]
      exact hx.lt_length
    have hplt : p < info.pieces.length := by
      have := hs.manager.completed_lt p hp
      rw [hs.totalPieces, hw.piecesCount] at this
      exact Nat.lt_of_lt_of_le this (Nat.mod_le _ _)
    refine (Selection.has_piecesToRefetch hw.pieceLength_pos files s.currentFlags after p).mpr
      ⟨hplt, i, ?_, ?_, x, htorrent ▸ hx, hxp⟩
    · exact isSelected_eq_false.mp ((ha.opened i m hm).symm.trans hclosed)
    · rw [isSelected, List.getD_eq_getElem?_getD, List.getElem?_eq_getElem hlt] at hafter
      rw [List.getElem?_eq_getElem hlt]
      exact congrArg some hafter
  · have hlt := hs.manager.completed_lt p hp
    rw [hs.totalPieces, hw.piecesCount] at hlt
    exact Nat.mod_eq_of_lt (Nat.lt_trans hlt (Nat.mod_lt _ (by decide)))

theorem fair_of_delivers (hs : Sound info s.coordinator)
    (hw : info.WellFormed (totalSize info)) (ha : Agreed info s) {i : Input}
    (hi : Delivers sha1 info authentic s i) (harrive : WritesArrive s i) :
    Fair info (authenticRules info authentic) sha1 s i := by
  cases i with
  | message env msg =>
    cases msg with
    | pieceDownloaded index data => exact ⟨hi, fun _ => harrive⟩
    | setSelection => exact hi.elim
    | _ => trivial
  | tick env => exact hi
  | selectionChanged env after =>
    exact fun files hfiles hreq => applies_of_agreed hs hw ha hfiles hreq (hi hreq)
  | shutdown => trivial

theorem Agreed.of_unmoved (ha : Agreed info s) {c : Coordinator}
    (h : Coordinator.Unmoved s.coordinator c) (stopped : Bool) :
    Agreed info ⟨c, s.currentFlags, stopped⟩ where
  opened := h.disk.opened ha.opened
  unservable p i hi ho hp := by
    show c.state.manager.selection.unservable.has p = true
    rw [h.selection]
    exact ha.unservable p i hi ho hp

theorem agreed_step (hw : info.WellFormed (totalSize info)) (ha : Agreed info s) {i : Input}
    (hi : Delivers sha1 info authentic s i) : Agreed info (s.step sha1 info i) := by
  unfold BackgroundTask.step
  split
  · exact ha
  · cases i with
    | message env msg =>
      refine ha.of_unmoved (Coordinator.unmoved_handle env _ fun _ _ _ he => ?_) _
      rw [he] at hi
      exact hi
    | tick env => exact ha.of_unmoved (Coordinator.unmoved_checkTick ..) _
    | selectionChanged env after =>
      simp only [BackgroundTask.select]
      split
      · exact ha
      · rename_i files hfiles
        split
        case isTrue hreq =>
          obtain ⟨hopened, hselection⟩ := Coordinator.opened_handleSetSelection (hi hreq)
            (.fromFiles files after info.pieceLength info.pieces.length)
            (Selection.piecesToRefetch files s.currentFlags after info.pieceLength info.pieces.length)
          refine ⟨hopened, fun p i hi ho hp => ?_⟩
          have htorrent : torrentFiles info = files := by simp [torrentFiles, hfiles]
          rw [htorrent] at ho
          exact hselection.symm ▸
            (Selection.unservable_fromFiles hw.pieceLength_pos files after p).mpr ⟨hp, i, hi, ho⟩
        case isFalse => exact ha
    | shutdown env => exact ha.of_unmoved (Coordinator.unmoved_shutdown ..) _

end Agreed

def FlagsFit (info : TorrentMeta) (l : Launch) : Prop :=
  ∀ flags, l.chosen = some flags → l.selection =
    .fromFiles (torrentFiles info) flags info.pieceLength info.pieces.length

def StoredBefore (info : TorrentMeta) (l : Launch) (fs : FileStore Path)
    (authentic : Nat → UInt8) : Prop :=
  ∀ plans, filePlans info l = .ok plans → ∀ p ∈ l.completed, p < info.piecesCount →
    ∀ i x, isSelected l.chosen i = true → InFile (torrentFiles info) i x →
      x / info.pieceLength = p → Holds plans fs x (authentic x)

section Runs

variable {sha1 : List UInt8 → Digest} {info : TorrentMeta} {authentic : Nat → UInt8}
  {l : Launch} {fs : FileStore Path} {s : BackgroundTask}

theorem isSelected_currentFlags (h : s.currentFlags = l.chosen.getD ((info.files.map fun files =>
    List.replicate files.length true).getD [])) (i : Nat) :
    isSelected (some s.currentFlags) i = isSelected l.chosen i := by
  rw [h]
  cases l.chosen with
  | some flags => rfl
  | none =>
    cases info.files <;> simp [isSelected, List.getD_eq_getElem?_getD, List.getElem?_replicate]
    split <;> rfl

theorem Initial.agreed (hw : info.WellFormed (totalSize info)) (hflags : FlagsFit info l)
    {plans : List FilePlan} (h : Initial info l plans fs s) : Agreed info s where
  opened i m hm := (h.fresh.opened i m hm).trans (isSelected_currentFlags h.currentFlags i).symm
  unservable p i hi ho hp := by
    cases hchosen : l.chosen with
    | none =>
      have := isSelected_currentFlags h.currentFlags i
      rw [hchosen, isSelected_eq_false.mpr hi] at this
      cases this
    | some flags =>
      have hi' : flags[i]? = some false := by
        rw [h.currentFlags, hchosen] at hi
        exact hi
      rw [h.manager, TorrentManager.withSelection, hflags flags hchosen]
      exact (Selection.unservable_fromFiles hw.pieceLength_pos _ flags p).mpr ⟨hp, i, hi', ho⟩

theorem Initial.stored (hstored : StoredBefore info l fs authentic) {plans : List FilePlan}
    (hplans : filePlans info l = .ok plans) (h : Initial info l plans fs s) :
    Stored (authenticRules info authentic) authentic (progress s.coordinator) := by
  intro x _ ho hp
  have hl := h.sound.laid
  have hin : ∃ i, InFile (torrentFiles info) i x := by
    by_contra hno
    simp only [progress, hl.cell_void fun i hi => hno ⟨i, hi⟩] at ho
    cases ho
  obtain ⟨i, hi⟩ := hin
  obtain ⟨m, hm⟩ := hl.exists_mapping hi
  have hsel : isSelected l.chosen i = true := by
    rw [← h.fresh.opened i m hm]
    simpa only [progress, hl.cell_eq hm hi, cellOf] using ho
  have hmem : x / info.pieceLength ∈ l.completed ∧ x / info.pieceLength < info.piecesCount := by
    have : x / info.pieceLength ∈ s.coordinator.state.manager.completed := hp
    rw [h.manager] at this
    simpa [TorrentManager.withSelection] using this
  have hholds := h.fresh.holds x _ (hstored plans hplans _ hmem.1 hmem.2 i x hsel hi rfl)
  rw [← h.fresh.plan_eq] at hholds
  exact ((holds_iff hl _).mp hholds).2

theorem authentic_authenticRules :
    Authentic (authenticRules info authentic) authentic (authenticRules info authentic).Good ∧
      Authentic (authenticRules info authentic) authentic (authenticRules info authentic).Accepts :=
  ⟨fun _ _ h => h, fun _ _ h => h⟩

structure Kept (info : TorrentMeta) (plans : List FilePlan) (authentic : Nat → UInt8)
    (s : BackgroundTask) : Prop where
  sound : Sound info s.coordinator
  plan_eq : s.coordinator.state.disk.files.map FileMapping.plan = plans
  agreed : Agreed info s
  stored : Stored (authenticRules info authentic) authentic (progress s.coordinator)

theorem kept_step (hw : info.WellFormed (totalSize info)) {plans : List FilePlan}
    (h : Kept info plans authentic s) {i : Input} (hi : Delivers sha1 info authentic s i)
    (harrive : WritesArrive s i) : Kept info plans authentic (s.step sha1 info i) := by
  obtain ⟨hsound, hadvance, hplan⟩ := advance_step (fit_rules info _ _ _ _ _) hw h.sound
    (fair_of_delivers h.sound hw h.agreed hi harrive)
  exact ⟨hsound, hplan.trans h.plan_eq, agreed_step hw h.agreed hi,
    hadvance.invariant (fun _ _ hm => hm.stored hw.pieceLength_pos trivial authentic_authenticRules.1
      authentic_authenticRules.2 trivial) (fun _ _ h => h) h.stored⟩

theorem kept_run (hstart : Started info l fs s) (hflags : FlagsFit info l)
    (hstored : StoredBefore info l fs authentic) {plans : List FilePlan}
    (hplans : filePlans info l = .ok plans) {inputs : List Input}
    (hrun : Along (BackgroundTask.step sha1 info)
      (fun s i => Delivers sha1 info authentic s i ∧ WritesArrive s i) s inputs) :
    Kept info plans authentic (exec (BackgroundTask.step sha1 info) s inputs) := by
  obtain ⟨plans', hplans', hinit⟩ := hstart.initial
  cases hplans.symm.trans hplans'
  have hkept : Kept info plans authentic s :=
    ⟨hinit.sound, hinit.fresh.plan_eq, hinit.agreed hstart.wellFormed hflags,
      hinit.stored hstored hplans⟩
  exact exec_invariant_along (P := Kept info plans authentic)
    (fun _ _ h hi => kept_step hstart.wellFormed h hi.1 hi.2) hrun hkept

theorem Kept.holds (hw : info.WellFormed (totalSize info)) {plans : List FilePlan}
    (h : Kept info plans authentic s) {i x : Nat}
    (hsel : isSelected (some s.currentFlags) i = true) (hx : InFile (torrentFiles info) i x)
    (hp : x / info.pieceLength ∈ s.coordinator.state.manager.completed) :
    Holds plans s.coordinator.fs x (authentic x) := by
  have hl := h.sound.laid
  obtain ⟨m, hm⟩ := hl.exists_mapping hx
  have hcell : cell s.coordinator.state.disk.files s.coordinator.fs x =
      cellOf m (s.coordinator.fs m.path) x := hl.cell_eq hm hx
  have ho : (cell s.coordinator.state.disk.files s.coordinator.fs x).opened = true := by
    rw [hcell]; exact (h.agreed.opened i m hm).trans hsel
  have hlt : x < totalSize info := by
    rw [← sum_torrentFiles hw, ← fileStart_eq_total (Nat.le_refl _)]
    exact Nat.lt_of_lt_of_le hx.2 (fileStart_mono _ hx.lt_length)
  rw [← h.plan_eq]
  exact (holds_iff hl _).mpr ⟨present_of_sized hl (h.sound.ready x ho), h.stored x hlt ho hp⟩

/-- A served block is the authentic one: no part of the piece lies in a file that is left out. -/
theorem Kept.block_eq (hw : info.WellFormed (totalSize info)) {plans : List FilePlan}
    (h : Kept info plans authentic s) {env : Env} {index begin length reply : Nat} {data : List UInt8}
    (hblock : (s.coordinator.handle env (.readPiece index begin length reply)).2 =
      [.block reply (some data)])
    (hin : begin + length ≤ min info.pieceLength (totalSize info - index * info.pieceLength)) :
    data = (List.range length).map fun j =>
      authentic (index * info.pieceLength + begin + j) := by
  simp only [Coordinator.handle, Coordinator.handleReadPiece] at hblock
  split at hblock
  · simp at hblock
  · rename_i manager disk paused hasCompleted hstate
    simp only [List.cons.injEq, Effect.block.injEq, true_and, and_true] at hblock
    split at hblock
    case isFalse => cases hblock
    case isTrue hserve =>
      have hl := h.sound.laid
      rw [hstate] at hl
      simp only [CoordinatorState.disk] at hl
      rw [Bool.and_eq_true] at hserve
      obtain ⟨hlen, hbytes⟩ := readPiece_spec hl hblock
      have hL : disk.pieceLength = info.pieceLength := by
        have := h.sound.pieceLength
        rwa [hstate] at this
      rw [hL] at hbytes
      obtain ⟨hcompleted, hservable⟩ : index ∈ manager.completed ∧
          manager.selection.unservable.has index = false := by
        simpa [TorrentManager.isServable, TorrentManager.isCompleted] using hserve.2
      refine List.ext_getElem (by simp [hlen]) fun j h₁ h₂ => ?_
      have hj : j < length := by simpa using h₂
      have hlt : index * info.pieceLength + begin + j < totalSize info := by omega
      have hdiv : (index * info.pieceLength + begin + j) / info.pieceLength = index :=
        (div_eq_iff_inPiece hw.pieceLength_pos hlt index).mpr ⟨by omega, by omega⟩
      obtain ⟨i, hi⟩ := exists_inFile (by rw [sum_torrentFiles hw]; exact hlt)
      obtain ⟨m, hm⟩ := hl.exists_mapping hi
      have ho : (cell disk.files s.coordinator.fs
          (index * info.pieceLength + begin + j)).opened = true := by
        rw [hl.cell_eq hm hi]
        show m.opened = true
        by_contra hclosed
        -- The file is left out, so the piece would not be served.
        have hflag : s.currentFlags[i]? = some false := by
          rw [← isSelected_eq_false, ← h.agreed.opened i m (by rw [hstate]; exact hm)]
          simpa using hclosed
        have hplt : index < info.pieces.length := by
          have := h.sound.manager.completed_lt index (by rw [hstate]; exact hcompleted)
          rw [h.sound.totalPieces, hw.piecesCount] at this
          exact Nat.lt_of_lt_of_le this (Nat.mod_le _ _)
        have := h.agreed.unservable index i hflag ⟨_, hi, hdiv⟩ hplt
        rw [hstate] at this
        exact absurd (hservable.symm.trans this) Bool.false_ne_true
      have hstored := h.stored _ hlt (by
        simpa only [progress, hstate, CoordinatorState.disk] using ho) (by
        show _ / info.pieceLength ∈ _
        rw [hdiv]
        simpa only [progress, hstate, CoordinatorState.manager] using hcompleted)
      have hread := hbytes j hj
      rw [List.getD_eq_getElem?_getD, List.getElem?_eq_getElem h₁, Option.getD_some, shown,
        if_pos ho] at hread
      rw [hread, List.getElem_map, List.getElem_range]
      simpa only [progress, hstate, CoordinatorState.disk] using hstored

/-- As long as no write is lost without a report, in every state of a run the bytes of every
completed piece that lie in a selected file are on the disk, and a block that is served out of one
piece is authentic. -/
theorem completed_pieces_stored (hstart : Started info l fs s) (hflags : FlagsFit info l)
    (hstored : StoredBefore info l fs authentic) (inputs : List Input)
    (hrun : Along (BackgroundTask.step sha1 info) (Delivers sha1 info authentic) s inputs)
    (harrive : Along (BackgroundTask.step sha1 info) WritesArrive s inputs) :
    let t := exec (BackgroundTask.step sha1 info) s inputs
    (∀ plans, filePlans info l = .ok plans → ∀ p ∈ t.coordinator.state.manager.completed,
      ∀ i x, isSelected (some t.currentFlags) i = true → InFile (torrentFiles info) i x →
        x / info.pieceLength = p → Holds plans t.coordinator.fs x (authentic x)) ∧
    ∀ env index begin length reply data,
      begin + length ≤ min info.pieceLength (totalSize info - index * info.pieceLength) →
      (t.coordinator.handle env (.readPiece index begin length reply)).2 =
        [.block reply (some data)] →
      data = (List.range length).map fun j =>
        authentic (index * info.pieceLength + begin + j) := by
  have hw := hstart.wellFormed
  refine ⟨fun plans hplans p hp i x hsel hx hxp => ?_,
    fun env index begin length reply data hin hblock => ?_⟩
  · exact (kept_run hstart hflags hstored hplans (hrun.and harrive)).holds hw hsel hx (hxp ▸ hp)
  · obtain ⟨plans, hplans, -⟩ := hstart.initial
    exact (kept_run hstart hflags hstored hplans (hrun.and harrive)).block_eq hw hblock hin

end Runs

theorem completed_pieces_stored_twoFiles :
    let s := startTwoFiles (some [true, false]) rfl
    let inputs := [.message .calm (.pieceDownloaded 0 [5, 6]),
      .selectionChanged .calm [true, true], .message .calm (.pieceDownloaded 0 [5, 6])]
    Holds twoPlans (exec (BackgroundTask.step (fun _ => zeroDigest) twoFiles) s
      inputs).coordinator.fs 1 6 := by
  intro s inputs
  have hrun : Along (BackgroundTask.step (fun _ => zeroDigest) twoFiles)
      (Delivers (fun _ => zeroDigest) twoFiles fun x => UInt8.ofNat (5 + x)) s inputs :=
    ⟨rfl, fun _ => rfl, rfl, trivial⟩
  have hstored : StoredBefore twoFiles (plainLaunch (some [true, false])) (fun _ => none)
      fun x => UInt8.ofNat (5 + x) := fun _ _ _ hp => nomatch hp
  have hstart : Started twoFiles (plainLaunch (some [true, false])) (fun _ => none) s :=
    started_twoFiles (Option.some_get rfl).symm
  exact (completed_pieces_stored hstart (by rintro flags ⟨⟩; rfl) hstored inputs hrun
    (by decide +kernel)).1 twoPlans (filePlans_twoFiles _) 0 (by decide) 1 1 (by decide)
    ⟨by decide, by decide⟩ (by decide)

/-- The system refuses the byte of the first file after `write_all` has returned.  The piece is
recorded as completed and served, and the byte is not there. -/
theorem not_stored_twoFiles :
    let s := startTwoFiles none rfl
    let refused : Env := { Env.calm with
      io := { Io.calm with lost := fun index => if index = 0 then 1 else 0 } }
    let inputs : List Input := [.message refused (.pieceDownloaded 0 [5, 6])]
    let t := exec (BackgroundTask.step (fun _ => zeroDigest) twoFiles) s inputs
    Along (BackgroundTask.step (fun _ => zeroDigest) twoFiles)
        (Delivers (fun _ => zeroDigest) twoFiles fun x => UInt8.ofNat (5 + x)) s inputs ∧
      0 ∈ t.coordinator.state.manager.completed ∧
      loadFastresume (fun _ => none) t.coordinator.resumeFile =
        .ok (some ⟨FORMAT_VERSION, 1, [0]⟩) ∧
      isSelected (some t.currentFlags) 0 = true ∧ InFile (torrentFiles twoFiles) 0 0 ∧
      ¬ Holds twoPlans t.coordinator.fs 0 5 ∧
      (t.coordinator.handle .calm (.readPiece 0 0 2 0)).2 = [.block 0 (some [0, 6])] := by
  intro s refused inputs t
  exact ⟨⟨rfl, trivial⟩, by decide, by decide +kernel, rfl, ⟨by decide, by decide⟩,
    by decide +kernel, by decide +kernel⟩

end Tortor.System
