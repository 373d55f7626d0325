import Tortor.System.Stored

/-! A torrent that is started again from its resume file. -/

namespace Tortor.System

open Tortor.Core Tortor.Core.Disk Tortor.Lib

/-- The completed pieces are there, in every file that the new flags select. -/
def StoredAfter (info : TorrentMeta) (plans : List FilePlan) (authentic : Nat → UInt8)
    (requested : Option (List Bool)) (s : BackgroundTask) : Prop :=
  ∀ p ∈ s.coordinator.state.manager.completed, ∀ i x,
    isSelected (requested.filter (validFlags info)) i = true →
    InFile (torrentFiles info) i x → x / info.pieceLength = p →
    Holds plans s.coordinator.fs x (authentic x)

/-- The bytes of `p` in file `i` have come to the disk: they were there at the start, or `p`
was completed at some time of the run while the file was selected. -/
def Came (sha1 : List UInt8 → Digest) (info : TorrentMeta) (plans : List FilePlan)
    (authentic : Nat → UInt8) (fs : FileStore Path) (s : BackgroundTask) (inputs : List Input)
    (p i : Nat) : Prop :=
  (∀ x, InFile (torrentFiles info) i x → x / info.pieceLength = p →
    Holds plans fs x (authentic x)) ∨
  ∃ k, p ∈ (exec (BackgroundTask.step sha1 info) s
      (inputs.take k)).coordinator.state.manager.completed ∧
    isSelected (some (exec (BackgroundTask.step sha1 info) s (inputs.take k)).currentFlags) i = true

section Restart

variable {sha1 : List UInt8 → Digest} {info : TorrentMeta} {authentic : Nat → UInt8}
  {l : Launch} {fs : FileStore Path} {s s' : BackgroundTask} {plans : List FilePlan}

theorem completed_resumed {requested : Option (List Bool)}
    {loaded : Except ResumeError (Option FastResumeState)} {isValid : Bool} {p : Nat}
    (h : p ∈ (resumed info requested loaded isValid l).completed) :
    ∃ state, loaded = .ok (some state) ∧ p ∈ state.completed := by
  unfold resumed at h
  split at h
  · split at h
    · exact ⟨_, rfl, h⟩
    · cases h
  · cases h
  · cases h

theorem resumed_frame (requested : Option (List Bool))
    (loaded : Except ResumeError (Option FastResumeState)) (isValid : Bool) (l : Launch) :
    (resumed info requested loaded isValid l).windows = l.windows ∧
      (resumed info requested loaded isValid l).outputDir = l.outputDir := by
  unfold resumed
  split
  · split <;> exact ⟨rfl, rfl⟩
  · exact ⟨rfl, rfl⟩
  · exact ⟨rfl, rfl⟩

theorem placed_step (hw : info.WellFormed (totalSize info)) {x : Nat}
    (h : Kept info plans authentic s ∧ Placed authentic x (progress s.coordinator)) {i : Input}
    (hi : Delivers sha1 info authentic s i ∧ WritesArrive s i) :
    Kept info plans authentic (s.step sha1 info i) ∧
      Placed authentic x (progress (s.step sha1 info i).coordinator) := by
  obtain ⟨-, hadvance, -⟩ := advance_step (fit_rules info _ _ _ _ _) hw h.1.sound
    (fair_of_delivers h.1.sound hw h.1.agreed hi.1 hi.2)
  exact ⟨kept_step hw h.1 hi.1 hi.2, hadvance.invariant
    (fun _ _ hm => hm.placed authentic_authenticRules.1) (fun _ _ h => h) h.2⟩

theorem Started.again (hstart : Started info l fs s) {l' : Launch} {fs' : FileStore Path}
    (hwindows : l'.windows = l.windows) (hdir : l'.outputDir = l.outputDir)
    (hlaunch : launch info l' fs' = some s') :
    Started info l' fs' s' ∧ filePlans info l' = filePlans info l := by
  have hsame : filePlans info l' = filePlans info l := by rw [filePlans, hwindows, hdir]; rfl
  exact ⟨⟨hwindows ▸ hstart.accepted, fun plans h => hstart.paths plans (hsame ▸ h), hlaunch⟩,
    hsame⟩

/-- A byte that has come to the disk is there at the end of the run. -/
theorem holds_of_came (hstart : Started info l fs s) (hflags : FlagsFit info l)
    (hstored : StoredBefore info l fs authentic) (hplans : filePlans info l = .ok plans)
    {inputs : List Input} (hrun : Along (BackgroundTask.step sha1 info)
      (fun s i => Delivers sha1 info authentic s i ∧ WritesArrive s i) s inputs)
    {i x : Nat} (hx : InFile (torrentFiles info) i x)
    (hcame : Came sha1 info plans authentic fs s inputs (x / info.pieceLength) i) :
    Holds plans (exec (BackgroundTask.step sha1 info) s inputs).coordinator.fs x
      (authentic x) := by
  have hw := hstart.wellFormed
  -- At some time of the run the byte is there.
  have hfound : ∃ k, Holds plans (exec (BackgroundTask.step sha1 info) s
      (inputs.take k)).coordinator.fs x (authentic x) := by
    rcases hcame with hthere | ⟨k, hp, hsel⟩
    · obtain ⟨plans', hplans', hinit⟩ := hstart.initial
      cases hplans.symm.trans hplans'
      exact ⟨0, hinit.fresh.holds x _ (hthere x hx rfl)⟩
    · have hsplit := hrun
      rw [← List.take_append_drop k inputs, along_append] at hsplit
      exact ⟨k, (kept_run hstart hflags hstored hplans hsplit.1).holds hw hsel hx hp⟩
  obtain ⟨k, hholds⟩ := hfound
  have hsplit := hrun
  rw [← List.take_append_drop k inputs, along_append] at hsplit
  have hmid := kept_run hstart hflags hstored hplans hsplit.1
  have hend : exec (BackgroundTask.step sha1 info) s inputs = exec (BackgroundTask.step sha1 info)
      (exec (BackgroundTask.step sha1 info) s (inputs.take k)) (inputs.drop k) := by
    rw [← exec_append, List.take_append_drop]
  have hlast := kept_run hstart hflags hstored hplans hrun
  rw [← hlast.plan_eq, holds_iff hlast.sound.laid]
  rw [← hmid.plan_eq, holds_iff hmid.sound.laid] at hholds
  -- From then on no move of the torrent takes it away.
  rw [hend]
  exact (exec_invariant_along (P := fun t => Kept info plans authentic t ∧
    Placed authentic x (progress t.coordinator)) (fun _ _ h hi => placed_step hw h hi) hsplit.2
    ⟨hmid, hholds⟩).2

/-- The second run finds the bytes of every completed piece, as long as no write of the first one
was lost and those of each piece that the resume file lists have come to the files that are selected
now. -/
theorem restart_stored (hstart : Started info l fs s) (hflags : FlagsFit info l)
    (hstored : StoredBefore info l fs authentic) (hplans : filePlans info l = .ok plans)
    (inputs : List Input)
    (hrun : Along (BackgroundTask.step sha1 info) (Delivers sha1 info authentic) s inputs)
    (harrive : Along (BackgroundTask.step sha1 info) WritesArrive s inputs)
    (json : List UInt8 → Option FastResumeState) (requested : Option (List Bool))
    (isValid : Bool) (io : Io) :
    let t := exec (BackgroundTask.step sha1 info) s inputs
    let loaded := loadFastresume json t.coordinator.resumeFile
    (∀ state, loaded = .ok (some state) → ∀ p ∈ state.completed, ∀ i,
      isSelected (requested.filter (validFlags info)) i = true →
      Overlaps (torrentFiles info) info.pieceLength p i →
      Came sha1 info plans authentic fs s inputs p i) →
    launch info (resumed info requested loaded isValid
      { l with io := io, resumeFile := t.coordinator.resumeFile }) t.coordinator.fs = some s' →
    StoredAfter info plans authentic requested s' := by
  intro t loaded hcame hlaunch p hp i x hsel hx hxp
  obtain ⟨hwindows, hdir⟩ := resumed_frame requested loaded isValid
    { l with io := io, resumeFile := t.coordinator.resumeFile }
  obtain ⟨hstart', hsame⟩ := hstart.again hwindows hdir hlaunch
  obtain ⟨plans', hplans', hinit⟩ := hstart'.initial
  cases (hsame.trans hplans).symm.trans hplans'
  -- The piece is one that the resume file lists.
  have hmem := hp
  rw [hinit.manager] at hmem
  obtain ⟨hmem, -⟩ : p ∈ _ ∧ p < info.piecesCount := by
    simpa [TorrentManager.withSelection] using hmem
  obtain ⟨state, hload, hlisted⟩ := completed_resumed hmem
  have hbefore := holds_of_came hstart hflags hstored hplans (hrun.and harrive) hx
    (hxp ▸ hcame state hload p hlisted i hsel ⟨x, hx, hxp⟩)
  exact hinit.fresh.holds x _ hbefore

end Restart

theorem restart_stored_twoFiles :
    let s := startTwoFiles none rfl
    let t := exec (BackgroundTask.step (fun _ => zeroDigest) twoFiles) s
      [.message .calm (.pieceDownloaded 0 [5, 6]), .shutdown .calm]
    let again := resumed twoFiles (some [true, true])
      (loadFastresume (fun _ => none) t.coordinator.resumeFile) true
      { plainLaunch none with io := .calm, resumeFile := t.coordinator.resumeFile }
    StoredAfter twoFiles twoPlans (fun x => UInt8.ofNat (5 + x)) (some [true, true])
      ((launch twoFiles again t.coordinator.fs).get (by decide +kernel)) := by
  intro s t again
  have hstart : Started twoFiles (plainLaunch none) (fun _ => none) s :=
    started_twoFiles (Option.some_get rfl).symm
  have hrun : Along (BackgroundTask.step (fun _ => zeroDigest) twoFiles)
      (Delivers (fun _ => zeroDigest) twoFiles fun x => UInt8.ofNat (5 + x)) s
      [.message .calm (.pieceDownloaded 0 [5, 6]), .shutdown .calm] := ⟨rfl, trivial, trivial⟩
  refine restart_stored hstart nofun (fun _ _ _ hp => nomatch hp) (filePlans_twoFiles _) _ hrun
    (by decide +kernel) (fun _ => none) (some [true, true]) true .calm (fun state hload p hp i hsel ho => ?_)
    (Option.some_get _).symm
  -- The piece was completed by the first message, when everything was selected.
  have hstate : loadFastresume (fun _ => none) t.coordinator.resumeFile =
      .ok (some ⟨FORMAT_VERSION, 1, [0]⟩) := by decide +kernel
  cases hstate.symm.trans hload
  refine .inr ⟨1, ?_, ?_⟩
  · rw [List.mem_singleton.mp hp]
    decide
  · obtain ⟨x, hx, -⟩ := ho
    have hlt : i < 2 := hx.lt_length
    obtain rfl | rfl : i = 0 ∨ i = 1 := by omega
    · rfl
    · rfl

/-- The piece is completed while the second file is left out.  After a restart with both
files it counts as completed, and its second byte was never stored. -/
theorem not_storedAfter_twoFiles :
    let s := startTwoFiles (some [true, false]) rfl
    let inputs : List Input := [.message .calm (.pieceDownloaded 0 [5, 6]), .shutdown .calm]
    let t := exec (BackgroundTask.step (fun _ => zeroDigest) twoFiles) s inputs
    let again := resumed twoFiles (some [true, true])
      (loadFastresume (fun _ => none) t.coordinator.resumeFile) true
      { plainLaunch (some [true, false]) with
        io := .calm, resumeFile := t.coordinator.resumeFile }
    Along (BackgroundTask.step (fun _ => zeroDigest) twoFiles)
        (Delivers (fun _ => zeroDigest) twoFiles fun x => UInt8.ofNat (5 + x)) s inputs ∧
      Along (BackgroundTask.step (fun _ => zeroDigest) twoFiles) WritesArrive s inputs ∧
      t.coordinator.resumeFile.length = 2 ∧ validFlags twoFiles [true, true] = true ∧
      ¬ StoredAfter twoFiles twoPlans (fun x => UInt8.ofNat (5 + x)) (some [true, true])
        ((launch twoFiles again t.coordinator.fs).get (by decide +kernel)) := by
  intro s inputs t again
  refine ⟨⟨rfl, trivial, trivial⟩, by decide +kernel, rfl, rfl, fun h => ?_⟩
  exact absurd (h 0 (by decide +kernel) 1 1 (by decide) ⟨by decide, by decide⟩ (by decide))
    (by decide +kernel)

end Tortor.System
