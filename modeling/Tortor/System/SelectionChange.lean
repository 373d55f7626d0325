import Tortor.System.Stored

/-! What a change of files leaves behind when the disk fails on the way. -/

namespace Tortor.Core.Disk

open Tortor.Lib

def faulty (backend : Backend) (io : Io) (selected : List Bool) (i : Nat) (opened : Bool) : Bool :=
  match isSelected (some selected) i, opened with
  | true, false => io.openFails i || io.sizeFails i || backend == .uring && io.reopenFails i
  | false, true => io.syncFails i || backend == .uring && io.closeFails i
  | _, _ => false

theorem openPreallocated_fst (io : Io) (i length : Nat) (o : Option Inode) :
    (openPreallocated io i length o).1 = !(io.openFails i || io.sizeFails i) := by
  unfold openPreallocated
  cases io.openFails i with
  | true => rfl
  | false =>
    cases io.sizeFails i with
    | true => rfl
    | false => simp only [Bool.false_eq_true, if_false]; split <;> rfl

theorem openFile_fst (backend : Backend) (io : Io) (i : Nat) (m : FileMapping)
    (o : Option Inode) : (openFile backend io i m o).1 =
      !(io.openFails i || io.sizeFails i || backend == .uring && io.reopenFails i) := by
  have hopen := openPreallocated_fst io i (m.endOffset - m.startOffset) o
  unfold openFile
  rcases h : openPreallocated io i (m.endOffset - m.startOffset) o with ⟨_ | _, inode⟩ <;>
    rw [h] at hopen
  · rw [show (io.openFails i || io.sizeFails i) = true from Bool.not_inj (y := true) hopen.symm]
    rfl
  · rw [show (io.openFails i || io.sizeFails i) = false from Bool.not_inj (y := false) hopen.symm]
    cases backend <;> cases io.reopenFails i <;> rfl

theorem releaseFile_fst (backend : Backend) (io : Io) (i : Nat) (m : FileMapping)
    (o : Option Inode) : (releaseFile backend io i m o).1 =
      !(io.syncFails i || backend == .uring && io.closeFails i) := by
  unfold releaseFile
  cases io.syncFails i <;> cases backend <;> cases io.closeFails i <;> rfl

theorem selectionVisit_fst (backend : Backend) (io : Io) (selected : List Bool) (i : Nat)
    (m : FileMapping) (o : Option Inode) : (selectionVisit backend io selected i m o).1 =
      !faulty backend io selected i m.opened := by
  unfold selectionVisit faulty
  cases isSelected (some selected) i <;> cases m.opened <;>
    simp only [openFile_fst, releaseFile_fst, Bool.not_false]

theorem selectionVisit_err {backend : Backend} {io : Io} {selected : List Bool} {i : Nat}
    {m m' : FileMapping} {o o' : Option Inode}
    (h : selectionVisit backend io selected i m o = (false, m', o')) :
    isSelected (some selected) i = true ∧ m.opened = false ∧ m' = m ∨
      isSelected (some selected) i = false ∧ m.opened = true ∧ m' = { m with opened := false } := by
  unfold selectionVisit at h
  cases hs : isSelected (some selected) i <;> cases hm : m.opened <;> simp only [hs, hm] at h
  · cases h
  · exact .inr ⟨rfl, rfl, releaseFile_err h⟩
  · exact .inl ⟨rfl, rfl, openFile_err h⟩
  · cases h

/-- Where a change of files stops, and the handles it leaves: new ones before that file, old
ones behind it. -/
theorem setSelection_stop (d : Disk) (io : Io) (selected : List Bool) (fs : FileStore Path) :
    let r := d.setSelection io selected fs
    ∃ stop, stop ≤ d.files.length ∧ (r.1 = true ↔ stop = d.files.length) ∧
      ∀ j m, d.files[j]? = some m → ∃ m', r.2.1.files[j]? = some m' ∧
        (j < stop ∧ faulty d.backend io selected j m.opened = false ∧
            m'.opened = isSelected (some selected) j ∨
          j = stop ∧ faulty d.backend io selected j m.opened = true ∧ m'.opened = false ∧
            m'.dirty = m.dirty ∨
          stop < j ∧ m' = m) := by
  obtain ⟨-, stop, hstop, hok, hat⟩ :=
    @walkFiles_spec (selectionVisit d.backend io selected) d.files 0 fs
  refine ⟨stop, hstop, hok, fun j m hm => ?_⟩
  obtain ⟨m', o, o', hm', hcase, -⟩ := hat j m hm
  refine ⟨m', hm', ?_⟩
  rw [Nat.zero_add] at hcase
  rcases hcase with ⟨hlt, hv⟩ | ⟨he, hv⟩ | ⟨hgt, he, -⟩
  · have hf := selectionVisit_fst d.backend io selected j m o
    rw [hv] at hf
    exact .inl ⟨hlt, by simpa using hf.symm, (selectionVisit_ok hv).1⟩
  · have hf := selectionVisit_fst d.backend io selected j m o
    rw [hv] at hf
    refine .inr (.inl ⟨he, by simpa using hf.symm, ?_⟩)
    rcases selectionVisit_err hv with ⟨-, ho, rfl⟩ | ⟨-, -, rfl⟩
    · exact ⟨ho, rfl⟩
    · exact ⟨rfl, rfl⟩
  · exact .inr (.inr ⟨hgt, he⟩)

theorem opened_initWithSelection {backend : Backend} {windows : Bool} {base : Path}
    {totalSize pieceLength : Nat} {filesMeta : Option (List TorrentFile)} {name : String}
    {selected : Option (List Bool)} {io : Io} {fs fs' : FileStore Path} {d : Disk}
    (h : initWithSelection backend windows base totalSize pieceLength filesMeta name selected io
      fs = (some d, fs')) :
    d.files.length = (filesMeta.getD [⟨totalSize, [name]⟩]).length ∧
      ∀ (i : Nat) (m : FileMapping), d.files[i]? = some m → m.opened = isSelected selected i := by
  unfold initWithSelection at h
  split at h
  · cases h
  case h_2 plans hplans =>
    dsimp only at h
    split at h
    · cases h
    case h_2 files fs'' hwalk =>
      cases h
      obtain ⟨-, stop, -, hok, hat⟩ :=
        @walkFiles_spec (initVisit backend io selected) (plans.map unopened) 0 fs
      have hlength := congrArg List.length
        (map_walkFiles (plan_initVisit backend io selected) 0 (plans.map unopened) fs)
      rw [show walkFiles (initVisit backend io selected) 0 (plans.map unopened) fs =
        (true, files, fs') from hwalk] at hok hat hlength
      simp only [List.length_map] at hlength
      refine ⟨hlength.trans (planFiles_spec hplans).1, fun i m hm => ?_⟩
      have hi : i < plans.length := hlength ▸ (List.getElem?_eq_some_iff.mp hm).1
      obtain ⟨m', o, o', hm', hcase, -⟩ := hat i (unopened plans[i]) (by simp [hi])
      cases hm.symm.trans hm'
      have hend := hok.mp rfl
      rw [List.length_map] at hend
      rcases hcase with ⟨-, hv⟩ | ⟨he, -⟩ | ⟨hgt, -⟩
      · rw [Nat.zero_add] at hv
        exact (initVisit_ok rfl hv).1
      · omega
      · omega

end Tortor.Core.Disk

namespace Tortor.System

open Tortor.Core Tortor.Core.Disk Tortor.Lib

/-- The flags of the dashboard, the handles of the disk and the selection of the manager are
one and the same. -/
structure Aligned (info : TorrentMeta) (files : List TorrentFile) (s : BackgroundTask) : Prop where
  opened : ∀ (i : Nat) (m : FileMapping), s.coordinator.state.disk.files[i]? = some m →
    m.opened = isSelected (some s.currentFlags) i
  selection : s.coordinator.state.manager.selection =
    .fromFiles files s.currentFlags info.pieceLength info.pieces.length

/-- A request for `after` is met, or it leaves handles, marks and selection as they were; and
the dashboard knows which. -/
def AllOrNothing (info : TorrentMeta) (files : List TorrentFile) (after : List Bool)
    (s t : BackgroundTask) : Prop :=
  ((∀ (i : Nat) (m : FileMapping), t.coordinator.state.disk.files[i]? = some m →
        m.opened = isSelected (some after) i) ∧
      t.coordinator.state.manager.selection =
        .fromFiles files after info.pieceLength info.pieces.length ∨
    t.coordinator.state.disk.files.map (fun m => (m.opened, m.dirty)) =
        s.coordinator.state.disk.files.map (fun m => (m.opened, m.dirty)) ∧
      t.coordinator.state.manager.selection = s.coordinator.state.manager.selection) ∧
  Aligned info files t

def ChangesWhole (sha1 : List UInt8 → Digest) (info : TorrentMeta) (s : BackgroundTask) :
    Input → Prop
  | .selectionChanged env after => ∀ files, info.files = some files → s.stopped = false →
    s.requests info after = true →
    AllOrNothing info files after s (s.step sha1 info (.selectionChanged env after))
  | _ => True

/-- No file that changes is faulty; or the first one that is faulty is the last one that
changes, it is to be released, and no piece wanted or withheld depends on what changes. -/
def Benign (info : TorrentMeta) (s : BackgroundTask) : Input → Prop
  | .selectionChanged env after => ∀ files, info.files = some files → s.stopped = false →
    s.requests info after = true →
    let fault (i : Nat) := faulty s.coordinator.state.disk.backend env.io after i
      (isSelected (some s.currentFlags) i)
    (∀ i < files.length, fault i = false) ∨
    ∃ k < files.length, fault k = true ∧ (∀ j < k, fault j = false) ∧
      isSelected (some after) k = false ∧
      (∀ j, k < j → j < files.length → isSelected (some after) j = isSelected (some s.currentFlags) j) ∧
      Selection.fromFiles files s.currentFlags info.pieceLength info.pieces.length =
        .fromFiles files after info.pieceLength info.pieces.length
  | _ => True

structure Held (info : TorrentMeta) (files : List TorrentFile) (s : BackgroundTask) : Prop where
  laid : s.coordinator.state.disk.files.length = files.length
  aligned : Aligned info files s
  length_eq : s.currentFlags.length = files.length

section Requests

variable {sha1 : List UInt8 → Digest} {info : TorrentMeta} {files : List TorrentFile}
  {s : BackgroundTask} {env : Env} {after : List Bool}

theorem step_request (hfiles : info.files = some files) (hrun : s.stopped = false)
    (hreq : s.requests info after = true) : s.step sha1 info (.selectionChanged env after) =
      ⟨(s.coordinator.handleSetSelection env
        (.fromFiles files after info.pieceLength info.pieces.length) after
        (Selection.piecesToRefetch files s.currentFlags after info.pieceLength
          info.pieces.length)).1, after, s.stopped⟩ := by
  simp only [BackgroundTask.step, hrun, Bool.false_eq_true, if_false, BackgroundTask.select, hfiles,
    hreq, if_true]
  rfl

/-- What the change of files leaves when it halts at file `stop`, told by the flags alone. -/
structure Halts (files : List TorrentFile) (s : BackgroundTask) (env : Env) (after : List Bool)
    (stop : Nat) : Prop where
  completes : (s.coordinator.state.disk.setSelection env.io after s.coordinator.fs).1 = true ↔
    stop = files.length
  le_length : stop ≤ files.length
  passed : ∀ j < stop, faulty s.coordinator.state.disk.backend env.io after j
    (isSelected (some s.currentFlags) j) = false
  failed : stop < files.length → faulty s.coordinator.state.disk.backend env.io after stop
    (isSelected (some s.currentFlags) stop) = true
  handle : ∀ j < files.length, ∃ m : FileMapping,
    (s.coordinator.state.disk.setSelection env.io after s.coordinator.fs).2.1.files[j]? = some m ∧
      (j < stop → m.opened = isSelected (some after) j) ∧ (j = stop → m.opened = false) ∧
      (stop < j → m.opened = isSelected (some s.currentFlags) j)

theorem exists_halts (h : Held info files s) (env : Env) (after : List Bool) :
    ∃ stop, Halts files s env after stop := by
  obtain ⟨stop, hstop, hok, hat⟩ :=
    s.coordinator.state.disk.setSelection_stop env.io after s.coordinator.fs
  rw [h.laid] at hstop hok
  -- The walk at file `j`, with the handle of before read off the flags.
  have hwalk : ∀ j < files.length, ∃ m m' : FileMapping,
      m.opened = isSelected (some s.currentFlags) j ∧
      (s.coordinator.state.disk.setSelection env.io after s.coordinator.fs).2.1.files[j]? =
        some m' ∧
      (j < stop ∧ faulty s.coordinator.state.disk.backend env.io after j m.opened = false ∧
          m'.opened = isSelected (some after) j ∨
        j = stop ∧ faulty s.coordinator.state.disk.backend env.io after j m.opened = true ∧
          m'.opened = false ∧ m'.dirty = m.dirty ∨
        stop < j ∧ m' = m) := by
    intro j hj
    obtain ⟨m, hm⟩ : ∃ m, s.coordinator.state.disk.files[j]? = some m :=
      ⟨_, List.getElem?_eq_getElem (h.laid ▸ hj)⟩
    obtain ⟨m', hm', hcase⟩ := hat j m hm
    exact ⟨m, m', h.aligned.opened j m hm, hm', hcase⟩
  refine ⟨stop, hok, hstop, fun j hj => ?_, fun hlt => ?_, fun j hj => ?_⟩
  · obtain ⟨m, m', hm, -, hcase⟩ := hwalk j (by omega)
    rcases hcase with ⟨-, hf, -⟩ | ⟨he, -⟩ | ⟨hgt, -⟩
    · rwa [hm] at hf
    · omega
    · omega
  · obtain ⟨m, m', hm, -, hcase⟩ := hwalk stop hlt
    rcases hcase with ⟨hno, -⟩ | ⟨-, hf, -⟩ | ⟨hno, -⟩
    · omega
    · rwa [hm] at hf
    · omega
  · obtain ⟨m, m', hm, hm', hcase⟩ := hwalk j hj
    refine ⟨m', hm', fun hlt => ?_, fun he => ?_, fun hgt => ?_⟩
    · rcases hcase with ⟨-, -, ho⟩ | ⟨he, -⟩ | ⟨hgt, -⟩
      · exact ho
      · omega
      · omega
    · rcases hcase with ⟨hlt, -⟩ | ⟨-, -, ho, -⟩ | ⟨hgt, -⟩
      · omega
      · exact ho
      · omega
    · rcases hcase with ⟨hlt, -⟩ | ⟨he, -⟩ | ⟨-, rfl⟩
      · omega
      · omega
      · exact hm

theorem Halts.first_fault {stop k : Nat} (h : Halts files s env after stop)
    (hlt : stop < files.length)
    (hfault : faulty s.coordinator.state.disk.backend env.io after k
      (isSelected (some s.currentFlags) k) = true)
    (hfirst : ∀ j < k, faulty s.coordinator.state.disk.backend env.io after j
      (isSelected (some s.currentFlags) j) = false) : k = stop := by
  rcases Nat.lt_trichotomy k stop with hbefore | he | hafter
  · exact absurd ((h.passed k hbefore).symm.trans hfault) nofun
  · exact he
  · exact absurd ((hfirst stop hafter).symm.trans (h.failed hlt)) nofun

/-- A walk that halts leaves the handles that were asked for exactly when the file it halted at
was to be released and nothing behind it was to change. -/
theorem Halts.opened_iff {stop : Nat} (h : Halts files s env after stop)
    (hlaid : s.coordinator.state.disk.files.length = files.length) (hlt : stop < files.length) :
    (∀ (i : Nat) (m : FileMapping),
        (s.coordinator.state.disk.setSelection env.io after s.coordinator.fs).2.1.files[i]? =
          some m → m.opened = isSelected (some after) i) ↔
      isSelected (some after) stop = false ∧
        ∀ j, stop < j → j < files.length →
          isSelected (some after) j = isSelected (some s.currentFlags) j := by
  constructor
  · intro hopened
    refine ⟨?_, fun j hj hjlt => ?_⟩
    · obtain ⟨m, hm, -, hclosed, -⟩ := h.handle stop hlt
      rw [← hopened stop m hm]
      exact hclosed rfl
    · obtain ⟨m, hm, -, -, hkept⟩ := h.handle j hjlt
      rw [← hopened j m hm]
      exact hkept hj
  · rintro ⟨hrelease, hlast⟩ i m hm
    have hi : i < files.length := by
      have hplan := congrArg List.length (map_walkFiles
        (plan_selectionVisit s.coordinator.state.disk.backend env.io after) 0
        s.coordinator.state.disk.files s.coordinator.fs)
      rw [List.length_map, List.length_map, hlaid] at hplan
      rw [← hplan]
      exact (List.getElem?_eq_some_iff.mp hm).1
    obtain ⟨n, hn, hbefore, hat, hbehind⟩ := h.handle i hi
    cases hm.symm.trans hn
    rcases Nat.lt_trichotomy i stop with hltstop | rfl | hgt
    · exact hbefore hltstop
    · exact (hat rfl).trans hrelease.symm
    · exact (hbehind hgt).trans (hlast i hgt hi).symm

/-- A request is met as a whole exactly when its faults are benign. -/
theorem allOrNothing_iff (hfiles : info.files = some files) (h : Held info files s)
    (hrun : s.stopped = false) (hreq : s.requests info after = true) :
    AllOrNothing info files after s (s.step sha1 info (.selectionChanged env after)) ↔
      Benign info s (.selectionChanged env after) := by
  rw [step_request hfiles hrun hreq]
  obtain ⟨stop, hhalts⟩ := exists_halts h env after
  cases hset : (s.coordinator.state.disk.setSelection env.io after s.coordinator.fs).1 with
  | true =>
    have hend := hhalts.completes.mp hset
    have hmet := Coordinator.opened_handleSetSelection hset
      (.fromFiles files after info.pieceLength info.pieces.length)
      (Selection.piecesToRefetch files s.currentFlags after info.pieceLength info.pieces.length)
    refine iff_of_true ⟨.inl hmet, hmet.1, hmet.2⟩ ?_
    intro files' hfiles' _ _
    cases hfiles.symm.trans hfiles'
    exact .inl fun i hi => hhalts.passed i (hend ▸ hi)
  | false =>
    have hlt : stop < files.length := by
      have hne : ¬ stop = files.length := fun he => by simp [hhalts.completes.mpr he] at hset
      have hle := hhalts.le_length
      omega
    obtain ⟨hmanager, hdisk⟩ := Coordinator.handleSetSelection_err hset
      (.fromFiles files after info.pieceLength info.pieces.length)
      (Selection.piecesToRefetch files s.currentFlags after info.pieceLength info.pieces.length)
    generalize hc : (s.coordinator.handleSetSelection env
      (.fromFiles files after info.pieceLength info.pieces.length) after
      (Selection.piecesToRefetch files s.currentFlags after info.pieceLength
        info.pieces.length)).1 = c at hmanager hdisk
    have hselection : c.state.manager.selection =
        .fromFiles files s.currentFlags info.pieceLength info.pieces.length := by
      rw [hmanager]; exact h.aligned.selection
    have hiff := hhalts.opened_iff h.laid hlt
    rw [← hdisk] at hiff
    constructor
    · rintro ⟨-, haligned⟩ files' hfiles' - -
      cases hfiles.symm.trans hfiles'
      obtain ⟨hrelease, hlast⟩ := hiff.mp haligned.opened
      exact .inr ⟨stop, hlt, hhalts.failed hlt, hhalts.passed, hrelease, hlast,
        hselection.symm.trans haligned.selection⟩
    · intro hbenign
      obtain hnone | ⟨k, hk, hfk, hfirst, hrelease, hlast, hsame⟩ :=
        hbenign files hfiles hrun hreq
      · exact absurd ((hnone stop hlt).symm.trans (hhalts.failed hlt)) nofun
      · obtain rfl : k = stop := hhalts.first_fault hlt hfk hfirst
        have hopened := hiff.mpr ⟨hrelease, hlast⟩
        exact ⟨.inl ⟨hopened, hselection.trans hsame⟩, hopened, hselection.trans hsame⟩

theorem Held.of_unmoved (h : Held info files s) {c : Coordinator}
    (hc : Coordinator.Unmoved s.coordinator c) (stopped : Bool) :
    Held info files ⟨c, s.currentFlags, stopped⟩ where
  laid := by
    have hlength := congrArg List.length hc.disk.still
    rw [List.length_map, List.length_map] at hlength
    exact hlength.trans h.laid
  aligned := ⟨hc.disk.opened h.aligned.opened, hc.selection.trans h.aligned.selection⟩
  length_eq := h.length_eq

theorem held_step (hfiles : info.files = some files) (h : Held info files s) {i : Input}
    (hmsg : ∀ env selection flags refetch, i ≠ .message env (.setSelection selection flags refetch))
    (hi : ChangesWhole sha1 info s i) : Held info files (s.step sha1 info i) := by
  cases hrun : s.stopped with
  | true => simpa only [BackgroundTask.step, hrun, if_true] using h
  | false =>
    cases i with
    | message env msg =>
      have hm : ∀ selection flags refetch, msg ≠ .setSelection selection flags refetch :=
        fun _ _ _ he => hmsg env _ _ _ (congrArg _ he)
      simpa only [BackgroundTask.step, hrun, Bool.false_eq_true, if_false] using
        h.of_unmoved (Coordinator.unmoved_handle env _ hm) false
    | tick env =>
      simpa only [BackgroundTask.step, hrun, Bool.false_eq_true, if_false] using
        h.of_unmoved (Coordinator.unmoved_checkTick sha1 env _) false
    | selectionChanged env after =>
      cases hreq : s.requests info after with
      | false =>
        simpa only [BackgroundTask.step, hrun, Bool.false_eq_true, if_false,
          BackgroundTask.select, hfiles, hreq] using h
      | true =>
        have hwhole := (hi files hfiles hrun hreq).2
        rw [step_request hfiles hrun hreq] at hwhole ⊢
        refine ⟨?_, hwhole, ?_⟩
        · have hplan := congrArg List.length (Coordinator.plan_handleSetSelection env s.coordinator
            (.fromFiles files after info.pieceLength info.pieces.length) after
            (Selection.piecesToRefetch files s.currentFlags after info.pieceLength info.pieces.length))
          rw [List.length_map, List.length_map] at hplan
          exact hplan.trans h.laid
        · rw [BackgroundTask.requests, Bool.and_eq_true] at hreq
          exact length_of_validFlags hfiles hreq.1
    | shutdown env =>
      simpa only [BackgroundTask.step, hrun, Bool.false_eq_true, if_false] using
        h.of_unmoved (Coordinator.unmoved_shutdown env _) true

theorem exists_overlap (hfiles : info.files = some files)
    (hw : info.WellFormed (totalSize info)) {p : Nat} (hp : p < info.pieces.length) :
    ∃ i, Overlaps files info.pieceLength p i := by
  have hL := hw.pieceLength_pos
  have hsum := (hw.files files hfiles).2
  have hlt : p * info.pieceLength < totalSize info := by
    rw [hw.pieces_length, Nat.lt_div_iff_mul_lt hL] at hp
    omega
  obtain ⟨i, hi⟩ : ∃ i, InFile files i (p * info.pieceLength) := exists_inFile (hsum ▸ hlt)
  exact ⟨i, _, hi, Nat.mul_div_cancel p hL⟩

theorem fromFiles_eq_all (hfiles : info.files = some files)
    (hw : info.WellFormed (totalSize info)) (hcount : info.pieces.length < 2 ^ 32)
    {flags : List Bool} (hlen : flags.length = files.length)
    (hserved : ∀ p, (Selection.fromFiles files flags info.pieceLength
      info.pieces.length).unservable.has p = false) :
    Selection.fromFiles files flags info.pieceLength info.pieces.length =
      .all info.pieces.length := by
  have hL := hw.pieceLength_pos
  have hwanted (p : Nat) : (Selection.fromFiles files flags info.pieceLength
      info.pieces.length).wanted.has p ↔ p < info.pieces.length := by
    rw [Selection.wanted_fromFiles hL]
    refine and_iff_left_of_imp fun hp => ?_
    obtain ⟨i, hi⟩ := exists_overlap hfiles hw hp
    refine ⟨i, ?_, hi⟩
    obtain ⟨x, hx, -⟩ := id hi
    have hlt : i < flags.length := hlen ▸ hx.lt_length
    rw [List.getElem?_eq_getElem hlt]
    by_contra hflag
    -- A file that is left out would have its pieces withheld.
    have hno := hserved p
    rw [Bool.eq_false_iff, ne_eq, Selection.unservable_fromFiles hL] at hno
    exact hno ⟨hp, i, by rw [List.getElem?_eq_getElem hlt]; simpa using hflag, hi⟩
  have hlens := Selection.len_fromFiles files flags info.pieceLength info.pieces.length
  have hw' : (Selection.fromFiles files flags info.pieceLength info.pieces.length).wanted =
      .full info.pieces.length :=
    Bitfield.ext_has (by rw [hlens.1, Bitfield.len_full])
      fun p => by
        rw [Bool.eq_iff_iff, hwanted, Bitfield.has_full, Nat.mod_eq_of_lt hcount]
  have hu' : (Selection.fromFiles files flags info.pieceLength info.pieces.length).unservable =
      .new info.pieces.length :=
    Bitfield.ext_has (by rw [hlens.2, Bitfield.len_new]) fun p => by simp [hserved p]
  rw [Selection.all, ← hw', ← hu']

theorem launched {l : Launch} {fs : FileStore Path} (hlaunch : launch info l fs = some s) :
    s.coordinator.state.disk.files.length = (torrentFiles info).length ∧
      (∀ (i : Nat) (m : FileMapping), s.coordinator.state.disk.files[i]? = some m →
        m.opened = isSelected l.chosen i) ∧
      s.coordinator.state.manager =
        .withSelection info.piecesCount l.completed l.selection ∧
      s.currentFlags = l.chosen.getD ((info.files.map fun files =>
        List.replicate files.length true).getD []) := by
  unfold launch at hlaunch
  split at hlaunch
  · cases hlaunch
  case h_2 disk fs' hinit =>
    cases hlaunch
    obtain ⟨hlength, hopened⟩ := opened_initWithSelection hinit
    dsimp only [initialCoordinatorState]
    split <;> exact ⟨hlength, hopened, rfl, rfl⟩

theorem held_start (hfiles : info.files = some files) {l : Launch} {fs : FileStore Path}
    {requested : Option (List Bool)} {loaded : Except ResumeError (Option FastResumeState)}
    {isValid : Bool} (hw : info.WellFormed (totalSize info))
    (hlaunch : launch info (resumed info requested loaded isValid l) fs = some s)
    (hcount : info.pieces.length < 2 ^ 32) : Held info files s := by
  obtain ⟨hlength, hopen, hmanager, hflags⟩ := launched hlaunch
  have hlaid : s.coordinator.state.disk.files.length = files.length := by
    rw [hlength, torrentFiles, hfiles]
    rfl
  have hchosen : (resumed info requested loaded isValid l).chosen = chosenFiles info requested ∧
      (resumed info requested loaded isValid l).selection =
        fileSelection info (requested.filter (validFlags info)) := by
    unfold resumed
    split
    · split <;> exact ⟨rfl, rfl⟩
    · exact ⟨rfl, rfl⟩
    · exact ⟨rfl, rfl⟩
  have hselection : s.coordinator.state.manager.selection =
      fileSelection info (requested.filter (validFlags info)) := by
    rw [hmanager]; exact hchosen.2
  have hselected := isSelected_currentFlags hflags
  rw [hchosen.1, hfiles] at hflags
  have hall : Selection.fromFiles files (List.replicate files.length true) info.pieceLength
      info.pieces.length = .all info.pieces.length := by
    refine fromFiles_eq_all hfiles hw hcount (by simp) fun p => ?_
    rw [Bool.eq_false_iff, ne_eq, Selection.unservable_fromFiles hw.pieceLength_pos]
    rintro ⟨-, i, hi, -⟩
    simp [List.getElem?_replicate] at hi
  have hopened : ∀ (i : Nat) (m : FileMapping), s.coordinator.state.disk.files[i]? = some m →
      m.opened = isSelected (some s.currentFlags) i := fun i m hm =>
    (hopen i m hm).trans (hselected i).symm
  cases hrequested : requested.filter (validFlags info) with
  | none =>
    have hdefault : s.currentFlags = List.replicate files.length true := by
      rw [hflags, chosenFiles, hrequested]; rfl
    refine ⟨hlaid, ⟨hopened, ?_⟩, by rw [hdefault, List.length_replicate]⟩
    rw [hselection, hrequested, hdefault, hall]
    simp [fileSelection]
  | some flags =>
    have hlen := length_of_validFlags hfiles (Option.filter_eq_some_iff.mp hrequested).2
    have hfrom : fileSelection info (some flags) =
        .fromFiles files flags info.pieceLength info.pieces.length := by
      simp only [fileSelection, hfiles]
    rw [hrequested, hfrom] at hselection
    cases hisAll : (fileSelection info (some flags)).isAll with
    | false =>
      have hkept : s.currentFlags = flags := by
        rw [hflags, chosenFiles, hrequested, Option.filter_some, hisAll]; rfl
      exact ⟨hlaid, ⟨hopened, hkept ▸ hselection⟩, hkept ▸ hlen⟩
    | true =>
      -- The choice is dropped: it leaves out nothing that holds a byte.
      have hdefault : s.currentFlags = List.replicate files.length true := by
        rw [hflags, chosenFiles, hrequested, Option.filter_some, hisAll]; rfl
      refine ⟨hlaid, ⟨hopened, ?_⟩, by rw [hdefault, List.length_replicate]⟩
      rw [hfrom, Selection.isAll, Bool.and_eq_true, beq_iff_eq, beq_iff_eq] at hisAll
      rw [hselection, hdefault, hall]
      exact fromFiles_eq_all hfiles hw hcount hlen (Bitfield.count_eq_zero.mp hisAll.2)

/-- Every request of a run is met as a whole, or not at all, exactly when the faults of each
are benign for the state they come in.  Pieces are numbered by `u32`; the size that metadata may
have keeps their number far below. -/
theorem changes_whole_iff {l : Launch} {fs : FileStore Path} {requested : Option (List Bool)}
    {loaded : Except ResumeError (Option FastResumeState)} {isValid : Bool}
    (haccepted : ∃ raw infoHash, buildMeta l.windows raw infoHash = .ok info)
    (hlaunch : launch info (resumed info requested loaded isValid l) fs = some s)
    (hcount : info.pieces.length < 2 ^ 32) (inputs : List Input)
    (hmsg : ∀ env selection flags refetch,
      Input.message env (.setSelection selection flags refetch) ∉ inputs) :
    Along (BackgroundTask.step sha1 info) (ChangesWhole sha1 info) s inputs ↔
      Along (BackgroundTask.step sha1 info) (Benign info) s inputs := by
  cases hfiles : info.files with
  | none =>
    -- A single file is never chosen or left out.
    refine along_iff (P := fun _ => True) (fun s i _ _ => ?_) (fun _ _ _ _ _ => trivial) trivial
    cases i <;> simp [ChangesWhole, Benign, hfiles]
  | some files =>
    have hw := wellFormed_of_accepted haccepted
    refine along_iff (P := Held info files) (fun s i _ h => ?_)
      (fun s i hi h hwhole => held_step hfiles h (fun env _ _ _ he => ?_) hwhole)
      (held_start hfiles hw hlaunch hcount)
    · cases i with
      | selectionChanged env after =>
        constructor
        · intro hwhole files' hfiles' hrun hreq
          exact (allOrNothing_iff hfiles h hrun hreq).mp (hwhole files hfiles hrun hreq) files'
            hfiles' hrun hreq
        · intro hbenign files' hfiles' hrun hreq
          cases hfiles.symm.trans hfiles'
          exact (allOrNothing_iff hfiles h hrun hreq).mpr hbenign
      | _ => exact Iff.rfl
    · exact hmsg env _ _ _ (he ▸ hi)

end Requests

theorem changes_whole_iff_twoFiles :
    let s := startTwoFiles none rfl
    let inputs : List Input := [.selectionChanged .calm [true, false],
      .selectionChanged .calm [true, true]]
    Along (BackgroundTask.step (fun _ => zeroDigest) twoFiles)
        (ChangesWhole (fun _ => zeroDigest) twoFiles) s inputs ↔
      Along (BackgroundTask.step (fun _ => zeroDigest) twoFiles) (Benign twoFiles) s inputs := by
  intro s inputs
  have hlaunch : launch twoFiles (resumed twoFiles none (.ok none) false (plainLaunch none))
      (fun _ => none) = some s := (Option.some_get rfl).symm
  exact changes_whole_iff ⟨_, _, accepted_twoFiles⟩ hlaunch (by decide) inputs (by simp [inputs])

/-- The second file is given up, but syncing it fails: its handle is gone, the manager still
has the old selection, and the dashboard believes that the new one holds. -/
theorem not_allOrNothing_twoFiles :
    let s := startTwoFiles none rfl
    let env : Env := { Env.calm with io := { Io.calm with syncFails := (· == 1) } }
    let t := s.step (fun _ => zeroDigest) twoFiles (.selectionChanged env [true, false])
    s.requests twoFiles [true, false] = true ∧ t.currentFlags = [true, false] ∧
      ¬ AllOrNothing twoFiles [⟨1, ["a"]⟩, ⟨1, ["b"]⟩] [true, false] s t := by
  intro s env t
  refine ⟨rfl, rfl, fun h => ?_⟩
  have hselection : t.coordinator.state.manager.selection ≠
      .fromFiles [⟨1, ["a"]⟩, ⟨1, ["b"]⟩] [true, false] 2 1 := by decide
  exact hselection h.2.selection

end Tortor.System
