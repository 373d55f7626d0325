import Mathlib.Algebra.BigOperators.Group.Finset.Basic
import Tortor.Core.ManagerLaws

/-! Selections told by the bytes that pieces and files have in common. -/

namespace Tortor.Core

def pieceCount (total pieceLength : Nat) : Nat := (total + pieceLength - 1) / pieceLength

theorem lt_pieceCount_iff {total pieceLength : Nat} (hL : 0 < pieceLength) {p : Nat} :
    p < pieceCount total pieceLength ↔ p * pieceLength < total := by
  rw [pieceCount, Nat.lt_iff_add_one_le, Nat.le_div_iff_mul_le hL, Nat.succ_mul]
  omega

theorem fileStart_le_total (files : List TorrentFile) (i : Nat) :
    fileStart files i ≤ (files.map (·.length)).sum := by
  rcases Nat.le_total i files.length with h | h
  · rw [← fileStart_eq_total (Nat.le_refl files.length)]
    exact fileStart_mono files h
  · rw [fileStart_eq_total h]

theorem Overlaps.lt_pieceCount {files : List TorrentFile} {pieceLength p i : Nat}
    (h : Overlaps files pieceLength p i) (hL : 0 < pieceLength) :
    p < pieceCount (files.map (·.length)).sum pieceLength := by
  obtain ⟨x, hx, rfl⟩ := h
  rw [lt_pieceCount_iff hL]
  exact (Nat.div_mul_le_self x pieceLength).trans_lt
    (hx.2.trans_le (fileStart_le_total files (i + 1)))

theorem Overlaps.exists_file {files : List TorrentFile} {pieceLength p i : Nat}
    (h : Overlaps files pieceLength p i) : ∃ file, files[i]? = some file ∧ 0 < file.length := by
  obtain ⟨x, hx, -⟩ := h
  have hi : i < files.length := hx.lt_length
  have hfile : files[i]? = some files[i] := List.getElem?_eq_getElem hi
  refine ⟨_, hfile, ?_⟩
  have hend := fileStart_succ hfile
  obtain ⟨h₁, h₂⟩ := hx
  omega

theorem exists_overlaps {files : List TorrentFile} {pieceLength p : Nat} (hL : 0 < pieceLength)
    (hp : p < pieceCount (files.map (·.length)).sum pieceLength) :
    ∃ i, Overlaps files pieceLength p i := by
  obtain ⟨i, hi⟩ := exists_inFile ((lt_pieceCount_iff hL).mp hp)
  exact ⟨i, p * pieceLength, hi, Nat.mul_div_cancel p hL⟩

namespace Selection

variable {files : List TorrentFile} {flags : List Bool} {pieceLength : Nat}

theorem len_piecesOfFilesLoop (pieceLength totalPieces : Nat) (files : List (TorrentFile × Bool))
    (offset : Nat) (pieces : Bitfield) :
    (piecesOfFilesLoop pieceLength totalPieces offset files pieces).len = pieces.len := by
  induction files generalizing offset pieces with
  | nil => rfl
  | cons entry rest ih =>
    obtain ⟨file, flag⟩ := entry
    rw [piecesOfFilesLoop, ih]
    cases flag <;> simp

theorem len_piecesOfFiles (files : List TorrentFile) (flags : List Bool)
    (pieceLength totalPieces : Nat) :
    (piecesOfFiles files flags pieceLength totalPieces).len = totalPieces :=
  len_piecesOfFilesLoop _ _ _ _ _

theorem getElem?_map_not (flags : List Bool) (i : Nat) :
    (flags.map (!·))[i]? = some true ↔ flags[i]? = some false := by
  rw [List.getElem?_map, Option.map_eq_some_iff]
  simp

theorem wanted_eq_piecesOfFiles (hL : 0 < pieceLength) (files : List TorrentFile)
    (flags : List Bool) (totalPieces : Nat) :
    (fromFiles files flags pieceLength totalPieces).wanted =
      piecesOfFiles files flags pieceLength totalPieces := by
  refine Bitfield.ext_has ?_ fun p => ?_
  · rw [(len_fromFiles _ _ _ _).1, len_piecesOfFiles]
  · rw [Bool.eq_iff_iff, wanted_fromFiles hL, has_piecesOfFiles hL]

theorem unservable_eq_piecesOfFiles (hL : 0 < pieceLength) (files : List TorrentFile)
    (flags : List Bool) (totalPieces : Nat) :
    (fromFiles files flags pieceLength totalPieces).unservable =
      piecesOfFiles files (flags.map (!·)) pieceLength totalPieces := by
  refine Bitfield.ext_has ?_ fun p => ?_
  · rw [(len_fromFiles _ _ _ _).2, len_piecesOfFiles]
  · simp only [Bool.eq_iff_iff, unservable_fromFiles hL, has_piecesOfFiles hL, getElem?_map_not]

theorem fromFiles_eq_all_iff (hL : 0 < pieceLength) (hlen : flags.length = files.length)
    (hall : ∀ flag ∈ flags, flag = true) :
    let totalPieces := pieceCount (files.map (·.length)).sum pieceLength
    fromFiles files flags pieceLength totalPieces = all totalPieces ↔ totalPieces < 2 ^ 32 := by
  intro totalPieces
  obtain ⟨hwanted, hunservable⟩ := len_fromFiles files flags pieceLength totalPieces
  have hflag {i : Nat} (hi : i < files.length) : flags[i]? = some true := by
    rw [List.getElem?_eq_getElem (hlen ▸ hi), hall _ (List.getElem_mem _)]
  have hhas (p : Nat) : (fromFiles files flags pieceLength totalPieces).wanted.has p ↔
      p < totalPieces := by
    rw [wanted_fromFiles hL]
    refine ⟨And.left, fun hp => ⟨hp, ?_⟩⟩
    obtain ⟨i, x, hx, hpiece⟩ := exists_overlaps hL hp
    exact ⟨i, hflag hx.lt_length, x, hx, hpiece⟩
  constructor
  · intro heq
    by_contra hge
    -- `full` ends at the cast of `totalPieces`, which is one of the pieces
    have hmod : totalPieces % 2 ^ 32 < totalPieces :=
      (Nat.mod_lt _ (by omega)).trans_le (Nat.not_lt.mp hge)
    have hin := (hhas _).mpr hmod
    rw [heq, all, Bitfield.has_full] at hin
    exact absurd hin (Nat.lt_irrefl _)
  · intro hlt
    have hw : (fromFiles files flags pieceLength totalPieces).wanted = .full totalPieces := by
      refine Bitfield.ext_has (hwanted.trans (Bitfield.len_full _).symm) fun p => ?_
      rw [Bool.eq_iff_iff, hhas, Bitfield.has_full, Nat.mod_eq_of_lt hlt]
    have hu : (fromFiles files flags pieceLength totalPieces).unservable = .new totalPieces := by
      refine Bitfield.ext_has (hunservable.trans (Bitfield.len_new _).symm) fun p => ?_
      rw [Bitfield.has_new, Bool.eq_false_iff, ne_eq, unservable_fromFiles hL]
      rintro ⟨-, i, hi, -⟩
      exact absurd (hall false (List.mem_of_getElem? hi)) nofun
    calc fromFiles files flags pieceLength totalPieces
        = ⟨(fromFiles files flags pieceLength totalPieces).wanted,
            (fromFiles files flags pieceLength totalPieces).unservable⟩ := rfl
      _ = all totalPieces := by rw [hw, hu, all]

theorem min_sub_eq (total pieceLength p : Nat) :
    min (total - p * pieceLength) pieceLength =
      min ((p + 1) * pieceLength) total - p * pieceLength := by
  rw [Nat.succ_mul]
  omega

theorem wantedBytes_eq_sum (sel : Selection) (pieceLength total : Nat) :
    sel.wantedBytes pieceLength total =
      ∑ p ∈ (Finset.range sel.wanted.len).filter fun p => sel.wanted.has p,
        (min ((p + 1) * pieceLength) total - p * pieceLength) := by
  have hset : ((Finset.range sel.wanted.len).filter fun p => sel.wanted.has p) =
      sel.wanted.iterOnes.toFinset := by
    ext p
    simp only [Finset.mem_filter, Finset.mem_range, List.mem_toFinset, Bitfield.mem_iterOnes,
      and_iff_right_iff_imp]
    exact Bitfield.has_lt
  rw [hset, List.sum_toFinset _ sel.wanted.nodup_iterOnes, wantedBytes]
  simp only [min_sub_eq]

/-- Selected pieces and pieces that cannot be served are those that have a byte in common with a
selected file or with another one. -/
structure EqualsOverlap (files : List TorrentFile) (flags : List Bool)
    (pieceLength total totalPieces : Nat) : Prop where
  wanted : ∀ p, (fromFiles files flags pieceLength totalPieces).wanted.has p ↔
    ∃ i, flags[i]? = some true ∧ Overlaps files pieceLength p i
  unservable : ∀ p, (fromFiles files flags pieceLength totalPieces).unservable.has p ↔
    ∃ i, flags[i]? = some false ∧ Overlaps files pieceLength p i
  wanted_eq : (fromFiles files flags pieceLength totalPieces).wanted =
    piecesOfFiles files flags pieceLength totalPieces
  unservable_eq : (fromFiles files flags pieceLength totalPieces).unservable =
    piecesOfFiles files (flags.map (!·)) pieceLength totalPieces
  covered : ∀ p < totalPieces, (fromFiles files flags pieceLength totalPieces).wanted.has p ∨
    (fromFiles files flags pieceLength totalPieces).unservable.has p
  all : (∀ flag ∈ flags, flag = true) →
    fromFiles files flags pieceLength totalPieces = all totalPieces
  wantedBytes : (fromFiles files flags pieceLength totalPieces).wantedBytes pieceLength total =
    ∑ p ∈ (Finset.range totalPieces).filter fun p =>
      (fromFiles files flags pieceLength totalPieces).wanted.has p,
        (min ((p + 1) * pieceLength) total - p * pieceLength)
  offset_lt : ∀ i, fileStart files i < 2 ^ 64
  start_lt : ∀ p, (fromFiles files flags pieceLength totalPieces).wanted.has p →
    p * pieceLength < 2 ^ 64

/-- A selection is told by the bytes that pieces and files have in common, for any layout of the
files, unless every file is selected of a torrent whose pieces a `u32` does not count. -/
theorem selection_overlap_iff {total totalPieces : Nat}
    (htotal : (files.map (·.length)).sum = total) (hfit : total < 2 ^ 64)
    (hlen : flags.length = files.length) (hL : 0 < pieceLength)
    (hcount : totalPieces = pieceCount total pieceLength) :
    EqualsOverlap files flags pieceLength total totalPieces ↔
      totalPieces < 2 ^ 32 ∨ false ∈ flags := by
  subst htotal
  have hall := fromFiles_eq_all_iff hL hlen
  have hlt {p i : Nat} (ho : Overlaps files pieceLength p i) : p < totalPieces :=
    hcount ▸ ho.lt_pieceCount hL
  have hwanted (p : Nat) : (fromFiles files flags pieceLength totalPieces).wanted.has p ↔
      ∃ i, flags[i]? = some true ∧ Overlaps files pieceLength p i := by
    rw [wanted_fromFiles hL]
    exact ⟨And.right, fun ⟨i, hi, ho⟩ => ⟨hlt ho, i, hi, ho⟩⟩
  have hunservable (p : Nat) : (fromFiles files flags pieceLength totalPieces).unservable.has p ↔
      ∃ i, flags[i]? = some false ∧ Overlaps files pieceLength p i := by
    rw [unservable_fromFiles hL]
    exact ⟨And.right, fun ⟨i, hi, ho⟩ => ⟨hlt ho, i, hi, ho⟩⟩
  rw [← hcount] at hall
  constructor
  · intro h
    by_cases hflags : ∀ flag ∈ flags, flag = true
    · exact .inl ((hall hflags).mp (h.all hflags))
    · push Not at hflags
      obtain ⟨flag, hmem, hne⟩ := hflags
      exact .inr (eq_false_of_ne_true hne ▸ hmem)
  · intro hcond
    refine ⟨hwanted, hunservable, wanted_eq_piecesOfFiles hL _ _ _,
      unservable_eq_piecesOfFiles hL _ _ _, fun p hp => ?_, fun hflags => ?_, ?_,
      fun i => (fileStart_le_total files i).trans_lt hfit, fun p hp => ?_⟩
    · obtain ⟨i, x, hx, hpiece⟩ := exists_overlaps hL (hcount ▸ hp)
      have hi : i < flags.length := hlen ▸ hx.lt_length
      rw [hwanted, hunservable]
      cases hflag : flags[i] with
      | true => exact .inl ⟨i, by rw [List.getElem?_eq_getElem hi, hflag], x, hx, hpiece⟩
      | false => exact .inr ⟨i, by rw [List.getElem?_eq_getElem hi, hflag], x, hx, hpiece⟩
    · rcases hcond with hlt | hfalse
      · exact (hall hflags).mpr hlt
      · exact absurd (hflags false hfalse) nofun
    · rw [wantedBytes_eq_sum, (len_fromFiles _ _ _ _).1]
    · obtain ⟨i, -, ho⟩ := (hwanted p).mp hp
      exact ((lt_pieceCount_iff hL).mp (ho.lt_pieceCount hL)).trans hfit

theorem selection_overlap_twoFiles :
    EqualsOverlap [⟨15, ["a"]⟩, ⟨25, ["b"]⟩] [false, true] 10 40 4 :=
  (selection_overlap_iff rfl (by decide) rfl (by decide) rfl).mpr (.inl (by decide))

/-- A file of as many pieces of one byte each as a `u32` just fails to count. -/
theorem full_misses_pieces :
    ¬ EqualsOverlap [⟨2 ^ 32, ["f"]⟩] [true] 1 (2 ^ 32) (2 ^ 32) := by
  intro h
  have hzero : (fromFiles [⟨2 ^ 32, ["f"]⟩] [true] 1 (2 ^ 32)).wanted.has 0 :=
    (h.wanted 0).mpr ⟨0, rfl, 0, ⟨Nat.le_refl 0, by decide⟩, rfl⟩
  rw [h.all (by simp), all, Bitfield.has_full] at hzero
  exact absurd hzero (by decide)

theorem flag_of_ne (hlen : flags.length = files.length) {p i : Nat}
    (ho : Overlaps files pieceLength p i) {flag : Bool} (hne : ¬ flags[i]? = some (!flag)) :
    flags[i]? = some flag := by
  obtain ⟨_, hx, -⟩ := ho
  have hi : i < flags.length := hlen ▸ hx.lt_length
  rw [List.getElem?_eq_getElem hi, Option.some.injEq] at hne ⊢
  exact Bool.not_eq_not.mp hne

def reselect (files : List TorrentFile) (pieceLength totalPieces : Nat)
    (s : List Bool × TorrentManager) (after : List Bool) : List Bool × TorrentManager :=
  (after, s.2.applySelection (fromFiles files after pieceLength totalPieces)
    (piecesToRefetch files s.1 after pieceLength totalPieces))

theorem selected_throughout {totalPieces p : Nat} (hL : 0 < pieceLength) (hp : p < totalPieces)
    {last : List Bool} {chain : List (List Bool)} (hlast : (flags :: chain).getLast? = some last)
    (hlen : ∀ f ∈ flags :: chain, f.length = files.length)
    (hout : (flags :: chain).IsChain fun before after =>
      ¬ (piecesToRefetch files before after pieceLength totalPieces).has p)
    {i : Nat} (hi : last[i]? = some true) (ho : Overlaps files pieceLength p i) :
    ∀ f ∈ flags :: chain, f[i]? = some true := by
  induction chain generalizing flags with
  | nil =>
    cases hlast
    simpa using hi
  | cons after rest ih =>
    obtain ⟨hhead, htail⟩ := List.isChain_cons_cons.mp hout
    have hrest := ih (by simpa using hlast) (fun f hf => hlen f (List.mem_cons_of_mem _ hf)) htail
    refine List.forall_mem_cons.mpr ⟨?_, hrest⟩
    -- the file is selected next, so it must be selected now
    refine flag_of_ne (hlen flags List.mem_cons_self) ho fun hoff => ?_
    exact hhead ((has_piecesToRefetch hL files flags after p).mpr
      ⟨hp, i, hoff, hrest after List.mem_cons_self, ho⟩)

/-- A piece that is completed after changes of the selection was so before them and outside all
refetch sets. -/
theorem isChain_of_completed {totalPieces p : Nat} (hp : p < 2 ^ 32) {m : TorrentManager}
    {chain : List (List Bool)}
    (hdone : p ∈ (Lib.exec (reselect files pieceLength totalPieces) (flags, m) chain).2.completed) :
    p ∈ m.completed ∧ (flags :: chain).IsChain fun before after =>
      ¬ (piecesToRefetch files before after pieceLength totalPieces).has p := by
  induction chain generalizing flags m with
  | nil => exact ⟨hdone, List.isChain_singleton _⟩
  | cons after rest ih =>
    obtain ⟨hnext, hchain⟩ := ih hdone
    obtain ⟨hbefore, hkept⟩ := TorrentManager.mem_completed_applySelection.mp hnext
    refine ⟨hbefore, List.isChain_cons_cons.mpr ⟨fun hin => ?_, hchain⟩⟩
    exact hkept p hin (Nat.mod_eq_of_lt hp)

/-- A piece is fetched again exactly when it overlaps a file that becomes selected, which is what
the two selections need; and whatever is kept over a chain of selections is stored. -/
theorem refetch_exact {before after : List Bool} {totalPieces : Nat}
    (hbefore : before.length = files.length) (hafter : after.length = files.length)
    (hL : 0 < pieceLength)
    (hcount : totalPieces = pieceCount (files.map (·.length)).sum pieceLength) :
    let refetch := piecesToRefetch files before after pieceLength totalPieces
    let was := fromFiles files before pieceLength totalPieces
    let now := fromFiles files after pieceLength totalPieces
    (∀ p, refetch.has p ↔ ∃ i file, files[i]? = some file ∧ 0 < file.length ∧
      before[i]? = some false ∧ after[i]? = some true ∧ Overlaps files pieceLength p i) ∧
    (∀ p, now.wanted.has p → ¬ was.wanted.has p → refetch.has p) ∧
    (∀ p, was.unservable.has p → ¬ now.unservable.has p → refetch.has p) ∧
    (∀ p, (∀ i, before[i]? = some false → after[i]? = some true →
      ¬ Overlaps files pieceLength p i) → ¬ refetch.has p) ∧
    (∀ (chain : List (List Bool)) (p : Nat) (last : List Bool), p < totalPieces →
      (before :: chain).getLast? = some last → (∀ f ∈ chain, f.length = files.length) →
      ((before :: chain).IsChain fun before after =>
        ¬ (piecesToRefetch files before after pieceLength totalPieces).has p) →
      ∀ i, last[i]? = some true → Overlaps files pieceLength p i →
        ∀ f ∈ before :: chain, f[i]? = some true) ∧
    (∀ (chain : List (List Bool)) (m : TorrentManager) (p : Nat) (last : List Bool),
      p < totalPieces → p < 2 ^ 32 → (before :: chain).getLast? = some last →
      (∀ f ∈ chain, f.length = files.length) →
      p ∈ (Lib.exec (reselect files pieceLength totalPieces) (before, m) chain).2.completed →
      p ∈ m.completed ∧ ∀ i, last[i]? = some true → Overlaps files pieceLength p i →
        ∀ f ∈ before :: chain, f[i]? = some true) := by
  intro refetch was now
  have hrefetch (p : Nat) : refetch.has p ↔ ∃ i, before[i]? = some false ∧ after[i]? = some true ∧
      Overlaps files pieceLength p i := by
    rw [has_piecesToRefetch hL, hcount]
    exact ⟨And.right, fun ⟨i, hb, ha, ho⟩ => ⟨ho.lt_pieceCount hL, i, hb, ha, ho⟩⟩
  have hlength {chain : List (List Bool)} (hchain : ∀ f ∈ chain, f.length = files.length) :
      ∀ f ∈ before :: chain, f.length = files.length :=
    List.forall_mem_cons.mpr ⟨hbefore, hchain⟩
  refine ⟨fun p => ?_, fun p hnow hwas => ?_, fun p hwas hnow => ?_, fun p hnone hin => ?_,
    fun chain p last hp hlast hchain hout i hi ho =>
      selected_throughout hL hp hlast (hlength hchain) hout hi ho,
    fun chain m p last hp hp32 hlast hchain hdone => ?_⟩
  · rw [hrefetch]
    constructor
    · rintro ⟨i, hb, ha, ho⟩
      obtain ⟨file, hfile, hlt⟩ := ho.exists_file
      exact ⟨i, file, hfile, hlt, hb, ha, ho⟩
    · rintro ⟨i, -, -, -, hb, ha, ho⟩
      exact ⟨i, hb, ha, ho⟩
  · obtain ⟨hp, i, ha, ho⟩ := (wanted_fromFiles hL files after p).mp hnow
    have hb : before[i]? = some false := by
      refine flag_of_ne hbefore ho fun hb => hwas ?_
      exact (wanted_fromFiles hL files before p).mpr ⟨hp, i, hb, ho⟩
    exact (hrefetch p).mpr ⟨i, hb, ha, ho⟩
  · obtain ⟨hp, i, hb, ho⟩ := (unservable_fromFiles hL files before p).mp hwas
    have ha : after[i]? = some true := by
      refine flag_of_ne hafter ho fun ha => hnow ?_
      exact (unservable_fromFiles hL files after p).mpr ⟨hp, i, ha, ho⟩
    exact (hrefetch p).mpr ⟨i, hb, ha, ho⟩
  · obtain ⟨i, hb, ha, ho⟩ := (hrefetch p).mp hin
    exact hnone i hb ha ho
  · obtain ⟨hm, hout⟩ := isChain_of_completed hp32 hdone
    exact ⟨hm, fun i hi ho => selected_throughout hL hp hlast (hlength hchain) hout hi ho⟩

theorem refetch_exact_twoFiles : (piecesToRefetch [⟨15, ["a"]⟩, ⟨25, ["b"]⟩] [true, false]
    [true, true] 10 4).has 1 :=
  ((refetch_exact rfl rfl (by decide) rfl).1 1).mpr
    ⟨1, ⟨25, ["b"]⟩, rfl, by decide, rfl, rfl, 15, ⟨Nat.le_refl 15, by decide⟩, rfl⟩

end Selection
end Tortor.Core
