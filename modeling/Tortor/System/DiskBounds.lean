import Tortor.Core.DiskAccess
import Tortor.Core.LongNames
import Tortor.Core.ResumeLaws
import Tortor.Core.Storage
import Tortor.System.PieceLengths
import Tortor.System.TorrentLaws

/-! Accesses to the disk of an accepted torrent.  Nothing is assumed of the paths, of what is open
or of what the files hold. -/

namespace Tortor.Core

open Tortor.Lib Tortor.System

def FilePlan.length (plan : FilePlan) : Nat := plan.stop - plan.start

structure Contiguous (plans : List FilePlan) (start stop : Nat) : Prop where
  tiling : Tiling FilePlan.start FilePlan.length start plans stop
  ordered : ∀ plan ∈ plans, plan.start ≤ plan.stop

theorem contiguous_planFiles {windows : Bool} {base : Path} {name : String} {isMulti : Bool}
    {files : List TorrentFile} {offset : Nat} {plans : List FilePlan}
    (h : planFiles windows base name isMulti files offset = .ok plans) :
    Contiguous plans offset (offset + (files.map (·.length)).sum) := by
  induction files generalizing offset plans with
  | nil =>
    cases h
    exact ⟨.nil offset, nofun⟩
  | cons file files ih =>
    obtain ⟨path, rest, hpath, hrest, rfl⟩ := planFiles_cons_ok h
    obtain ⟨htiling, hordered⟩ := ih hrest
    have hlength : (⟨path, offset, offset + file.length⟩ : FilePlan).length = file.length :=
      Nat.add_sub_cancel_left offset file.length
    rw [List.map_cons, List.sum_cons, ← Nat.add_assoc]
    refine ⟨.cons rfl (hlength.symm ▸ htiling), ?_⟩
    exact List.forall_mem_cons.mpr ⟨Nat.le_add_right _ _, hordered⟩

theorem locate_cons (m : FileMapping) (rest : List FileMapping) (x : Nat) :
    locate (m :: rest) x =
      if x < m.endOffset then if m.startOffset ≤ x then some (0, m) else none
      else (locate rest x).map fun found => (found.1 + 1, found.2) := by
  simp only [locate, List.findIdx_cons]
  by_cases hx : x < m.endOffset
  · simp only [hx, decide_true, cond_true, List.getElem?_cons_zero, if_true]
  · simp only [hx, decide_false, cond_false, List.getElem?_cons_succ, if_false]
    cases rest[rest.findIdx fun m => decide (x < m.endOffset)]? with
    | none => rfl
    | some found =>
      simp only
      split <;> rfl

theorem Contiguous.exists_located {plans : List FilePlan} {start stop x : Nat}
    (h : Contiguous plans start stop) {files : List FileMapping}
    (hplans : files.map FileMapping.plan = plans) (hstart : start ≤ x) (hstop : x < stop) :
    ∃ found, locate files x = some found := by
  obtain ⟨htiling, hordered⟩ := h
  induction htiling generalizing files with
  | nil => omega
  | @cons start stop plan rest hbegin hrest ih =>
    obtain ⟨m, rest', rfl, rfl, hrest'⟩ := List.map_eq_cons_iff.mp hplans
    obtain ⟨hle, hordered⟩ := List.forall_mem_cons.mp hordered
    have hle : m.startOffset ≤ m.endOffset := hle
    have hbegin : m.startOffset = start := hbegin
    rw [locate_cons]
    by_cases hx : x < m.endOffset
    · exact ⟨(0, m), by rw [if_pos hx, if_pos (hbegin ▸ hstart)]⟩
    · have hnext : start + m.plan.length ≤ x := by
        have hlength : m.plan.length = m.endOffset - m.startOffset := rfl
        omega
      obtain ⟨found, hfound⟩ := ih hrest' hnext hstop hordered
      exact ⟨_, by rw [if_neg hx, hfound]; rfl⟩

def Orderly (fault : Option Fault) : Prop := fault = none ∨ fault = some .io

section Access

universe u

variable {σ : Type u} {filesOf : σ → List FileMapping}
  {body : Nat → FileMapping → (fileOffset done n : Nat) → σ → Bool × σ}
  {plans : List FilePlan} {total start len : Nat}

/-- An access inside the torrent ends orderly, whatever its rounds do to the files. -/
theorem accessLoop_orderly (hplans : Contiguous plans 0 total) (htotal : total < 2 ^ 64)
    (hrange : start + len ≤ total)
    (hkeeps : ∀ idx m fileOffset done n s s', (filesOf s)[idx]? = some m →
      (filesOf s).map FileMapping.plan = plans → body idx m fileOffset done n s = (true, s') →
      (filesOf s').map FileMapping.plan = plans)
    {s : σ} (hs : (filesOf s).map FileMapping.plan = plans) :
    Orderly (accessLoop filesOf body start len (len + 1) 0 s).1 := by
  have hends : AccessEnds filesOf body start len
      (fun done s => done ≤ len ∧ (filesOf s).map FileMapping.plan = plans)
      (accessLoop filesOf body start len (len + 1) 0 s) := by
    refine accessLoop_ends (fun done s h => by have := h.1; omega) ?_ ⟨Nat.zero_le _, hs⟩
      (Nat.zero_le _) (Nat.lt_succ_self _)
    intro done s idx m h _ hfound n s' _ hle _ _ hround
    exact ⟨hle, hkeeps _ _ _ _ _ _ _ (locate_bounds hfound).1 h.2 hround⟩
  generalize accessLoop filesOf body start len (len + 1) 0 s = result at hends
  cases hends with
  | complete => exact .inl rfl
  | @outside done s h hdone hnone =>
    have hin : start + done < total := by omega
    obtain ⟨found, hfound⟩ := hplans.exists_located h.2 (Nat.zero_le _) hin
    rw [hfound] at hnone
    cases hnone
  | failed => exact .inr rfl

variable {d : Disk} {fs : FileStore Path} {index offset : Nat}

theorem writePieceWith_orderly {data : List UInt8}
    {body : Nat → FileMapping → (fileOffset done n : Nat) → List FileMapping × FileStore Path →
      Bool × List FileMapping × FileStore Path}
    (hplans : Contiguous plans 0 total) (htotal : total < 2 ^ 64)
    (hd : d.files.map FileMapping.plan = plans)
    (hrange : index * d.pieceLength + data.length ≤ total)
    (hkeeps : ∀ idx m fileOffset done n s s', s.1[idx]? = some m →
      s.1.map FileMapping.plan = plans → body idx m fileOffset done n s = (true, s') →
      s'.1.map FileMapping.plan = plans) :
    Orderly (writePieceWith body d index data fs).1 := by
  have hoffset : Checked.mul 64 index d.pieceLength = some (index * d.pieceLength) :=
    Checked.mul_of_lt (by omega)
  simp only [writePieceWith, hoffset]
  exact accessLoop_orderly hplans htotal hrange hkeeps hd

theorem readPieceWith_orderly {buffer : List UInt8}
    {body : Nat → FileMapping → (fileOffset done n : Nat) → List UInt8 → Bool × List UInt8}
    (hplans : Contiguous plans 0 total) (htotal : total < 2 ^ 64)
    (hd : d.files.map FileMapping.plan = plans)
    (hrange : index * d.pieceLength + offset + len ≤ total) {fault : Fault}
    (hread : readPieceWith buffer body d index offset len = .error fault) : fault = .io := by
  have hoffset : Checked.mul 64 index d.pieceLength = some (index * d.pieceLength) :=
    Checked.mul_of_lt (by omega)
  have hstart : Checked.add 64 (index * d.pieceLength) offset =
      some (index * d.pieceLength + offset) := Checked.add_of_lt (by omega)
  have horderly : Orderly (accessLoop (fun _ => d.files) body (index * d.pieceLength + offset) len
      (len + 1) 0 buffer).1 :=
    accessLoop_orderly hplans htotal hrange (fun _ _ _ _ _ _ _ _ _ _ => hd) hd
  simp only [readPieceWith, hoffset, Option.bind_some, hstart] at hread
  split at hread
  · cases hread
  case h_2 hloop =>
    cases hread
    rw [hloop] at horderly
    exact Option.some.inj (horderly.resolve_left nofun)

theorem StandardDisk.plan_writeBody {os : Nat → Transfer} {data : List UInt8} {idx : Nat}
    {m : FileMapping} {fileOffset done n : Nat} {s s' : List FileMapping × FileStore Path}
    (hm : s.1[idx]? = some m)
    (h : StandardDisk.writeBody os data idx m fileOffset done n s = (true, s')) :
    s'.1.map FileMapping.plan = s.1.map FileMapping.plan := by
  unfold StandardDisk.writeBody at h
  split at h
  · split at h
    · cases h
      exact map_plan_set hm rfl
    · cases h
  · cases h
    rfl

end Access

def Accesses (info : TorrentMeta) (plans : List FilePlan) : Prop :=
  ∀ (d : Disk) (fs : FileStore Path) (os : Nat → Transfer) (index : Nat),
    d.files.map FileMapping.plan = plans → d.pieceLength = info.pieceLength →
    index < info.piecesCount → ∃ len, info.pieceLenAt index = some len ∧
      (∀ data, data.length = len →
        Orderly (StandardDisk.writePiece os d index data fs).1 ∧
        Orderly (UringDisk.writePiece os d index data fs).1) ∧
      ∀ offset length fault, offset + length ≤ len →
        StandardDisk.readPiece os d index offset length fs = .error fault ∨
        UringDisk.readPiece os d index offset length fs = .error fault → fault = .io

/-- The metadata counts its pieces right, the files are laid out without overflow, and no access to
a piece leaves them. -/
structure InBounds (windows : Bool) (base : Path) (info : TorrentMeta) : Prop where
  piecesCount : info.piecesCount = info.pieces.length
  pieces : info.pieces.length = pieceCount (totalSize info) info.pieceLength
  layout : ∃ plans, planWords windows base info.name info.files.isSome (torrentFiles info) 0 =
    some (.ok plans) ∧ Contiguous plans 0 (totalSize info) ∧ Accesses info plans

section Accepted

variable {info : TorrentMeta} {total : Nat}

theorem TorrentMeta.Sized.total_lt (h : info.Sized total) : total < 2 ^ 64 := by
  have hend : total ≤ info.pieces.length * info.pieceLength := by
    rw [h.pieces_length]
    exact Nat.not_lt.mp (mt (lt_pieceCount_iff h.wellFormed.pieceLength_pos).mpr (Nat.lt_irrefl _))
  exact Nat.lt_of_le_of_lt hend (start_fits h.pieces_lt h.pieceLength_lt)

theorem accesses_of_sized (h : info.Sized total) {plans : List FilePlan}
    (hplans : Contiguous plans 0 total) : Accesses info plans := by
  intro d fs os index hd hlength hindex
  rw [h.piecesCount] at hindex
  have hstart := h.start_lt hindex
  have hrange : index * d.pieceLength + pieceBytes total info.pieceLength index ≤ total := by
    rw [hlength, pieceBytes]
    omega
  refine ⟨_, h.pieceLenAt hindex, fun data hdata => ?_, fun offset length fault hpart hread => ?_⟩
  · rw [← hdata] at hrange
    have horderly : Orderly (StandardDisk.writePiece os d index data fs).1 :=
      writePieceWith_orderly hplans h.total_lt hd hrange fun _ _ _ _ _ _ _ hm hs hround =>
        (StandardDisk.plan_writeBody hm hround).trans hs
    rw [UringDisk.writePiece, UringDisk.writeBody_eq]
    exact ⟨horderly, horderly⟩
  · have hinside : index * d.pieceLength + offset + length ≤ total := by omega
    exact hread.elim (readPieceWith_orderly hplans h.total_lt hd hinside)
      (readPieceWith_orderly hplans h.total_lt hd hinside)

theorem planFiles_single (windows : Bool) (base : Path) (name : String) (length : Nat) :
    planFiles windows base name false [⟨length, [name]⟩] 0 =
      (sanitizePathComponent windows name).map fun cleaned =>
        [⟨base ++ [cleaned], 0, 0 + length⟩] := by
  cases hname : sanitizePathComponent windows name with
  | error err => simp [planFiles, buildFilePath, hname, bind, Except.bind, pure, Except.pure,
      Except.map]
  | ok cleaned => simp [planFiles, buildFilePath, hname, bind, Except.bind, pure, Except.pure,
      Except.map]

/-- The paths of an accepted torrent can be built unless its name has grown too long. -/
theorem planFiles_ok_iff {windows : Bool} {raw : RawInfo} {infoHash : Digest}
    (h : buildMeta windows raw infoHash = .ok info) (base : Path) :
    (∃ plans, planFiles windows base info.name info.files.isSome (torrentFiles info) 0 =
      .ok plans) ↔ info.name.utf8ByteSize ≤ MAX_COMPONENT_LEN := by
  obtain ⟨name, total, hname, hfiles, -, -, -, -, -, rfl⟩ := buildMeta_ok h
  simp only [torrentFiles, TorrentMeta.new]
  cases hraw : raw.files with
  | none =>
    simp only [Option.map_none, Option.isSome_none, Option.getD_none, planFiles_single]
    constructor
    · rintro ⟨plans, hplans⟩
      cases hagain : sanitizePathComponent windows name with
      | error err => rw [hagain] at hplans; cases hplans
      | ok cleaned => exact length_of_sanitizePathComponent hagain
    · intro hlen
      rw [sanitizePathComponent_again hname hlen]
      exact ⟨_, rfl⟩
  | some files =>
    obtain ⟨-, hne, htotal⟩ := hfiles files hraw
    have hbuilt := totalOfFiles_path htotal
    obtain ⟨file, hfile⟩ := List.exists_mem_of_ne_nil files hne
    obtain ⟨path, hpath⟩ := hbuilt file hfile
    obtain ⟨-, root, -, hroot, -⟩ := buildFilePath_ok hpath
    obtain ⟨plans, hplans, -⟩ := planFiles_paths hbuilt hroot base 0
    exact ⟨fun _ => length_of_sanitizePathComponent hroot, fun _ => ⟨plans, hplans⟩⟩

/-- The disk of an accepted torrent is never driven out of bounds, and it can be laid out just when
the name that is kept is not too long. -/
theorem in_bounds_iff {decoder : BencodeDecoder} (hbounded : decoder.Bounded)
    {sha1 : List UInt8 → Digest} {windows : Bool} {info : AnnouncedMeta}
    (h : Accepted decoder sha1 windows info) (base : Path) :
    InBounds windows base info.toTorrentMeta ↔ info.name.utf8ByteSize ≤ MAX_COMPONENT_LEN := by
  obtain ⟨raw, infoHash, hsize, hbuilt⟩ := built_of_accepted hbounded h
  obtain ⟨total, hsized⟩ := sized_of_buildMeta hbuilt hsize
  obtain rfl := WellFormed.totalSize_eq hsized.wellFormed
  have hsum := sum_torrentFiles hsized.wellFormed
  have hwords : planWords windows base info.name info.files.isSome (torrentFiles info.toTorrentMeta)
      0 = some (planFiles windows base info.name info.files.isSome
        (torrentFiles info.toTorrentMeta) 0) := by
    refine planWords_eq ?_
    rw [hsum, Nat.zero_add]
    exact hsized.total_lt
  rw [← planFiles_ok_iff hbuilt base]
  constructor
  · rintro ⟨-, -, plans, hplans, -⟩
    exact ⟨plans, Option.some.inj (hwords.symm.trans hplans)⟩
  · rintro ⟨plans, hplans⟩
    have hcontiguous := contiguous_planFiles hplans
    rw [hsum, Nat.zero_add] at hcontiguous
    exact ⟨hsized.piecesCount, hsized.pieces_length, plans, hplans ▸ hwords, hcontiguous,
      accesses_of_sized hsized hcontiguous⟩

end Accepted

theorem in_bounds_iff_fiveBytes : InBounds false ["d"]
    (.new "a" 16384 1 (digests fiveBytesRaw.pieces) (some 5) none fiveBytesHash) :=
  (in_bounds_iff bounded_fiveBytesDecoder (.inl ⟨fiveBytes, parse_fiveBytes⟩) ["d"]).mpr
    (by decide)

/-! A single file on Windows.  Its name is as long as a component may be, and it is the name of a
device. -/

def longNameInfo : List UInt8 :=
  ascii "d6:lengthi5e4:name255:CON." ++ List.replicate 251 0x61 ++
    ascii "12:piece lengthi16384e6:pieces20:12345678901234567890e"

def longNameRaw : RawInfo := { fiveBytesRaw with name := String.ofList longName }

def longNameDecoder : BencodeDecoder where
  torrent _ := none
  info bytes := if bytes = longNameInfo then some longNameRaw else none

theorem bounded_longNameDecoder : longNameDecoder.Bounded where
  torrent _ _ h := by cases h
  info bytes info h := by
    simp only [longNameDecoder] at h
    split at h
    case isTrue hbytes =>
      subst hbytes
      rw [← Option.some.inj h]
      decide +kernel
    · cases h

def longNameMeta : TorrentMeta :=
  .new (String.ofList ('_' :: longName)) 16384 1 (digests longNameRaw.pieces) (some 5) none
    fiveBytesHash

theorem parse_longName : parseTorrentMetadataBytes longNameDecoder (fun _ => fiveBytesHash) true
    longNameInfo fiveBytesHash = .ok (.new "" longNameMeta) := by
  have hsize : longNameInfo.length ≤ MAX_TORRENT_SIZE := by decide +kernel
  have hdepth : checkBencodeDepth longNameInfo = .ok () := by decide +kernel
  have hraw : longNameDecoder.info longNameInfo = some longNameRaw := by
    simp only [longNameDecoder, if_true]
  have hname : sanitizePathComponent true longNameRaw.name = .ok longNameMeta.name :=
    sanitize_longName
  have hbuilt : buildMeta true longNameRaw fiveBytesHash = .ok longNameMeta := by
    rw [buildMeta, hname]
    decide +kernel
  exact parseTorrentMetadataBytes_eq hsize hdepth hraw hbuilt

/-- Its files cannot be laid out, although it is accepted. -/
theorem not_in_bounds_longName : ¬ ∀ (decoder : BencodeDecoder) (sha1 : List UInt8 → Digest)
    (windows : Bool) (info : AnnouncedMeta), decoder.Bounded → Accepted decoder sha1 windows info →
      ∀ base, InBounds windows base info.toTorrentMeta := by
  intro hall
  obtain ⟨plans, hplans, -⟩ := (hall longNameDecoder (fun _ => fiveBytesHash) true
    (.new "" longNameMeta) bounded_longNameDecoder (.inr ⟨_, _, parse_longName⟩) ["d"]).layout
  have hfails : planWords true ["d"] longNameMeta.name longNameMeta.files.isSome
      (torrentFiles longNameMeta) 0 = some (.error .tooLong) := by decide +kernel
  exact absurd (Option.some.inj (hfails.symm.trans hplans)) nofun

end Tortor.Core
