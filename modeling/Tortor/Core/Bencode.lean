import Tortor.Core.Torrent

namespace Tortor.Core

structure RawFile where
  length : Nat
  path : List String
  deriving DecidableEq

structure RawInfo where
  name : String
  pieceLength : Nat
  pieces : List UInt8
  length : Option Nat
  files : Option (List RawFile)
  deriving DecidableEq

inductive TorrentParseError
  | invalidPiecesLength (len : Nat)
  | unsupportedPieceLength (len : Nat)
  | path (err : PathError)
  | noFiles
  | sizeOverflow
  | lengthXorFiles
  | noData
  | pieceCountMismatch (implied held : Nat)
  | invalidBencode (reason : String)
  | missingInfoDictionary
  | decode
  deriving DecidableEq

def MAX_PIECE_LENGTH : Nat := 128 * 1024 * 1024

/-- `u64::checked_add` over the file lengths, checking each path on the way. -/
def totalOfFiles (windows : Bool) (name : String) :
    List RawFile → Nat → Except TorrentParseError Nat
  | [], total => .ok total
  | file :: files, total =>
    match buildFilePath windows [] name true file.path with
    | .error err => .error (.path err)
    | .ok _ =>
      if 2 ^ 64 ≤ total + file.length then .error .sizeOverflow
      else totalOfFiles windows name files (total + file.length)

/-- `chunks_exact(20)`: a shorter rest is dropped. -/
def digests (bytes : List UInt8) : List Digest :=
  List.ofFn fun i : Fin (bytes.length / 20) =>
    ⟨(bytes.drop (20 * i)).take 20, by simp; omega⟩

def buildMeta (windows : Bool) (info : RawInfo) (infoHash : Digest) :
    Except TorrentParseError TorrentMeta := do
  let piecesLen := info.pieces.length
  if piecesLen % 20 ≠ 0 then throw (.invalidPiecesLength piecesLen)
  if info.pieceLength = 0 ∨ MAX_PIECE_LENGTH < info.pieceLength then
    throw (.unsupportedPieceLength info.pieceLength)
  let name ← (sanitizePathComponent windows info.name).mapError .path
  let totalLength ← match info.length, info.files with
    | some length, none => pure length
    | none, some files =>
      if files.isEmpty then throw .noFiles else totalOfFiles windows name files 0
    | _, _ => throw .lengthXorFiles
  if totalLength = 0 then throw .noData
  let pieceCount := (totalLength + info.pieceLength - 1) / info.pieceLength
  if pieceCount ≠ piecesLen / 20 then throw (.pieceCountMismatch pieceCount (piecesLen / 20))
  let pieces := digests info.pieces
  return TorrentMeta.new name info.pieceLength (pieces.length % 2 ^ 32) pieces info.length
    (info.files.map fun files => files.map fun f => ⟨f.length, f.path⟩) infoHash

theorem totalOfFiles_ok {windows : Bool} {name : String} {files : List RawFile}
    {start total : Nat} (h : totalOfFiles windows name files start = .ok total) :
    total = start + (files.map (·.length)).sum ∧ (files ≠ [] → total < 2 ^ 64) := by
  induction files generalizing start with
  | nil =>
    cases h
    exact ⟨rfl, fun h => absurd rfl h⟩
  | cons file files ih =>
    rw [totalOfFiles] at h
    split at h
    · cases h
    · split at h
      · cases h
      case isFalse hlt =>
        obtain ⟨rfl, hbound⟩ := ih h
        refine ⟨by simp [Nat.add_assoc], fun _ => ?_⟩
        cases files with
        | nil => simpa using Nat.not_le.mp hlt
        | cons => exact hbound (List.cons_ne_nil _ _)

theorem foldl_saturating (lengths : List TorrentFile) (start : Nat)
    (h : start + (lengths.map (·.length)).sum < 2 ^ 64) :
    lengths.foldl (fun acc f => min (acc + f.length) (2 ^ 64 - 1)) start =
      start + (lengths.map (·.length)).sum := by
  induction lengths generalizing start with
  | nil => rfl
  | cons file files ih =>
    simp only [List.map_cons, List.sum_cons] at h
    rw [List.foldl_cons, Nat.min_eq_left (by omega), ih _ (by omega)]
    simp [Nat.add_assoc]

theorem buildMeta_ok {windows : Bool} {raw : RawInfo} {infoHash : Digest} {info : TorrentMeta}
    (h : buildMeta windows raw infoHash = .ok info) :
    ∃ name total, sanitizePathComponent windows raw.name = .ok name ∧
      (∀ files, raw.files = some files → raw.length = none ∧ files ≠ [] ∧
        totalOfFiles windows name files 0 = .ok total) ∧
      (∀ length, raw.length = some length → raw.files = none ∧ length = total) ∧
      (raw.length.isSome ∨ raw.files.isSome) ∧
      0 < total ∧ 0 < raw.pieceLength ∧
      (total + raw.pieceLength - 1) / raw.pieceLength = raw.pieces.length / 20 ∧
      info = TorrentMeta.new name raw.pieceLength ((digests raw.pieces).length % 2 ^ 32)
        (digests raw.pieces) raw.length
        (raw.files.map fun files => files.map fun f => ⟨f.length, f.path⟩) infoHash := by
  unfold buildMeta at h
  simp only [bind, Except.bind, pure, Except.pure, throw, throwThe, MonadExceptOf.throw] at h
  split at h
  · cases h
  split at h
  · cases h
  case isFalse hlen =>
  cases hname : sanitizePathComponent windows raw.name with
  | error err => rw [hname] at h; cases h
  | ok name =>
    simp only [hname, Except.mapError] at h
    cases hl : raw.length with
    | none =>
      cases hf : raw.files with
      | none => simp only [hl, hf] at h; cases h
      | some files =>
        simp only [hl, hf] at h
        split at h
        · cases h
        case isFalse hnonempty =>
        cases htotal : totalOfFiles windows name files 0 with
        | error err => rw [htotal] at h; cases h
        | ok total =>
          simp only [htotal] at h
          split at h
          · cases h
          case isFalse hpos =>
          split at h
          · cases h
          case isFalse hcount =>
          cases h
          refine ⟨name, total, rfl, fun fs hfs => ?_, fun length hlength => ?_, .inr rfl,
            Nat.pos_of_ne_zero hpos, Nat.pos_of_ne_zero fun h => hlen (.inl h),
            Decidable.not_not.mp hcount, rfl⟩
          · cases hfs
            exact ⟨rfl, by simpa using hnonempty, htotal⟩
          · cases hlength
    | some length =>
      cases hf : raw.files with
      | some files => simp only [hl, hf] at h; cases h
      | none =>
        simp only [hl, hf] at h
        split at h
        · cases h
        case isFalse hpos =>
        split at h
        · cases h
        case isFalse hcount =>
        cases h
        refine ⟨name, length, rfl, fun fs hfs => ?_, fun l hlength => ?_, .inl rfl,
          Nat.pos_of_ne_zero hpos, Nat.pos_of_ne_zero fun h => hlen (.inl h),
          Decidable.not_not.mp hcount, rfl⟩
        · cases hfs
        · cases hlength
          exact ⟨rfl, rfl⟩

structure TorrentMeta.WellFormed (info : TorrentMeta) (total : Nat) : Prop where
  total_pos : 0 < total
  totalLength : info.totalLength = some total
  pieceLength_pos : 0 < info.pieceLength
  piecesCount : info.piecesCount = info.pieces.length % 2 ^ 32
  pieces_length : info.pieces.length = (total + info.pieceLength - 1) / info.pieceLength
  files : ∀ files, info.files = some files → files ≠ [] ∧ (files.map (·.length)).sum = total

theorem wellFormed_of_buildMeta {windows : Bool} {raw : RawInfo} {infoHash : Digest}
    {info : TorrentMeta} (h : buildMeta windows raw infoHash = .ok info) :
    ∃ total, info.WellFormed total := by
  have hdigests : (digests raw.pieces).length = raw.pieces.length / 20 := by simp [digests]
  obtain ⟨name, total, -, hfiles, hlength, hsome, htotal, hpos, hcount, rfl⟩ := buildMeta_ok h
  cases hf : raw.files with
  | none =>
    obtain ⟨length, hl⟩ : ∃ length, raw.length = some length := by
      simpa [hf, Option.isSome_iff_exists] using hsome
    obtain rfl := (hlength length hl).2
    refine ⟨length, htotal, ?_, hpos, rfl, hdigests.trans hcount.symm, fun fs hfs => ?_⟩
    · simp [TorrentMeta.new, hl]
    · simp [TorrentMeta.new] at hfs
  | some files =>
    obtain ⟨hl, hne, hsummed⟩ := hfiles files hf
    obtain ⟨rfl, hbound⟩ := totalOfFiles_ok hsummed
    rw [Nat.zero_add] at *
    have hsum : ((files.map fun f => (⟨f.length, f.path⟩ : TorrentFile)).map (·.length)).sum =
        (files.map (·.length)).sum := by rw [List.map_map]; rfl
    refine ⟨_, htotal, ?_, hpos, rfl, hdigests.trans hcount.symm, fun fs hfs => ?_⟩
    · simp only [TorrentMeta.new, hl, Option.none_or, Option.map_some]
      rw [foldl_saturating _ 0 (by rw [hsum, Nat.zero_add]; exact hbound hne), hsum, Nat.zero_add]
    · cases hfs
      exact ⟨by simpa using hne, hsum⟩

end Tortor.Core
