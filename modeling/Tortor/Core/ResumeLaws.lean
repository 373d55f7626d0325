import Tortor.Core.ManagerLaws
import Tortor.Core.Resume
import Tortor.Core.TorrentFile
import Tortor.Lib.Run

/-! The resume file in both directions, and what a manager is restored to from it. -/

namespace Tortor.Core

theorem Bitfield.iterOnes_fromIndices (len : Nat) (indices : List Nat) :
    (fromIndices len indices).iterOnes = (indices.filter (· < len)).toFinset.sort (· ≤ ·) := by
  have hsorted : (fromIndices len indices).iterOnes.Pairwise (· ≤ ·) :=
    List.pairwise_le_range.filter _
  rw [← (List.toFinset_sort (· ≤ ·) (nodup_iterOnes _)).mpr hsorted]
  congr 1
  ext index
  simp

theorem Bitfield.fromIndices_iterOnes (field : Bitfield) :
    fromIndices field.len field.iterOnes = field := by
  refine ext_has (len_fromIndices _ _) fun index => ?_
  rw [Bool.eq_iff_iff, has_fromIndices, mem_iterOnes]
  exact ⟨fun h => h.1, fun h => ⟨h, has_lt h⟩⟩

theorem Bitfield.fromWire_eq_some {len : Nat} {payload : List UInt8} {field : Bitfield}
    (h : fromWire len payload = some field) : field.bytes = payload := by
  unfold fromWire at h
  split at h
  · split at h
    · cases h; rfl
    · cases h
  · cases h

theorem le32_readLe32 (head tail : List UInt8) (b₀ b₁ b₂ b₃ : UInt8) :
    le32 (readLe32 (head ++ b₀ :: b₁ :: b₂ :: b₃ :: tail) head.length) = [b₀, b₁, b₂, b₃] := by
  have h₀ := b₀.toNat_lt
  have h₁ := b₁.toNat_lt
  have h₂ := b₂.toNat_lt
  have h₃ := b₃.toNat_lt
  simp [readLe32, le32, List.getD_eq_getElem?_getD, ← UInt8.toNat_inj]
  omega

namespace FastResumeState

theorem encode_of_decode {json : List UInt8 → Option FastResumeState} {bytes : List UInt8}
    {state : FastResumeState} (hmagic : MAGIC.isPrefixOf bytes)
    (h : decode json bytes = .ok state) : state.encode = bytes := by
  simp only [decode, hmagic, if_true] at h
  split at h
  · cases h
  case isFalse hlen =>
  split at h
  · cases h
  case isFalse hversion =>
  split at h
  · cases h
  split at h
  · cases h
  case h_2 field hfield =>
  cases h
  rw [Decidable.not_not] at hversion
  obtain ⟨rest, rfl⟩ := List.isPrefixOf_iff_prefix.mp hmagic
  -- the header that the length check promises
  have hrest : 5 ≤ rest.length := by
    simp only [List.length_append, MAGIC, List.length_cons, List.length_nil, HEADER_LEN] at hlen
    omega
  rcases rest with _ | ⟨version, _ | ⟨b₀, _ | ⟨b₁, _ | ⟨b₂, _ | ⟨b₃, payload⟩⟩⟩⟩⟩
  iterate 5 exact absurd hrest (by simp)
  obtain rfl : version = FORMAT_VERSION := hversion
  have hwire : Bitfield.fromWire
      (readLe32 (MAGIC ++ FORMAT_VERSION :: b₀ :: b₁ :: b₂ :: b₃ :: payload) 5) payload =
        some field := hfield
  have htotal := le32_readLe32 (MAGIC ++ [FORMAT_VERSION]) payload b₀ b₁ b₂ b₃
  have hsame := Bitfield.fromIndices_iterOnes field
  rw [Bitfield.len_fromWire hwire] at hsame
  calc encode _ = MAGIC ++ FORMAT_VERSION ::
        (le32 (readLe32 (MAGIC ++ FORMAT_VERSION :: b₀ :: b₁ :: b₂ :: b₃ :: payload) 5) ++
          field.bytes) := by
        simp [encode, hsame]
    _ = MAGIC ++ FORMAT_VERSION :: b₀ :: b₁ :: b₂ :: b₃ :: payload := by
      rw [Bitfield.fromWire_eq_some hwire]
      exact congrArg (fun l => MAGIC ++ FORMAT_VERSION :: (l ++ payload)) htotal

end FastResumeState

/-- The torrents that one of the two parsers accepts. -/
def Accepted (decoder : BencodeDecoder) (sha1 : List UInt8 → Digest) (windows : Bool)
    (info : AnnouncedMeta) : Prop :=
  (∃ bytes, parseTorrentBytes decoder sha1 windows bytes = .ok info) ∨
    ∃ infoBytes expectedInfoHash,
      parseTorrentMetadataBytes decoder sha1 windows infoBytes expectedInfoHash = .ok info

theorem built_of_accepted {decoder : BencodeDecoder} (hbounded : decoder.Bounded)
    {sha1 : List UInt8 → Digest} {windows : Bool} {info : AnnouncedMeta}
    (h : Accepted decoder sha1 windows info) :
    ∃ raw infoHash, raw.pieces.length ≤ MAX_TORRENT_SIZE ∧
      buildMeta windows raw infoHash = .ok info.toTorrentMeta := by
  rcases h with ⟨bytes, h⟩ | ⟨infoBytes, expectedInfoHash, h⟩
  · obtain ⟨raw, infoSlice, hsize, -, hraw, -, hbuilt⟩ := parseTorrentBytes_ok h
    exact ⟨raw.info, _, Nat.le_trans (hbounded.torrent _ _ hraw) hsize, hbuilt⟩
  · obtain ⟨raw, hsize, -, hraw, hbuilt⟩ := parseTorrentMetadataBytes_ok h
    exact ⟨raw, _, Nat.le_trans (hbounded.info _ _ hraw) hsize, hbuilt⟩

theorem piecesCount_le {decoder : BencodeDecoder} (hbounded : decoder.Bounded)
    {sha1 : List UInt8 → Digest} {windows : Bool} {info : AnnouncedMeta}
    (h : Accepted decoder sha1 windows info) : info.piecesCount ≤ MAX_PIECES := by
  obtain ⟨raw, infoHash, hle, hbuilt⟩ := built_of_accepted hbounded h
  obtain ⟨_, _, -, -, -, -, -, -, -, he⟩ := buildMeta_ok hbuilt
  have hcount : info.piecesCount = raw.pieces.length / 20 % 2 ^ 32 := by
    rw [he]
    simp [TorrentMeta.new, digests]
  unfold MAX_TORRENT_SIZE at hle
  unfold MAX_PIECES
  omega

/-- Resume files are read as they were written and written as they were read, and a manager of an
accepted torrent is restored with the pieces it had, whatever is selected then. -/
theorem resume_round_trips (json : List UInt8 → Option FastResumeState) :
    (∀ state : FastResumeState, state.totalPieces ≤ MAX_PIECES →
      FastResumeState.decode json state.encode = .ok ⟨FORMAT_VERSION, state.totalPieces,
        (state.completed.filter (· < state.totalPieces)).toFinset.sort (· ≤ ·)⟩) ∧
    (∀ bytes state, MAGIC.isPrefixOf bytes → FastResumeState.decode json bytes = .ok state →
      state.encode = bytes) ∧
    ∀ (decoder : BencodeDecoder) (sha1 : List UInt8 → Digest) (windows : Bool)
      (info : AnnouncedMeta), decoder.Bounded → Accepted decoder sha1 windows info →
      ∀ (completedPieces : List Nat) (selection : Selection) (calls : List TorrentManager.Call)
        (restored : Selection),
        let m := Lib.exec TorrentManager.call
          (.withSelection info.piecesCount completedPieces selection) calls
        ∃ state, FastResumeState.decode json (FastResumeState.fromManager m).encode = .ok state ∧
          (TorrentManager.withSelection info.piecesCount state.completed restored).completed =
            m.completed := by
  have hdecode (state : FastResumeState) (h : state.totalPieces ≤ MAX_PIECES) :
      FastResumeState.decode json state.encode = .ok ⟨FORMAT_VERSION, state.totalPieces,
        (state.completed.filter (· < state.totalPieces)).toFinset.sort (· ≤ ·)⟩ := by
    rw [FastResumeState.decode_encode json state h, Bitfield.iterOnes_fromIndices]
  refine ⟨hdecode, fun bytes state => FastResumeState.encode_of_decode, ?_⟩
  intro decoder sha1 windows info hbounded haccepted completedPieces selection calls restored m
  have hinv : m.Inv := Lib.exec_invariant (fun _ c hm => hm.call c) calls
    (TorrentManager.inv_withSelection info.piecesCount completedPieces selection)
  have htotal : m.totalPieces = info.piecesCount :=
    Lib.exec_invariant (P := fun m => m.totalPieces = info.piecesCount)
      (fun m c hm => (TorrentManager.totalPieces_call m c).trans hm) calls rfl
  refine ⟨_, hdecode (FastResumeState.fromManager m)
    (htotal.trans_le (piecesCount_le hbounded haccepted)), ?_⟩
  ext piece
  have hlt : piece ∈ m.completed → piece < info.piecesCount := fun hp =>
    htotal ▸ hinv.completed_lt piece hp
  simpa [TorrentManager.withSelection, FastResumeState.fromManager, TorrentManager.completedPieces,
    htotal] using hlt

theorem resume_round_trips_fiveBytes :
    ∃ state, FastResumeState.decode (fun _ => none)
      (FastResumeState.fromManager (.withSelection 1 [0] (.all 1))).encode = .ok state ∧
        (TorrentManager.withSelection 1 state.completed (.all 1)).completed = {0} :=
  (resume_round_trips fun _ => none).2.2 fiveBytesDecoder (fun _ => fiveBytesHash) false _
    bounded_fiveBytesDecoder (.inl ⟨fiveBytes, parse_fiveBytes⟩) [0] (.all 1) [] (.all 1)

end Tortor.Core
