import Tortor.Core.Coordinator
import Tortor.Core.SelectionLaws
import Tortor.Core.BencodeScan
import Tortor.Core.Storage
import Tortor.Lib.Checked
import Tortor.Lib.Tiling
import Tortor.Net.Session

/-! The length of a piece is computed in three places: for the metadata, by a session and by the
file check. -/

namespace Tortor.Core

open Tortor.Lib

variable {total pieceLength n index : Nat}

/-- `piece_len_at` of the metadata on machine words: the product in 64 bits, the result cast to
32 bits. -/
def TorrentMeta.pieceLenAtWords (self : TorrentMeta) (index : Nat) : Option (Option Nat) :=
  if self.pieces.length ≤ index then some none
  else match self.totalLength with
    | some total => do
      let start ← Checked.mul 64 index self.pieceLength
      if total ≤ start then return none
      let remaining ← Checked.sub total start
      return some (← Checked.fit 32 (min self.pieceLength remaining))
    | none => some (some self.pieceLength)

def sessionPieceLenAtWords (index pieceLength : Nat) (totalLength : Option Nat) :
    Option (Option Nat) :=
  match totalLength with
  | some total => do
    let start ← Checked.mul 64 index pieceLength
    if total ≤ start then return none
    let remaining ← Checked.sub total start
    return some (← Checked.fit 32 (min pieceLength remaining))
  | none => some (some pieceLength)

/-- The length in the file check on machine words: the rest is cast to 32 bits. -/
def Coordinator.checkLengthWords (totalPieces pieceLength totalLength index : Nat) :
    Option Nat := do
  let last ← Checked.sub totalPieces 1
  if index = last then
    let rem ← Checked.fit 32 (← Checked.rem totalLength pieceLength)
    return if rem = 0 then pieceLength else rem
  else return pieceLength

def pieceBytes (total pieceLength index : Nat) : Nat := min pieceLength (total - index * pieceLength)

theorem tiling_pieces (hL : 0 < pieceLength) :
    Tiling (· * pieceLength) (pieceBytes total pieceLength) 0
      (List.range (pieceCount total pieceLength)) total := by
  have hdiv := Nat.div_add_mod (total + pieceLength - 1) pieceLength
  have hmod := Nat.mod_lt (total + pieceLength - 1) hL
  rw [← pieceCount, Nat.mul_comm] at hdiv
  have htiles := Tiling.chunks pieceLength total (pieceCount total pieceLength) (by omega)
  rwa [Nat.min_eq_right (by omega)] at htiles

theorem sum_pieceBytes (hL : 0 < pieceLength) :
    ((List.range (pieceCount total pieceLength)).map (pieceBytes total pieceLength)).sum = total := by
  rw [← Nat.zero_add (List.sum _)]
  exact (tiling_pieces hL).add_sum

theorem pieceBytes_pos (hL : 0 < pieceLength) (h : index < pieceCount total pieceLength) :
    0 < pieceBytes total pieceLength index := by
  have hlt := (lt_pieceCount_iff hL).mp h
  unfold pieceBytes
  omega

theorem checkLength_eq (hL : 0 < pieceLength) (h : index < pieceCount total pieceLength) :
    Coordinator.checkLength (pieceCount total pieceLength) pieceLength total index =
      pieceBytes total pieceLength index := by
  have hstart := (lt_pieceCount_iff hL).mp h
  have hnext : ¬ index + 1 < pieceCount total pieceLength ↔ ¬ (index + 1) * pieceLength < total :=
    (lt_pieceCount_iff hL).not
  rw [Nat.succ_mul] at hnext
  unfold Coordinator.checkLength pieceBytes
  split
  case isFalse hne =>
    have hin : index + 1 < pieceCount total pieceLength := by omega
    have hfull := mt hnext.mpr (not_not.mpr hin)
    omega
  case isTrue hlast =>
    have hend := hnext.mp (by omega)
    -- the bytes behind the start of the last piece are between one and a full piece
    obtain ⟨rest, hrest⟩ : ∃ rest, total = index * pieceLength + rest :=
      Nat.exists_eq_add_of_le hstart.le
    have hmod : total % pieceLength = rest % pieceLength := by
      rw [hrest, Nat.mul_add_mod_self_right]
    dsimp only
    rw [hmod]
    rcases Nat.lt_or_ge rest pieceLength with hlt | hge
    · rw [Nat.mod_eq_of_lt hlt, if_neg (by omega)]
      omega
    · obtain rfl : rest = pieceLength := by omega
      rw [Nat.mod_self, if_pos rfl]
      omega

theorem start_fits (hindex : index < 2 ^ 32) (hfit : pieceLength < 2 ^ 32) :
    index * pieceLength < 2 ^ 64 := by
  have hmul : index * pieceLength < 2 ^ 32 * 2 ^ 32 := Nat.mul_lt_mul'' hindex hfit
  rwa [← Nat.pow_add] at hmul

theorem session_pieceLenAt_eq (hfit : pieceLength < 2 ^ 32) (hindex : index < 2 ^ 32) :
    Net.pieceLenAt index pieceLength (some total) =
      if total ≤ index * pieceLength then none else some (pieceBytes total pieceLength index) := by
  simp only [Net.pieceLenAt]
  rw [if_neg (Nat.not_le.mpr (start_fits hindex hfit)), Nat.mod_eq_of_lt (by omega)]
  rfl

theorem meta_pieceLenAt_eq {info : TorrentMeta} (hinfo : info.totalLength = some total)
    (hfit : info.pieceLength < 2 ^ 32) (hindex : index < 2 ^ 32) :
    info.pieceLenAt index =
      if info.pieces.length ≤ index then none
      else if total ≤ index * info.pieceLength then none
      else some (pieceBytes total info.pieceLength index) := by
  simp only [TorrentMeta.pieceLenAt, hinfo]
  rw [if_neg (Nat.not_le.mpr (start_fits hindex hfit))]
  rfl

/-- What a session computes on words is what it computes on numbers. -/
theorem session_words_eq (hfit : pieceLength < 2 ^ 32) (hindex : index < 2 ^ 32) :
    sessionPieceLenAtWords index pieceLength (some total) =
      some (Net.pieceLenAt index pieceLength (some total)) := by
  have hmin : min pieceLength (total - index * pieceLength) < 2 ^ 32 := by omega
  rw [session_pieceLenAt_eq hfit hindex]
  simp only [sessionPieceLenAtWords, Checked.mul_of_lt (start_fits hindex hfit),
    Option.bind_eq_bind, Option.bind_some]
  split
  case isTrue => rfl
  case isFalse hin =>
    rw [Checked.sub_of_le (Nat.le_of_not_le hin), Option.bind_some, Checked.fit_of_lt hmin]
    rfl

theorem meta_words_eq {info : TorrentMeta} (hinfo : info.totalLength = some total)
    (hfit : info.pieceLength < 2 ^ 32) (hindex : index < 2 ^ 32) :
    info.pieceLenAtWords index = some (info.pieceLenAt index) := by
  have hsession : sessionPieceLenAtWords index info.pieceLength (some total) = _ :=
    session_words_eq hfit hindex
  rw [session_pieceLenAt_eq hfit hindex] at hsession
  rw [meta_pieceLenAt_eq hinfo hfit hindex, TorrentMeta.pieceLenAtWords, hinfo]
  split
  · rfl
  · exact hsession

theorem checkLength_words_eq {totalPieces : Nat} (hpieces : 0 < totalPieces)
    (hL : 0 < pieceLength) (hfit : pieceLength < 2 ^ 32) :
    Coordinator.checkLengthWords totalPieces pieceLength total index =
      some (Coordinator.checkLength totalPieces pieceLength total index) := by
  have hrem : total % pieceLength < 2 ^ 32 := (Nat.mod_lt total hL).trans hfit
  rw [Coordinator.checkLengthWords, Coordinator.checkLength, Checked.sub_of_le hpieces,
    Option.bind_eq_bind, Option.bind_some]
  split
  · rw [Checked.rem_of_pos hL, Option.bind_some, Checked.fit_of_lt hrem]
    rfl
  · rfl

/-- The three formulas give the same lengths, which add up to the torrent; behind the last piece
there is none; and they compute on machine words what they compute on numbers. -/
theorem piece_lengths_agree {info : TorrentMeta} (htotal : 0 < total)
    (hinfo : info.totalLength = some total) (hL : 0 < info.pieceLength)
    (hfit : info.pieceLength < 2 ^ 32) (hcount : info.pieces.length = n)
    (hn : n = pieceCount total info.pieceLength) (hsmall : n < 2 ^ 32) :
    (∀ index < n, ∃ len, 1 ≤ len ∧ len ≤ info.pieceLength ∧
      info.pieceLenAt index = some len ∧
      Net.pieceLenAt index info.pieceLength (some total) = some len ∧
      Coordinator.checkLength n info.pieceLength total index = len) ∧
    ((List.range n).map fun index => Coordinator.checkLength n info.pieceLength total index).sum =
      total ∧
    (∀ index, n ≤ index → index < 2 ^ 32 →
      info.pieceLenAt index = none ∧ Net.pieceLenAt index info.pieceLength (some total) = none) ∧
    ∀ index < 2 ^ 32,
      info.pieceLenAtWords index = some (info.pieceLenAt index) ∧
      sessionPieceLenAtWords index info.pieceLength (some total) =
        some (Net.pieceLenAt index info.pieceLength (some total)) ∧
      Coordinator.checkLengthWords n info.pieceLength total index =
        some (Coordinator.checkLength n info.pieceLength total index) := by
  subst hn
  have hpieces : 0 < pieceCount total info.pieceLength := by
    rw [lt_pieceCount_iff hL, Nat.zero_mul]
    exact htotal
  refine ⟨fun index hindex => ?_, ?_, fun index hindex hword => ⟨?_, ?_⟩,
    fun index hword => ⟨meta_words_eq hinfo hfit hword, session_words_eq hfit hword,
      checkLength_words_eq hpieces hL hfit⟩⟩
  · have hword := hindex.trans hsmall
    have hstart := Nat.not_le.mpr ((lt_pieceCount_iff hL).mp hindex)
    refine ⟨pieceBytes total info.pieceLength index, pieceBytes_pos hL hindex,
      Nat.min_le_left _ _, ?_, ?_, checkLength_eq hL hindex⟩
    · rw [meta_pieceLenAt_eq hinfo hfit hword, hcount, if_neg (Nat.not_le.mpr hindex),
        if_neg hstart]
    · rw [session_pieceLenAt_eq hfit hword, if_neg hstart]
  · have hlengths : ((List.range (pieceCount total info.pieceLength)).map fun index =>
        Coordinator.checkLength (pieceCount total info.pieceLength) info.pieceLength total index) =
          (List.range (pieceCount total info.pieceLength)).map (pieceBytes total info.pieceLength) :=
      List.map_congr_left fun index hindex => checkLength_eq hL (List.mem_range.mp hindex)
    rw [hlengths, sum_pieceBytes hL]
  · rw [meta_pieceLenAt_eq hinfo hfit hword, hcount, if_pos hindex]
  · have hend : total ≤ index * info.pieceLength :=
      Nat.not_lt.mp (mt (lt_pieceCount_iff hL).mpr (Nat.not_lt.mpr hindex))
    rw [session_pieceLenAt_eq hfit hword, if_pos hend]

structure TorrentMeta.Sized (info : TorrentMeta) (total : Nat) : Prop where
  wellFormed : info.WellFormed total
  pieceLength_lt : info.pieceLength < 2 ^ 32
  pieces_lt : info.pieces.length < 2 ^ 32

theorem pieceLength_le_of_buildMeta {windows : Bool} {raw : RawInfo} {infoHash : Digest}
    {info : TorrentMeta} (h : buildMeta windows raw infoHash = .ok info) :
    info.pieceLength ≤ MAX_PIECE_LENGTH := by
  obtain ⟨name, total, -, -, -, -, -, -, -, rfl⟩ := buildMeta_ok h
  unfold buildMeta at h
  simp only [bind, Except.bind, throw, throwThe, MonadExceptOf.throw] at h
  split at h
  · cases h
  · split at h
    · cases h
    case isFalse hlen => exact Nat.not_lt.mp fun hlt => hlen (.inr hlt)

theorem sized_of_buildMeta {windows : Bool} {raw : RawInfo} {infoHash : Digest}
    {info : TorrentMeta} (h : buildMeta windows raw infoHash = .ok info)
    (hsize : raw.pieces.length ≤ MAX_TORRENT_SIZE) : ∃ total, info.Sized total := by
  obtain ⟨total, hwell⟩ := wellFormed_of_buildMeta h
  have hlen := pieceLength_le_of_buildMeta h
  obtain ⟨name, total', -, -, -, -, -, -, -, rfl⟩ := buildMeta_ok h
  refine ⟨total, hwell, ?_, ?_⟩
  · unfold MAX_PIECE_LENGTH at hlen
    omega
  · have hdigests : (digests raw.pieces).length = raw.pieces.length / 20 := by simp [digests]
    unfold MAX_TORRENT_SIZE at hsize
    simp only [TorrentMeta.new]
    omega

namespace TorrentMeta.Sized

variable {info : TorrentMeta}

theorem pieces_length (h : info.Sized total) :
    info.pieces.length = pieceCount total info.pieceLength := h.wellFormed.pieces_length

theorem piecesCount (h : info.Sized total) : info.piecesCount = info.pieces.length := by
  rw [h.wellFormed.piecesCount, Nat.mod_eq_of_lt h.pieces_lt]

theorem start_lt (h : info.Sized total) (hindex : index < info.pieces.length) :
    index * info.pieceLength < total :=
  (lt_pieceCount_iff h.wellFormed.pieceLength_pos).mp (h.pieces_length ▸ hindex)

theorem pieceLenAt (h : info.Sized total) (hindex : index < info.pieces.length) :
    info.pieceLenAt index = some (pieceBytes total info.pieceLength index) := by
  rw [meta_pieceLenAt_eq h.wellFormed.totalLength h.pieceLength_lt (hindex.trans h.pieces_lt),
    if_neg (Nat.not_le.mpr hindex), if_neg (Nat.not_le.mpr (h.start_lt hindex))]

theorem checkLength (h : info.Sized total) (hindex : index < info.pieces.length) :
    Coordinator.checkLength info.pieces.length info.pieceLength total index =
      pieceBytes total info.pieceLength index := by
  rw [h.pieces_length]
  exact checkLength_eq h.wellFormed.pieceLength_pos (h.pieces_length ▸ hindex)

end TorrentMeta.Sized

def threeBytes : TorrentMeta :=
  .new "a" 2 2 (List.replicate 2 zeroHash) (some 3) none zeroHash

theorem piece_lengths_agree_threeBytes :
    threeBytes.pieceLenAt 1 = some 1 ∧ Net.pieceLenAt 2 2 (some 3) = none := by
  have hinfo : threeBytes.totalLength = some 3 := rfl
  have hcount : threeBytes.pieces.length = 2 := rfl
  have hagree := piece_lengths_agree (by decide) hinfo (by decide) (by decide) hcount (by decide)
    (by decide)
  obtain ⟨len, -, -, hmeta, -, rfl⟩ := hagree.1 1 (by decide)
  exact ⟨hmeta, (hagree.2.2.1 2 (by decide) (by decide)).2⟩

end Tortor.Core
