import Tortor.Core.CoordinatorLaws
import Tortor.Core.Storage
import Tortor.System.PieceLengths

/-! The file check takes one piece at each tick of its timer, between whatever messages come. -/

namespace Tortor.Core.FileCheck

open Tortor.Lib (FileStore Inode)

/-- The messages about metadata.  The two states modelled here know the metadata already. -/
inductive MetadataMsg
  | requestMetadataWork (reply : Nat)
  | metadataPieceDownloaded (index : Nat) (data : List UInt8)
  | metadataPieceFailed (index : Nat)

def handleMetadata (self : Coordinator) : MetadataMsg → Coordinator × List Effect
  | .requestMetadataWork reply => (self, [.work reply none])
  | .metadataPieceDownloaded _ _ | .metadataPieceFailed _ => (self, [])

inductive Input
  | tick (env : Env)
  | message (env : Env) (msg : CoordinatorMsg)
  | metadata (msg : MetadataMsg)

def react (sha1 : List UInt8 → Digest) (c : Coordinator) : Input → Coordinator × List Effect
  | .tick env => c.checkTick sha1 env
  | .message env msg => c.handle env msg
  | .metadata msg => handleMetadata c msg

def step (sha1 : List UInt8 → Digest) (c : Coordinator) (i : Input) : Coordinator :=
  (react sha1 c i).1

def effects (sha1 : List UInt8 → Digest) (c : Coordinator) : List Input → List Effect
  | [] => []
  | i :: is => (react sha1 c i).2 ++ effects sha1 (step sha1 c i) is

def visit (c : Coordinator) : Input → Option Nat
  | .tick _ =>
    match c.state with
    | .checkingFiles manager _ _ _ _ nextPiece =>
      if manager.totalPieces ≤ nextPiece then none else some nextPiece
    | .downloadingData .. => none
  | _ => none

def visits (sha1 : List UInt8 → Digest) (c : Coordinator) : List Input → List Nat
  | [] => []
  | i :: is => (visit c i).toList ++ visits sha1 (step sha1 c i) is

def ticks : List Input → List Env
  | [] => []
  | .tick env :: is => env :: ticks is
  | _ :: is => ticks is

def Input.Quiet : Input → Prop
  | .message _ (.setSelection _ _ _) => False
  | _ => True

/-- At its tick the piece is read with its true length, and the hash of what was read is the
expected one. -/
def Found (sha1 : List UInt8 → Digest) (info : TorrentMeta) (manager : TorrentManager)
    (disk : Disk) (fs : FileStore Path) (ticks : List Env) (p : Nat) : Prop :=
  manager.isWanted p ∧ ∃ env len data, ticks[p]? = some env ∧ env.hashFails = false ∧
    info.pieceLenAt p = some len ∧ disk.readPiece env.io p 0 len fs = some data ∧
    info.pieces[p]? = some (sha1 data)

def NoWork (e : Effect) : Prop := ∀ reply p, e ≠ .work reply (some p)

/-- The check goes on: of the pieces before the next one those that were found are completed. -/
structure Checking (sha1 : List UInt8 → Digest) (info : TorrentMeta) (total : Nat)
    (manager : TorrentManager) (disk : Disk) (fs : FileStore Path) (ticks : List Env)
    (c : Coordinator) : Prop where
  state : c.state =
    .checkingFiles c.state.manager disk info.pieces info.pieceLength total ticks.length
  fs_eq : c.fs = fs
  selection : c.state.manager.selection = manager.selection
  totalPieces : c.state.manager.totalPieces = info.pieces.length
  completed : ∀ p, p ∈ c.state.manager.completed ↔
    p ∈ manager.completed ∨ Found sha1 info manager disk fs ticks p

variable {sha1 : List UInt8 → Digest} {info : TorrentMeta} {total : Nat}
  {manager : TorrentManager} {disk : Disk} {fs : FileStore Path} {done : List Env}
  {c : Coordinator}

theorem noWork_of_isNotice {e : Effect} (h : e.isNotice) : NoWork e := by
  rintro reply p rfl
  cases h

theorem checking_message (h : Checking sha1 info total manager disk fs done c) (env : Env)
    {msg : CoordinatorMsg} (hquiet : (Input.message env msg).Quiet) :
    Checking sha1 info total manager disk fs done (c.handle env msg).1 ∧
      ∀ e ∈ (c.handle env msg).2, NoWork e := by
  obtain ⟨state, fs', saved⟩ := c
  cases state with
  | downloadingData => cases h.state
  | checkingFiles m d hashes pieceLength totalLength next =>
    have hsame (f : TorrentManager → TorrentManager) (hselection : (f m).selection = m.selection)
        (htotal : (f m).totalPieces = m.totalPieces) (hcompleted : (f m).completed = m.completed) :
        Checking sha1 info total manager disk fs done
          ⟨.checkingFiles (f m) d hashes pieceLength totalLength next, fs', saved⟩ := by
      obtain ⟨hstate, hfs, hsel, hpieces, hfound⟩ := h
      cases hstate
      exact ⟨rfl, hfs, hselection.trans hsel, htotal.trans hpieces,
        fun p => by rw [← hfound p, CoordinatorState.manager, hcompleted]; rfl⟩
    cases msg with
    | setSelection => exact hquiet.elim
    | peerBitfield pieces => exact ⟨hsame (·.addPeerPieces pieces) rfl rfl rfl, nofun⟩
    | peerHave index => exact ⟨hsame (·.addPeerPiece index) rfl rfl rfl, nofun⟩
    | peerGone pieces => exact ⟨hsame (·.removePeerPieces pieces) rfl rfl rfl, nofun⟩
    | requestWork | getCompletedPieces | readPiece =>
      refine ⟨h, fun e he => ?_⟩
      obtain rfl := List.mem_singleton.mp he
      nofun
    | pieceDownloaded | pieceFailed | pause | resume => exact ⟨h, nofun⟩

theorem checking_metadata (h : Checking sha1 info total manager disk fs done c)
    (msg : MetadataMsg) :
    Checking sha1 info total manager disk fs done (handleMetadata c msg).1 ∧
      ∀ e ∈ (handleMetadata c msg).2, NoWork e := by
  cases msg with
  | requestMetadataWork =>
    refine ⟨h, fun e he => ?_⟩
    obtain rfl := List.mem_singleton.mp he
    nofun
  | metadataPieceDownloaded | metadataPieceFailed => exact ⟨h, nofun⟩

theorem verified_iff {env : Env} {m : TorrentManager} (hinfo : info.Sized total)
    (hpieces : m.totalPieces = info.pieces.length) (hselection : m.selection = manager.selection)
    (hlt : done.length < info.pieces.length) :
    Coordinator.verified sha1 env m disk info.pieces info.pieceLength total done.length fs = true ↔
      Found sha1 info manager disk fs (done ++ [env]) done.length := by
  have htick : (done ++ [env])[done.length]? = some env := List.getElem?_concat_length
  have hlen := hinfo.pieceLenAt hlt
  have hwanted : m.isWanted done.length = manager.isWanted done.length := by
    rw [TorrentManager.isWanted, hselection, TorrentManager.isWanted]
  simp only [Coordinator.verified]
  rw [hpieces, hinfo.checkLength hlt, hwanted]
  constructor
  · intro hverified
    split at hverified
    case h_2 => cases hverified
    case h_1 data expected hread hhash =>
      obtain ⟨hkept, hsha⟩ := Bool.and_eq_true_iff.mp hverified
      split at hread
      case isFalse => cases hread
      case isTrue hw =>
        exact ⟨hw, env, _, data, htick, by simpa using hkept, hlen, hread,
          hhash.trans (congrArg some (decide_eq_true_eq.mp hsha).symm)⟩
  · rintro ⟨hw, env', len, data, htick', hkept, hlen', hread, hhash⟩
    obtain rfl : env = env' := Option.some.inj (htick.symm.trans htick')
    obtain rfl : pieceBytes total info.pieceLength done.length = len :=
      Option.some.inj (hlen.symm.trans hlen')
    simp [hw, hread, hhash, hkept]

theorem found_concat (env : Env) {p : Nat} (hp : p ≠ done.length) :
    Found sha1 info manager disk fs (done ++ [env]) p ↔
      Found sha1 info manager disk fs done p := by
  have hticks : (done ++ [env])[p]? = done[p]? := by
    rcases Nat.lt_or_gt_of_ne hp with hlt | hgt
    · exact List.getElem?_append_left hlt
    · rw [List.getElem?_eq_none (by simp; omega), List.getElem?_eq_none (Nat.le_of_lt hgt)]
  unfold Found
  rw [hticks]

theorem not_found_next : ¬ Found sha1 info manager disk fs done done.length := by
  rintro ⟨-, env, len, data, htick, -⟩
  rw [List.getElem?_eq_none (Nat.le_refl _)] at htick
  cases htick

theorem completed_tick (hinfo : info.Sized total)
    (h : Checking sha1 info total manager disk fs done c) (env : Env)
    (hlt : done.length < info.pieces.length) {m : TorrentManager}
    (hm : m = if Coordinator.verified sha1 env c.state.manager disk info.pieces info.pieceLength
      total done.length fs then c.state.manager.markCompleted done.length else c.state.manager) :
    m.selection = manager.selection ∧ m.totalPieces = info.pieces.length ∧
      ∀ p, p ∈ m.completed ↔
        p ∈ manager.completed ∨ Found sha1 info manager disk fs (done ++ [env]) p := by
  have hiff : _ ↔ Found sha1 info manager disk fs (done ++ [env]) done.length :=
    verified_iff hinfo h.totalPieces h.selection hlt
  have hother {p : Nat} (hp : p ≠ done.length) : p ∈ c.state.manager.completed ↔
      p ∈ manager.completed ∨ Found sha1 info manager disk fs (done ++ [env]) p := by
    rw [h.completed, found_concat env hp]
  have hself : done.length ∈ c.state.manager.completed ↔ done.length ∈ manager.completed := by
    rw [h.completed, or_iff_left not_found_next]
  split at hm
  case isTrue hverified =>
    obtain ⟨htotal, hselection, -⟩ := c.state.manager.markCompleted_frame done.length
    rw [hm]
    refine ⟨hselection.trans h.selection, htotal.trans h.totalPieces, fun p => ?_⟩
    rw [TorrentManager.mem_completed_markCompleted, h.totalPieces]
    by_cases hp : p = done.length
    · rw [hp]
      exact ⟨fun _ => .inr (hiff.mp hverified), fun _ => .inr ⟨rfl, hlt⟩⟩
    · rw [or_iff_left (fun hself => hp hself.1)]
      exact hother hp
  case isFalse hverified =>
    rw [hm]
    refine ⟨h.selection, h.totalPieces, fun p => ?_⟩
    by_cases hp : p = done.length
    · rw [hp, hself, or_iff_left (mt hiff.mpr hverified)]
    · exact hother hp

structure Checked (sha1 : List UInt8 → Digest) (info : TorrentMeta) (manager : TorrentManager)
    (disk : Disk) (fs : FileStore Path) (ticks : List Env) (c : Coordinator) : Prop where
  state : c.state = .downloadingData c.state.manager disk false c.state.manager.isDone
  fs_eq : c.fs = fs
  selection : c.state.manager.selection = manager.selection
  completed : ∀ p, p ∈ c.state.manager.completed ↔
    p ∈ manager.completed ∨ Found sha1 info manager disk fs ticks p

/-- One tick checks one piece, and the last one ends the check. -/
theorem checking_tick (hinfo : info.Sized total)
    (h : Checking sha1 info total manager disk fs done c) (env : Env)
    (hlt : done.length < info.pieces.length) :
    (∀ e ∈ (c.checkTick sha1 env).2, NoWork e) ∧
      visit c (.tick env) = some done.length ∧
      (done.length + 1 < info.pieces.length →
        Checking sha1 info total manager disk fs (done ++ [env]) (c.checkTick sha1 env).1) ∧
      (done.length + 1 = info.pieces.length →
        Checked sha1 info manager disk fs (done ++ [env]) (c.checkTick sha1 env).1) := by
  obtain ⟨state, fs', saved⟩ := c
  cases state with
  | downloadingData => cases h.state
  | checkingFiles m d hashes pieceLength totalLength next =>
    have hstate := h.state
    cases hstate
    obtain rfl : fs' = fs := h.fs_eq
    obtain ⟨after, hafter⟩ : ∃ after, after = if Coordinator.verified sha1 env m disk info.pieces
        info.pieceLength total done.length fs' then m.markCompleted done.length else m := ⟨_, rfl⟩
    obtain ⟨hselection, htotal, hcompleted⟩ := completed_tick hinfo h env hlt hafter
    have hopen : ¬ m.totalPieces ≤ done.length := by
      have hpieces : m.totalPieces = info.pieces.length := h.totalPieces
      omega
    refine ⟨fun e he => noWork_of_isNotice ((Coordinator.checkTick_cases sha1 env _).1 e he),
      if_neg hopen, fun hmore => ?_, fun hlast => ?_⟩
    · simp only [Coordinator.checkTick]
      rw [if_neg hopen, ← hafter, if_neg (by omega)]
      exact ⟨by simp [CoordinatorState.manager], rfl, hselection, htotal, hcompleted⟩
    · simp only [Coordinator.checkTick]
      rw [if_neg hopen, ← hafter, if_pos (by omega)]
      exact ⟨rfl, rfl, hselection, hcompleted⟩

theorem visits_append (sha1 : List UInt8 → Digest) (c : Coordinator) (is js : List Input) :
    visits sha1 c (is ++ js) = visits sha1 c is ++ visits sha1 (Lib.exec (step sha1) c is) js := by
  induction is generalizing c with
  | nil => rfl
  | cons i is ih => rw [List.cons_append, visits, visits, ih, List.append_assoc, Lib.exec_cons]

theorem checking_run (hinfo : info.Sized total) {inputs : List Input}
    (h : Checking sha1 info total manager disk fs done c) (hquiet : ∀ i ∈ inputs, i.Quiet)
    (hlt : (done ++ ticks inputs).length < info.pieces.length) :
    Checking sha1 info total manager disk fs (done ++ ticks inputs)
        (Lib.exec (step sha1) c inputs) ∧
      visits sha1 c inputs = List.range' done.length (ticks inputs).length ∧
      ∀ e ∈ effects sha1 c inputs, NoWork e := by
  induction inputs generalizing c done with
  | nil => exact ⟨by rwa [ticks, List.append_nil], rfl, nofun⟩
  | cons i inputs ih =>
    have hrest : ∀ j ∈ inputs, j.Quiet := fun j hj => hquiet j (List.mem_cons_of_mem i hj)
    have hjoin {first : List Effect} (hfirst : ∀ e ∈ first, NoWork e)
        (hlater : ∀ e ∈ effects sha1 (step sha1 c i) inputs, NoWork e) :
        ∀ e ∈ first ++ effects sha1 (step sha1 c i) inputs, NoWork e := fun e he =>
      (List.mem_append.mp he).elim (hfirst e) (hlater e)
    cases i with
    | message env msg =>
      obtain ⟨hnext, hnone⟩ := checking_message h env (hquiet _ List.mem_cons_self)
      obtain ⟨hend, hvisits, heffects⟩ := ih hnext hrest hlt
      exact ⟨hend, hvisits, hjoin hnone heffects⟩
    | metadata msg =>
      obtain ⟨hnext, hnone⟩ := checking_metadata h msg
      obtain ⟨hend, hvisits, heffects⟩ := ih hnext hrest hlt
      exact ⟨hend, hvisits, hjoin hnone heffects⟩
    | tick env =>
      rw [ticks, List.append_cons] at hlt
      have hroom : done.length + 1 < info.pieces.length := by
        rw [List.length_append, List.length_append, List.length_singleton] at hlt
        omega
      obtain ⟨hnone, hvisit, hnext, -⟩ := checking_tick hinfo h env (by omega)
      obtain ⟨hend, hvisits, heffects⟩ := ih (hnext hroom) hrest hlt
      refine ⟨by rwa [ticks, List.append_cons], ?_, hjoin hnone heffects⟩
      rw [visits, hvisit, ticks, List.length_cons, List.range'_succ]
      rw [List.length_append, List.length_singleton] at hvisits
      exact congrArg (done.length :: ·) hvisits

/-- The check visits every piece once, in order, whatever messages come in between; what it
leaves completed is what was before and what was found; and meanwhile nothing is handed out. -/
theorem file_check_exact {windows : Bool} {raw : RawInfo} {infoHash : Digest}
    (hmeta : buildMeta windows raw infoHash = .ok info)
    (hsize : raw.pieces.length ≤ MAX_TORRENT_SIZE) (htotal : info.totalLength = some total)
    (sha1 : List UInt8 → Digest) (manager : TorrentManager)
    (hpieces : manager.totalPieces = info.piecesCount) (disk : Disk) (fs : FileStore Path)
    (saved : List (List UInt8)) (inputs : List Input) (hquiet : ∀ i ∈ inputs, i.Quiet) :
    let start : Coordinator :=
      ⟨.checkingFiles manager disk info.pieces info.pieceLength total 0, fs, saved⟩
    let c := Lib.exec (step sha1) start inputs
    ((ticks inputs).length < info.pieces.length →
      Checking sha1 info total manager disk fs (ticks inputs) c ∧
      visits sha1 start inputs = List.range (ticks inputs).length ∧
      ∀ e ∈ effects sha1 start inputs, NoWork e) ∧
    ∀ env, (ticks inputs).length + 1 = info.pieces.length →
      Checked sha1 info manager disk fs (ticks inputs ++ [env]) (step sha1 c (.tick env)) ∧
      visits sha1 start (inputs ++ [.tick env]) = List.range info.pieces.length ∧
      ∀ e ∈ (react sha1 c (.tick env)).2, NoWork e := by
  intro start c
  obtain ⟨total', hinfo⟩ := sized_of_buildMeta hmeta hsize
  obtain rfl : total' = total :=
    Option.some.inj (hinfo.wellFormed.totalLength.symm.trans htotal)
  have hstart : Checking sha1 info total' manager disk fs [] start :=
    { state := rfl
      fs_eq := rfl
      selection := rfl
      totalPieces := hpieces.trans hinfo.piecesCount
      completed := fun p => (or_iff_left fun ⟨_, _, _, _, htick, _⟩ => nomatch htick).symm }
  have hrun (hlt : (ticks inputs).length < info.pieces.length) :=
    checking_run hinfo hstart hquiet hlt
  refine ⟨fun hlt => ?_, fun env hlast => ?_⟩
  · obtain ⟨hend, hvisits, heffects⟩ := hrun hlt
    exact ⟨hend, hvisits.trans List.range_eq_range'.symm, heffects⟩
  · obtain ⟨hend, hvisits, -⟩ := hrun (by omega)
    obtain ⟨hnone, hvisit, -, hdone⟩ := checking_tick hinfo hend env (by simp; omega)
    refine ⟨hdone hlast, ?_, hnone⟩
    rw [visits_append, hvisits, visits, hvisit, ← hlast, List.range_succ, List.range_eq_range']
    rfl

def twoFilesDisk : Disk :=
  ⟨.standard, [⟨["t", "a"], true, 0, 1, false⟩, ⟨["t", "b"], true, 1, 2, false⟩], 1⟩

theorem file_check_exact_twoFiles :
    let sha1 : List UInt8 → Digest := fun _ => zeroHash
    let manager := TorrentManager.withSelection 2 [] (.all 2)
    let start : Coordinator :=
      ⟨.checkingFiles manager twoFilesDisk (digests (List.replicate 40 0)) 1 2 0,
        fun _ => some (Inode.empty.setLen 1), []⟩
    let inputs : List Input :=
      [.tick .calm, .message .calm (.peerHave 1), .metadata (.requestMetadataWork 0)]
    visits sha1 start (inputs ++ [.tick .calm]) = [0, 1] ∧
      1 ∈ (step sha1 (Lib.exec (step sha1) start inputs) (.tick .calm)).state.manager.completed := by
  intro sha1 manager start inputs
  have hquiet : ∀ i ∈ inputs, i.Quiet := by
    simp only [inputs, List.forall_mem_cons]
    exact ⟨trivial, trivial, trivial, nofun⟩
  have hcheck := (file_check_exact buildMeta_apart (by decide) rfl sha1 manager rfl twoFilesDisk
    (fun _ => some (Inode.empty.setLen 1)) [] inputs hquiet).2 .calm rfl
  refine ⟨hcheck.2.1, (hcheck.1.completed 1).mpr (.inr ⟨by decide, .calm, 1, [0], rfl, rfl, ?_⟩)⟩
  exact ⟨by decide, by decide, by decide⟩

end Tortor.Core.FileCheck
