import Tortor.Core.BencodeLaws
import Tortor.Lib.Run
import Tortor.Net.Metadata

namespace Tortor.Net

open Tortor.Core Tortor.Lib

namespace Shared

theorem inFlight_initSize {s t : Shared} {size : Nat} (h : s.initSize size = .ok t) :
    t.inFlight = s.inFlight := by
  unfold initSize at h
  split at h
  · split at h
    · cases h
    · cases h
      rfl
  · split at h
    · cases h
    · cases h
      rfl

theorem inFlight_addPiece_subset (sha1 : List UInt8 → Digest) (infoHash : Digest) (s : Shared)
    (piece : Nat) (data : List UInt8) :
    (s.addPiece sha1 infoHash piece data).2.inFlight ⊆ s.inFlight.erase piece := by
  simp only [addPiece]
  repeat' split
  all_goals first | exact Finset.Subset.refl _ | exact Finset.empty_subset _

theorem claimPiece_eq_some {s t : Shared} {piece : Nat} (h : s.claimPiece = some (piece, t)) :
    t = { s with inFlight := insert piece s.inFlight } := by
  unfold claimPiece at h
  split at h
  · cases h
  · split at h
    · cases h
    · cases h
      rfl

/-- What `claim_piece` gives when it is called again and again. -/
def handedOut : Nat → Shared → List Nat
  | 0, _ => []
  | n + 1, s =>
    match s.claimPiece with
    | none => []
    | some (piece, s) => piece :: handedOut n s

def Open (s : Shared) (assembler : MetadataAssembler) (piece : Nat) : Prop :=
  piece < assembler.totalPieces ∧ piece ∉ assembler.receivedPieces ∧ piece ∉ s.inFlight

theorem claimPiece_of_open {s : Shared} {assembler : MetadataAssembler}
    (ha : s.assembler = some assembler) {p : Nat} (hp : s.Open assembler p) :
    ∃ q, s.claimPiece = some (q, { s with inFlight := insert q s.inFlight }) ∧
      s.Open assembler q ∧ ∀ r < q, ¬ s.Open assembler r := by
  let wanted (i : Nat) : Bool :=
    decide (i ∉ assembler.receivedPieces) && !decide (i ∈ s.inFlight)
  have hwanted (i : Nat) : wanted i = true ↔ i ∉ assembler.receivedPieces ∧ i ∉ s.inFlight := by
    simp [wanted]
  have hmem : p ∈ List.range assembler.totalPieces := List.mem_range.mpr hp.1
  obtain ⟨q, hq⟩ := Option.isSome_iff_exists.mp
    (List.find?_isSome.mpr ⟨p, hmem, (hwanted p).mpr hp.2⟩)
  obtain ⟨hchosen, hrange, hskipped⟩ := List.find?_range_eq_some.mp hq
  refine ⟨q, ?_, ⟨List.mem_range.mp hrange, (hwanted q).mp hchosen⟩, fun r hr hopen => ?_⟩
  · simp only [claimPiece, ha, MetadataAssembler.nextPieceWhere]
    rw [hq]
  · have hskip := hskipped r hr
    rw [(hwanted r).mpr hopen.2] at hskip
    cases hskip

/-- A piece that is open will be handed out: every claim takes an open piece further on. -/
theorem mem_handedOut {assembler : MetadataAssembler} {p k : Nat} {s : Shared}
    (ha : s.assembler = some assembler) (hp : s.Open assembler p)
    (hbelow : ∀ r < k, ¬ s.Open assembler r) : ∃ n, p ∈ s.handedOut n := by
  obtain ⟨q, hclaim, hopenq, hfirst⟩ := claimPiece_of_open ha hp
  have hkq : k ≤ q := Nat.not_lt.mp fun hlt => hbelow q hlt hopenq
  have hqp : q ≤ p := Nat.not_lt.mp fun hlt => hfirst p hlt hp
  by_cases hq : q = p
  · exact ⟨1, by simp [handedOut, hclaim, hq]⟩
  let t : Shared := { s with inFlight := insert q s.inFlight }
  have hopen (r : Nat) : t.Open assembler r ↔ s.Open assembler r ∧ r ≠ q := by
    simp only [Open, t, Finset.mem_insert, not_or]
    tauto
  have hbelow' : ∀ r < q + 1, ¬ t.Open assembler r := by
    intro r hr hopenr
    obtain ⟨hold, hne⟩ := (hopen r).mp hopenr
    exact hfirst r (by omega) hold
  obtain ⟨n, hn⟩ := mem_handedOut (k := q + 1) (s := t) ha
    ((hopen p).mpr ⟨hp, fun h => hq h.symm⟩) hbelow'
  exact ⟨n + 1, by simp only [handedOut, hclaim]; exact List.mem_cons_of_mem _ hn⟩
termination_by p - k

end Shared

namespace FetchTask

def Holds (self : FetchTask) (piece : Nat) : Prop :=
  self.phase ≠ .ended ∧ (self.phase = .requesting piece ∨ self.claimed = some piece)

instance (self : FetchTask) (piece : Nat) : Decidable (self.Holds piece) :=
  inferInstanceAs (Decidable (_ ∧ _))

theorem Holds.claimed_eq {self : FetchTask} {piece : Nat} (h : self.Holds piece)
    (hp : self.phase ≠ .requesting piece) : self.claimed = some piece :=
  h.2.resolve_left hp

theorem Holds.requesting_eq {self : FetchTask} {piece : Nat} (h : self.Holds piece)
    (hnone : self.claimed = none) : self.phase = .requesting piece :=
  h.2.resolve_right (hnone ▸ nofun)

def Single (self : FetchTask) : Prop :=
  match self.phase with
  | .connecting | .requesting _ => self.claimed = none
  | _ => True

def Drops (self : FetchTask) (turn : FetchTurn) (piece : Nat) : Prop :=
  self.phase = .requesting piece ∧ turn.succeeds = false

/-- What a turn may do: whatever is reserved afterwards is held by this task, or it was reserved
before and this task has not given it up, unless its request has failed. -/
structure Turned (turn : FetchTurn) (task : FetchTask) (shared : Shared) (r : FetchTask × Shared) :
    Prop where
  single : r.1.Single
  held : ∀ q ∈ r.2.inFlight, r.1.Holds q ∨
    q ∈ shared.inFlight ∧ (task.Holds q → task.Drops turn q)

variable {ctx : FetchContext} {turn : FetchTurn} {self task : FetchTask} {shared s : Shared}

theorem Turned.of_subset (hsingle : task.Single) (hsub : s.inFlight ⊆ shared.inFlight)
    (hkeep : ∀ q ∈ s.inFlight, self.Holds q → task.Holds q) :
    Turned turn self shared (task, s) where
  single := hsingle
  held q hq := by
    by_cases hh : self.Holds q
    · exact .inl (hkeep q hq hh)
    · exact .inr ⟨hsub hq, fun h => absurd h hh⟩

theorem Turned.of_claimed (hp : ∀ piece, self.phase ≠ .requesting piece) (ht : task.Single)
    (he : task.phase ≠ .ended) (hclaimed : task.claimed = self.claimed)
    (hsub : s.inFlight ⊆ shared.inFlight) : Turned turn self shared (task, s) := by
  apply Turned.of_subset
  · exact ht
  · exact hsub
  · rintro q - ⟨-, hreq | hc⟩
    · exact absurd hreq (hp q)
    · exact ⟨he, .inr (hclaimed.trans hc)⟩

variable (hp : ∀ piece, self.phase ≠ .requesting piece)
include hp

theorem turned_leave : Turned turn self shared (self.leave, shared) :=
  .of_claimed hp trivial nofun rfl (Finset.Subset.refl _)

theorem turned_again (hclaimed : task.claimed = self.claimed)
    (hsub : s.inFlight ⊆ shared.inFlight) : Turned turn self shared (task.again, s) :=
  .of_claimed hp trivial nofun hclaimed hsub

theorem turned_takeHandshake (payload : List UInt8) :
    Turned turn self shared (self.takeHandshake ctx payload shared) := by
  unfold takeHandshake
  split
  · exact turned_leave hp
  · split
    · exact turned_leave hp
    · split
      · split
        · exact turned_leave hp
        · split
          · exact turned_leave hp
          case h_2 hsize =>
            exact .of_claimed hp trivial nofun rfl (Shared.inFlight_initSize hsize).subset
      · exact turned_leave hp

theorem turned_takeMetadata (payload : List UInt8) :
    Turned turn self shared (self.takeMetadata ctx turn payload shared) := by
  have hsame : shared.inFlight ⊆ shared.inFlight := Finset.Subset.refl _
  unfold takeMetadata
  split
  · exact turned_leave hp
  · split
    · exact turned_leave hp
    case h_2 headerLen _ _ header _ =>
      split
      · have hsub := Shared.inFlight_addPiece_subset ctx.sha1 ctx.infoHash shared header.piece
          (payload.drop headerLen)
        split
        case h_1 hadd =>
          rw [hadd] at hsub
          exact .of_claimed hp trivial (by simp [leave]) rfl (hsub.trans (Finset.erase_subset _ _))
        case h_2 hadd =>
          rw [hadd] at hsub
          split
          case isTrue hmine =>
            -- The piece has been delivered, and it is no longer reserved by anyone.
            apply Turned.of_subset
            · trivial
            · exact hsub.trans (Finset.erase_subset _ _)
            · rintro q hq hh
              have hc := hh.claimed_eq (hp q)
              rw [hmine, Option.some.injEq] at hc
              exact absurd hc.symm (Finset.mem_erase.mp (hsub hq)).1
          case isFalse => exact turned_again hp rfl (hsub.trans (Finset.erase_subset _ _))
      · split
        · exact turned_leave hp
        · split
          · split
            · exact turned_leave hp
            · exact turned_again hp rfl hsame
          · exact turned_again hp rfl hsame

theorem turned_receive : Turned turn self shared (self.receive ctx turn shared) := by
  have hsame : shared.inFlight ⊆ shared.inFlight := Finset.Subset.refl _
  unfold receive
  split
  · exact turned_leave hp
  · split
    · exact turned_leave hp
    · split
      · exact turned_leave hp
      · exact turned_again hp rfl hsame
  · split
    · exact turned_takeHandshake hp _
    · split
      · exact turned_takeMetadata hp _
      · exact turned_again hp rfl hsame
  · exact turned_again hp rfl hsame

omit hp

theorem turned_turn (h : self.Single) : Turned turn self shared (self.turn ctx turn shared) := by
  have hsame : shared.inFlight ⊆ shared.inFlight := Finset.Subset.refl _
  have hother {phase : FetchPhase} (hphase : self.phase = phase)
      (hn : ∀ piece, phase ≠ .requesting piece) (piece : Nat) : self.phase ≠ .requesting piece :=
    hphase ▸ hn piece
  unfold FetchTask.turn
  split
  case h_1 hphase =>
    split
    · exact turned_again (hother hphase nofun) rfl hsame
    · refine ⟨trivial, fun q hq => .inr ⟨hq, fun hh => ?_⟩⟩
      simp only [Single, hphase] at h
      simp [Holds, hphase, h] at hh
  case h_2 hphase =>
    split
    · exact turned_leave (hother hphase nofun)
    · exact .of_claimed (hother hphase nofun) trivial nofun rfl hsame
  case h_3 hphase =>
    split
    case h_1 hnone =>
      split
      case h_1 piece _ hclaim =>
        rw [Shared.claimPiece_eq_some hclaim]
        refine ⟨hnone, fun q hq => ?_⟩
        rcases Finset.mem_insert.mp hq with rfl | hq
        · exact .inl ⟨nofun, .inl rfl⟩
        · refine .inr ⟨hq, fun hh => ?_⟩
          exact absurd (hh.requesting_eq hnone) (hother hphase nofun q)
      · exact .of_claimed (hother hphase nofun) trivial nofun rfl hsame
    · exact .of_claimed (hother hphase nofun) trivial nofun rfl hsame
  case h_4 piece hphase =>
    simp only [Single, hphase] at h
    split
    · apply Turned.of_subset
      · trivial
      · exact hsame
      · rintro q - hh
        have hreq := hh.requesting_eq h
        rw [hphase, FetchPhase.requesting.injEq] at hreq
        exact ⟨nofun, .inr (congrArg some hreq)⟩
    case isFalse hfails =>
      exact ⟨trivial, fun q hq => .inr ⟨hq, fun hh =>
        ⟨hh.requesting_eq h, Bool.eq_false_iff.mpr hfails⟩⟩⟩
  case h_5 hphase => exact turned_receive (hother hphase nofun)
  case h_6 hphase =>
    split
    case h_1 piece hclaimed =>
      refine ⟨trivial, fun q hq => .inr ?_⟩
      obtain ⟨hne, hq⟩ := Finset.mem_erase.mp hq
      refine ⟨hq, fun hh => ?_⟩
      have hc := hh.claimed_eq (hother hphase nofun q)
      rw [hclaimed, Option.some.injEq] at hc
      exact absurd hc.symm hne
    case h_2 hclaimed =>
      refine ⟨trivial, fun q hq => .inr ⟨hq, fun hh => ?_⟩⟩
      exact absurd (hh.requesting_eq hclaimed) (hother hphase nofun q)
  case h_7 hphase => exact ⟨h, fun q hq => .inr ⟨hq, fun hh => absurd hphase hh.1⟩⟩

end FetchTask

namespace Fetch

/-- If the request for a piece just claimed cannot be written, the piece is no longer reserved or
another task holds it too. -/
def KeepsClaim (s : Fetch) : Action → Prop
  | .spawn => True
  | .turn i turn => ∀ piece, (∃ task ∈ s.tasks[i]?, task.Drops turn piece) →
    piece ∈ s.shared.inFlight → ∃ (j : Nat) (task : FetchTask),
      j ≠ i ∧ s.tasks[j]? = some task ∧ task.Holds piece

/-- Whatever is reserved is held by a task. -/
structure Sound (s : Fetch) : Prop where
  single : ∀ task ∈ s.tasks, task.Single
  held : ∀ piece ∈ s.shared.inFlight, ∃ (j : Nat) (task : FetchTask), s.tasks[j]? = some task ∧
    task.Holds piece

theorem sound_start : start.Sound := ⟨nofun, nofun⟩

theorem sound_step (ctx : FetchContext) {s : Fetch} (h : s.Sound) {a : Action}
    (hkeep : s.KeepsClaim a) : (s.step ctx a).Sound := by
  cases a with
  | spawn =>
    refine ⟨fun task ht => ?_, fun piece hpiece => ?_⟩
    · rcases List.mem_append.mp ht with ht | ht
      · exact h.single task ht
      · rw [List.mem_singleton.mp ht]
        rfl
    · obtain ⟨j, task, hj, hholds⟩ := h.held piece hpiece
      have hlt : j < s.tasks.length := (List.getElem?_eq_some_iff.mp hj).1
      exact ⟨j, task, by simp only [step, List.getElem?_append_left hlt, hj], hholds⟩
  | turn i turn =>
    simp only [step]
    split
    · exact h
    case h_2 task hi =>
      have hlt : i < s.tasks.length := (List.getElem?_eq_some_iff.mp hi).1
      have hturned : FetchTask.Turned turn task s.shared (task.turn ctx turn s.shared) :=
        FetchTask.turned_turn (h.single task (List.mem_of_getElem? hi))
      refine ⟨fun other ho => ?_, fun piece hpiece => ?_⟩
      · rcases List.mem_or_eq_of_mem_set ho with ho | rfl
        · exact h.single other ho
        · exact hturned.single
      · have hstays {j : Nat} {other : FetchTask} (hne : j ≠ i) (hj : s.tasks[j]? = some other)
            (hholds : other.Holds piece) : ∃ (j : Nat) (task' : FetchTask),
              (s.tasks.set i (task.turn ctx turn s.shared).1)[j]? = some task' ∧
                task'.Holds piece :=
          ⟨j, other, by rw [List.getElem?_set_ne hne.symm]; exact hj, hholds⟩
        rcases hturned.held piece hpiece with hmine | ⟨hold, hgiven⟩
        · exact ⟨i, _, List.getElem?_set_self hlt, hmine⟩
        · obtain ⟨j, other, hj, hholds⟩ := h.held piece hold
          by_cases hne : j = i
          · subst hne
            rw [hi, Option.some.injEq] at hj
            subst hj
            obtain ⟨k, third, hk, hthird, hthirdHolds⟩ :=
              hkeep piece ⟨task, hi, hgiven hholds⟩ hold
            exact hstays hk hthird hthirdHolds
          · exact hstays hne hj hholds

/-- Whatever is reserved is held by a running task, and whatever is missing and held by none of
them is handed out. -/
theorem claims_held (ctx : FetchContext) (actions : List Action)
    (h : Along (step ctx) KeepsClaim start actions) :
    let s := exec (step ctx) start actions
    (∀ piece ∈ s.shared.inFlight, ∃ task ∈ s.tasks, task.Holds piece) ∧
      ∀ assembler, s.shared.assembler = some assembler → s.shared.result = none →
        ∀ piece < assembler.totalPieces, piece ∉ assembler.receivedPieces →
          (∀ task ∈ s.tasks, ¬ task.Holds piece) → ∃ n, piece ∈ s.shared.handedOut n := by
  intro s
  have hsound : s.Sound :=
    exec_invariant_along (P := Sound) (fun s a hs ha => sound_step ctx hs ha) h sound_start
  have hheld : ∀ piece ∈ s.shared.inFlight, ∃ task ∈ s.tasks, task.Holds piece := by
    intro piece hpiece
    obtain ⟨j, task, hj, hholds⟩ := hsound.held piece hpiece
    exact ⟨task, List.mem_of_getElem? hj, hholds⟩
  refine ⟨hheld, fun assembler ha _ piece hlt hmissing hnone => ?_⟩
  have hopen : s.shared.Open assembler piece := by
    refine ⟨hlt, hmissing, fun hpiece => ?_⟩
    obtain ⟨task, htask, hholds⟩ := hheld piece hpiece
    exact hnone task htask hholds
  exact Shared.mem_handedOut (k := 0) ha hopen nofun

theorem keepsClaim_of_succeeds {s : Fetch} {i : Nat} {turn : FetchTurn} (h : turn.succeeds = true) :
    s.KeepsClaim (.turn i turn) := by
  rintro piece ⟨task, -, hd⟩
  rw [hd.2] at h
  cases h

theorem claims_held_requested :
    let payload : List UInt8 := [
      0x64, 0x31, 0x3a, 0x6d, 0x64, 0x31, 0x31, 0x3a, 0x75, 0x74, 0x5f, 0x6d, 0x65, 0x74, 0x61,
      0x64, 0x61, 0x74, 0x61, 0x69, 0x33, 0x65, 0x65, 0x31, 0x33, 0x3a, 0x6d, 0x65, 0x74, 0x61,
      0x64, 0x61, 0x74, 0x61, 0x5f, 0x73, 0x69, 0x7a, 0x65, 0x69, 0x31, 0x30, 0x30, 0x65, 0x65]
    let ctx : FetchContext := {
      infoHash := ⟨List.replicate 20 0, rfl⟩
      sha1 := fun _ => ⟨List.replicate 20 0, rfl⟩
      codec := {
        extendedHandshake := fun _ => some ⟨[("ut_metadata", 3)], some 100⟩
        metadataHeader := fun _ => none } }
    let turn : Action := .turn 0 ⟨0, .message (.extended 0 payload), true⟩
    let actions : List Action := [.spawn, turn, turn, turn, turn, turn, turn, turn]
    0 ∈ (exec (step ctx) start actions).shared.inFlight ∧
      ∃ task ∈ (exec (step ctx) start actions).tasks, task.Holds 0 := by
  intro payload ctx turn actions
  have hturn {s : Fetch} : s.KeepsClaim turn := keepsClaim_of_succeeds rfl
  have hkept : Along (step ctx) KeepsClaim start actions :=
    ⟨trivial, hturn, hturn, hturn, hturn, hturn, hturn, hturn, trivial⟩
  have hreserved : (exec (step ctx) start actions).shared.inFlight = {0} := by decide +kernel
  rw [hreserved]
  refine ⟨Finset.mem_singleton_self 0, (claims_held ctx actions hkept).1 0 ?_⟩
  rw [hreserved]
  exact Finset.mem_singleton_self 0

/-- A peer that takes the handshakes, announces a size and is gone when the first request is to
be written. -/
theorem claims_leak :
    let payload : List UInt8 := [
      0x64, 0x31, 0x3a, 0x6d, 0x64, 0x31, 0x31, 0x3a, 0x75, 0x74, 0x5f, 0x6d, 0x65, 0x74, 0x61,
      0x64, 0x61, 0x74, 0x61, 0x69, 0x33, 0x65, 0x65, 0x31, 0x33, 0x3a, 0x6d, 0x65, 0x74, 0x61,
      0x64, 0x61, 0x74, 0x61, 0x5f, 0x73, 0x69, 0x7a, 0x65, 0x69, 0x31, 0x30, 0x30, 0x65, 0x65]
    let ctx : FetchContext := {
      infoHash := ⟨List.replicate 20 0, rfl⟩
      sha1 := fun _ => ⟨List.replicate 20 0, rfl⟩
      codec := {
        extendedHandshake := fun _ => some ⟨[("ut_metadata", 3)], some 100⟩
        metadataHeader := fun _ => none } }
    let turn (succeeds : Bool) : Action :=
      .turn 0 ⟨0, .message (.extended 0 payload), succeeds⟩
    let s := exec (step ctx) start
      [.spawn, turn true, turn true, turn true, turn true, turn true, turn true, turn false, turn true]
    (∀ task ∈ s.tasks, task.phase = .ended) ∧ s.shared.inFlight = {0} ∧
      s.shared.claimPiece.isNone := by
  decide +kernel

end Fetch

namespace FetchTask

theorem takeMetadata_encode (ctx : FetchContext) (turn : FetchTurn) (self : FetchTask)
    (shared : Shared) {header : Bencode} (raw : List UInt8) {parsed : MetadataHeader}
    (hlen : bencodeValueLen (header.encode ++ raw) = .ok header.encode.length)
    (hparsed : ctx.codec.metadataHeader header.encode = some parsed)
    (hdata : parsed.msgType = MSG_DATA) :
    (takeMetadata ctx turn (header.encode ++ raw) self shared).2 =
      (shared.addPiece ctx.sha1 ctx.infoHash parsed.piece raw).2 := by
  simp only [takeMetadata, hlen, List.take_left, List.drop_left, hparsed, hdata, if_true]
  rcases shared.addPiece ctx.sha1 ctx.infoHash parsed.piece raw with ⟨_ | _, after⟩
  · rfl
  · simp only
    split <;> rfl

/-- The end of a value is found whatever follows, and the header of a ut_metadata message ends
where its data begins. -/
theorem value_end_exact :
    (∀ (v : Bencode) (rest : List UInt8), v.nesting ≤ MAX_BENCODE_DEPTH →
      (v.encode ++ rest).length < 2 ^ 63 →
        bencodeValueLenWords (v.encode ++ rest) = some (.ok v.encode.length)) ∧
    (∀ bytes : List UInt8, bytes.length < 2 ^ 63 →
      ∃ result, bencodeValueLenWords bytes = some result ∧
        ∀ n, result = .ok n → 0 < n ∧ n ≤ bytes.length ∧
          ∀ other : List UInt8, other.length < 2 ^ 63 → other.take n = bytes.take n →
            bencodeValueLenWords other = some (.ok n)) ∧
    ∀ (header : Bencode) (raw : List UInt8), header.nesting ≤ MAX_BENCODE_DEPTH →
      (header.encode ++ raw).length < 2 ^ 63 →
        (∃ headerLen, bencodeValueLen (header.encode ++ raw) = .ok headerLen ∧
          (header.encode ++ raw).take headerLen = header.encode ∧
          (header.encode ++ raw).drop headerLen = raw) ∧
        ∀ (ctx : FetchContext) (turn : FetchTurn) (self : FetchTask) (shared : Shared)
          (parsed : MetadataHeader), ctx.codec.metadataHeader header.encode = some parsed →
            parsed.msgType = MSG_DATA →
              (takeMetadata ctx turn (header.encode ++ raw) self shared).2 =
                (shared.addPiece ctx.sha1 ctx.infoHash parsed.piece raw).2 := by
  have hend (v : Bencode) (rest : List UInt8) (hnesting : v.nesting ≤ MAX_BENCODE_DEPTH)
      (hfits : (v.encode ++ rest).length < 2 ^ 63) :
      bencodeValueLen (v.encode ++ rest) = .ok v.encode.length := by
    have hlevel := v.level_le_nesting.1
    rw [bencodeValueLen_encode v rest (by omega), skipped, if_pos (by omega)]
  refine ⟨fun v rest hnesting hfits => ?_, fun bytes hfits => ?_,
    fun header raw hnesting hfits => ⟨⟨_, hend header raw hnesting hfits, ?_, ?_⟩, ?_⟩⟩
  · rw [bencodeValueLenWords_eq hfits, hend v rest hnesting hfits]
  · refine ⟨_, bencodeValueLenWords_eq hfits, fun n hn => ?_⟩
    have hbounds := skip_bounds hn
    refine ⟨hbounds.1, hbounds.2, fun other hother hsame => ?_⟩
    rw [bencodeValueLenWords_eq hother, bencodeValueLen_of_take hn hsame hother]
  · exact List.take_left
  · exact List.drop_left
  · intro ctx turn self shared parsed hparsed hdata
    exact takeMetadata_encode ctx turn self shared raw (hend header raw hnesting hfits) hparsed hdata

theorem value_end_exact_data :
    bencodeValueLenWords ((Bencode.dict [([0x6d], .list [.int 1])]).encode ++ [0x65, 0x65]) =
      some (.ok (Bencode.dict [([0x6d], .list [.int 1])]).encode.length) :=
  value_end_exact.1 _ [0x65, 0x65] (by decide +kernel) (by decide +kernel)

end FetchTask
end Tortor.Net
