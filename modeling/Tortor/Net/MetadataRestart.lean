import Tortor.Net.MetadataLaws

/-! The shared assembler under calls from any peers, and how it starts over. -/

namespace Tortor.Net.Shared

open Tortor.Core Tortor.Lib

inductive Op
  | initSize (size : Nat)
  | claimPiece
  | releasePiece (piece : Nat)
  | addPiece (piece : Nat) (data : List UInt8)

def apply (sha1 : List UInt8 → Digest) (infoHash : Digest) (s : Shared) : Op → Shared
  | .initSize size =>
    match s.initSize size with
    | .ok s => s
    | .error _ => s
  | .claimPiece =>
    match s.claimPiece with
    | some (_, s) => s
    | none => s
  | .releasePiece piece => s.releasePiece piece
  | .addPiece piece data => (s.addPiece sha1 infoHash piece data).2

def Op.announced : Op → Option Nat
  | .initSize size => if MetadataAssembler.Acceptable size then some size else none
  | _ => none

def announced (ops : List Op) : Option Nat := ops.findSome? Op.announced

/-- This piece completes a buffer that fails the check against the info hash. -/
def Restarts (sha1 : List UInt8 → Digest) (infoHash : Digest) (s : Shared) (piece : Nat)
    (data : List UInt8) : Prop :=
  ∃ assembler complete, s.assembler = some assembler ∧
    assembler.addPiece piece data = .ok (true, complete) ∧ sha1 complete.buffer ≠ infoHash

/-- What is assembled is well-formed, and it is incomplete as long as there is no result. -/
structure Sound (s : Shared) : Prop where
  valid : ∀ assembler ∈ s.assembler, assembler.Valid
  incomplete : ∀ assembler ∈ s.assembler, s.result = none → assembler.isComplete = false

variable {sha1 : List UInt8 → Digest} {infoHash : Digest} {s t : Shared}

theorem incomplete_of_empty {assembler : MetadataAssembler} (h : assembler.Valid)
    (he : assembler.receivedPieces = ∅) : assembler.isComplete = false := by
  have hpos : 0 < assembler.totalPieces := by
    have hne := h.acceptable.1
    rw [h.total_eq]
    unfold MetadataAssembler.pieceCount MetadataAssembler.PIECE_SIZE
    omega
  rw [MetadataAssembler.isComplete, he, Finset.card_empty]
  exact beq_false_of_ne (Nat.ne_of_lt hpos)

inductive Added (sha1 : List UInt8 → Digest) (infoHash : Digest) (s : Shared) (piece : Nat)
    (data : List UInt8) : Shared → Prop
  | refused : Added sha1 infoHash s piece data (s.releasePiece piece)
  | stored {old assembler : MetadataAssembler} (ha : s.assembler = some old)
    (hadd : old.addPiece piece data = .ok (false, assembler)) :
    Added sha1 infoHash s piece data { s.releasePiece piece with assembler := some assembler }
  | finished {old assembler : MetadataAssembler} (ha : s.assembler = some old)
    (hadd : old.addPiece piece data = .ok (true, assembler))
    (hsha : sha1 assembler.buffer = infoHash) :
    Added sha1 infoHash s piece data
      { s.releasePiece piece with assembler := some assembler, result := some assembler.buffer }
  | restarted {old assembler fresh : MetadataAssembler} (ha : s.assembler = some old)
    (hadd : old.addPiece piece data = .ok (true, assembler))
    (hsha : sha1 assembler.buffer ≠ infoHash)
    (hnew : MetadataAssembler.new assembler.metadataSize = .ok fresh) :
    Added sha1 infoHash s piece data { s with assembler := some fresh, inFlight := ∅ }

theorem added_addPiece (sha1 : List UInt8 → Digest) (infoHash : Digest) (h : s.Sound)
    (piece : Nat) (data : List UInt8) :
    Added sha1 infoHash s piece data (s.addPiece sha1 infoHash piece data).2 := by
  simp only [addPiece]
  split
  · exact .refused
  case h_2 old ha =>
    split
    · exact .refused
    case h_2 hadd => exact .stored ha hadd
    case h_3 assembler hadd =>
      split
      case isTrue hsha => exact .finished ha hadd hsha
      case isFalse hsha =>
        have hvalid := (MetadataAssembler.addPiece_ok (h.valid old ha) hadd).1
        obtain ⟨fresh, hnew, -⟩ := MetadataAssembler.new_ok hvalid.acceptable
        rw [hnew]
        exact .restarted ha hadd hsha hnew

theorem Sound.of_assembler {assembler : MetadataAssembler} (ha : s.assembler = some assembler)
    (hvalid : assembler.Valid) (hincomplete : s.result = none → assembler.isComplete = false) :
    s.Sound where
  valid other ho := by
    rw [ha, Option.mem_some_iff] at ho
    exact ho ▸ hvalid
  incomplete other ho hresult := by
    rw [ha, Option.mem_some_iff] at ho
    exact ho ▸ hincomplete hresult

theorem Sound.of_same (h : s.Sound) (ha : t.assembler = s.assembler) (hr : t.result = s.result) :
    t.Sound where
  valid := by rw [ha]; exact h.valid
  incomplete := by rw [ha, hr]; exact h.incomplete

def size (s : Shared) : Option Nat := s.assembler.map (·.metadataSize)

theorem sound_addPiece (h : s.Sound) {piece : Nat} {data : List UInt8}
    (hadded : Added sha1 infoHash s piece data t) : t.Sound ∧ t.size = s.size := by
  cases hadded with
  | refused => exact ⟨h.of_same rfl rfl, rfl⟩
  | stored ha hadd =>
    obtain ⟨hvalid, hsize, -, -, hcomplete⟩ := MetadataAssembler.addPiece_ok (h.valid _ ha) hadd
    exact ⟨.of_assembler rfl hvalid fun _ => hcomplete.symm, by simp [size, ha, hsize]⟩
  | finished ha hadd hsha =>
    obtain ⟨hvalid, hsize, -⟩ := MetadataAssembler.addPiece_ok (h.valid _ ha) hadd
    exact ⟨.of_assembler rfl hvalid nofun, by simp [size, ha, hsize]⟩
  | restarted ha hadd hsha hnew =>
    obtain ⟨hvalid, hsize, -⟩ := MetadataAssembler.addPiece_ok (h.valid _ ha) hadd
    obtain ⟨fresh, hfresh, hfreshValid, hfreshSize, hempty⟩ :=
      MetadataAssembler.new_ok hvalid.acceptable
    rw [hnew, Except.ok.injEq] at hfresh
    subst hfresh
    exact ⟨.of_assembler rfl hfreshValid fun _ => incomplete_of_empty hfreshValid hempty,
      by simp [size, ha, hfreshSize, hsize]⟩

theorem sound_new : new.Sound := ⟨nofun, nofun⟩

theorem sound_initSize (sha1 : List UInt8 → Digest) (infoHash : Digest) (h : s.Sound) (size : Nat) :
    (s.apply sha1 infoHash (.initSize size)).Sound ∧
      (s.apply sha1 infoHash (.initSize size)).size = s.size.or (Op.initSize size).announced := by
  cases ha : s.assembler with
  | some assembler =>
    have hsame : s.apply sha1 infoHash (.initSize size) = s := by
      by_cases hsize : assembler.metadataSize = size <;> simp [apply, initSize, ha, hsize]
    rw [hsame]
    exact ⟨h, by simp [Shared.size, ha]⟩
  | none =>
    by_cases hsize : MetadataAssembler.Acceptable size
    · obtain ⟨fresh, hnew, hvalid, hfresh, hempty⟩ := MetadataAssembler.new_ok hsize
      have happly : s.apply sha1 infoHash (.initSize size) = { s with assembler := some fresh } := by
        simp only [apply, initSize, ha, hnew]
      rw [happly]
      exact ⟨.of_assembler rfl hvalid fun _ => incomplete_of_empty hvalid hempty,
        by simp [Shared.size, ha, hfresh, Op.announced, hsize]⟩
    · have hsame : s.apply sha1 infoHash (.initSize size) = s := by
        cases hnew : MetadataAssembler.new size with
        | error error => simp only [apply, initSize, ha, hnew]
        | ok fresh => exact absurd (MetadataAssembler.new_ok_iff.mp ⟨fresh, hnew⟩) hsize
      rw [hsame]
      exact ⟨h, by simp [Op.announced, hsize]⟩

theorem sound_apply (sha1 : List UInt8 → Digest) (infoHash : Digest) (h : s.Sound) (op : Op) :
    (s.apply sha1 infoHash op).Sound ∧
      (s.apply sha1 infoHash op).size = s.size.or op.announced := by
  cases op with
  | initSize size => exact sound_initSize sha1 infoHash h size
  | claimPiece =>
    have hsame : (s.apply sha1 infoHash .claimPiece).assembler = s.assembler ∧
        (s.apply sha1 infoHash .claimPiece).result = s.result := by
      cases hclaim : s.claimPiece with
      | none => simp [apply, hclaim]
      | some r => simp [apply, hclaim, claimPiece_eq_some hclaim]
    exact ⟨h.of_same hsame.1 hsame.2, by simp [size, hsame.1, Op.announced]⟩
  | releasePiece piece => exact ⟨h.of_same rfl rfl, by simp [apply, size, releasePiece, Op.announced]⟩
  | addPiece piece data =>
    obtain ⟨hsound, hsize⟩ := sound_addPiece h (added_addPiece sha1 infoHash h piece data)
    exact ⟨hsound, hsize.trans (by simp [Op.announced])⟩

theorem sound_exec (sha1 : List UInt8 → Digest) (infoHash : Digest) (h : s.Sound) (ops : List Op) :
    (exec (apply sha1 infoHash) s ops).Sound ∧
      (exec (apply sha1 infoHash) s ops).size = s.size.or (announced ops) := by
  induction ops generalizing s with
  | nil => exact ⟨h, (Option.or_none).symm⟩
  | cons op ops ih =>
    obtain ⟨hsound, hsize⟩ := sound_apply sha1 infoHash h op
    obtain ⟨hrest, hrestSize⟩ := ih hsound
    refine ⟨hrest, hrestSize.trans ?_⟩
    rw [hsize, Option.or_assoc, announced, announced, List.findSome?_cons]
    cases op.announced <;> rfl

theorem initSize_ok_iff (h : s.assembler.isSome) (size : Nat) :
    (∃ t, s.initSize size = .ok t) ↔ s.size = some size := by
  obtain ⟨assembler, ha⟩ := Option.isSome_iff_exists.mp h
  simp only [initSize, Shared.size, ha, Option.map_some, Option.some.injEq]
  split
  case isTrue hne =>
    refine ⟨fun hok => ?_, fun he => absurd he hne⟩
    obtain ⟨t, ht⟩ := hok
    cases ht
  case isFalse he => exact ⟨fun _ => not_not.mp he, fun _ => ⟨s, rfl⟩⟩

structure Faithful (infoHash : Digest) (info : List UInt8) (s : Shared)
    (assembler : MetadataAssembler) : Prop where
  assembling : s.assembler = some assembler
  valid : assembler.Valid
  size_eq : assembler.metadataSize = info.length
  agrees : assembler.Agrees info
  finished : assembler.isComplete = true → s.result = some info

def addAll (sha1 : List UInt8 → Digest) (infoHash : Digest) (info : List UInt8) (s : Shared)
    (order : List Nat) : Shared :=
  order.foldl (fun s piece => (s.addPiece sha1 infoHash piece (MetadataAssembler.slice info piece)).2) s

variable {info : List UInt8} {assembler : MetadataAssembler}

theorem faithful_addPiece (hinfo : sha1 info = infoHash) (h : s.Faithful infoHash info assembler)
    {piece : Nat} (hpiece : piece < MetadataAssembler.pieceCount info.length) :
    ∃ t, ((s.addPiece sha1 infoHash piece (MetadataAssembler.slice info piece)).2).Faithful
        infoHash info t ∧ t.receivedPieces = insert piece assembler.receivedPieces := by
  obtain ⟨t, hadd, hagrees⟩ :=
    MetadataAssembler.addPiece_slice h.valid h.size_eq hpiece h.agrees
  obtain ⟨hvalid, hsize, -, hreceived, -⟩ := MetadataAssembler.addPiece_ok h.valid hadd
  have hsize' := hsize.trans h.size_eq
  refine ⟨t, ?_, hreceived⟩
  cases hcomplete : t.isComplete with
  | false =>
    rw [hcomplete] at hadd
    simp only [addPiece, h.assembling, hadd]
    exact ⟨rfl, hvalid, hsize', hagrees, fun hc => absurd (hcomplete.symm.trans hc) Bool.false_ne_true⟩
  | true =>
    have hbuffer : t.buffer = info := hagrees.buffer_eq hvalid hsize' hcomplete
    rw [hcomplete] at hadd
    simp only [addPiece, h.assembling, hadd, hbuffer, hinfo, if_true]
    exact ⟨rfl, hvalid, hsize', hagrees, fun _ => rfl⟩

theorem faithful_addAll (hinfo : sha1 info = infoHash) (h : s.Faithful infoHash info assembler)
    {order : List Nat} (horder : ∀ piece ∈ order, piece < MetadataAssembler.pieceCount info.length) :
    ∃ t, (s.addAll sha1 infoHash info order).Faithful infoHash info t ∧
      t.receivedPieces = assembler.receivedPieces ∪ order.toFinset := by
  induction order generalizing s assembler with
  | nil => exact ⟨assembler, h, by simp⟩
  | cons piece order ih =>
    obtain ⟨t, ht, hreceived⟩ := faithful_addPiece hinfo h (horder piece List.mem_cons_self)
    obtain ⟨u, hu, hrest⟩ := ih ht fun p hp => horder p (List.mem_cons_of_mem piece hp)
    refine ⟨u, hu, ?_⟩
    rw [hrest, hreceived, List.toFinset_cons, Finset.insert_union, Finset.union_insert]

theorem result_addAll (hinfo : sha1 info = infoHash) (h : s.Faithful infoHash info assembler)
    {order : List Nat} (horder : ∀ p, p ∈ order ↔ p < MetadataAssembler.pieceCount info.length) :
    (s.addAll sha1 infoHash info order).result = some info := by
  obtain ⟨t, ht, hreceived⟩ := faithful_addAll hinfo h fun p hp => (horder p).mp hp
  apply ht.finished
  rw [MetadataAssembler.isComplete, beq_iff_eq]
  have hall : t.receivedPieces = Finset.range t.totalPieces := by
    apply Finset.Subset.antisymm ht.valid.received_lt
    intro p hp
    rw [Finset.mem_range, ht.valid.total_eq, ht.size_eq, ← horder p] at hp
    rw [hreceived]
    exact Finset.mem_union_right _ (List.mem_toFinset.mpr hp)
  rw [hall, Finset.card_range]

/-- From here a peer that announces the length of `info` and sends its pieces completes it. -/
def Recovers (sha1 : List UInt8 → Digest) (infoHash : Digest) (info : List UInt8) (s : Shared) :
    Prop :=
  ∃ t, s.initSize info.length = .ok t ∧
    ∀ order, (∀ p, p ∈ order ↔ p < MetadataAssembler.pieceCount info.length) →
      (t.addAll sha1 infoHash info order).result = some info

theorem recovers_iff (hinfo : sha1 info = infoHash) (h : s.Sound) (hresult : s.result = none)
    (ha : s.assembler = some assembler) (hagrees : assembler.Agrees info) :
    s.Recovers sha1 infoHash info ↔ s.size = some info.length := by
  have hok := initSize_ok_iff (Option.isSome_iff_exists.mpr ⟨assembler, ha⟩) info.length
  constructor
  · rintro ⟨t, ht, -⟩
    exact hok.mp ⟨t, ht⟩
  · intro hsize
    have hlen : assembler.metadataSize = info.length := by simpa [Shared.size, ha] using hsize
    have hsame : s.initSize info.length = .ok s := by simp [initSize, ha, hlen]
    have hfaithful : s.Faithful infoHash info assembler := by
      refine ⟨ha, h.valid assembler ha, hlen, hagrees, fun hcomplete => ?_⟩
      rw [h.incomplete assembler ha hresult] at hcomplete
      cases hcomplete
    exact ⟨s, hsame, fun order horder => result_addAll hinfo hfaithful horder⟩

theorem restart_spec (h : s.Sound) {piece : Nat} {data : List UInt8}
    (hr : s.Restarts sha1 infoHash piece data) :
    ∃ fresh, (s.addPiece sha1 infoHash piece data).2 =
        { s with assembler := some fresh, inFlight := ∅ } ∧ fresh.receivedPieces = ∅ := by
  obtain ⟨old, complete, ha, hadd, hsha⟩ := hr
  have hvalid := (MetadataAssembler.addPiece_ok (h.valid old ha) hadd).1
  obtain ⟨fresh, hnew, -, -, hempty⟩ := MetadataAssembler.new_ok hvalid.acceptable
  exact ⟨fresh, by simp [addPiece, ha, hadd, hsha, hnew], hempty⟩

/-- After a restart, and after any further calls, exactly the size that was announced first is
accepted; so the download recovers exactly if that was the true size. -/
theorem restart_recovers (sha1 : List UInt8 → Digest) (infoHash : Digest) (ops : List Op)
    (piece : Nat) (data : List UInt8)
    (hr : (exec (apply sha1 infoHash) new ops).Restarts sha1 infoHash piece data) :
    let restarted := ((exec (apply sha1 infoHash) new ops).addPiece sha1 infoHash piece data).2
    (∀ later size, MetadataAssembler.Acceptable size →
      ((∃ t, (exec (apply sha1 infoHash) restarted later).initSize size = .ok t) ↔
        announced ops = some size)) ∧
    (restarted.result = none → ∀ info, sha1 info = infoHash →
      (restarted.Recovers sha1 infoHash info ↔ announced ops = some info.length)) ∧
    ∀ later info, sha1 info = infoHash →
      (exec (apply sha1 infoHash) restarted later).result = none →
      (∀ assembler ∈ (exec (apply sha1 infoHash) restarted later).assembler,
        assembler.Agrees info) →
      ((exec (apply sha1 infoHash) restarted later).Recovers sha1 infoHash info ↔
        announced ops = some info.length) := by
  intro restarted
  obtain ⟨hsound, hsize⟩ := sound_exec sha1 infoHash sound_new ops
  obtain ⟨hsound', hsize'⟩ := sound_addPiece hsound (added_addPiece sha1 infoHash hsound piece data)
  obtain ⟨fresh, hrestarted, hempty⟩ := restart_spec hsound hr
  have hfixed : restarted.size = some fresh.metadataSize := by
    change Shared.size (addPiece sha1 infoHash _ piece data).2 = _
    rw [hrestarted]
    rfl
  have hannounced : announced ops = some fresh.metadataSize :=
    hsize.symm.trans (hsize'.symm.trans hfixed)
  have hlater (later : List Op) : (exec (apply sha1 infoHash) restarted later).Sound ∧
      (exec (apply sha1 infoHash) restarted later).size = announced ops := by
    obtain ⟨hs, hz⟩ := sound_exec sha1 infoHash hsound' later
    refine ⟨hs, hz.trans ?_⟩
    change restarted.size.or _ = _
    rw [hfixed, hannounced, Option.some_or]
  have hassembler (later : List Op) :
      ∃ assembler, (exec (apply sha1 infoHash) restarted later).assembler = some assembler := by
    have hz := (hlater later).2
    rw [hannounced, Shared.size, Option.map_eq_some_iff] at hz
    obtain ⟨assembler, ha, -⟩ := hz
    exact ⟨assembler, ha⟩
  refine ⟨fun later size _ => ?_, fun hresult info hinfo => ?_,
    fun later info hinfo hresult hagrees => ?_⟩
  · rw [initSize_ok_iff (Option.isSome_iff_exists.mpr (hassembler later)) size, (hlater later).2]
  · have ha : restarted.assembler = some fresh := by
      change (addPiece sha1 infoHash _ piece data).2.assembler = _
      rw [hrestarted]
    have hagrees : fresh.Agrees info := by
      intro i hi
      rw [hempty] at hi
      exact absurd hi (Finset.notMem_empty _)
    rw [recovers_iff hinfo hsound' hresult ha hagrees, hfixed, hannounced]
  · obtain ⟨assembler, ha⟩ := hassembler later
    rw [recovers_iff hinfo (hlater later).1 hresult ha (hagrees assembler ha), (hlater later).2]

theorem restart_recovers_true :
    let sha1 (bytes : List UInt8) : Digest :=
      if bytes = [0x64, 0x65] then ⟨[0x60, 0x0c, 0xcd, 0x1b, 0x71, 0x56, 0x92, 0x32, 0xd0, 0x1d, 0x11, 0x0b,
        0xc6, 0x3e, 0x90, 0x6b, 0xea, 0xb0, 0x4d, 0x8c], rfl⟩
      else ⟨[0x14, 0x89, 0xf9, 0x23, 0xc4, 0xdc, 0xa7, 0x29, 0x17, 0x8b, 0x3e, 0x32,
        0x33, 0x45, 0x85, 0x50, 0xd8, 0xdd, 0xdf, 0x29], rfl⟩
    let restarted := ((exec (apply sha1 (sha1 [0x64, 0x65])) new [.initSize 2]).addPiece sha1
      (sha1 [0x64, 0x65]) 0 [0, 0]).2
    restarted.Recovers sha1 (sha1 [0x64, 0x65]) [0x64, 0x65] := by
  intro sha1 restarted
  have hr : (exec (apply sha1 (sha1 [0x64, 0x65])) new [.initSize 2]).Restarts sha1
      (sha1 [0x64, 0x65]) 0 [0, 0] :=
    ⟨_, _, rfl, rfl, by decide⟩
  have hrecovers := (restart_recovers sha1 (sha1 [0x64, 0x65]) [.initSize 2] 0 [0, 0] hr).2.1
  exact (hrecovers rfl [0x64, 0x65] rfl).mpr rfl

/-- A peer that announces a wrong size first, and sends that much, locks the true size out. -/
theorem restart_locked :
    let sha1 (bytes : List UInt8) : Digest :=
      if bytes = [0x64, 0x65] then ⟨[0x60, 0x0c, 0xcd, 0x1b, 0x71, 0x56, 0x92, 0x32, 0xd0, 0x1d, 0x11, 0x0b,
        0xc6, 0x3e, 0x90, 0x6b, 0xea, 0xb0, 0x4d, 0x8c], rfl⟩
      else ⟨[0x5b, 0xa9, 0x3c, 0x9d, 0xb0, 0xcf, 0xf9, 0x3f, 0x52, 0xb5, 0x21, 0xd7,
        0x42, 0x0e, 0x43, 0xf6, 0xed, 0xa2, 0x78, 0x4f], rfl⟩
    let s := exec (apply sha1 (sha1 [0x64, 0x65])) new [.initSize 1]
    s.result = none ∧ s.Restarts sha1 (sha1 [0x64, 0x65]) 0 [0] ∧
      MetadataAssembler.Acceptable [0x64, 0x65].length ∧
      ¬ ∃ t, (s.addPiece sha1 (sha1 [0x64, 0x65]) 0 [0]).2.initSize [0x64, 0x65].length = .ok t := by
  refine ⟨rfl, ⟨_, _, rfl, rfl, by decide⟩, by decide, ?_⟩
  rintro ⟨t, ht⟩
  cases ht

end Tortor.Net.Shared
