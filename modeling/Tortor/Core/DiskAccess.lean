import Tortor.Core.Disk
import Tortor.Lib.Checked
import Tortor.Lib.Transfer

/-! `write_piece` and `read_piece` of both disks with machine arithmetic and with system calls that
may transfer less than they are asked for.  The four loops go through the files in the same way. -/

namespace Tortor.Core

open Tortor.Lib

inductive Fault
  | overflow
  | outOfBounds
  | stuck
  | io
  deriving DecidableEq

/-- `plan_files` adds up the lengths in a `u64`. -/
def planWords (windows : Bool) (base : Path) (name : String) (isMulti : Bool) :
    List TorrentFile → (offset : Nat) → Option (Except PathError (List FilePlan))
  | [], _ => some (.ok [])
  | file :: files, offset =>
    match buildFilePath windows base name isMulti file.path with
    | .error err => some (.error err)
    | .ok path =>
      match Checked.add 64 offset file.length with
      | none => none
      | some stop =>
        match planWords windows base name isMulti files stop with
        | some (.ok rest) => some (.ok (⟨path, offset, stop⟩ :: rest))
        | early => early

section Plan

variable {windows : Bool} {base : Path} {name : String} {isMulti : Bool}
  {files : List TorrentFile} {offset : Nat}

theorem planWords_eq (h : offset + (files.map (·.length)).sum < 2 ^ 64) :
    planWords windows base name isMulti files offset =
      some (planFiles windows base name isMulti files offset) := by
  induction files generalizing offset with
  | nil => rfl
  | cons file files ih =>
    rw [List.map_cons, List.sum_cons] at h
    rw [planWords, planFiles]
    cases buildFilePath windows base name isMulti file.path with
    | error err => rfl
    | ok path =>
      have hstop : offset + file.length < 2 ^ 64 := by omega
      simp only [Checked.add_of_lt hstop]
      rw [ih (by omega)]
      cases planFiles windows base name isMulti files (offset + file.length) with
      | error err => rfl
      | ok rest => rfl

theorem planFiles_of_planWords {plans : List FilePlan}
    (h : planWords windows base name isMulti files offset = some (.ok plans))
    (hoffset : offset < 2 ^ 64) : planFiles windows base name isMulti files offset = .ok plans ∧
      offset + (files.map (·.length)).sum < 2 ^ 64 := by
  induction files generalizing offset plans with
  | nil =>
    cases h
    exact ⟨rfl, hoffset⟩
  | cons file files ih =>
    rw [planWords] at h
    rw [planFiles, List.map_cons, List.sum_cons]
    cases hpath : buildFilePath windows base name isMulti file.path with
    | error err => rw [hpath] at h; cases h
    | ok path =>
      simp only [hpath] at h
      by_cases hstop : offset + file.length < 2 ^ 64
      · rw [Checked.add_of_lt hstop] at h
        cases hrest : planWords windows base name isMulti files (offset + file.length) with
        | none => simp only [hrest] at h; cases h
        | some result =>
          cases result with
          | error err => simp only [hrest] at h; cases h
          | ok rest =>
            simp only [hrest] at h
            cases h
            obtain ⟨hplan, htotal⟩ := ih hrest hstop
            rw [hplan]
            exact ⟨rfl, by omega⟩
      · rw [Checked.add, Checked.fit, if_neg hstop] at h
        cases h

end Plan

section Loop

universe u

variable {σ : Type u}

/-- The rounds over the bytes `start..start + len` of the torrent.  `body` does one round for the
next `n` bytes, which lie `fileOffset` bytes into the file, after `done` bytes have been passed.
`usize` has 64 bits. -/
def accessLoop (filesOf : σ → List FileMapping)
    (body : Nat → FileMapping → (fileOffset done n : Nat) → σ → Bool × σ) (start len : Nat) :
    (fuel : Nat) → (done : Nat) → σ → Option Fault × σ
  | 0, _, s => (some .stuck, s)
  | fuel + 1, done, s =>
    if len ≤ done then (none, s)
    else match Checked.add 64 start done with
      | none => (some .overflow, s)
      | some current =>
        match locate (filesOf s) current with
        | none => (some .outOfBounds, s)
        | some (idx, mapping) =>
          match Checked.sub current mapping.startOffset, Checked.sub mapping.endOffset current with
          | some fileOffset, some available =>
            let n := min (len - done) available
            if n = 0 then (some .stuck, s)
            else match body idx mapping fileOffset done n s with
              | (false, s) => (some .io, s)
              | (true, s) => accessLoop filesOf body start len fuel (done + n) s
          | _, _ => (some .overflow, s)

theorem locate_bounds {files : List FileMapping} {x i : Nat} {m : FileMapping}
    (h : locate files x = some (i, m)) :
    files[i]? = some m ∧ m.startOffset ≤ x ∧ x < m.endOffset := by
  simp only [locate] at h
  split at h
  case h_2 => cases h
  case h_1 found hfound =>
    split at h
    case isFalse => cases h
    case isTrue hstart =>
      cases h
      obtain ⟨hlt, rfl⟩ := List.getElem?_eq_some_iff.mp hfound
      have hend := List.findIdx_getElem (w := hlt)
      exact ⟨hfound, hstart, decide_eq_true_eq.mp hend⟩

variable {filesOf : σ → List FileMapping}
  {body : Nat → FileMapping → (fileOffset done n : Nat) → σ → Bool × σ} {start len : Nat}

inductive AccessEnds (filesOf : σ → List FileMapping)
    (body : Nat → FileMapping → (fileOffset done n : Nat) → σ → Bool × σ) (start len : Nat)
    (P : Nat → σ → Prop) : Option Fault × σ → Prop
  | complete {done : Nat} {s : σ} (hP : P done s) (hdone : done = len) :
      AccessEnds filesOf body start len P (none, s)
  | outside {done : Nat} {s : σ} (hP : P done s) (hdone : done < len)
      (hnone : locate (filesOf s) (start + done) = none) :
      AccessEnds filesOf body start len P (some .outOfBounds, s)
  | failed {done idx : Nat} {m : FileMapping} {s s' : σ} (hP : P done s) (hdone : done < len)
      (hfound : locate (filesOf s) (start + done) = some (idx, m))
      (hbody : body idx m (start + done - m.startOffset) done
        (min (len - done) (m.endOffset - (start + done))) s = (false, s')) :
      AccessEnds filesOf body start len P (some .io, s')

/-- The rule for the loop: neither overflow nor standstill is possible. -/
theorem accessLoop_ends {P : Nat → σ → Prop}
    (hword : ∀ done s, P done s → start + done < 2 ^ 64)
    (hround : ∀ done s idx m, P done s → done < len →
      locate (filesOf s) (start + done) = some (idx, m) → ∀ n s', 0 < n → done + n ≤ len →
      start + done + n ≤ m.endOffset → n = min (len - done) (m.endOffset - (start + done)) →
      body idx m (start + done - m.startOffset) done n s = (true, s') → P (done + n) s')
    {fuel done : Nat} {s : σ} (hP : P done s) (hle : done ≤ len) (hfuel : len < fuel + done) :
    AccessEnds filesOf body start len P (accessLoop filesOf body start len fuel done s) := by
  induction fuel generalizing done s with
  | zero => omega
  | succ fuel ih =>
    rw [accessLoop]
    by_cases hend : len ≤ done
    · rw [if_pos hend]
      exact .complete hP (Nat.le_antisymm hle hend)
    rw [if_neg hend, Checked.add_of_lt (hword done s hP)]
    have hlt : done < len := Nat.not_le.mp hend
    cases hfound : locate (filesOf s) (start + done) with
    | none =>
      simp only [hfound]
      exact .outside hP hlt hfound
    | some found =>
      obtain ⟨idx, m⟩ := found
      obtain ⟨-, hstart, hstop⟩ := locate_bounds hfound
      obtain ⟨n, hn⟩ : ∃ n, n = min (len - done) (m.endOffset - (start + done)) := ⟨_, rfl⟩
      simp only [hfound, Checked.sub_of_le hstart, Checked.sub_of_le (Nat.le_of_lt hstop), ← hn]
      rw [if_neg (by omega)]
      rcases hbody : body idx m (start + done - m.startOffset) done n s with ⟨_ | _, s'⟩
      · exact .failed hP hlt hfound (hn ▸ hbody)
      · exact ih (hround done s idx m hP hlt hfound n s' (by omega) (by omega) (by omega) hn hbody)
          (by omega) (by omega)

end Loop

def writePieceWith (body : Nat → FileMapping → (fileOffset done n : Nat) →
      List FileMapping × FileStore Path → Bool × List FileMapping × FileStore Path)
    (self : Disk) (pieceIndex : Nat) (data : List UInt8) (fs : FileStore Path) :
    Option Fault × Disk × FileStore Path :=
  match Checked.mul 64 pieceIndex self.pieceLength with
  | none => (some .overflow, self, fs)
  | some pieceOffset =>
    let (fault, files, fs) := accessLoop Prod.fst body pieceOffset data.length
      (data.length + 1) 0 (self.files, fs)
    (fault, { self with files := files }, fs)

def readPieceWith (buffer : List UInt8)
    (body : Nat → FileMapping → (fileOffset done n : Nat) → List UInt8 → Bool × List UInt8)
    (self : Disk) (pieceIndex offset len : Nat) : Except Fault (List UInt8) :=
  match (Checked.mul 64 pieceIndex self.pieceLength).bind (Checked.add 64 · offset) with
  | none => .error .overflow
  | some absoluteOffset =>
    match accessLoop (fun _ => self.files) body absoluteOffset len (len + 1) 0 buffer with
    | (none, buffer) => .ok buffer
    | (some fault, _) => .error fault

namespace StandardDisk

def writeBody (os : Nat → Transfer) (data : List UInt8) (idx : Nat) (mapping : FileMapping)
    (fileOffset done n : Nat) (s : List FileMapping × FileStore Path) :
    Bool × List FileMapping × FileStore Path :=
  if mapping.opened then
    match (s.2 mapping.path).bind fun inode =>
      inode.writeAll (os idx) (n + 1) fileOffset ((data.drop done).take n) with
    | some inode =>
      (true, s.1.set idx { mapping with dirty := true }, s.2.set mapping.path (some inode))
    | none => (false, s)
  else (true, s)

def writePiece (os : Nat → Transfer) (self : Disk) (pieceIndex : Nat) (data : List UInt8)
    (fs : FileStore Path) : Option Fault × Disk × FileStore Path :=
  writePieceWith (writeBody os data) self pieceIndex data fs

/-- `seek`, then `read_exact` into the part of the buffer that comes next.  Files that are not
downloaded read as zeros. -/
def readBody (os : Nat → Transfer) (fs : FileStore Path) (idx : Nat) (mapping : FileMapping)
    (fileOffset done n : Nat) (buffer : List UInt8) : Bool × List UInt8 :=
  if mapping.opened then
    match (fs mapping.path).bind fun inode => inode.readExact (os idx) (n + 1) fileOffset n with
    | some bytes => (true, buffer.take done ++ bytes ++ buffer.drop (done + n))
    | none => (false, buffer)
  else (true, buffer)

def readPiece (os : Nat → Transfer) (self : Disk) (pieceIndex offset len : Nat)
    (fs : FileStore Path) : Except Fault (List UInt8) :=
  readPieceWith (List.replicate len 0) (readBody os fs) self pieceIndex offset len

end StandardDisk

namespace UringDisk

/-- io_uring writes may be partial, so keep going until everything is written. -/
def writeFully (t : Transfer) (buf : List UInt8) (pos : Nat) :
    (fuel : Nat) → (done : Nat) → Inode → Option Inode
  | 0, _, _ => none
  | fuel + 1, done, file =>
    if buf.length ≤ done then some file
    else
      let (written, file) := file.writeSome t (pos + done) (buf.drop done)
      if written = 0 then none else writeFully t buf pos fuel (done + written) file

def readFully (t : Transfer) (file : Inode) (len pos : Nat) :
    (fuel : Nat) → (done : Nat) → (buf : List UInt8) → Option (List UInt8)
  | 0, _, _ => none
  | fuel + 1, done, buf =>
    if len ≤ done then some buf
    else
      let bytes := file.readSome t (pos + done) (len - done)
      if bytes.isEmpty then none
      else readFully t file len pos fuel (done + bytes.length)
        (buf.take done ++ bytes ++ buf.drop (done + bytes.length))

def writeBody (os : Nat → Transfer) (data : List UInt8) (idx : Nat) (mapping : FileMapping)
    (fileOffset done n : Nat) (s : List FileMapping × FileStore Path) :
    Bool × List FileMapping × FileStore Path :=
  if mapping.opened then
    let slice := (data.drop done).take n
    match (s.2 mapping.path).bind (writeFully (os idx) slice fileOffset (n + 1) 0) with
    | some inode =>
      (true, s.1.set idx { mapping with dirty := true }, s.2.set mapping.path (some inode))
    | none => (false, s)
  else (true, s)

def writePiece (os : Nat → Transfer) (self : Disk) (pieceIndex : Nat) (data : List UInt8)
    (fs : FileStore Path) : Option Fault × Disk × FileStore Path :=
  writePieceWith (writeBody os data) self pieceIndex data fs

/-- Each part is read into a buffer of its own, which is put behind the others. -/
def readBody (os : Nat → Transfer) (fs : FileStore Path) (idx : Nat) (mapping : FileMapping)
    (fileOffset _ n : Nat) (finalBuffer : List UInt8) : Bool × List UInt8 :=
  if mapping.opened then
    match (fs mapping.path).bind fun inode =>
      readFully (os idx) inode n fileOffset (n + 1) 0 (List.replicate n 0) with
    | some buffer => (true, finalBuffer ++ buffer)
    | none => (false, finalBuffer)
  else (true, finalBuffer ++ List.replicate n 0)

def readPiece (os : Nat → Transfer) (self : Disk) (pieceIndex offset len : Nat)
    (fs : FileStore Path) : Except Fault (List UInt8) :=
  readPieceWith [] (readBody os fs) self pieceIndex offset len

variable {t : Transfer} {file : Inode} {pos len done fuel : Nat} {buf : List UInt8}

/-- A loop that counts what it has written does what one does that shortens its buffer. -/
theorem writeFully_eq_writeAll :
    writeFully t buf pos fuel done file = file.writeAll t fuel (pos + done) (buf.drop done) := by
  induction fuel generalizing done file with
  | zero => rfl
  | succ fuel ih =>
    rw [writeFully, Inode.writeAll]
    by_cases hend : buf.length ≤ done
    · rw [if_pos hend, List.drop_of_length_le hend]
      rfl
    · have hmore : (buf.drop done).isEmpty = false := by
        rw [List.isEmpty_eq_false_iff, ne_eq, List.drop_eq_nil_iff]
        exact hend
      simp only [hend, if_false, hmore, Bool.false_eq_true]
      split
      · rfl
      · rw [ih, List.drop_drop, Nat.add_assoc]

theorem writeBody_eq (os : Nat → Transfer) (data : List UInt8) :
    writeBody os data = StandardDisk.writeBody os data := by
  funext idx mapping fileOffset done n s
  simp only [writeBody, StandardDisk.writeBody, writeFully_eq_writeAll, Nat.add_zero,
    List.drop_zero]

theorem readFully_eq_readExact (hle : done ≤ len) (hbuf : buf.length = len) :
    readFully t file len pos fuel done buf =
      (file.readExact t fuel (pos + done) (len - done)).map (buf.take done ++ ·) := by
  induction fuel generalizing done buf with
  | zero => rfl
  | succ fuel ih =>
    rw [readFully, Inode.readExact]
    by_cases hend : len ≤ done
    · rw [if_pos hend, if_pos (Nat.sub_eq_zero_of_le hend), Option.map_some, List.append_nil,
        List.take_of_length_le (hbuf ▸ hend)]
    · have hmore : ¬ len - done = 0 := by omega
      rw [if_neg hend, if_neg hmore]
      obtain ⟨bytes, hbytes⟩ : ∃ bytes, file.readSome t (pos + done) (len - done) = bytes :=
        ⟨_, rfl⟩
      have hshort : bytes.length ≤ len - done := by
        have hsize := t.le (pos + done) (min (len - done) (file.len - (pos + done)))
        rw [← hbytes, Inode.readSome, List.length_map, List.length_range]
        omega
      simp only [hbytes]
      cases bytes.isEmpty with
      | true => rfl
      | false =>
        have hfront : (buf.take done ++ bytes).length = done + bytes.length := by
          rw [List.length_append, List.length_take, hbuf, Nat.min_eq_left hle]
        have htaken : (buf.take done ++ bytes ++ buf.drop (done + bytes.length)).take
            (done + bytes.length) = buf.take done ++ bytes := by
          rw [← hfront, List.take_left]
        have hbuf' : (buf.take done ++ bytes ++ buf.drop (done + bytes.length)).length = len := by
          rw [List.length_append, hfront, List.length_drop, hbuf]
          omega
        simp only [Bool.false_eq_true, if_false]
        rw [ih (by omega) hbuf', htaken, Option.map_map, Nat.add_assoc, Nat.sub_sub]
        congr 1
        funext rest
        rw [Function.comp_apply, List.append_assoc]

end UringDisk
end Tortor.Core
