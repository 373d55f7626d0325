import Tortor.Core.Selection
import Tortor.Lib.FileStore

namespace Tortor.Core

open Tortor.Lib (Inode FileStore)

/-- `tokio::fs` outside Linux, io_uring on Linux. -/
inductive Backend
  | standard
  | uring
  deriving DecidableEq

/-- What the operating system does with one request; file operations are told apart by the
index of the file. -/
structure Io where
  /-- How many bytes still reach a file before a write fails. -/
  writeBudget : Option Nat
  /-- `write_all` of `tokio::fs::File` returns before the write is done; so many bytes at the end of
  what it was given are never written.  Nothing asks for the error before the next write to the
  file, which then fails in its place. -/
  lost : Nat → Nat
  openFails : Nat → Bool
  sizeFails : Nat → Bool
  reopenFails : Nat → Bool
  readFails : Nat → Bool
  syncFails : Nat → Bool
  closeFails : Nat → Bool

def Io.calm : Io where
  writeBudget := none
  lost _ := 0
  openFails _ := false
  sizeFails _ := false
  reopenFails _ := false
  readFails _ := false
  syncFails _ := false
  closeFails _ := false

/-- io_uring waits for every write. -/
def Io.lostBy (io : Io) : Backend → Nat → Nat
  | .standard => io.lost
  | .uring => fun _ => 0

@[simp] theorem Io.lostBy_calm (backend : Backend) : Io.calm.lostBy backend = fun _ => 0 := by
  cases backend <;> rfl

/-- Where one torrent file lives on disk and which byte range it covers. -/
structure FilePlan where
  path : Path
  start : Nat
  stop : Nat
  deriving DecidableEq

def planFiles (windows : Bool) (base : Path) (name : String) (isMulti : Bool) :
    List TorrentFile → (offset : Nat) → Except PathError (List FilePlan)
  | [], _ => .ok []
  | file :: files, offset => do
    let path ← buildFilePath windows base name isMulti file.path
    let rest ← planFiles windows base name isMulti files (offset + file.length)
    return ⟨path, offset, offset + file.length⟩ :: rest

theorem planFiles_cons_ok {windows : Bool} {base : Path} {name : String} {isMulti : Bool}
    {file : TorrentFile} {files : List TorrentFile} {offset : Nat} {plans : List FilePlan}
    (h : planFiles windows base name isMulti (file :: files) offset = .ok plans) :
    ∃ path rest, buildFilePath windows base name isMulti file.path = .ok path ∧
      planFiles windows base name isMulti files (offset + file.length) = .ok rest ∧
      plans = ⟨path, offset, offset + file.length⟩ :: rest := by
  rw [planFiles] at h
  cases hpath : buildFilePath windows base name isMulti file.path with
  | error err => rw [hpath] at h; cases h
  | ok path =>
    cases hrest : planFiles windows base name isMulti files (offset + file.length) with
    | error err => rw [hpath, hrest] at h; cases h
    | ok rest =>
      rw [hpath, hrest] at h
      cases h
      exact ⟨path, rest, rfl, rfl, rfl⟩

def openPreallocated (io : Io) (index length : Nat) (inode : Option Inode) : Bool × Option Inode :=
  if io.openFails index then (false, inode)
  else
    let created := inode.getD .empty
    if io.sizeFails index then (false, some created)
    else if created.len ≠ length then (true, some (created.setLen length))
    else (true, some created)

def isSelected (selected : Option (List Bool)) (index : Nat) : Bool :=
  match selected with
  | some flags => flags.getD index true
  | none => true

structure FileMapping where
  path : Path
  /-- `file.is_some()`: the handle that is held leads to the file at `path`.  Without one
  the file is not downloaded and its bytes are discarded. -/
  opened : Bool
  startOffset : Nat
  endOffset : Nat
  dirty : Bool
  deriving DecidableEq

structure Disk where
  backend : Backend
  files : List FileMapping
  pieceLength : Nat
  deriving DecidableEq

/-- Visits the files in order and stops at the first failure, as `?` in a loop does.  A visit
concerns one mapping and the file it names. -/
def walkFiles (visit : Nat → FileMapping → Option Inode → Bool × FileMapping × Option Inode) :
    (index : Nat) → List FileMapping → FileStore Path → Bool × List FileMapping × FileStore Path
  | _, [], fs => (true, [], fs)
  | index, mapping :: rest, fs =>
    match visit index mapping (fs mapping.path) with
    | (false, mapping', inode) => (false, mapping' :: rest, fs.set mapping.path inode)
    | (true, mapping', inode) =>
      let (ok, rest', fs') := walkFiles visit (index + 1) rest (fs.set mapping.path inode)
      (ok, mapping' :: rest', fs')

def openFile (backend : Backend) (io : Io) (index : Nat) (mapping : FileMapping)
    (inode : Option Inode) : Bool × FileMapping × Option Inode :=
  match openPreallocated io index (mapping.endOffset - mapping.startOffset) inode with
  | (false, inode) => (false, mapping, inode)
  | (true, inode) =>
    if backend = .uring ∧ io.reopenFails index then (false, mapping, inode)
    else (true, { mapping with opened := true }, inode)

/-- Data already on disk stays there; the handle is just released.  It is gone before the
file is synced. -/
def releaseFile (backend : Backend) (io : Io) (index : Nat) (mapping : FileMapping)
    (inode : Option Inode) : Bool × FileMapping × Option Inode :=
  let taken := { mapping with opened := false }
  if io.syncFails index then (false, taken, inode)
  else if backend = .uring ∧ io.closeFails index then (false, taken, inode.map Inode.sync)
  else (true, { taken with dirty := false }, inode.map Inode.sync)

def locate (files : List FileMapping) (offset : Nat) : Option (Nat × FileMapping) :=
  let idx := files.findIdx fun m => decide (offset < m.endOffset)
  match files[idx]? with
  | some mapping => if mapping.startOffset ≤ offset then some (idx, mapping) else none
  | none => none

namespace Disk

def initVisit (backend : Backend) (io : Io) (selected : Option (List Bool)) (index : Nat)
    (mapping : FileMapping) (inode : Option Inode) : Bool × FileMapping × Option Inode :=
  if isSelected selected index then openFile backend io index mapping inode
  else (true, mapping, inode)

/-- Files whose entry in `selected` is `false` are not created.  Without files the torrent
is the single file `name`. -/
def initWithSelection (backend : Backend) (windows : Bool) (base : Path) (totalSize : Nat)
    (pieceLength : Nat) (filesMeta : Option (List TorrentFile)) (name : String)
    (selected : Option (List Bool)) (io : Io) (fs : FileStore Path) :
    Option Disk × FileStore Path :=
  match planFiles windows base name filesMeta.isSome (filesMeta.getD [⟨totalSize, [name]⟩]) 0 with
  | .error _ => (none, fs)
  | .ok plans =>
    let closed := plans.map fun plan => ⟨plan.path, false, plan.start, plan.stop, false⟩
    match walkFiles (initVisit backend io selected) 0 closed fs with
    | (false, _, fs) => (none, fs)
    | (true, files, fs) => (some ⟨backend, files, pieceLength⟩, fs)

def flushVisit (io : Io) (index : Nat) (mapping : FileMapping) (inode : Option Inode) :
    Bool × FileMapping × Option Inode :=
  if !mapping.dirty then (true, mapping, inode)
  else if mapping.opened then
    if io.syncFails index then (false, mapping, inode)
    else (true, { mapping with dirty := false }, inode.map Inode.sync)
  else (true, { mapping with dirty := false }, inode)

def flush (self : Disk) (io : Io) (fs : FileStore Path) : Bool × Disk × FileStore Path :=
  let (ok, files, fs) := walkFiles (flushVisit io) 0 self.files fs
  (ok, { self with files := files }, fs)

def selectionVisit (backend : Backend) (io : Io) (selected : List Bool) (index : Nat)
    (mapping : FileMapping) (inode : Option Inode) : Bool × FileMapping × Option Inode :=
  match isSelected (some selected) index, mapping.opened with
  | true, false => openFile backend io index mapping inode
  | false, true => releaseFile backend io index mapping inode
  | _, _ => (true, mapping, inode)

def setSelection (self : Disk) (io : Io) (selected : List Bool) (fs : FileStore Path) :
    Bool × Disk × FileStore Path :=
  let (ok, files, fs) := walkFiles (selectionVisit self.backend io selected) 0 self.files fs
  (ok, { self with files := files }, fs)

/-- The loop of `write_piece`; every round moves on by at least one byte.  When a write
fails, the bytes before the failure are in the file and the file is not marked dirty. -/
def writeLoop (lost : Nat → Nat) (pieceOffset : Nat) (data : List UInt8) :
    (fuel : Nat) → (budget : Option Nat) → (written : Nat) → List FileMapping → FileStore Path →
      Bool × List FileMapping × FileStore Path
  | 0, _, _, files, fs => (true, files, fs)
  | fuel + 1, budget, written, files, fs =>
    if data.length ≤ written then (true, files, fs)
    else
      let current := pieceOffset + written
      match locate files current with
      | none => (false, files, fs)
      | some (idx, mapping) =>
        let toWrite := min (data.length - written) (mapping.endOffset - current)
        if mapping.opened then
          let slice := (data.drop written).take toWrite
          let write (slice : List UInt8) : FileStore Path := fs.set mapping.path
            ((fs mapping.path).map fun inode => inode.writeAt (current - mapping.startOffset) slice)
          match budget with
          | some bytes =>
            if bytes < toWrite then (false, files, write (slice.take bytes))
            else writeLoop lost pieceOffset data fuel (some (bytes - toWrite)) (written + toWrite)
              (files.set idx { mapping with dirty := true }) (write (slice.take (toWrite - lost idx)))
          | none => writeLoop lost pieceOffset data fuel none (written + toWrite)
              (files.set idx { mapping with dirty := true }) (write (slice.take (toWrite - lost idx)))
        else writeLoop lost pieceOffset data fuel budget (written + toWrite) files fs

def writePiece (self : Disk) (io : Io) (pieceIndex : Nat) (data : List UInt8)
    (fs : FileStore Path) : Bool × Disk × FileStore Path :=
  let (ok, files, fs) := writeLoop (io.lostBy self.backend) (pieceIndex * self.pieceLength) data
    (data.length + 1) io.writeBudget 0 self.files fs
  (ok, { self with files := files }, fs)

/-- The loop of `read_piece`.  Files that are not downloaded read as zeros. -/
def readLoop (io : Io) (files : List FileMapping) (fs : FileStore Path) (absoluteOffset len : Nat) :
    (fuel : Nat) → (buffer : List UInt8) → Option (List UInt8)
  | 0, buffer => some buffer
  | fuel + 1, buffer =>
    if len ≤ buffer.length then some buffer
    else
      let current := absoluteOffset + buffer.length
      match locate files current with
      | none => none
      | some (idx, mapping) =>
        let toRead := min (len - buffer.length) (mapping.endOffset - current)
        if mapping.opened then
          if io.readFails idx then none
          else
            match (fs mapping.path).bind fun inode =>
              inode.readAt (current - mapping.startOffset) toRead with
            | none => none
            | some bytes => readLoop io files fs absoluteOffset len fuel (buffer ++ bytes)
        else readLoop io files fs absoluteOffset len fuel (buffer ++ List.replicate toRead 0)

def readPiece (self : Disk) (io : Io) (pieceIndex offset len : Nat) (fs : FileStore Path) :
    Option (List UInt8) :=
  readLoop io self.files fs (pieceIndex * self.pieceLength + offset) len (len + 1) []

end Disk
end Tortor.Core
