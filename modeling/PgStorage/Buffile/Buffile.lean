import PgStorage.Lib.Memory

/-! Buffered temporary files.

A `BufFile` is one buffer over a row of temporary files of at most a gigabyte each. `none` is an error:
the arrays of files are allocated in one piece. A read or write of the kernel may transfer less than was
asked for, but at least one byte; `io` says how much the transfers of a run are limited to. Assertions
are left out. -/
namespace PgStorage.Buffile
open Memory

def blcksz : Nat := 8192

def maxPhysicalFilesize : Nat := 0x40000000

def buffileSegSize : Nat := maxPhysicalFilesize / blcksz

def maxAllocSize : Nat := 0x3fffffff

/-- A temporary file with its seek position. -/
structure TempFile where
  bytes : List UInt8
  seekPos : Nat

namespace TempFile

def fileSeek (t : TempFile) (offset : Nat) : TempFile := {t with seekPos := offset}

/-- The bytes that are read; `limit` bounds a transfer. -/
def fileRead (t : TempFile) (amount limit : Nat) : TempFile × List UInt8 :=
  let data := ((t.bytes.drop t.seekPos).take amount).take (max 1 limit)
  ({t with seekPos := t.seekPos + data.length}, data)

/-- The number of bytes that are written. -/
def fileWrite (t : TempFile) (data : List UInt8) (limit : Nat) : TempFile × Nat :=
  let data := data.take (max 1 limit)
  let before := t.bytes.take t.seekPos ++ List.replicate (t.seekPos - t.bytes.length) 0
  (⟨before ++ data ++ t.bytes.drop (t.seekPos + data.length), t.seekPos + data.length⟩, data.length)

end TempFile

/-! ### `BufFile` -/

structure BufFile where
  files : List TempFile
  /-- The seek positions of the files, to avoid redundant seeks. -/
  offsets : List Nat
  isTemp : Bool
  dirty : Bool
  /-- The position of the start of the buffer. -/
  curFile : Nat
  curOffset : Nat
  pos : Nat
  nbytes : Nat
  buffer : Mem
  /-- How many transfers there have been. -/
  transfers : Nat

inductive Whence
  | set
  | cur
  deriving DecidableEq

namespace BufFile

def numFiles (f : BufFile) : Nat := f.files.length

def thisfile (f : BufFile) : TempFile := f.files.getD f.curFile ⟨[], 0⟩

def setThisfile (f : BufFile) (t : TempFile) : BufFile := {f with files := f.files.set f.curFile t}

def bufFileCreateTemp (buffer : Mem) : BufFile where
  files := [⟨[], 0⟩]
  offsets := [0]
  isTemp := true
  dirty := false
  curFile := 0
  curOffset := 0
  pos := 0
  nbytes := 0
  buffer := buffer
  transfers := 0

/-- The array of 64-bit offsets is the larger one of the two. -/
def extendBufFile (f : BufFile) : Option BufFile :=
  if (f.numFiles + 1) * 8 ≤ maxAllocSize then
    some {f with files := f.files ++ [⟨[], 0⟩], offsets := f.offsets ++ [0]}
  else none

/-- The physical file is repositioned, where it is not in place. -/
def reposition (f : BufFile) : BufFile :=
  if f.curOffset ≠ f.offsets.getD f.curFile 0 then
    {f.setThisfile (f.thisfile.fileSeek f.curOffset) with offsets := f.offsets.set f.curFile f.curOffset}
  else f

/-- The offset of the current file advances with a transfer. -/
def advance (f : BufFile) (n : Nat) : BufFile :=
  {f with
    offsets := f.offsets.set f.curFile (f.offsets.getD f.curFile 0 + n)
    transfers := f.transfers + 1}

variable (io : Nat → Nat)

/-- To the next component file, if this one is at its end and there is one. -/
def advanceFile (f : BufFile) : BufFile :=
  if f.curOffset ≥ maxPhysicalFilesize ∧ f.curFile + 1 < f.numFiles then
    {f with curFile := f.curFile + 1, curOffset := 0}
  else f

/-- Whatever can be read, up to a full buffer. -/
def readHere (f : BufFile) : BufFile :=
  let r := f.reposition.thisfile.fileRead blcksz (io f.transfers)
  {(f.reposition.setThisfile r.1).advance r.2.length with
    nbytes := r.2.length, buffer := memcpy f.buffer 0 r.2}

def bufFileLoadBuffer (f : BufFile) : BufFile := f.advanceFile.readHere io

/-- `while (file->curFile + 1 >= file->numFiles) extendBufFile(file)`, in `n` rounds. -/
def extendFiles : Nat → BufFile → Option BufFile
  | 0, f => some f
  | n + 1, f => f.extendBufFile.bind (extendFiles n)

/-- To the next component file, if this one is full. -/
def nextFile (f : BufFile) : Option BufFile :=
  if f.curOffset ≥ maxPhysicalFilesize ∧ f.isTemp = true then
    (extendFiles (f.curFile + 2 - f.numFiles) f).map fun f => {f with curFile := f.curFile + 1, curOffset := 0}
  else some f

/-- The loop of `BufFileDumpBuffer`; the flag says whether the whole buffer is written. A round writes
one byte at least. -/
def dumpLoop : Nat → BufFile → Nat → Option (BufFile × Bool)
  | 0, f, wpos => some (f, decide (f.nbytes ≤ wpos))
  | fuel + 1, f, wpos =>
    if wpos < f.nbytes then
      f.nextFile.bind fun f =>
        let bytestowrite := f.nbytes - wpos
        let bytestowrite := if f.isTemp = true then min bytestowrite (maxPhysicalFilesize - f.curOffset)
          else bytestowrite
        let f := f.reposition
        let w := f.thisfile.fileWrite (bytes f.buffer wpos bytestowrite) (io f.transfers)
        if w.2 = 0 then some (f, false)
        else dumpLoop fuel {(f.setThisfile w.1).advance w.2 with curOffset := f.curOffset + w.2} (wpos + w.2)
    else some (f, true)

def bufFileDumpBuffer (f : BufFile) : Option BufFile :=
  (dumpLoop io f.nbytes f 0).map fun
    | (f, false) => f
    | (f, true) =>
      -- the logical position may be before the end of the buffer, even in the file before
      let back := f.nbytes - f.pos
      if f.curOffset < back then
        {f with
          dirty := false
          curFile := f.curFile - 1
          curOffset := f.curOffset + maxPhysicalFilesize - back
          pos := 0
          nbytes := 0}
      else {f with dirty := false, curOffset := f.curOffset - back, pos := 0, nbytes := 0}

/-- Whether the buffer is clean afterwards. -/
def bufFileFlush (f : BufFile) : Option (BufFile × Bool) :=
  if f.dirty = true then (f.bufFileDumpBuffer io).map fun f => (f, !f.dirty) else some (f, true)

/-- The buffer is empty, and starts at the logical position. -/
def restart (f : BufFile) : BufFile := {f with curOffset := f.curOffset + f.pos, pos := 0, nbytes := 0}

/-- The loop of `BufFileRead`; a round reads one byte at least. -/
def readLoop : Nat → BufFile → Nat → BufFile × List UInt8
  | 0, f, _ => (f, [])
  | fuel + 1, f, size =>
    if 0 < size then
      let f := if f.pos ≥ f.nbytes then f.restart.bufFileLoadBuffer io else f
      if f.nbytes ≤ f.pos then (f, [])
      else
        let nthistime := min (f.nbytes - f.pos) size
        let r := readLoop fuel {f with pos := f.pos + nthistime} (size - nthistime)
        (r.1, bytes f.buffer f.pos nthistime ++ r.2)
    else (f, [])

def bufFileRead (f : BufFile) (size : Nat) : Option (BufFile × List UInt8) :=
  (f.bufFileFlush io).map fun
    | (f, false) => (f, [])
    | (f, true) => readLoop io size f size

/-- A full buffer is dumped, or left behind where it was only read; the flag says whether that worked. -/
def makeRoom (f : BufFile) : Option (BufFile × Bool) :=
  if f.pos ≥ blcksz then
    if f.dirty = true then (f.bufFileDumpBuffer io).map fun f => (f, !f.dirty) else some (f.restart, true)
  else some (f, true)

/-- Data is copied to the buffer. -/
def fill (f : BufFile) (data : List UInt8) : BufFile :=
  {f with
    buffer := memcpy f.buffer f.pos data
    dirty := true
    pos := f.pos + data.length
    nbytes := max f.nbytes (f.pos + data.length)}

/-- The loop of `BufFileWrite`, with the number of bytes that are written. -/
def writeLoop : Nat → BufFile → List UInt8 → Option (BufFile × Nat)
  | 0, f, _ => some (f, 0)
  | fuel + 1, f, data =>
    if 0 < data.length then
      (f.makeRoom io).bind fun
        | (f, false) => some (f, 0)
        | (f, true) =>
          let nthistime := min (blcksz - f.pos) data.length
          (writeLoop fuel (f.fill (data.take nthistime)) (data.drop nthistime)).map fun r => (r.1, nthistime + r.2)
    else some (f, 0)

def bufFileWrite (f : BufFile) (data : List UInt8) : Option (BufFile × Nat) := writeLoop io data.length f data

/-- `while (newOffset < 0)` -/
def borrow : Nat → Int → Option (Nat × Nat)
  | 0, newOffset => if newOffset < 0 then none else some (0, newOffset.toNat)
  | newFile + 1, newOffset =>
    if newOffset < 0 then borrow newFile (newOffset + maxPhysicalFilesize) else some (newFile + 1, newOffset.toNat)

/-- `while (newOffset > MAX_PHYSICAL_FILESIZE)`, with the number of files that are left. -/
def carry : Nat → Nat → Nat → Option (Nat × Nat)
  | 0, newFile, newOffset => if newOffset > maxPhysicalFilesize then none else some (newFile, newOffset)
  | left + 1, newFile, newOffset =>
    if newOffset > maxPhysicalFilesize then
      if left = 0 then none else carry left (newFile + 1) (newOffset - maxPhysicalFilesize)
    else some (newFile, newOffset)

/-- The part of `BufFileSeek` after the buffer is flushed. -/
def seekFlushed (f : BufFile) (newFile newOffset : Nat) : BufFile × Bool :=
  let place : Option (Nat × Nat) :=
    if f.isTemp = true then
      -- the start of the next file is the end of the last one
      let (newFile, newOffset) :=
        if newFile = f.numFiles ∧ newOffset = 0 then (newFile - 1, maxPhysicalFilesize) else (newFile, newOffset)
      carry (f.numFiles - newFile) newFile newOffset
    else some (newFile, newOffset)
  match place with
  | none => (f, false)
  | some (newFile, newOffset) =>
    if newFile ≥ f.numFiles then (f, false)
    else ({f with curFile := newFile, curOffset := newOffset, pos := 0, nbytes := 0}, true)

/-- The first part of `BufFileSeek`: the target, with a negative offset carried over to the files before. -/
def seekStart (f : BufFile) (fileno offset : Int) : Whence → Option (Nat × Nat)
  | .set => if fileno < 0 then none else borrow fileno.toNat offset
  | .cur => borrow f.curFile ((f.curOffset + f.pos : Nat) + offset)

/-- `false` is `EOF`. -/
def bufFileSeek (f : BufFile) (fileno offset : Int) (whence : Whence) : Option (BufFile × Bool) :=
  match f.seekStart fileno offset whence with
  | none => some (f, false)
  | some (newFile, newOffset) =>
    if newFile = f.curFile ∧ newOffset ≥ f.curOffset ∧ newOffset ≤ f.curOffset + f.nbytes then
      some ({f with pos := newOffset - f.curOffset}, true)
    else
      (f.bufFileFlush io).map fun
        | (f, false) => (f, false)
        | (f, true) => f.seekFlushed newFile newOffset

def bufFileTell (f : BufFile) : Nat × Nat := (f.curFile, f.curOffset + f.pos)

/-- The segment is cast to a 32-bit `int`. -/
def bufFileSeekBlock (f : BufFile) (blknum : Int) : Option (BufFile × Bool) :=
  f.bufFileSeek io ((blknum.tdiv buffileSegSize).bmod (2 ^ 32)) (blknum.tmod buffileSegSize * blcksz) .set

end BufFile
end PgStorage.Buffile
