import Mathlib

/-! Virtual file descriptors.

A virtual file has an entry in `VfdCache`; its kernel descriptor may be closed at any time to
make room and is opened again when the file is accessed. The open entries are linked in a ring
around entry 0, the least recently used one after it; the unused entries are linked in a free
list through `nextFree`. A kernel descriptor is represented by its position: every entry opens
its own. What the operating system does in a call comes in an `Env`. A call that fails an
assertion does not return. -/
namespace PgStorage.Fd
open Function (update)

/-- What the operating system does during a call: how often it refuses to open the null device,
whether it opens the file, how much it writes (`none` for an error), and whether `fsync` of a
file succeeds. -/
structure Env (P : Type) where
  refusals : Nat
  opens : Bool
  writes : Option Nat
  syncs : P → Bool

/-- `VfdCache` with the static variables of `fd.c`, and the files of the kernel. A kernel
descriptor that is open has a position. A `File` is an index of the arrays. `written` counts the
writes to a file, and `synced` is the count at its last successful `fsync`. -/
structure Vfds (P B : Type) where
  sizeVfdCache : Nat
  fd : Nat → Option Nat
  dirty : Nat → Bool
  nextFree : Nat → Nat
  lruMoreRecently : Nat → Nat
  lruLessRecently : Nat → Nat
  seekPos : Nat → Int
  fileName : Nat → P
  freeFd : Int
  nfile : Int
  osRanOut : Bool
  allocatedFiles : Int
  contents : P → List B
  written : P → Nat
  synced : P → Nat

inductive Whence where
  | set
  | cur
  | «end»

section Kernel
variable {B : Type}

/-- A value of type `long` in a variable of type `int`. -/
def cint (n : Int) : Int := (BitVec.ofInt 32 n).toInt

/-- The position that `lseek` asks for. -/
def seekTarget (pos len : Nat) (offset : Int) : Whence → Int
  | .set => offset
  | .cur => pos + offset
  | .end => len + offset

/-- `lseek`: what it returns and the new position. -/
def lseek (pos len : Nat) (offset : Int) (whence : Whence) : Int × Nat :=
  if seekTarget pos len offset whence < 0 then (-1, pos)
  else (seekTarget pos len offset whence, (seekTarget pos len offset whence).toNat)

/-- `write` at a position; a gap before it is filled with zeros. -/
def writeAt [Zero B] (contents : List B) (pos : Nat) (bytes : List B) : List B :=
  if bytes = [] then contents
  else (contents ++ List.replicate (pos - contents.length) 0).take pos ++ bytes ++ contents.drop (pos + bytes.length)

/-- `ftruncate`. -/
def resize [Zero B] (contents : List B) (len : Nat) : List B :=
  contents.take len ++ List.replicate (len - contents.length) 0

end Kernel

section Routines
variable {P B : Type} [DecidableEq P]

/-- `Delete`. -/
def Vfds.delete (s : Vfds P B) (file : Nat) : Vfds P B :=
  let more := update s.lruMoreRecently (s.lruLessRecently file) (s.lruMoreRecently file)
  {s with
    lruMoreRecently := more
    lruLessRecently := update s.lruLessRecently (more file) (s.lruLessRecently file)}

/-- `Insert`. -/
def Vfds.insert (s : Vfds P B) (file : Nat) : Vfds P B :=
  let less := update s.lruLessRecently file (s.lruLessRecently 0)
  {s with
    lruLessRecently := update less 0 file
    lruMoreRecently := update (update s.lruMoreRecently file 0) (less file) file}

/-- `fsync` on an entry that has been written, as it is done before a descriptor is closed. -/
def Vfds.settle (s : Vfds P B) (file : Nat) : Vfds P B :=
  if s.dirty file = true then
    {s with
      dirty := update s.dirty file false
      synced := update s.synced (s.fileName file) (s.written (s.fileName file))}
  else s

/-- The kernel descriptor of an entry is closed. -/
def Vfds.close (s : Vfds P B) (file : Nat) : Vfds P B :=
  {s.settle file with fd := update s.fd file none, nfile := s.nfile - 1, freeFd := s.freeFd + 1}

/-- The assertions on `fsync` before a descriptor is closed. -/
def Vfds.MaySettle (env : Env P) (s : Vfds P B) (file : Nat) : Prop :=
  s.dirty file = true → env.syncs (s.fileName file) = true

instance (env : Env P) (s : Vfds P B) (file : Nat) : Decidable (s.MaySettle env file) :=
  inferInstanceAs (Decidable (_ → _))

def lruDelete (env : Env P) (s : Vfds P B) (file : Nat) : Option (Vfds P B) :=
  match s.fd file with
  | some pos =>
    if file ≠ 0 ∧ s.MaySettle env file then
      some {(s.delete file).close file with seekPos := update s.seekPos file pos}
    else none
  | none => none

/-- `AssertLruRoom`, with the limit that `pg_nofile` gives. -/
def assertLruRoom (env : Env P) (nofile : Int) (s : Vfds P B) : Option (Vfds P B) :=
  if s.freeFd ≤ 0 ∨ nofile ≤ s.nfile then lruDelete env s (s.lruMoreRecently 0) else some s

/-- The null device is refused `n` times, with room made after each. -/
def refuse (env : Env P) (nofile : Int) : Nat → Vfds P B → Option (Vfds P B)
  | 0, s => some s
  | n + 1, s => (assertLruRoom env nofile {s with freeFd := 0}).bind (refuse env nofile n)

/-- Gives `false` when the file could not be opened. -/
def lruInsert (env : Env P) (nofile : Int) (s : Vfds P B) (file : Nat) : Option (Vfds P B × Bool) :=
  match s.fd file with
  | some _ => some (s.insert file, true)
  | none =>
    (refuse env nofile env.refusals s).bind fun s =>
      if env.opens = false then some (s, false)
      else if cint (lseek 0 0 (s.seekPos file) .set).1 = -1 then none
      else
        some (({s with
          fd := update s.fd file (some (s.seekPos file).toNat)
          nfile := s.nfile + 1
          dirty := update s.dirty file false
          freeFd := if 0 < s.freeFd then s.freeFd - 1 else s.freeFd}).insert file, true)

def fileAccess (env : Env P) (nofile : Int) (s : Vfds P B) (file : Nat) : Option (Vfds P B × Bool) :=
  match s.fd file with
  | none => (assertLruRoom env nofile s).bind fun s => lruInsert env nofile s file
  | some _ => some ((s.delete file).insert file, true)

/-- The array grows to twice its size, and its new entries form the free list. -/
def Vfds.grow (s : Vfds P B) (noName : P) : Vfds P B :=
  let n := s.sizeVfdCache
  let new (i : Nat) : Bool := decide (n ≤ i ∧ i < 2 * n)
  {s with
    sizeVfdCache := 2 * n
    fd := fun i => if new i then none else s.fd i
    dirty := fun i => if new i then false else s.dirty i
    nextFree := fun i => if i = 2 * n - 1 then 0 else if i = 0 then n else if new i then i + 1 else s.nextFree i
    lruMoreRecently := fun i => if new i then 0 else s.lruMoreRecently i
    lruLessRecently := fun i => if new i then 0 else s.lruLessRecently i
    seekPos := fun i => if new i then 0 else s.seekPos i
    fileName := fun i => if new i then noName else s.fileName i}

/-- The first entry, which is no file. -/
def Vfds.initCache (s : Vfds P B) : Vfds P B :=
  {s with
    sizeVfdCache := 1
    fd := update s.fd 0 none
    dirty := update s.dirty 0 false
    nextFree := update s.nextFree 0 0
    lruMoreRecently := update s.lruMoreRecently 0 0
    lruLessRecently := update s.lruLessRecently 0 0}

def allocateVfd (noName : P) (s : Vfds P B) : Vfds P B × Nat :=
  let s := if s.sizeVfdCache = 0 then s.initCache else s
  let s := if s.nextFree 0 = 0 then s.grow noName else s
  let file := s.nextFree 0
  ({s with nextFree := update s.nextFree 0 (s.nextFree file)}, file)

def freeVfd (s : Vfds P B) (file : Nat) : Vfds P B :=
  {s with nextFree := update (update s.nextFree file (s.nextFree 0)) 0 file}

/-! ### The interface -/

/-- Gives `none` for the file when it could not be opened. -/
def fileNameOpenFile (env : Env P) (nofile : Int) (noName : P) (s : Vfds P B) (path : P) :
    Option (Vfds P B × Option Nat) :=
  let (s, file) := allocateVfd noName s
  let room := if nofile ≤ s.nfile ∨ (s.freeFd = 0 ∧ s.osRanOut = true) then assertLruRoom env nofile s else some s
  room.bind fun s =>
    (refuse env nofile env.refusals {s with osRanOut := s.osRanOut || decide (0 < env.refusals)}).bind fun s =>
      if env.opens = false then
        some (freeVfd {s with fd := update s.fd file none, dirty := update s.dirty file false} file, none)
      else
        some ({Vfds.insert {s with
            fd := update s.fd file (some 0)
            dirty := update s.dirty file false
            nfile := s.nfile + 1} file with
          fileName := update s.fileName file path
          seekPos := update s.seekPos file 0}, some file)

def fileInvalidate (env : Env P) (s : Vfds P B) (file : Nat) : Option (Vfds P B) :=
  match s.fd file with
  | some _ => lruDelete env s file
  | none => some s

def fileClose (env : Env P) (s : Vfds P B) (file : Nat) : Option (Vfds P B) :=
  match s.fd file with
  | some _ => if s.MaySettle env file then some (freeVfd ((s.delete file).close file) file) else none
  | none => some (freeVfd s file)

/-- The file's name is removed too. -/
def fileUnlink (env : Env P) (s : Vfds P B) (file : Nat) : Option (Vfds P B) :=
  (fileClose env s file).map fun t => {t with contents := update t.contents (s.fileName file) []}

/-- Gives the number of bytes read, or -1, and the bytes. -/
def fileRead (env : Env P) (nofile : Int) (s : Vfds P B) (file : Nat) (amount : Nat) :
    Option (Vfds P B × Int × List B) :=
  (fileAccess env nofile s file).map fun (s, _) =>
    match s.fd file with
    | none => (s, -1, [])
    | some pos =>
      let bytes := ((s.contents (s.fileName file)).drop pos).take amount
      ({s with
        fd := update s.fd file (some (pos + bytes.length))
        seekPos := update s.seekPos file (s.seekPos file + bytes.length)}, bytes.length, bytes)

/-- Gives the number of bytes written, or -1. -/
def fileWrite [Zero B] (env : Env P) (nofile : Int) (s : Vfds P B) (file : Nat) (buffer : List B) :
    Option (Vfds P B × Int) :=
  (fileAccess env nofile s file).map fun (s, _) =>
    match s.fd file, env.writes with
    | some pos, some n =>
      let bytes := buffer.take n
      ({s with
        fd := update s.fd file (some (pos + bytes.length))
        contents := update s.contents (s.fileName file) (writeAt (s.contents (s.fileName file)) pos bytes)
        seekPos := update s.seekPos file (s.seekPos file + bytes.length)
        dirty := update s.dirty file true
        written := update s.written (s.fileName file) (s.written (s.fileName file) + 1)}, bytes.length)
    | _, _ => ({s with dirty := update s.dirty file true}, -1)

/-- `lseek` on the descriptor of an entry, with the result kept in `seekPos`. -/
def Vfds.seek (s : Vfds P B) (file : Nat) (offset : Int) (whence : Whence) : Vfds P B × Int :=
  match s.fd file with
  | none => ({s with seekPos := update s.seekPos file (-1)}, -1)
  | some pos =>
    let (result, pos) := lseek pos (s.contents (s.fileName file)).length offset whence
    ({s with
      fd := update s.fd file (some pos)
      seekPos := update s.seekPos file result}, cint result)

def fileSeek (env : Env P) (nofile : Int) (s : Vfds P B) (file : Nat) (offset : Int) (whence : Whence) :
    Option (Vfds P B × Int) :=
  match s.fd file, whence with
  | none, .set => some ({s with seekPos := update s.seekPos file offset}, offset)
  | none, .cur =>
    some ({s with seekPos := update s.seekPos file (s.seekPos file + offset)}, s.seekPos file + offset)
  | none, .end => (fileAccess env nofile s file).map fun (s, _) => s.seek file offset .end
  | some _, whence => some (s.seek file offset whence)

/-- Gives what `fsync` returns, or 0 where there is nothing to do. -/
def fileSync (env : Env P) (s : Vfds P B) (file : Nat) : Vfds P B × Int :=
  match s.fd file, s.dirty file with
  | some _, true =>
    ({s with
      dirty := update s.dirty file false
      synced := if env.syncs (s.fileName file) then
          update s.synced (s.fileName file) (s.written (s.fileName file))
        else s.synced}, if env.syncs (s.fileName file) then 0 else -1)
  | _, _ => (s, 0)

def fileTruncate [Zero B] (env : Env P) (nofile : Int) (s : Vfds P B) (file : Nat) (offset : Int) :
    Option (Vfds P B × Int) :=
  (fileAccess env nofile (fileSync env s file).1 file).map fun (s, _) =>
    match s.fd file with
    | none => (s, -1)
    | some _ =>
      if offset < 0 then (s, -1)
      else
        ({s with
          contents := update s.contents (s.fileName file)
            (resize (s.contents (s.fileName file)) offset.toNat)}, 0)

/-- The null device is opened, with room made until it can be. -/
def allocateFile (env : Env P) (nofile : Int) (s : Vfds P B) : Option (Vfds P B) :=
  (refuse env nofile env.refusals s).map fun s => {s with allocatedFiles := s.allocatedFiles + 1}

def freeFile (s : Vfds P B) : Option (Vfds P B) :=
  if 0 < s.allocatedFiles then
    some {s with freeFd := s.freeFd + 1, nfile := s.nfile + 1, allocatedFiles := s.allocatedFiles - 1}
  else none

/-- `fd.c` before its first call. -/
def Vfds.start (noName : P) (contents : P → List B) : Vfds P B where
  sizeVfdCache := 0
  fd _ := none
  dirty _ := false
  nextFree _ := 0
  lruMoreRecently _ := 0
  lruLessRecently _ := 0
  seekPos _ := 0
  fileName _ := noName
  freeFd := 0
  nfile := 0
  osRanOut := false
  allocatedFiles := 0
  contents := contents
  written _ := 0
  synced _ := 0

end Routines

end PgStorage.Fd
