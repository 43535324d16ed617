import Mathlib

/-! The buffer pool: descriptors, the free list, the lookup table and the files
(`buf_internals.h`, `freelist.c`, `buf_table.c`, `md.c`).

The descriptors are kept field by field, each an array over the descriptor's index; the
anchor of the free list is the descriptor after the last buffer. A page is an opaque value
and `0` the zero-filled one. Flags are one array a flag. -/
namespace PgStorage.BufMgr
open Function (update)

abbrev Oid := Nat

/-- The index of a descriptor, `buf_id`. Callers' buffer numbers are one more. -/
abbrev Buffer := Int

/-- `INVALID_DESCRIPTOR` -/
def invalidDescriptor : Int := -3

structure LRelId where
  relId : Oid
  dbId : Oid
  deriving DecidableEq, Repr

/-- `BufferTag`; `none` is `P_NEW`, which is also `InvalidBlockNumber`. -/
structure BufferTag where
  relId : LRelId
  blockNum : Option Nat
  deriving DecidableEq, Repr

/-- The file of a relation. `relpath` and `filepath` place it by the relation's name, in the
directory of its database; shared relations have database 0, as in their `LRelId`. -/
structure File where
  dbId : Oid
  relname : String
  deriving DecidableEq, Repr

/-- What the buffer manager reads of a relation descriptor. -/
structure Relation where
  lRelId : LRelId
  relname : String
  rdIslocal : Bool
  deriving DecidableEq, Repr

/-- The file of an open relation, `rd_fd`. -/
def Relation.file (rel : Relation) : File := ⟨rel.lRelId.dbId, rel.relname⟩

section Files
variable {Page : Type} [Zero Page]

/-- The blocks of every file. -/
abbrev Disk (Page : Type) := File → List Page

/-- `mdnblocks` -/
def mdnblocks (disk : Disk Page) (f : File) : Nat := (disk f).length

/-- `mdread`. A read at the end of the file or beyond it gives zeros. -/
def mdread (disk : Disk Page) (f : File) (blocknum : Nat) : Page := (disk f).getD blocknum 0

/-- `mdwrite` and `mdflush`. The file system fills a gap with zeros. An empty name is the
directory of the database, which cannot be opened: nothing is written. -/
def mdwrite (disk : Disk Page) (f : File) (blocknum : Nat) (page : Page) : Disk Page :=
  if f.relname = "" then disk
  else if blocknum < (disk f).length then update disk f ((disk f).set blocknum page)
  else update disk f (disk f ++ List.replicate (blocknum - (disk f).length) 0 ++ [page])

/-- `mdextend` -/
def mdextend (disk : Disk Page) (f : File) (page : Page) : Disk Page :=
  update disk f (disk f ++ [page])

end Files

/-- Shared memory of the buffer manager, and the files. -/
structure Pool (Page : Type) where
  /-- `NBuffers` -/
  nbuffers : Nat
  freeNext : Int → Int
  freePrev : Int → Int
  tag : Buffer → BufferTag
  dirty : Buffer → Bool
  valid : Buffer → Bool
  deleted : Buffer → Bool
  free : Buffer → Bool
  ioInProgress : Buffer → Bool
  ioError : Buffer → Bool
  justDirtied : Buffer → Bool
  refcount : Buffer → Nat
  /-- `io_in_progress_lock` -/
  ioLock : Buffer → Bool
  sbRelname : Buffer → String
  data : Buffer → Page
  /-- The hash table of `buf_table.c`. -/
  table : BufferTag → Option Buffer
  disk : Disk Page

/-- One backend's `PrivateRefCount` and `LastRefCount`, and the `refcountsave` arrays of the
executor levels it is in, the innermost first. -/
structure Pins where
  priv : Buffer → Nat
  last : Buffer → Nat
  saves : List (Buffer → Nat)

/-- The backend counts once in the shared reference count. -/
def Pins.Holds (q : Pins) (buf : Buffer) : Prop := 0 < q.priv buf + q.last buf

instance (q : Pins) (buf : Buffer) : Decidable (q.Holds buf) := inferInstanceAs (Decidable (0 < _))

variable {Page : Type}

namespace Pool

/-- `Free_List_Descriptor` -/
def freeListDescriptor (p : Pool Page) : Int := p.nbuffers

/-- A buffer of the pool; `BAD_BUFFER_ID` is its negation. -/
def InPool (p : Pool Page) (buf : Int) : Prop := 0 ≤ buf ∧ buf < p.nbuffers

instance (p : Pool Page) (buf : Int) : Decidable (p.InPool buf) := inferInstanceAs (Decidable (_ ∧ _))

/-- `AddBufferToFreelist` -/
def addBufferToFreelist (p : Pool Page) (bf : Buffer) : Pool Page :=
  let head := p.freeListDescriptor
  let last := p.freePrev head
  {p with
    freePrev := update (update p.freePrev bf last) head bf
    freeNext := update (update p.freeNext bf head) last bf}

/-- The descriptor taken out of the free list, in `PinBuffer` and `GetFreeBuffer`. -/
def unlink (p : Pool Page) (buf : Buffer) : Pool Page :=
  {p with
    freePrev := update (update p.freePrev (p.freeNext buf) (p.freePrev buf)) buf invalidDescriptor
    freeNext := update (update p.freeNext (p.freePrev buf) (p.freeNext buf)) buf invalidDescriptor
    free := update p.free buf false}

/-- `PinBuffer` -/
def pinBuffer (p : Pool Page) (q : Pins) (buf : Buffer) : Pool Page × Pins :=
  let p := if p.refcount buf = 0 then p.unlink buf else p
  let p := if q.priv buf = 0 ∧ q.last buf = 0
    then {p with refcount := update p.refcount buf (p.refcount buf + 1)} else p
  (p, {q with priv := update q.priv buf (q.priv buf + 1)})

/-- `if (refcount == 0) { AddBufferToFreelist; flags |= BM_FREE }` -/
def freeIfUnpinned (p : Pool Page) (buf : Buffer) : Pool Page :=
  if p.refcount buf = 0 then {p.addBufferToFreelist buf with free := update p.free buf true} else p

/-- `refcount--`, and the buffer to the free list at zero. -/
def dropRef (p : Pool Page) (buf : Buffer) : Pool Page :=
  {p with refcount := update p.refcount buf (p.refcount buf - 1)}.freeIfUnpinned buf

/-- `UnpinBuffer` -/
def unpinBuffer (p : Pool Page) (q : Pins) (buf : Buffer) : Pool Page × Pins :=
  let q := {q with priv := update q.priv buf (q.priv buf - 1)}
  let p := if q.priv buf = 0 ∧ q.last buf = 0
    then {p with refcount := update p.refcount buf (p.refcount buf - 1)} else p
  (p.freeIfUnpinned buf, q)

/-- `ReleaseBuffer`, of a buffer that the backend has pinned. -/
def releaseBuffer (p : Pool Page) (q : Pins) (buf : Buffer) : Pool Page × Pins :=
  let q := {q with priv := update q.priv buf (q.priv buf - 1)}
  (if q.priv buf = 0 ∧ q.last buf = 0 then p.dropRef buf else p, q)

/-- `GetFreeBuffer` -/
def getFreeBuffer (p : Pool Page) : Option (Buffer × Pool Page) :=
  if p.freeNext p.freeListDescriptor = p.freeListDescriptor then none
  else
    let buf := p.freeNext p.freeListDescriptor
    some (buf, p.unlink buf)

/-- `BufTableLookup` -/
def bufTableLookup (p : Pool Page) (t : BufferTag) : Option Buffer :=
  if t.blockNum = none then none else p.table t

/-- `BufTableDelete` -/
def bufTableDelete (p : Pool Page) (buf : Buffer) : Bool × Pool Page :=
  if p.deleted buf then (true, p)
  else ((p.table (p.tag buf)).isSome,
    {p with
      deleted := update p.deleted buf true
      table := update p.table (p.tag buf) none})

/-- `BufTableInsert` -/
def bufTableInsert (p : Pool Page) (buf : Buffer) : Bool × Pool Page :=
  let p := {p with deleted := update p.deleted buf false}
  match p.table (p.tag buf) with
  | some _ => (false, p)
  | none => (true, {p with table := update p.table (p.tag buf) (some buf)})

/-- `InitBufferPool` and `InitFreeList`, on the files `disk`; the contents of the blocks are
whatever the memory holds. -/
def initBufferPool (nbuffers : Nat) (disk : Disk Page) (memory : Buffer → Page) : Pool Page :=
  let last : Int := nbuffers - 1
  let head : Int := nbuffers
  let next : Int → Int := update (fun i => i + 1) last 0
  let prev : Int → Int := update (fun i => i - 1) 0 last
  -- the anchor goes in after buffer 0
  let first := next 0
  { nbuffers := nbuffers
    freeNext := update (update next head first) 0 head
    freePrev := update (update prev head 0) first head
    tag := fun _ => ⟨⟨0, 0⟩, none⟩
    dirty := fun _ => false, valid := fun _ => true, deleted := fun _ => true, free := fun _ => true
    ioInProgress := fun _ => false, ioError := fun _ => false, justDirtied := fun _ => false
    refcount := fun _ => 0, ioLock := fun _ => false, sbRelname := fun _ => "", data := memory
    table := fun _ => none, disk := disk }

end Pool

/-- A backend without pins. -/
def Pins.none : Pins := ⟨fun _ => 0, fun _ => 0, []⟩

end PgStorage.BufMgr
