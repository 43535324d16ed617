import PgStorage.BufMgr.Pool

/-! Backends at the buffer pool (`bufmgr.c`).

The functions are cut where `BufMgrLock` is released: a `Section` is what one critical
section leaves behind, with the place at which its backend goes on. `BufferAlloc` is four
sections (the lookup, the end of a victim's write, the end of a wait, and the renaming they
lead to), `ReadBuffer` one more for the end of the read. Reads and writes of blocks happen
between the sections. `WriteMode` is `BUFFER_LATE_WRITE`, as nothing sets another. -/
namespace PgStorage.BufMgr
open Function (update)

/-- A call of `ReadBuffer`, with the block number that `BufferAlloc` looks up. -/
structure Request where
  rel : Relation
  blockNum : Nat
  extend : Bool
  deriving DecidableEq, Repr

/-- `newTag` -/
def Request.tag (r : Request) : BufferTag := ⟨r.rel.lRelId, some r.blockNum⟩

/-- Where a backend is between two critical sections. -/
inductive Pc where
  /-- Outside the buffer manager, with what `ReadBuffer` has returned last. -/
  | idle (ret : Option (Buffer × Request))
  /-- Before the lookup of `BufferAlloc`. -/
  | alloc (r : Request)
  /-- In `WaitIO`. -/
  | waitIo (buf : Buffer) (r : Request)
  /-- Writing a victim, in `BufferReplace`; `done` is the status of the finished write. -/
  | flush (buf : Buffer) (r : Request) (done : Option Bool)
  /-- Reading the block in. `own` tells whether this backend has set `BM_IO_IN_PROGRESS`, or
  reads again after a wait that ended with `BM_IO_ERROR`; the code makes no difference. -/
  | read (buf : Buffer) (r : Request) (own : Bool) (done : Option Bool)
  /-- Filling a buffer that was found although the file is to be extended. -/
  | refill (buf : Buffer) (r : Request)
  /-- After `elog(FATAL)`. -/
  | exited

/-- What a critical section leaves: `lock` is whether it returns with `BufMgrLock` held. -/
structure Section (Page : Type) where
  pool : Pool Page
  pins : Pins
  pc : Pc
  lock : Bool

variable {Page : Type}

/-! ### BufferAlloc -/

/-- A buffer that `BufferAlloc` returns with `*foundPtr` set. -/
def returnFound (buf : Buffer) (r : Request) : Pc :=
  if r.extend then .refill buf r else .idle (some (buf, r))

/-- The requested block has a buffer: pin it, and wait for its I/O. -/
def allocFound (p : Pool Page) (q : Pins) (buf : Buffer) (r : Request) : Section Page :=
  let (p, q) := p.pinBuffer q buf
  ⟨p, q, if p.ioInProgress buf then .waitIo buf r else returnFound buf r, false⟩

/-- "Change the name of the buffer in the lookup table". -/
def allocRename (p : Pool Page) (q : Pins) (buf : Buffer) (r : Request) : Section Page :=
  let (ok, p) := p.bufTableDelete buf
  if ok = false then ⟨p, q, .exited, false⟩ else
  let p := {p with
    sbRelname := update p.sbRelname buf r.rel.relname
    tag := update p.tag buf r.tag}
  let (ok, p) := p.bufTableInsert buf
  if ok = false then ⟨p, q, .exited, false⟩ else
  -- set already when the buffer has been written first
  let p := {p with
    ioInProgress := update p.ioInProgress buf true
    ioLock := update p.ioLock buf true}
  ⟨p, q, .read buf r true none, false⟩

/-- A buffer from the free list. Without one `BufferAlloc` returns NULL and the lock stays
held; a dirty one is written first. -/
def allocVictim (p : Pool Page) (q : Pins) (r : Request) : Section Page :=
  match p.getFreeBuffer with
  | none => ⟨p, q, .idle none, true⟩
  | some (buf, p) =>
    let p := {p with refcount := update p.refcount buf 1}
    let q := {q with priv := update q.priv buf 1}
    if p.dirty buf then
      let p := {p with
        ioInProgress := update p.ioInProgress buf true
        ioLock := update p.ioLock buf true
        justDirtied := update p.justDirtied buf false}
      ⟨p, q, .flush buf r none, false⟩
    else allocRename p q buf r

/-- `BufferAlloc` from its lookup on. -/
def bufferAlloc (p : Pool Page) (q : Pins) (r : Request) : Section Page :=
  match p.bufTableLookup r.tag with
  | some buf => allocFound p q buf r
  | none => allocVictim p q r

/-- `BM_IO_IN_PROGRESS` cleared and the I/O lock released. -/
def endIo (p : Pool Page) (buf : Buffer) : Pool Page :=
  {p with
    ioInProgress := update p.ioInProgress buf false
    ioLock := update p.ioLock buf false}

/-- The victim is not ours any more: the pin is taken back. -/
def unpinVictim (p : Pool Page) (q : Pins) (buf : Buffer) : Pool Page × Pins :=
  ((endIo p buf).dropRef buf, {q with priv := update q.priv buf 0})

/-- `BufferAlloc` after the victim has been written, successfully or not. Unless the victim
is kept the loop goes on, with the lookup of the requested block first. -/
def allocFlushed (p : Pool Page) (q : Pins) (buf : Buffer) (r : Request) (ok : Bool) : Section Page :=
  if ok = false then
    let (p, q) := unpinVictim {p with ioError := update p.ioError buf true} q buf
    bufferAlloc p q r
  else if p.justDirtied buf then ⟨p, q, .exited, false⟩
  else
    let p := {p with dirty := update p.dirty buf false}
    if 1 < p.refcount buf then
      -- somebody has pinned it and waits for us
      let (p, q) := unpinVictim p q buf
      bufferAlloc p q r
    else
      match p.bufTableLookup r.tag with
      | some buf2 =>
        -- somebody has read the block meanwhile
        let (p, q) := unpinVictim p q buf
        allocFound p q buf2 r
      | none => allocRename p q buf r

/-- `BufferAlloc` after `WaitIO`. -/
def allocWaited (p : Pool Page) (q : Pins) (buf : Buffer) (r : Request) : Section Page :=
  ⟨p, q, if p.ioError buf then .read buf r false none else returnFound buf r, false⟩

/-- `ReadBufferWithBufferLock` after the block has been read. -/
def readDone (p : Pool Page) (q : Pins) (buf : Buffer) (r : Request) (ok : Bool) : Section Page :=
  if ok then
    ⟨{endIo p buf with ioError := update p.ioError buf false}, q, .idle (some (buf, r)), false⟩
  else
    let (found, p) := p.bufTableDelete buf
    if found = false then ⟨p, q, .exited, false⟩ else
    let (p, q) := p.unpinBuffer q buf
    ⟨{endIo p buf with ioError := update p.ioError buf true}, q, .idle none, false⟩

/-- `WriteBuffer`, of a buffer that the backend has pinned. -/
def writeBuffer (p : Pool Page) (q : Pins) (buf : Buffer) : Pool Page × Pins :=
  let p := {p with
    dirty := update p.dirty buf true
    justDirtied := update p.justDirtied buf true}
  p.unpinBuffer q buf

/-- The request of `ReadBuffer(rel, blockNum)`: `P_NEW` is the block after the last. -/
def request (p : Pool Page) (rel : Relation) (blockNum : Option Nat) : Request :=
  match blockNum with
  | some b => ⟨rel, b, false⟩
  | none => ⟨rel, mdnblocks p.disk rel.file, true⟩

/-- `ReleaseAndReadBuffer`. When the last pin goes the lock is taken, and
`ReadBufferWithBufferLock` goes on with it held; the local buffers do not give it back. -/
def releaseAndReadBuffer (p : Pool Page) (q : Pins) (buf : Buffer) (rel : Relation) (blockNum : Option Nat) :
    Section Page :=
  let enter (p : Pool Page) (q : Pins) : Section Page :=
    if rel.rdIslocal then ⟨p, q, .idle none, false⟩ else ⟨p, q, .alloc (request p rel blockNum), false⟩
  if p.InPool buf ∧ 0 < q.priv buf then
    let q := {q with priv := update q.priv buf (q.priv buf - 1)}
    if q.priv buf = 0 ∧ q.last buf = 0 then
      let p := p.dropRef buf
      if rel.rdIslocal then ⟨p, q, .idle none, true⟩ else bufferAlloc p q (request p rel blockNum)
    else enter p q
  else enter p q

/-- `BufferRefCountReset` -/
def bufferRefCountReset (q : Pins) : Pins :=
  ⟨fun _ => 0, fun i => q.last i + q.priv i, q.priv :: q.saves⟩

/-- `BufferRefCountRestore` of the innermost level. -/
def bufferRefCountRestore (q : Pins) (save : Buffer → Nat) (outer : List (Buffer → Nat)) : Pins :=
  ⟨save, fun i => q.last i - save i, outer⟩

/-- `while (PrivateRefCount[i - 1] > 0) ReleaseBuffer(i)`, `n` times at most. -/
def releaseAll (p : Pool Page) (q : Pins) (buf : Buffer) : Nat → Pool Page × Pins
  | 0 => (p, q)
  | n + 1 =>
    if 0 < q.priv buf then
      let (p, q) := p.releaseBuffer q buf
      releaseAll p q buf n
    else (p, q)

/-- The first `n` passes of `ResetBufferPool`. -/
def resetBuffers (p : Pool Page) (q : Pins) : Nat → Pool Page × Pins
  | 0 => (p, q)
  | n + 1 =>
    let (p, q) := resetBuffers p q n
    let (p, q) := releaseAll p q n (q.priv n)
    (p, {q with last := update q.last n 0})

/-- `ResetBufferPool`. The transaction is over, and with it its executor levels. -/
def resetBufferPool (p : Pool Page) (q : Pins) : Pool Page × Pins :=
  let (p, q) := resetBuffers p q p.nbuffers
  (p, {q with saves := []})

section Transfers
variable [Zero Page]

/-- The file to which a buffer is written: `RelationIdCacheGetRelation` opens the relation
by `sb_relname`, and a blind write goes to that name too. -/
def Pool.file (p : Pool Page) (buf : Buffer) : File := ⟨(p.tag buf).relId.dbId, p.sbRelname buf⟩

/-- The buffer written to its block. -/
def Pool.writeOut (p : Pool Page) (buf : Buffer) (page : Page) : Pool Page :=
  match (p.tag buf).blockNum with
  | some b => {p with disk := mdwrite p.disk (p.file buf) b page}
  | none => p

/-- The block of a request read into a buffer, or the file extended by a block of zeros. -/
def Pool.readIn (p : Pool Page) (buf : Buffer) (r : Request) : Pool Page :=
  if r.extend then {p with data := update p.data buf 0, disk := mdextend p.disk r.rel.file 0}
  else {p with data := update p.data buf (mdread p.disk r.rel.file r.blockNum)}

/-- A failed read leaves any contents; a failed extension leaves zeros in the buffer. -/
def Pool.readFails (p : Pool Page) (buf : Buffer) (r : Request) (junk : Page) : Pool Page :=
  {p with data := update p.data buf (if r.extend then 0 else junk)}

end Transfers

end PgStorage.BufMgr
