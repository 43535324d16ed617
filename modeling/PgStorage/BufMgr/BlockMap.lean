import PgStorage.BufMgr.System

/-! One backend at the buffer pool, call by call.

`ReadBuffer` is driven to its end, with every read and write of a block successful. A history
keeps what `WriteBuffer` has written to each block last, and which pinned pages have been
changed without a `WriteBuffer` since. -/
namespace PgStorage.BufMgr
open Function (update)

/-- A set of relations: an identifier stands for one relation, which has its own file. -/
structure Catalog where
  name : LRelId → String
  named : ∀ id, name id ≠ ""
  unique : ∀ id id', id.dbId = id'.dbId → name id = name id' → id = id'

def Catalog.relation (cat : Catalog) (id : LRelId) : Relation := ⟨id, cat.name id, false⟩

def Catalog.file (cat : Catalog) (id : LRelId) : File := (cat.relation id).file

variable {Page : Type}

/-- What a backend inside a call does next. -/
def Pc.advance : Pc → Act Page
  | .flush _ _ none | .read _ _ _ none | .refill .. => .ioOk
  | _ => .resume

variable [Zero Page]

/-- A call driven to its end, in `n` steps at most. -/
def drive : Nat → Sys Unit Page → Option (Sys Unit Page)
  | 0, s => some s
  | n + 1, s =>
    match s.pc () with
    | .idle _ => some s
    | pc => (step s () pc.advance).bind (drive n)

/-- `ReadBuffer` as a whole: the lookup, the write of a victim, and the read. -/
def readBufferCall (s : Sys Unit Page) (rel : Relation) (blockNum : Option Nat) : Option (Sys Unit Page) :=
  (step s () (.readBuffer rel blockNum)).bind (drive 5)

/-- A call of the backend, or a change of a page that it has pinned. -/
inductive BlockAct (Page : Type) where
  | readBuffer (id : LRelId) (blockNum : Option Nat)
  | modify (buf : Buffer) (page : Page)
  | writeBuffer (buf : Buffer)
  | releaseBuffer (buf : Buffer)

/-- A history: the state, what has been written to each block last, and which buffers have
been changed without a write since. -/
structure BlockTrace (Page : Type) where
  sys : Sys Unit Page
  written : LRelId × Nat → Page
  pending : Buffer → Bool

/-- The block that a read asks for: `P_NEW` is `smgrnblocks` before the call. -/
def BlockTrace.block (cat : Catalog) (s : BlockTrace Page) (id : LRelId) (blockNum : Option Nat) : Nat :=
  blockNum.getD (mdnblocks s.sys.pool.disk (cat.file id))

/-- The block in a buffer. -/
def Pool.key (p : Pool Page) (buf : Buffer) : LRelId × Nat := ((p.tag buf).relId, (p.tag buf).blockNum.getD 0)

/-- A step with its record. A new block is written as zeros. -/
def blockStep (cat : Catalog) (s : BlockTrace Page) : BlockAct Page → Option (BlockTrace Page)
  | .readBuffer id blockNum => (readBufferCall s.sys (cat.relation id) blockNum).map fun t =>
    ⟨t, if blockNum = none then update s.written (id, s.block cat id none) 0 else s.written, s.pending⟩
  | .modify buf page => (step s.sys () (.modify buf page)).map fun t =>
    ⟨t, s.written, update s.pending buf true⟩
  | .writeBuffer buf => (step s.sys () (.writeBuffer buf)).map fun t =>
    ⟨t, update s.written (s.sys.pool.key buf) (s.sys.pool.data buf), update s.pending buf false⟩
  | .releaseBuffer buf => (step s.sys () (.releaseBuffer buf)).map fun t => ⟨t, s.written, s.pending⟩

/-- How the backend uses the pool: it reads blocks that exist, and new ones; it writes and
releases what it has pinned, and a page that it has changed is written before it is given up. -/
def BlockTrace.Legal (cat : Catalog) (s : BlockTrace Page) : BlockAct Page → Prop
  | .readBuffer id blockNum => ∀ b ∈ blockNum, b < mdnblocks s.sys.pool.disk (cat.file id)
  | .modify .. => True
  | .writeBuffer buf => s.sys.pool.InPool buf
  | .releaseBuffer buf => s.sys.pool.InPool buf ∧ (s.pending buf = true → 1 < (s.sys.pins ()).priv buf)

/-- A backend that starts on a new pool, with the blocks as the files have them. -/
def blockStart (cat : Catalog) (nbuffers : Nat) (disk : Disk Page) (memory : Buffer → Page) : BlockTrace Page :=
  ⟨start Unit nbuffers disk memory, fun k => mdread disk (cat.file k.1) k.2, fun _ => false⟩

end PgStorage.BufMgr
