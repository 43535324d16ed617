import PgStorage.BufMgr.Pool

/-! The local buffers of a backend (`localbuf.c`), for relations that nobody else can see.

A relation is known by its `rd_id`, and `rd_nblocks` is kept in its descriptor. Dirty buffers
are written through a relation that `RelationIdCacheGetRelation` opens by the descriptor's
`sb_relname`, which no routine of this file sets. -/
namespace PgStorage.BufMgr
open Function (update)

/-- `LocalBufferDescriptors` and `LocalRefCount`, field by field. -/
structure LocalPool (Page : Type) where
  /-- `NLocBuffer` -/
  nlocBuffer : Nat
  relId : Nat → Oid
  blockNum : Nat → Nat
  dirty : Nat → Bool
  sbRelname : Nat → String
  data : Nat → Page
  refcount : Nat → Nat
  nextFreeLocalBuf : Nat

/-- A backend with its local buffers, the `rd_nblocks` of its relations and the files. -/
structure LocalSys (Page : Type) where
  pool : LocalPool Page
  rdNblocks : Oid → Nat
  disk : Disk Page
  /-- What `ReadBuffer` has returned last. -/
  ret : Option Nat

variable {Page : Type}

/-- `rd_id` -/
def Relation.rdId (rel : Relation) : Oid := rel.lRelId.relId

/-- `RelationIdCacheGetRelation`: the file of the relation that is opened, in the current
database. -/
def relationIdCacheGetRelation (myDatabaseId : Oid) (l : LocalPool Page) (i : Nat) : File :=
  ⟨myDatabaseId, l.sbRelname i⟩

/-- "a low tech search for now" -/
def LocalPool.search (l : LocalPool Page) (relId : Oid) (blockNum : Nat) : Option Nat :=
  (List.range l.nlocBuffer).find? fun i => l.relId i = relId ∧ l.blockNum i = blockNum

/-- The first buffer without a reference from `nextFreeLocalBuf` on. -/
def LocalPool.victim (l : LocalPool Page) : Option Nat :=
  ((List.range l.nlocBuffer).map fun i => (l.nextFreeLocalBuf + i) % l.nlocBuffer).find? fun b => l.refcount b = 0

section Files
variable [Zero Page] (myDatabaseId : Oid)

/-- A buffer written through the relation that its descriptor names. -/
def LocalPool.writeOut (l : LocalPool Page) (disk : Disk Page) (i : Nat) : Disk Page :=
  mdwrite disk (relationIdCacheGetRelation myDatabaseId l i) (l.blockNum i) (l.data i)

/-- `LocalBufferAlloc`, with the block number that stands for `P_NEW` put in: the buffer, and
whether it has the block already. "no empty local buffer" is a message only, and the null
pointer is followed. -/
def localBufferAlloc (l : LocalPool Page) (disk : Disk Page) (rel : Relation) (blockNum : Nat) :
    Option (Nat × Bool × LocalPool Page × Disk Page) :=
  match l.search rel.rdId blockNum with
  | some i => some (i, true, {l with refcount := update l.refcount i (l.refcount i + 1)}, disk)
  | none =>
    match l.victim with
    | none => none
    | some b =>
      let disk := if l.dirty b then l.writeOut myDatabaseId disk b else disk
      some (b, false,
        {l with
          refcount := update l.refcount b (l.refcount b + 1)
          nextFreeLocalBuf := (b + 1) % l.nlocBuffer
          relId := update l.relId b rel.rdId
          blockNum := update l.blockNum b blockNum
          dirty := update l.dirty b false},
        disk)

/-- `ReadBuffer` of a local relation. A new block is zero-filled and the file extended, found
or not; a block that is not found is read. -/
def readLocal (s : LocalSys Page) (rel : Relation) (blockNum : Option Nat) : Option (LocalSys Page) :=
  let b := blockNum.getD (s.rdNblocks rel.rdId)
  let nblocks := if blockNum = none
    then update s.rdNblocks rel.rdId (s.rdNblocks rel.rdId + 1) else s.rdNblocks
  (localBufferAlloc myDatabaseId s.pool s.disk rel b).map fun (i, found, l, disk) =>
    if blockNum = none then
      ⟨{l with data := update l.data i 0}, nblocks, mdextend disk rel.file 0, some i⟩
    else if found then ⟨l, nblocks, disk, some i⟩
    else ⟨{l with data := update l.data i (mdread disk rel.file b)}, nblocks, disk, some i⟩

/-- `LocalRefCount[bufid]--` when the buffer is released too. -/
def LocalPool.releaseIf (l : LocalPool Page) (i : Nat) (release : Bool) : LocalPool Page :=
  if release then {l with refcount := update l.refcount i (l.refcount i - 1)} else l

omit [Zero Page] in
/-- `WriteLocalBuffer` -/
def writeLocalBuffer (l : LocalPool Page) (i : Nat) (release : Bool) : LocalPool Page :=
  {l with dirty := update l.dirty i true}.releaseIf i release

/-- `FlushLocalBuffer` -/
def flushLocalBuffer (l : LocalPool Page) (disk : Disk Page) (i : Nat) (release : Bool) :
    LocalPool Page × Disk Page :=
  let l := {l with dirty := update l.dirty i false}
  (l.releaseIf i release, l.writeOut myDatabaseId disk i)

/-- The first `n` passes of `LocalBufferSync`. -/
def syncLocal (l : LocalPool Page) (disk : Disk Page) : Nat → LocalPool Page × Disk Page
  | 0 => (l, disk)
  | n + 1 =>
    let (l, disk) := syncLocal l disk n
    if l.dirty n then
      ({l with
        relId := update l.relId n 0
        dirty := update l.dirty n false}, l.writeOut myDatabaseId disk n)
    else (l, disk)

/-- `LocalBufferSync` -/
def localBufferSync (l : LocalPool Page) (disk : Disk Page) : LocalPool Page × Disk Page :=
  let (l, disk) := syncLocal myDatabaseId l disk l.nlocBuffer
  ({l with refcount := fun _ => 0}, disk)

omit [Zero Page] in
/-- `InitLocalBuffer`, with the contents of the memory that is allocated later. -/
def initLocalBuffer (nlocBuffer : Nat) (memory : Nat → Page) : LocalPool Page :=
  { nlocBuffer := nlocBuffer
    relId := fun _ => 0, blockNum := fun _ => 0, dirty := fun _ => false, sbRelname := fun _ => ""
    data := memory, refcount := fun _ => 0, nextFreeLocalBuf := 0 }

end Files

/-- What a backend does with its local buffers. A buffer that is changed, written, flushed or
released is one that it has. -/
inductive LocalAct (Page : Type) where
  | readBuffer (rel : Relation) (blockNum : Option Nat)
  /-- The contents of a page changed. -/
  | modify (i : Nat) (page : Page)
  | writeLocalBuffer (i : Nat) (release : Bool)
  | flushLocalBuffer (i : Nat) (release : Bool)
  | releaseBuffer (i : Nat)
  | localBufferSync

/-- The buffers that the backend has. -/
def LocalPool.Pinned (l : LocalPool Page) (i : Nat) : Prop := i < l.nlocBuffer ∧ 0 < l.refcount i

instance (l : LocalPool Page) (i : Nat) : Decidable (l.Pinned i) := inferInstanceAs (Decidable (_ ∧ _))

/-- A step, `none` where the backend crashes or has not pinned the buffer. -/
def localStep [Zero Page] (myDatabaseId : Oid) (s : LocalSys Page) : LocalAct Page → Option (LocalSys Page)
  | .readBuffer rel blockNum => readLocal myDatabaseId s rel blockNum
  | .modify i page =>
    if s.pool.Pinned i then some {s with pool := {s.pool with data := update s.pool.data i page}} else none
  | .writeLocalBuffer i release =>
    if s.pool.Pinned i then some {s with pool := writeLocalBuffer s.pool i release} else none
  | .flushLocalBuffer i release =>
    if s.pool.Pinned i then
      let (l, disk) := flushLocalBuffer myDatabaseId s.pool s.disk i release
      some {s with pool := l, disk := disk}
    else none
  | .releaseBuffer i => if s.pool.Pinned i then some {s with pool := s.pool.releaseIf i true} else none
  | .localBufferSync =>
    let (l, disk) := localBufferSync myDatabaseId s.pool s.disk
    some {s with pool := l, disk := disk}

/-- A history: the state, what has been written to each block last, and which buffers have
been changed without a write since. -/
structure LocalTrace (Page : Type) extends LocalSys Page where
  written : Oid × Nat → Page
  pending : Nat → Bool

/-- What a step adds to the history. A new block is written as zeros. -/
def LocalTrace.record [Zero Page] (s : LocalTrace Page) (a : LocalAct Page) (t : LocalSys Page) : LocalTrace Page :=
  match a with
  | .readBuffer rel none => ⟨t, update s.written (rel.rdId, s.rdNblocks rel.rdId) 0, s.pending⟩
  | .modify i _ => ⟨t, s.written, update s.pending i true⟩
  | .writeLocalBuffer i _ | .flushLocalBuffer i _ =>
    ⟨t, update s.written (s.pool.relId i, s.pool.blockNum i) (s.pool.data i),
      update s.pending i false⟩
  | .readBuffer _ (some _) | .releaseBuffer _ | .localBufferSync => ⟨t, s.written, s.pending⟩

/-- A step with its record. -/
def traceStep [Zero Page] (myDatabaseId : Oid) (s : LocalTrace Page) (a : LocalAct Page) : Option (LocalTrace Page) :=
  (localStep myDatabaseId s.toLocalSys a).map (s.record a)

/-- New local buffers on the files `disk`, with relations whose blocks are all in their files. -/
def traceStart [Zero Page] (nlocBuffer : Nat) (memory : Nat → Page) (disk : Disk Page) (file : Oid → File) :
    LocalTrace Page :=
  ⟨⟨initLocalBuffer nlocBuffer memory, fun o => mdnblocks disk (file o), disk, none⟩,
    fun k => mdread disk (file k.1) k.2, fun _ => false⟩

end PgStorage.BufMgr
