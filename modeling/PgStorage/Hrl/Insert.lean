import PgStorage.Hrl.Update

/-! Inserting tid numbers (`insertsetbit` and the hot buffer in `bitmapinsert.c`).

A tid number beyond the last set bit goes to the hot buffer, which has the bits of one
heap block. When the block changes, the hot buffer is flushed: its words are merged one
by one behind the last words of the vector. -/
namespace PgStorage.Hrl
open BitVec (ofNat)

/-- `_bitmap_formitem` -/
def formitem (currTidNumber : BitVec 64) : LovItem :=
  let item : LovItem :=
    { lovHead := invalidBlockNumber, lovTail := invalidBlockNumber, lastCompword := literalAllOne
      lastWord := literalAllZero, lastTidLocation := 0, lastSetbit := 0, wordsHeader := lovWordsNoFill }
  if 16 < currTidNumber then
    -- the number of fill words is an `uint32`
    let total := ((currTidNumber - 1) / 16).toNat % 2 ^ 32
    let fill := min total maxFillLength
    {item with
      lastCompword := makeFillWord 0 fill, wordsHeader := lastCompwordBit
      lastTidLocation := ofNat 64 (fill * 16)
      lastSetbit := if fill < total then ofNat 64 (fill * 16) else 0}
  else item

/-- `BM_IPTR_TO_INT` -/
def iptrToInt (block offset : Nat) : BitVec 64 := ofNat 64 (block * maxHtupPerPage + offset)

/-- `BM_INT_GET_BLOCKNO` -/
def intGetBlockno (tidnum : BitVec 64) : Nat := ((tidnum - 1) / ofNat 64 maxHtupPerPage).toNat % 2 ^ 32

/-- `BM_INT_GET_OFFSET` -/
def intGetOffset (tidnum : BitVec 64) : Nat := ((tidnum - 1) % ofNat 64 maxHtupPerPage).toNat + 1

/-- `BM_SIZEOF_HOT_BUFFER` -/
def sizeofHotBuffer : Nat := (maxHtupPerPage - 1) / 16 + 1

/-! ### The hot buffer -/

/-- `buf_free_mem` without a flush: the words collected go to disk -/
def bufFreeWords (rel : Relation) (lov : Nat × Nat) (buf : TidBuffer) : Relation × TidBuffer :=
  if buf.numCwords = 0 then (rel, buf)
  else
    let (rel, buf) := writeNewBitmapwords rel lov buf
    (rel, freeTidbuf buf)

/-- `buf_ensure_head_space` -/
def bufEnsureHeadSpace (rel : Relation) (lov : Nat × Nat) (buf : TidBuffer) : Relation × TidBuffer :=
  if headerWords * 16 ≤ buf.curword then
    let (rel, buf) := bufFreeWords rel lov buf
    (rel, bufExtend buf)
  else (rel, buf)

/-- The word of the hot buffer as the vector's last word, and whether it is a fill. -/
def hotWord (w : Word) : Word × Bool :=
  if w = literalAllOne then (makeFillWord 1 1, true)
  else if w = literalAllZero then (makeFillWord 0 1, true)
  else (w, false)

/-- The loop of `hot_buffer_flush`, with `n` words left. The word that reaches to the last
offset is not merged, and ends the loop. -/
def flushFrom (lov : Nat × Nat) : Nat → Nat → Relation → TidBuffer → Relation × TidBuffer
  | 0, _, rel, buf => (rel, buf)
  | n + 1, i, rel, buf =>
    let buf := {buf with lastTid := iptrToInt buf.hotBufferBlock (min buf.hotBufferLastOffset ((i + 1) * 16))}
    let merge := decide ((i + 1) * 16 < buf.hotBufferLastOffset)
    let (rel, buf) := bufEnsureHeadSpace rel lov buf
    let (w, fill) := hotWord (buf.hotBuffer i)
    let buf := {buf with lastWord := w}
    if merge then flushFrom lov n (i + 1) rel (mergewords buf fill) else (rel, buf)

/-- `hot_buffer_flush` -/
def hotBufferFlush (rel : Relation) (lov : Nat × Nat) (buf : TidBuffer) : Relation × TidBuffer :=
  let (rel, buf) := flushFrom lov sizeofHotBuffer 0 rel buf
  (rel, {buf with hotBuffer := fun _ => 0})

/-- `buf_free_mem` -/
def bufFreeMem (rel : Relation) (lov : Nat × Nat) (buf : TidBuffer) (flushHotBuffer : Bool) : Relation × TidBuffer :=
  let (rel, buf) := if flushHotBuffer then hotBufferFlush rel lov buf else (rel, buf)
  bufFreeWords rel lov buf

/-- `buf_add_tid_with_fill` -/
def bufAddTidWithFill (rel : Relation) (lov : Nat × Nat) (buf : TidBuffer) (tidnum : BitVec 64) : Relation × TidBuffer :=
  let block := intGetBlockno tidnum
  let offset := intGetOffset tidnum
  let (rel, buf) :=
    if block ≠ buf.hotBufferBlock then
      let (rel, buf) :=
        if buf.hotBufferBlock ≠ invalidBlockNumber then
          hotBufferFlush rel lov {buf with hotBufferLastOffset := maxHtupPerPage}
        else (rel, buf)
      (rel, {buf with hotBufferBlock := block})
    else (rel, buf)
  (rel, {buf with
    hotBuffer := fun i => if i = (offset - 1) / 16 then buf.hotBuffer i ||| (1 : Word) <<< ((offset - 1) % 16)
      else buf.hotBuffer i
    hotBufferLastOffset := max buf.hotBufferLastOffset offset})

/-- `insertsetbit` -/
def insertsetbit (rel : Relation) (lov : Nat × Nat) (tidnum : BitVec 64) (buf : TidBuffer) : Option Relation :=
  let item := rel.lov lov
  let buf := {buf with
    lastCompword := item.lastCompword, lastWord := item.lastWord, isLastCompwordFill := lastCompwordIsFill item
    startWordno := 0, lastTid := item.lastSetbit, cwords := fun _ => 0, lastTids := fun _ => 0
    hwords := fun i => if i * 16 < buf.numCwords then 0 else buf.hwords i, curword := 0}
  if tidnum ≤ item.lastSetbit then updatesetbit rel lov tidnum
  else
    let (rel, buf) := bufAddTidWithFill rel lov buf tidnum
    if buf.numCwords = 0 then
      let item := rel.lov lov
      let item := {item with
        lastCompword := buf.lastCompword, lastWord := buf.lastWord
        wordsHeader := item.wordsHeader &&& lastCompwordBit
        lastSetbit := tidnum, lastTidLocation := tidnum - tidnum % 16}
      some (logBitmapLastwords (rel.setLov lov item) lov item)
    else some (writeNewBitmapwords rel lov buf).1

/-- The part of `inserttuple` behind the search for the LOV item: a buffer of zeros, with
room for words, for each tid number. -/
def insertTid (rel : Relation) (lov : Nat × Nat) (tidnum : BitVec 64) : Option Relation :=
  insertsetbit rel lov tidnum (bufExtend zeroBuffer)

/-- Tid numbers inserted one after the other. -/
def insertTids (rel : Relation) (lov : Nat × Nat) : List (BitVec 64) → Option Relation
  | [] => some rel
  | t :: ts =>
    match insertTid rel lov t with
    | none => none
    | some rel => insertTids rel lov ts

/-! ### Building an index

`buf_add_tid` and `_bitmap_write_alltids`. A build reads the heap from its first block to its last. Each key has a
buffer of its own, made from the key's LOV item when its first tid is added. Under memory pressure the words of a buffer
are spilled; the end of the build flushes what is left. -/

/-- What a build does to the buffer of one key: a tid is added, or `buf_make_space` comes
to the buffer. -/
inductive BuildEvent where
  | add (block offset : Nat)
  | spill
  deriving DecidableEq, Repr

/-- The index and the buffer of one key, if it has one. -/
structure Build where
  rel : Relation
  buf : Option TidBuffer

/-- The buffer that `buf_add_tid` makes for an LOV item -/
def lovBuffer (item : LovItem) : TidBuffer :=
  bufExtend {zeroBuffer with
    lastTid := item.lastSetbit, lastCompword := item.lastCompword, lastWord := item.lastWord
    isLastCompwordFill := lastCompwordIsFill item, hotBufferBlock := invalidBlockNumber}

/-- `buf_add_tid`, for a tid number -/
def bufAddTid (lov : Nat × Nat) (s : Build) (tidnum : BitVec 64) : Build :=
  let (rel, buf) := bufAddTidWithFill s.rel lov (s.buf.getD (lovBuffer (s.rel.lov lov))) tidnum
  ⟨rel, some buf⟩

/-- The step of `buf_make_space` for one buffer -/
def bufMakeSpace (lov : Nat × Nat) (s : Build) : Build :=
  match s.buf with
  | none => s
  | some buf =>
    if buf.numCwords = 0 then s
    else
      let (rel, buf) := bufFreeMem s.rel lov buf false
      ⟨rel, some buf⟩

/-- `_bitmap_write_alltids`, for one buffer -/
def writeAlltids (lov : Nat × Nat) (s : Build) : Relation :=
  match s.buf with
  | none => s.rel
  | some buf => if buf.numCwords = 0 then s.rel else (bufFreeMem s.rel lov buf true).1

def buildStep (lov : Nat × Nat) (s : Build) : BuildEvent → Build
  | .add block offset => bufAddTid lov s (iptrToInt block offset)
  | .spill => bufMakeSpace lov s

/-- The events of a build, one after the other. -/
def buildRun (lov : Nat × Nat) (s : Build) : List BuildEvent → Build
  | [] => s
  | e :: es => buildRun lov (buildStep lov s e) es

/-- A whole build. -/
def build (rel : Relation) (lov : Nat × Nat) (es : List BuildEvent) : Relation :=
  writeAlltids lov (buildRun lov ⟨rel, none⟩ es)

end PgStorage.Hrl
