import PgStorage.Hrl.Insert

/-! Replay of the log (`bitmapxlog.c`).

`bitmap_redo` applies one record. A page is changed only if its LSN is smaller than the
record's. Where a record is taken to have the whole page, the page is not read from disk:
unless it is in the buffer cache, `XLogReadBuffer` gives a page of zeros. -/
namespace PgStorage.Hrl

/-- The index during replay: which blocks are in the buffer cache and which are new (all
zeros), the LSN of each block, and `incomplete_actions`. -/
structure RedoState extends Index where
  cached : Nat → Bool
  isNew : Nat → Bool
  lsn : Nat → Nat
  incomplete : List XlBitmapwords

/-- A page of zeros. -/
def zeroPage : BMPage :=
  { hwords := fun _ => 0, cwords := fun _ => 0, hrlWordsUsed := 0, bitmapNext := 0, lastTidLocation := 0 }

namespace RedoState

def setPage (s : RedoState) (b : Nat) (p : BMPage) : RedoState :=
  {s with page := fun i => if i = b then p else s.page i}

def setLov (s : RedoState) (l : Nat × Nat) (item : LovItem) : RedoState :=
  {s with lov := fun i => if i = l then item else s.lov i}

/-- `PageSetLSN` -/
def setLsn (s : RedoState) (b lsn : Nat) : RedoState :=
  {s with lsn := fun i => if i = b then lsn else s.lsn i}

def setCached (s : RedoState) (b : Nat) : RedoState :=
  {s with cached := fun i => if i = b then true else s.cached i}

/-- The blocks from `first` to `last` become zeros, in the buffer cache. -/
def zeroBlocks (s : RedoState) (first last : Nat) : RedoState :=
  {s with
    page := fun i => if first ≤ i ∧ i ≤ last then zeroPage else s.page i
    cached := fun i => if first ≤ i ∧ i ≤ last then true else s.cached i
    isNew := fun i => if first ≤ i ∧ i ≤ last then true else s.isNew i
    lsn := fun i => if first ≤ i ∧ i ≤ last then 0 else s.lsn i}

/-- `XLogReadBuffer`; without `init` it fails on a block that is missing or new -/
def xlogReadBuffer (s : RedoState) (blkno : Nat) (init : Bool) : Option RedoState :=
  if blkno < s.nblocks then
    if init then some (if s.cached blkno then s else s.zeroBlocks blkno blkno)
    else if s.isNew blkno then none
    else some (s.setCached blkno)
  else if init then some {s.zeroBlocks s.nblocks blkno with nblocks := blkno + 1}
  else none

/-- `_bitmap_init_bitmappage` -/
def initBitmappage (s : RedoState) (blkno : Nat) : RedoState :=
  {s.setPage blkno
    {s.page blkno with hrlWordsUsed := 0, bitmapNext := invalidBlockNumber, lastTidLocation := 0} with
    isNew := fun i => if i = blkno then false else s.isNew i}

end RedoState

/-- The test of `forget_incomplete_insert_bitmapwords` -/
def continues (action newWords : XlBitmapwords) : Bool :=
  decide (action.lov = newWords.lov ∧ action.lastSetbit = newWords.lastSetbit) && !action.isLast

/-- `forget_incomplete_insert_bitmapwords` -/
def forgetIncompleteInsertBitmapwords (actions : List XlBitmapwords) (newWords : XlBitmapwords) : List XlBitmapwords :=
  actions.eraseP (continues · newWords)

/-- `log_incomplete_insert_bitmapwords` -/
def logIncompleteInsertBitmapwords (actions : List XlBitmapwords) (newWords : XlBitmapwords) : List XlBitmapwords :=
  forgetIncompleteInsertBitmapwords actions newWords ++
    [{newWords with
      blkno := newWords.nextBlkno, nextBlkno := invalidBlockNumber
      startWordno := newWords.startWordno + newWords.wordsWritten, wordsWritten := 0}]

/-! ### Records -/

/-- `_bitmap_xlog_insert_bitmap_lastwords` -/
def xlogInsertBitmapLastwords (lsn : Nat) (r : XlLastwords) (s : RedoState) : Option RedoState := do
  let s ← s.xlogReadBuffer r.lov.1 false
  if s.lsn r.lov.1 < lsn then
    let item := {s.lov r.lov with
      lastCompword := r.lastCompword, lastWord := r.lastWord, wordsHeader := r.wordsHeader}
    some ((s.setLov r.lov item).setLsn r.lov.1 lsn)
  else some s

/-- The words of a record as a buffer. -/
def recordWords (r : XlBitmapwords) : TidBuffer :=
  {zeroBuffer with
    curword := r.numCwords, startWordno := r.startWordno
    lastTids := r.lastTids, cwords := r.cwords, hwords := r.hwords}

/-- The LOV item of `_bitmap_xlog_insert_bitmapwords`, for the last record -/
def lastRecordItem (r : XlBitmapwords) (item : LovItem) : LovItem :=
  { lastCompword := r.lastCompword, lastWord := r.lastWord, wordsHeader := r.wordsHeader
    lastSetbit := r.lastSetbit, lastTidLocation := r.lastSetbit - r.lastSetbit % 16
    lovTail := r.blkno, lovHead := if item.lovHead = invalidBlockNumber then r.blkno else item.lovHead }

/-- `_bitmap_xlog_insert_bitmapwords` -/
def xlogInsertBitmapwords (lsn : Nat) (r : XlBitmapwords) (s : RedoState) : Option RedoState := do
  let s ← s.xlogReadBuffer r.blkno true
  let s := if s.isNew r.blkno then s.initBitmappage r.blkno else s
  if s.lsn r.blkno < lsn then
    let page := if r.wordsWritten = 0 then s.page r.blkno
      else (writeBitmapwords (s.page r.blkno) (recordWords r)).1
    let s := s.setPage r.blkno {page with bitmapNext := r.nextBlkno}
    let s ← s.xlogReadBuffer r.lov.1 false
    if r.isLast then
      let s := (s.setLov r.lov (lastRecordItem r (s.lov r.lov))).setLsn r.lov.1 lsn
      some ({s with incomplete := forgetIncompleteInsertBitmapwords s.incomplete r}.setLsn r.blkno lsn)
    else
      let s ← s.xlogReadBuffer r.nextBlkno true
      let s := s.initBitmappage r.nextBlkno
      let s := if r.isFirst then
          (s.setLov r.lov {s.lov r.lov with lovHead := r.blkno, lovTail := r.blkno}).setLsn r.lov.1 lsn
        else s
      let s := s.setLsn r.nextBlkno lsn
      some ({s with incomplete := logIncompleteInsertBitmapwords s.incomplete r}.setLsn r.blkno lsn)
  else some s

/-- `_bitmap_xlog_updateword` -/
def xlogUpdateword (lsn : Nat) (r : XlUpdateword) (s : RedoState) : Option RedoState := do
  let s ← s.xlogReadBuffer r.blkno false
  if s.lsn r.blkno < lsn then
    let p := s.page r.blkno
    let p := {p with
      cwords := fun i => if i = r.wordNo then r.cword else p.cwords i
      hwords := fun i => if i = r.wordNo / 16 then r.hword else p.hwords i}
    some ((s.setPage r.blkno p).setLsn r.blkno lsn)
  else some s

/-- The second page of `_bitmap_xlog_updatewords` -/
def xlogSecondPage (lsn : Nat) (r : XlUpdatewords) (s : RedoState) : RedoState :=
  (s.setPage r.secondBlkno
    { cwords := r.secondCwords, hwords := r.secondHwords, hrlWordsUsed := r.secondNumCwords
      lastTidLocation := r.secondLastTid, bitmapNext := r.nextBlkno }).setLsn r.secondBlkno lsn

/-- `_bitmap_xlog_updatewords` -/
def xlogUpdatewords (lsn : Nat) (r : XlUpdatewords) (s : RedoState) : Option RedoState := do
  let s ← s.xlogReadBuffer r.firstBlkno false
  if s.lsn r.firstBlkno < lsn then
    let s ← if r.twoPages then s.xlogReadBuffer r.secondBlkno true else some s
    let s := if r.twoPages && s.isNew r.secondBlkno then s.initBitmappage r.secondBlkno else s
    let s := s.setPage r.firstBlkno
      { cwords := r.firstCwords, hwords := r.firstHwords, hrlWordsUsed := r.firstNumCwords
        lastTidLocation := r.firstLastTid, bitmapNext := r.secondBlkno }
    let s := if r.twoPages then xlogSecondPage lsn r s else s
    -- without a second page, the new tail is what `secondBuffer` starts with
    let tail := if r.twoPages then r.secondBlkno else invalidBlockNumber
    if r.newLastpage then
      let s ← s.xlogReadBuffer r.lov.1 false
      some (((s.setLov r.lov {s.lov r.lov with lovTail := tail}).setLsn r.lov.1 lsn).setLsn r.firstBlkno lsn)
    else some (s.setLsn r.firstBlkno lsn)
  else some s

/-- `bitmap_redo`, for the records that operations on vectors log -/
def bitmapRedo (lsn : Nat) (record : XlRecord) (s : RedoState) : Option RedoState :=
  match record with
  | .lastwords r => xlogInsertBitmapLastwords lsn r s
  | .bitmapwords r => xlogInsertBitmapwords lsn r s
  | .updateword r => xlogUpdateword lsn r s
  | .updatewords r => xlogUpdatewords lsn r s

/-- Records with their LSNs, one after the other. -/
def redoAll : List (Nat × XlRecord) → RedoState → Option RedoState
  | [], s => some s
  | (lsn, r) :: rs, s => do
    let s ← bitmapRedo lsn r s
    redoAll rs s

/-- The buffer of `bitmap_xlog_cleanup`. `stack` is what it holds before its fields are
set, with the memory behind the record's arrays; `curword` is not set. -/
def cleanupWords (stack : TidBuffer) (action : XlBitmapwords) : TidBuffer :=
  {stack with
    numCwords := action.numCwords, startWordno := action.startWordno
    lastTids := fun i => if i < action.numCwords then action.lastTids i else stack.lastTids i
    cwords := fun i => if i < action.numCwords then action.cwords i else stack.cwords i
    hwords := fun i => if i * 16 < action.numCwords then action.hwords i else stack.hwords i
    lastCompword := action.lastCompword, lastWord := action.lastWord
    isLastCompwordFill := action.wordsHeader == 2, lastTid := action.lastSetbit}

/-- The index as a relation for an operation that does not log. -/
def RedoState.relation (s : RedoState) (stack : XlUpdatewords) : Relation :=
  {s.toIndex with useWal := false, stack, wal := []}

/-- One action of `bitmap_xlog_cleanup` -/
def cleanupAction (stack : TidBuffer) (rec : XlUpdatewords) (s : RedoState) (action : XlBitmapwords) : Option RedoState := do
  let s ← s.xlogReadBuffer action.lov.1 false
  let rel := (writeNewBitmapwords (s.relation rec) action.lov (cleanupWords stack action)).1
  some {s with
    toIndex := rel.toIndex
    cached := fun i => if s.nblocks ≤ i ∧ i < rel.nblocks then true else s.cached i
    isNew := fun i => if s.nblocks ≤ i ∧ i < rel.nblocks then false else s.isNew i}

/-- `bitmap_xlog_cleanup` -/
def bitmapXlogCleanup (stack : TidBuffer) (rec : XlUpdatewords) (s : RedoState) : Option RedoState := do
  let s ← s.incomplete.foldlM (cleanupAction stack rec) s
  some {s with incomplete := []}

end PgStorage.Hrl
