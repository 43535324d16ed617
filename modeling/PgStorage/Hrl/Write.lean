import PgStorage.Lib.Loop
import PgStorage.Hrl.Page

/-! Writing new words (`bitmapinsert.c`).

A `BMTIDBuffer` collects words behind a vector's two last words: `mergewords` puts a
complete word behind them, and `_bitmap_write_new_bitmapwords` appends the collected
words to the vector's pages and stores the two last words in the LOV item. -/
namespace PgStorage.Hrl
open BitVec (ofNat)

/-- `BMTIDBuffer`. `hot_buffer` holds the bits of one heap block. -/
structure TidBuffer where
  lastCompword : Word
  lastWord : Word
  isLastCompwordFill : Bool
  lastTid : BitVec 64
  curword : Nat
  numCwords : Nat
  startWordno : Nat
  lastTids : Nat → BitVec 64
  hwords : Nat → Word
  cwords : Nat → Word
  hotBufferBlock : Nat
  hotBuffer : Nat → Word
  hotBufferLastOffset : Nat

/-- A buffer of zeros (`MemSet`, `palloc0`). -/
def zeroBuffer : TidBuffer :=
  { lastCompword := 0, lastWord := 0, isLastCompwordFill := false, lastTid := 0, curword := 0, numCwords := 0
    startWordno := 0, lastTids := fun _ => 0, hwords := fun _ => 0, cwords := fun _ => 0, hotBufferBlock := 0
    hotBuffer := fun _ => 0, hotBufferLastOffset := 0 }

/-- `BUF_INIT_WORDS` -/
def bufInitWords : Nat := 8

/-- `buf_extend` -/
def bufExtend (buf : TidBuffer) : TidBuffer :=
  if 0 < buf.numCwords ∧ buf.curword < buf.numCwords - 1 then buf
  else if buf.numCwords = 0 then
    {buf with cwords := fun _ => 0, lastTids := fun _ => 0, numCwords := bufInitWords}
  else
    let size := buf.numCwords
    {buf with
      cwords := fun i => if i < size then buf.cwords i else 0
      lastTids := fun i => if i < size then buf.lastTids i else 0
      numCwords := 2 * size}

/-- `_bitmap_free_tidbuf` -/
def freeTidbuf (buf : TidBuffer) : TidBuffer :=
  {buf with numCwords := 0, curword := 0, startWordno := 0, hwords := fun _ => 0}

/-- Append a content word, with its header bit and its last tid. -/
def TidBuffer.push (buf : TidBuffer) (fill : Bool) (w : Word) (lastTid : BitVec 64) : TidBuffer :=
  {buf with
    cwords := fun i => if i = buf.curword then w else buf.cwords i
    lastTids := fun i => if i = buf.curword then lastTid else buf.lastTids i
    hwords := fun i => if i = buf.curword / 16 ∧ fill = true then buf.hwords i ||| headerBit buf.curword else buf.hwords i
    curword := buf.curword + 1}

/-- The bits of a fill or of a literal. -/
def wordBits (fill : Bool) (w : Word) : BitVec 64 := if fill then ofNat 64 (fillLength w * 16) else 16

/-- `mergewords`: the last word, which is complete, goes behind the last complete word. -/
def mergewords (buf : TidBuffer) (lastWordFill : Bool) : TidBuffer :=
  let lastTid := buf.lastTid - (buf.lastTid - 1) % 16 - 1
  if buf.lastCompword = literalAllOne ∧ buf.lastWord = literalAllOne then buf
  else if buf.lastCompword = literalAllOne then
    {buf with
      lastCompword := buf.lastWord, isLastCompwordFill := lastWordFill, lastWord := 0
      lastTid := wordBits lastWordFill buf.lastWord}
  else
    let same := buf.isLastCompwordFill && lastWordFill && fillBit buf.lastCompword == fillBit buf.lastWord
    let length := fillLength buf.lastCompword + fillLength buf.lastWord
    if same = true ∧ length < maxFillLength then
      {buf with
        lastTid := lastTid + wordBits true buf.lastWord
        lastCompword := buf.lastCompword + ofNat 16 (fillLength buf.lastWord), lastWord := literalAllZero}
    else
      -- a fill takes what fits of the next one
      let merged := if same then maxFillLength - fillLength buf.lastCompword else 0
      let lastWord := buf.lastWord - ofNat 16 merged
      let lastTid := lastTid + ofNat 64 (merged * 16)
      let buf := (bufExtend buf).push buf.isLastCompwordFill (buf.lastCompword + ofNat 16 merged) lastTid
      {buf with
        lastCompword := lastWord, isLastCompwordFill := lastWordFill, lastWord := 0
        lastTid := lastTid + wordBits lastWordFill lastWord}

/-- `rshift_header_bits`: bits go right, across the words. -/
def rshiftHeaderBits (words : Nat → Word) (nwords bits : Nat) (i : Nat) : Word :=
  if i < nwords then (words i >>> bits) ||| (if i = 0 then 0 else words (i - 1) <<< (16 - bits)) else words i

/-- `lshift_header_bits` -/
def lshiftHeaderBits (words : Nat → Word) (nwords bits : Nat) (i : Nat) : Word :=
  if i < nwords then (words i <<< bits) ||| (if i + 1 < nwords then words (i + 1) >>> (16 - bits) else 0) else words i

/-! ### Pages -/

/-- The header words of `written` words of a buffer from `start` on, moved to the place
`used` of a page. -/
def movedHeader (hwords : Nat → Word) (start written used : Nat) : Nat → Word :=
  let startNo := start / 16
  let numHwords := (start + written - 1) / 16 - startNo + 1
  let startBit := start % 16
  let endBit := (start + written - 1) % 16
  let copied := fun i => if i < numHwords then hwords (startNo + i) else 0
  let first := fun i => if i = 0 then (copied i <<< startBit) >>> startBit else copied i
  let clean := fun i => if i = numHwords - 1 then (first i >>> (15 - endBit)) <<< (15 - endBit) else first i
  if startBit < used % 16 then rshiftHeaderBits clean (numHwords + 1) (used % 16 - startBit)
  else if used % 16 < startBit then lshiftHeaderBits clean numHwords (startBit - used % 16)
  else clean

/-- `_bitmap_write_bitmapwords`: as many words as fit, and their number -/
def writeBitmapwords (page : BMPage) (buf : TidBuffer) : BMPage × Nat :=
  let start := buf.startWordno
  let used := page.hrlWordsUsed
  let written := min (buf.curword - start) (hrlWordsPerPage - used)
  let hwords := movedHeader buf.hwords start written used
  let finalStart := used / 16
  let finalEnd := (used + written - 1) / 16
  ({page with
    cwords := fun i => if used ≤ i ∧ i < used + written then buf.cwords (start + (i - used)) else page.cwords i
    hwords := fun i =>
      if i = finalStart then page.hwords i ||| hwords 0
      else if finalStart < i ∧ i ≤ finalEnd then hwords (i - finalStart) else page.hwords i
    hrlWordsUsed := used + written
    lastTidLocation := buf.lastTids (start + written - 1)}, written)

/-- `_bitmap_log_bitmapwords` -/
def logBitmapwords (rel : Relation) (blk : Nat) (lov : Nat × Nat) (buf : TidBuffer) (written : Nat) (tidnum : BitVec 64)
    (nextBlkno : Nat) (isLast isFirst : Bool) : Relation :=
  rel.log <| .bitmapwords {
    blkno := blk, nextBlkno, lastTid := (rel.page blk).lastTidLocation, lov
    lastCompword := buf.lastCompword, lastWord := buf.lastWord
    wordsHeader := if buf.isLastCompwordFill then lastCompwordBit else lovWordsNoFill
    lastSetbit := tidnum, isLast, isFirst, startWordno := buf.startWordno, wordsWritten := written
    numCwords := buf.curword
    lastTids := fun i => if i < buf.curword then buf.lastTids i else 0
    cwords := fun i => if i < buf.curword then buf.cwords i else 0
    hwords := fun i => if i * 16 < buf.curword then buf.hwords i else 0}

/-- The state of the loop of `_bitmap_write_new_bitmapwords`; `blk` is the page being
filled. -/
structure WriteState where
  rel : Relation
  buf : TidBuffer
  blk : Nat
  isFirst : Bool

/-- The words left do not fit. -/
def overflows (s : WriteState) : Bool :=
  decide (hrlWordsPerPage - (s.rel.page s.blk).hrlWordsUsed < s.buf.curword - s.buf.startWordno)

/-- One pass: fill a page that is not the last, and go on with a new one. -/
def writePass (lov : Nat × Nat) (s : WriteState) : WriteState :=
  let page := s.rel.page s.blk
  let newBlk := s.rel.nblocks
  let rel := s.rel.newPage
  let (page, written) := if page.hrlWordsUsed < hrlWordsPerPage then writeBitmapwords page s.buf else (page, 0)
  let rel := rel.setPage s.blk {page with bitmapNext := newBlk}
  let item := rel.lov lov
  let isFirst := s.isFirst || item.lovHead == invalidBlockNumber
  let rel := if item.lovHead = invalidBlockNumber then rel.setLov lov {item with lovHead := s.blk, lovTail := s.blk}
    else rel
  { rel := logBitmapwords rel s.blk lov s.buf written s.buf.lastTid newBlk false isFirst
    buf := {s.buf with startWordno := s.buf.startWordno + written}, blk := newBlk, isFirst }

/-- The last page and the LOV item. -/
def writeLast (lov : Nat × Nat) (s : WriteState) : Relation × TidBuffer :=
  let page := s.rel.page s.blk
  let buf := s.buf
  let (page, written) := if buf.startWordno < buf.curword then writeBitmapwords page buf else (page, 0)
  let rel := s.rel.setPage s.blk page
  let item := rel.lov lov
  let isFirst := s.isFirst || item.lovHead == invalidBlockNumber
  let rel := rel.setLov lov
    { lovHead := if item.lovHead = invalidBlockNumber then s.blk else item.lovHead
      lovTail := s.blk, lastCompword := buf.lastCompword, lastWord := buf.lastWord
      lastTidLocation := buf.lastTid - buf.lastTid % 16, lastSetbit := buf.lastTid
      wordsHeader := if buf.isLastCompwordFill then lastCompwordBit else lovWordsNoFill }
  (logBitmapwords rel s.blk lov buf written buf.lastTid invalidBlockNumber true isFirst,
    {buf with startWordno := buf.startWordno + written})

/-- `_bitmap_write_new_bitmapwords`: every pass but the first fills a whole page. -/
def writeNewBitmapwords (rel : Relation) (lov : Nat × Nat) (buf : TidBuffer) : Relation × TidBuffer :=
  let item := rel.lov lov
  let start : WriteState :=
    if item.lovHead ≠ invalidBlockNumber then ⟨rel, buf, item.lovTail, false⟩
    else ⟨rel.newPage, buf, rel.nblocks, false⟩
  writeLast lov (Loop.whileN overflows (writePass lov) (buf.curword + 1) start)

end PgStorage.Hrl
