import PgStorage.Hrl.Write

/-! Setting a bit in the middle of a vector (`updatesetbit` in `bitmapinsert.c`).

A bit in a literal is set in place. A bit in a run of zeros splits the run into two or
three words; the words behind it move, and what no longer fits goes to the next page
or to a new one. -/
namespace PgStorage.Hrl

/-- `getnumbits` -/
def getnumbits (cwords hwords : Nat → Word) : Nat → BitVec 64
  | 0 => 0
  | n + 1 => getnumbits cwords hwords n + wordBits (isFillWord hwords n) (cwords n)

/-- Append a word; the source sets a fill's header bit after it has counted the word. -/
def TidBuffer.add (buf : TidBuffer) (fill : Bool) (w : Word) (lastTid : BitVec 64) : TidBuffer :=
  bufExtend (buf.push fill w lastTid)

/-- `updatesetbit_inword`: the words a run of zeros becomes when one bit is set -/
def updatesetbitInword (word : Word) (updateBitLoc : BitVec 64) (firstTid : BitVec 64) (buf : TidBuffer) : TidBuffer :=
  let numBits := BitVec.ofNat 64 (fillLength word * 16)
  let (buf, firstTid, used) :=
    if 16 ≤ updateBitLoc then
      let firstTid := firstTid + updateBitLoc / 16 * 16
      (buf.add true (makeFillWord 0 (updateBitLoc / 16).toNat) (firstTid - 1), firstTid, updateBitLoc / 16 * 16)
    else (buf, firstTid, 0)
  let firstTid := firstTid + 16
  let buf := buf.add false ((1 : Word) <<< (updateBitLoc - used).toNat) (firstTid - 1)
  let used := used + 16
  if used < numBits then
    let firstTid := firstTid + (numBits - used) / 16 * 16
    buf.add true (makeFillWord 0 ((numBits - used) / 16).toNat) (firstTid - 1)
  else buf

/-- `shift_header_bits`: make room for `shift` header bits at `startLoc` -/
def shiftHeaderBits (words : Nat → Word) (numOfBits maxNumOfWords startLoc shift : Nat) : Nat → Word :=
  let startNo := startLoc / 16
  let endNo := (numOfBits - 1) / 16
  -- from the last word down: the bits shifted out go to the next word
  let words := (List.range' (startNo + 1) (endNo - startNo)).foldr
    (fun no (ws : Nat → Word) i =>
      if i = no then ws no >>> shift
      else if i = no + 1 ∧ no < maxNumOfWords - 1 then ws i ||| (ws no <<< (16 - shift)) else ws i) words
  let loc := startLoc % 16
  let tail := (words startNo <<< loc) >>> loc
  let head := (words startNo >>> (16 - loc)) <<< (16 - loc)
  let final := min shift (16 - loc)
  fun i =>
    if i = startNo then head ||| (tail >>> final)
    else if i = startNo + 1 ∧ startNo < maxNumOfWords - 1 then
      words i ||| ((tail <<< (16 - final)) >>> (shift - final))
    else words i

/-- `insert_newwords`: `new` goes into `words` at `pos`; what does not fit is left over -/
def insertNewwords (words : TidBuffer) (pos : Nat) (new left : TidBuffer) : TidBuffer × TidBuffer :=
  let left := {left with curword := 0}
  if words.curword = 0 then
    ({words with
      cwords := fun i => if i < new.curword then new.cwords i else words.cwords i
      hwords := fun i => if i * 16 < new.curword then new.hwords i else words.hwords i
      curword := new.curword}, left)
  else if pos = words.numCwords then
    (words, {left with
      cwords := fun i => if i < new.curword then new.cwords i else left.cwords i
      hwords := fun i => if i * 16 < new.curword then new.hwords i else left.hwords i
      curword := new.curword})
  else
    let n := words.curword
    let k := new.curword
    let max := words.numCwords
    let target (j : Nat) : Bool × Word :=
      if max + j < pos + k then (isFillWord new.hwords (max + j - pos), new.cwords (max + j - pos))
      else (isFillWord words.hwords (max + j - k), words.cwords (max + j - k))
    let extra := n + k - max
    let left := {left with
      curword := extra
      cwords := fun j => if j < extra then (target j).2 else left.cwords j
      hwords := fun i => if i = 0 then
          (List.range extra).foldl (fun h j => if (target j).1 then h ||| headerBit j else h) 0
        else 0}
    -- header bits of the words that leave are cleared before the rest is shifted
    let cleared := fun i => (List.range' pos (n - pos)).foldl
      (fun h j => if j / 16 = i ∧ max ≤ j + k ∧ isFillWord words.hwords j = true then h &&& ~~~(headerBit j) else h)
      (words.hwords i)
    let shifted := shiftHeaderBits cleared n headerWords pos k
    let hwords := fun i => (List.range' pos k).foldl
      (fun h j => if j / 16 = i ∧ j < max ∧ isFillWord new.hwords (j - pos) = true then h ||| headerBit j else h)
      (shifted i)
    ({words with
      cwords := fun i =>
        if pos ≤ i ∧ i < pos + k ∧ i < max then new.cwords (i - pos)
        else if pos + k ≤ i ∧ i < n + k ∧ i < max then words.cwords (i - k) else words.cwords i
      hwords, curword := n + k - extra}, left)

/-! ### One page -/

/-- `_bitmap_log_updateword` -/
def logUpdateword (rel : Relation) (blk wordNo : Nat) : Relation :=
  rel.log <| .updateword
    { blkno := blk, wordNo, cword := (rel.page blk).cwords wordNo, hword := (rel.page blk).hwords (wordNo / 16) }

/-- `_bitmap_log_updatewords`. The LOV item and `bm_new_lastpage` are not set, and the
second page only if there is one. -/
def logUpdatewords (rel : Relation) (first : Nat) (second : Option Nat) : Relation :=
  let p := rel.page first
  let r := {rel.stack with
    twoPages := false, firstBlkno := first, firstCwords := p.cwords, firstHwords := p.hwords
    firstLastTid := p.lastTidLocation, firstNumCwords := p.hrlWordsUsed, nextBlkno := p.bitmapNext}
  let r := match second with
    | none => r
    | some b =>
      let q := rel.page b
      {r with
        twoPages := true, secondBlkno := b, secondCwords := q.cwords, secondHwords := q.hwords
        secondLastTid := q.lastTidLocation, secondNumCwords := q.hrlWordsUsed, nextBlkno := q.bitmapNext}
  rel.log (.updatewords r)

/-- The words of a page as a buffer; only the header words in use are copied. -/
def pageBuffer (p : BMPage) : TidBuffer :=
  {zeroBuffer with
    cwords := p.cwords, hwords := fun i => if i * 16 < p.hrlWordsUsed then p.hwords i else 0
    numCwords := hrlWordsPerPage, curword := p.hrlWordsUsed}

/-- Words of a buffer back on their page. -/
def BMPage.setBuffer (p : BMPage) (buf : TidBuffer) : BMPage :=
  {p with
    cwords := buf.cwords, hwords := fun i => if i * 16 < buf.curword then buf.hwords i else p.hwords i
    hrlWordsUsed := buf.curword}

/-- The search of `updatesetbit_inpage`: the word with the bit of `tidnum`, and the bits
up to its end. `n` words are left. -/
def findWord (p : BMPage) (first tidnum : BitVec 64) : Nat → Nat → BitVec 64 → Option (Nat × BitVec 64)
  | 0, _, _ => none
  | n + 1, wordNo, bitNo =>
    let bitNo := bitNo + wordBits (isFillWord p.hwords wordNo) (p.cwords wordNo)
    if tidnum ≤ first + bitNo - 1 then some (wordNo, bitNo) else findWord p first tidnum n (wordNo + 1) bitNo

/-- The page that takes the words that do not fit: the next one if it has room, else a
new one. -/
structure Spill where
  rel : Relation
  next : Option Nat
  newPage : Bool
  newLastpage : Bool

/-- The choice of the second page, for `extra` more words. -/
def choosePage (rel : Relation) (blk extra : Nat) : Spill :=
  let free := hrlWordsPerPage - (rel.page blk).hrlWordsUsed
  if extra ≤ free then ⟨rel, none, false, false⟩
  else
    let next := (rel.page blk).bitmapNext
    if next ≠ invalidBlockNumber ∧ extra ≤ hrlWordsPerPage - (rel.page next).hrlWordsUsed then
      ⟨rel, some next, false, false⟩
    else ⟨rel.newPage, some rel.nblocks, true, next == invalidBlockNumber⟩

/-- A content word of a page is overwritten. -/
def BMPage.setWord (p : BMPage) (wordNo : Nat) (w : Word) : BMPage :=
  {p with cwords := fun i => if i = wordNo then w else p.cwords i}

/-- The header bit of a word is cleared. -/
def BMPage.clearBit (p : BMPage) (wordNo : Nat) : BMPage :=
  {p with hwords := fun i => if i = wordNo / 16 then p.hwords i &&& ~~~(headerBit wordNo) else p.hwords i}

/-- The buffer without its first word. -/
def TidBuffer.dropFirst (buf : TidBuffer) : TidBuffer :=
  {buf with
    hwords := fun i => if i = 0 then buf.hwords 0 <<< 1 else buf.hwords i
    cwords := fun i => if i < buf.curword - 1 then buf.cwords (i + 1) else buf.cwords i
    curword := buf.curword - 1}

/-- The first page of an update: the run's word becomes `new`, of which the first word
takes its place. Gives the page and the words left over. -/
def splitFirst (p : BMPage) (wordNo : Nat) (literalFirst : Bool) (new : TidBuffer) : BMPage × TidBuffer :=
  let p := p.setWord wordNo (new.cwords 0)
  let p := if literalFirst then p.clearBit wordNo else p
  let (words, left) := insertNewwords (pageBuffer p) (wordNo + 1) new.dropFirst (bufExtend zeroBuffer)
  ({p.setBuffer words with
    lastTidLocation := p.lastTidLocation - getnumbits left.cwords left.hwords left.curword}, left)

/-- The second page of an update takes the words left over; a new page comes behind the
first, whose end it takes. -/
def splitSecond (q : BMPage) (newPage : Bool) (first : BMPage) (left : TidBuffer) : BMPage :=
  let q := if newPage then {q with lastTidLocation := first.lastTidLocation, bitmapNext := first.bitmapNext} else q
  if 0 < left.curword then q.setBuffer (insertNewwords (pageBuffer q) 0 left zeroBuffer).1 else q

/-- The part of `updatesetbit_inpage` that replaces a run by two or three words. -/
def splitWord (rel : Relation) (lov : Nat × Nat) (blk wordNo : Nat) (literalFirst : Bool) (new : TidBuffer) :
    Relation :=
  let old := rel.page blk
  let (p, left) := splitFirst old wordNo literalFirst new
  let s := choosePage rel blk (new.curword - 1)
  match s.next with
  | none => logUpdatewords (s.rel.setPage blk p) blk none
  | some b =>
    let rel := if s.newLastpage then s.rel.setLov lov {s.rel.lov lov with lovTail := b} else s.rel
    let rel := rel.setPage b (splitSecond (rel.page b) s.newPage old left)
    let rel := rel.setPage blk (if s.newPage then {p with bitmapNext := b} else p)
    logUpdatewords rel blk (some b)

/-- `updatesetbit_inpage`; it fails when the page does not reach to `tidnum` -/
def updatesetbitInpage (rel : Relation) (tidnum : BitVec 64) (lov : Nat × Nat) (blk : Nat) (first : BitVec 64) :
    Option Relation :=
  let p := rel.page blk
  match findWord p first tidnum p.hrlWordsUsed 0 0 with
  | none => none
  | some (wordNo, bitNo) =>
    let word := p.cwords wordNo
    if isFillWord p.hwords wordNo = false then
      let p := p.setWord wordNo (word ||| (1 : Word) <<< ((tidnum - 1) % 16).toNat)
      some (logUpdateword (rel.setPage blk p) blk wordNo)
    else if fillBit word = 1 then some rel
    else
      let first := first + bitNo - BitVec.ofNat 64 (fillLength word * 16)
      let new := updatesetbitInword word (tidnum - first) first (bufExtend zeroBuffer)
      if new.curword = 1 then
        some (logUpdateword (rel.setPage blk ((p.setWord wordNo (new.cwords 0)).clearBit wordNo)) blk wordNo)
      else some (splitWord rel lov blk wordNo (decide (tidnum - first + 1 ≤ 16)) new)

/-- The loop of `findbitmappage`, through at most `n` pages. -/
def findbitmappageFrom (rel : Relation) (tidnum : BitVec 64) : Nat → Nat → BitVec 64 → Option (Nat × BitVec 64)
  | 0, _, _ => none
  | n + 1, blk, first =>
    if blk = invalidBlockNumber then none
    else if tidnum ≤ (rel.page blk).lastTidLocation then some (blk, first)
    else findbitmappageFrom rel tidnum n (rel.page blk).bitmapNext ((rel.page blk).lastTidLocation + 1)

/-- `findbitmappage`: the page and its first tid number. A chain has no more pages than
the relation. -/
def findbitmappage (rel : Relation) (item : LovItem) (tidnum : BitVec 64) : Option (Nat × BitVec 64) :=
  findbitmappageFrom rel tidnum (rel.nblocks + 1) item.lovHead 1

/-- `_bitmap_log_bitmap_lastwords` -/
def logBitmapLastwords (rel : Relation) (lov : Nat × Nat) (item : LovItem) : Relation :=
  rel.log <| .lastwords
    { lastCompword := item.lastCompword, lastWord := item.lastWord, wordsHeader := item.wordsHeader, lov }

/-- `updatesetbit` -/
def updatesetbit (rel : Relation) (lov : Nat × Nat) (tidnum : BitVec 64) : Option Relation :=
  let item := rel.lov lov
  let tidLocation := item.lastTidLocation - wordBits (lastCompwordIsFill item) item.lastCompword
  let bit := (1 : Word) <<< ((tidnum - 1) % 16).toNat
  if item.lastTidLocation < tidnum then
    let item := {item with lastWord := item.lastWord ||| bit}
    some (logBitmapLastwords (rel.setLov lov item) lov item)
  else if tidLocation < tidnum ∧ (item.wordsHeader = lovWordsNoFill ∨ fillLength item.lastCompword = 1) then
    let compword := if fillLength item.lastCompword = 1 then 0 else item.lastCompword
    let item := {item with lastCompword := compword ||| bit, wordsHeader := lovWordsNoFill}
    some (logBitmapLastwords (rel.setLov lov item) lov item)
  else if tidLocation < tidnum ∧ lastwordIsFill item = true then
    -- the source tests the last word here, and the buffer has the words of the run only
    let buf := updatesetbitInword item.lastCompword (tidnum - tidLocation - 1) (tidLocation + 1) (bufExtend zeroBuffer)
    some (writeNewBitmapwords rel lov buf).1
  else
    match findbitmappage rel item tidnum with
    | none => none
    | some (blk, first) => updatesetbitInpage rel tidnum lov blk first

end PgStorage.Hrl
