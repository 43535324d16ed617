import PgStorage.Hrl.Batch

/-! Scanning bitmap vectors (`bitmapsearch.c`).

A scan reads its vectors page by page, ORs the words in memory when there are
several vectors, and turns the words into tid locations. `_bitmap_next` returns
one location at a time, and false at the end. -/
namespace PgStorage.Hrl

/-- `BMVectorData`; the LOV item is named by its position. -/
structure VectorPos where
  lov : Nat × Nat
  nextBlockNo : Nat
  readLastWords : Bool
  batchWords : Batch

/-- `_bitmap_initscanpos` -/
def initscanpos (idx : Index) (lov : Nat × Nat) : VectorPos :=
  { lov, nextBlockNo := (idx.lov lov).lovHead, readLastWords := false
    batchWords := initBatchwords hrlWordsPerPage }

/-- The part of `read_words` that reads the LOV item: header word, words and their
number. A last complete word that equals `LITERAL_ALL_ONE` is not there. -/
def readLovWords (item : LovItem) : Word × (Nat → Word) × Nat :=
  if item.lastCompword ≠ literalAllOne then
    (item.wordsHeader.setWidth 16 <<< 14, fun i => if i = 0 then item.lastCompword else item.lastWord, 2)
  else (item.wordsHeader.setWidth 16 <<< 15, fun _ => item.lastWord, 1)

/-- Header words for the words of the LOV item behind `n` words of a page. -/
def appendHeader (hwords : Nat → Word) (n : Nat) (hword : Word) (i : Nat) : Word :=
  let h := if i = n / 16 then hwords i ||| (hword >>> (n % 16)) else hwords i
  if n % 16 = 15 ∧ i = (n + 1) / 16 then h ||| (hword <<< 1) else h

/-- `read_words`: a page, or the words of the LOV item. The words of the LOV item are
appended to those of the last page when they fit. -/
def readWords (idx : Index) (v : VectorPos) : VectorPos :=
  let (hword, lovWords, lovN) := readLovWords (idx.lov v.lov)
  if v.nextBlockNo ≠ invalidBlockNumber then
    let page := idx.page v.nextBlockNo
    let n := page.hrlWordsUsed
    let words := fun i => if i < n then page.cwords i else v.batchWords.cwords i
    if page.bitmapNext = invalidBlockNumber ∧ n ≤ hrlWordsPerPage - 2 then
      {v with
        nextBlockNo := page.bitmapNext, readLastWords := true
        batchWords := {v.batchWords with
          hwords := appendHeader page.hwords n hword
          cwords := fun i => if n ≤ i ∧ i < n + lovN then lovWords (i - n) else words i, nwords := n + lovN}}
    else
      {v with
        nextBlockNo := page.bitmapNext, readLastWords := false
        batchWords := {v.batchWords with hwords := page.hwords, cwords := words, nwords := n}}
  else
    {v with
      readLastWords := true
      batchWords := {v.batchWords with
        hwords := fun i => if i = 0 then hword else v.batchWords.hwords i
        cwords := fun i => if i < lovN then lovWords i else v.batchWords.cwords i, nwords := lovN}}

/-! ### Tid locations -/

/-- `BMIterateResult`; `numOfTids` is the length of `nextTids`. -/
structure IterateResult where
  nextTid : Nat
  lastScanPos : Nat
  lastScanWordNo : Nat
  nextTids : List Nat
  nextTidLoc : Nat

/-- `BM_BATCH_TIDS` -/
def batchTids : Nat := 16 * 1024

/-- The loop of `_bitmap_find_bitset`, with `n` positions left. -/
def findBitsetFrom (word : Word) : Nat → Nat → Nat
  | _, 0 => 0
  | pos, n + 1 => if word.getLsbD (pos - 1) then pos else findBitsetFrom word (pos + 1) n

/-- `_bitmap_find_bitset` -/
def findBitset (word : Word) (lastPos : Nat) : Nat := findBitsetFrom word (lastPos + 1) (16 - lastPos)

/-- `_bitmap_begin_iterate` -/
def beginIterate (words : Batch) : IterateResult :=
  { nextTid := words.firstTid, lastScanPos := 0, lastScanWordNo := words.startNo, nextTids := [], nextTidLoc := 0 }

/-- The words, the result, and the `done` of `_bitmap_findnexttids`. -/
structure TidScan where
  words : Batch
  result : IterateResult
  done : Bool

/-- Go on to the next word of the batch. -/
def TidScan.nextWord (s : TidScan) : TidScan :=
  {s with
    words := {s.words with nwords := s.words.nwords - 1}
    result := {s.result with lastScanWordNo := s.result.lastScanWordNo + 1, lastScanPos := 0}}

/-- Expand a run of ones, 16 locations at a time, as long as they fit; the count
left is in the word itself. -/
def explainFill (maxTids : Nat) : Nat → TidScan → TidScan
  | 0, s => s.nextWord
  | nfillwords + 1, s =>
    if s.result.nextTids.length + 16 ≤ maxTids then
      let at_ := s.result.lastScanWordNo
      explainFill maxTids nfillwords
        {s with
          words := {s.words with
            cwords := fun i => if i = at_ then s.words.cwords at_ - 1 else s.words.cwords i}
          result := {s.result with
            nextTids := s.result.nextTids ++ List.range' (s.result.nextTid + 1) 16
            nextTid := s.result.nextTid + 16}}
    else {s with done := true}

/-- The inner loop on a literal word: the next set bit after `oldScanPos`, until the
word or the space for locations ends. Each pass but the last finds a bit. -/
def scanLiteral (maxTids : Nat) : Nat → Nat → TidScan → TidScan
  | 0, _, s => s
  | fuel + 1, oldScanPos, s =>
    if s.result.nextTids.length < maxTids then
      let pos := findBitset (s.words.cwords s.result.lastScanWordNo) oldScanPos
      if pos ≠ 0 then
        let nextTid := s.result.nextTid + (pos - oldScanPos)
        scanLiteral maxTids fuel pos
          {s with result := {s.result with lastScanPos := pos, nextTid, nextTids := s.result.nextTids ++ [nextTid]}}
      else {s with result := {s.result with nextTid := s.result.nextTid + (16 - oldScanPos)}}.nextWord
    else s

/-- One pass of the loop of `_bitmap_findnexttids`. -/
def tidsPass (maxTids : Nat) (s : TidScan) : TidScan :=
  let oldScanPos := s.result.lastScanPos
  let word := s.words.cwords s.result.lastScanWordNo
  let fill := isFillWord s.words.hwords s.result.lastScanWordNo
  if oldScanPos = 0 ∧ ((fill = true ∧ fillBit word = 0) ∨ word = 0) then
    let fillLen := if word = 0 then 1 else fillLength word
    {s with result := {s.result with nextTid := s.result.nextTid + fillLen * 16}}.nextWord
  else if fill = true ∧ fillBit word = 1 then explainFill maxTids (fillLength word) s
  else scanLiteral maxTids 17 oldScanPos s

/-- `_bitmap_findnexttids`: every pass uses up a word, or fills the space. -/
def findnexttids (words : Batch) (result : IterateResult) (maxTids : Nat) : Batch × IterateResult :=
  let s := Loop.whileN
    (fun s => decide (0 < s.words.nwords ∧ s.result.nextTids.length < maxTids) && !s.done) (tidsPass maxTids)
    (words.nwords + 1) ⟨words, {result with nextTidLoc := 0, nextTids := []}, false⟩
  (s.words, s.result)

/-- `_bitmap_findnexttid`: 0 when there are no more. -/
def findnexttid (words : Batch) (result : IterateResult) : Nat × Batch × IterateResult :=
  let (words, result) :=
    if result.nextTids.length ≤ result.nextTidLoc then findnexttids words result batchTids else (words, result)
  if result.nextTidLoc < result.nextTids.length then
    (result.nextTids.getD result.nextTidLoc 0, words, {result with nextTidLoc := result.nextTidLoc + 1})
  else (0, words, result)

/-- `BMScanPositionData`. With one vector its batch is the vector's own, and
`unionWords` is not used. -/
structure ScanPos where
  done : Bool
  posvecs : List VectorPos
  unionWords : Batch
  result : IterateResult

/-- `scanPos->bm_batchWords` -/
def ScanPos.batchWords (s : ScanPos) : Batch :=
  match s.posvecs with
  | [v] => v.batchWords
  | _ => s.unionWords

def ScanPos.setBatchWords (s : ScanPos) (words : Batch) : ScanPos :=
  match s.posvecs with
  | [v] => {s with posvecs := [{v with batchWords := words}]}
  | _ => {s with unionWords := words}

/-- `_bitmap_findbitmaps`, for the LOV items it finds -/
def findbitmaps (idx : Index) (lovs : List (Nat × Nat)) : ScanPos :=
  { done := lovs.isEmpty, posvecs := lovs.map (initscanpos idx), unionWords := initBatchwords hrlWordsPerPage
    result := ⟨0, 0, 0, [], 0⟩ }

/-- Read the next words of a vector that has none left in memory. -/
def refill (idx : Index) (v : VectorPos) : VectorPos :=
  if v.batchWords.nwords = 0 ∧ v.readLastWords = false then
    readWords idx {v with batchWords := resetBatchwords v.batchWords}
  else v

/-- Batches go to the union by reference; their changes are put back here. -/
def putBack : List VectorPos → List Batch → List VectorPos
  | v :: vs, bs =>
    if v.batchWords.nwords = 0 then v :: putBack vs bs
    else
      match bs with
      | b :: bs => {v with batchWords := b} :: putBack vs bs
      | [] => v :: vs
  | [], _ => []

/-- The batches that have words. -/
def batches (vs : List VectorPos) : List Batch := (vs.map (·.batchWords)).filter (·.nwords ≠ 0)

/-- `next_batch_words` -/
def nextBatchWords (idx : Index) (s : ScanPos) : ScanPos :=
  let posvecs := s.posvecs.map (refill idx)
  let s := {s with posvecs}
  match posvecs with
  | [v] => if v.batchWords.nwords = 0 then {s with done := true} else s
  | _ =>
    if (batches posvecs).isEmpty then {s with done := true}
    else
      let (bs, result) := union (batches posvecs) s.unionWords
      {s with posvecs := putBack posvecs bs, unionWords := result}

/-- There is nothing left to return from memory. -/
def drained (s : ScanPos) : Bool :=
  s.batchWords.nwords == 0 && decide (s.result.nextTids.length ≤ s.result.nextTidLoc)

/-- Compute the next batch of words, as `_bitmap_next` does. -/
def nextWords (idx : Index) (s : ScanPos) : ScanPos :=
  let words := resetBatchwords s.batchWords
  let s := nextBatchWords idx (s.setBatchWords {words with firstTid := s.result.nextTid})
  {s with result := beginIterate s.batchWords}

/-- One pass of the loop of `_bitmap_next`; it leaves with a location, or with
`none` for false. -/
def nextPass (idx : Index) (s : ScanPos) : Pass ScanPos (Option Nat × ScanPos) :=
  let s := if drained s then nextWords idx s else s
  if drained s then .leave (none, s)
  else
    let (nextTid, words, result) := findnexttid s.batchWords s.result
    let s := {s.setBatchWords words with result}
    if nextTid = 0 then .again s else .leave (some nextTid, s)

/-- `_bitmap_next` -/
def bitmapNext (idx : Index) (fuel : Nat) (s : ScanPos) : Option (Option Nat × ScanPos) :=
  if s.done then some (none, s) else Loop.iterate (nextPass idx) fuel s

/-- The locations of a whole scan: `_bitmap_next` until it returns false. -/
def scan (idx : Index) (fuel : Nat) : Nat → ScanPos → Option (List Nat)
  | 0, _ => none
  | calls + 1, s =>
    match bitmapNext idx fuel s with
    | none => none
    | some (none, _) => some []
    | some (some tid, s) => (scan idx fuel calls s).map (tid :: ·)

end PgStorage.Hrl
