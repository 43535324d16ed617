import PgStorage.Lib.Loop
import PgStorage.Hrl.Page

/-! Batches of words and their union (`_bitmap_union` in `bitmaputil.c`).

A batch holds consecutive words of one vector in memory. The union reads several
batches in step, word by word of the uncompressed vectors: `nextread` is the
number of the next word, `nwordsread` how many words of a batch's vector have been
passed. A run of ones in one batch moves `nextread` past the run at once, and the
other batches catch up when they are looked at next. -/
namespace PgStorage.Hrl

/-- `BMBatchWords`. Word counts of uncompressed vectors are `uint32`. -/
structure Batch where
  maxNumOfWords : Nat
  nwordsread : BitVec 32
  nextread : BitVec 32
  firstTid : Nat
  startNo : Nat
  nwords : Nat
  hwords : Nat → Word
  cwords : Nat → Word

/-- `_bitmap_init_batchwords`, on zeroed memory -/
def initBatchwords (maxNumOfWords : Nat) : Batch :=
  { maxNumOfWords, nwordsread := 0, nextread := 1, firstTid := 0, startNo := 0, nwords := 0
    hwords := fun _ => 0, cwords := fun _ => 0 }

/-- `_bitmap_reset_batchwords` -/
def resetBatchwords (words : Batch) : Batch := {words with startNo := 0, nwords := 0, hwords := fun _ => 0}

namespace Batch

def curWord (b : Batch) : Word := b.cwords b.startNo

/-- `CUR_WORD_IS_FILL` -/
def curWordIsFill (b : Batch) : Bool := isFillWord b.hwords b.startNo

/-- `startNo++; nwords--` -/
def advance (b : Batch) : Batch := {b with startNo := b.startNo + 1, nwords := b.nwords - 1}

def setCurWord (b : Batch) (w : Word) : Batch :=
  {b with cwords := fun i => if i = b.startNo then w else b.cwords i}

end Batch

/-- The loop condition of `_bitmap_findnextword`. -/
def lagging (nextReadNo : BitVec 32) (words : Batch) : Bool :=
  decide (0 < words.nwords ∧ words.nwordsread < nextReadNo - 1)

/-- One pass of `_bitmap_findnextword`. -/
def skipWord (nextReadNo : BitVec 32) (words : Batch) : Batch :=
  let word := words.curWord
  if words.curWordIsFill then
    let lag := nextReadNo - words.nwordsread - 1
    if BitVec.ofNat 32 (fillLength word) ≤ lag then
      {words.advance with nwordsread := words.nwordsread + BitVec.ofNat 32 (fillLength word)}
    else {words.setCurWord (word - lag.setWidth 16) with nwordsread := nextReadNo - 1}
  else {words.advance with nwordsread := words.nwordsread + 1}

/-- `_bitmap_findnextword`: every pass uses up a word or is the last. -/
def findnextword (words : Batch) (nextReadNo : BitVec 32) : Batch :=
  Loop.whileN (lagging nextReadNo) (skipWord nextReadNo) (words.nwords + 1) words

/-- `_bitmap_resetWord` -/
def resetWord (words : Batch) (prevStartNo : Nat) : Batch :=
  let words :=
    if prevStartNo < words.startNo then {words with startNo := prevStartNo, nwords := words.nwords + 1}
    else words.setCurWord (words.curWord + 1)
  {words with nwordsread := words.nwordsread - 1}

/-- Read one word of a batch that stands at a literal or at a run of zeros. -/
def readWord (bch : Batch) : Batch :=
  if bch.curWordIsFill then
    if fillLength bch.curWord = 1 then {bch.advance with nwordsread := bch.nwordsread + 1}
    else {bch.setCurWord (bch.curWord - 1) with nwordsread := bch.nwordsread + 1}
  else {bch.advance with nwordsread := bch.nwordsread + 1}

/-- A batch that stands at a run of ones. -/
def atOnes (bch : Batch) : Bool := bch.curWordIsFill && fillBit bch.curWord == 1

/-- What one pass over the batches comes to. -/
inductive WordPass where
  /-- A batch has run out; the batches before it are reset. -/
  | exhausted (batches : List Batch)
  /-- Every batch gave a word; their OR. -/
  | literal (orWord : Word) (batches : List Batch)
  /-- A batch gave a run of ones: the fill word, the next word to read, and whether
  it was the last batch and is empty now. -/
  | ones (orWord : Word) (nextReadNo : BitVec 32) (lastEmpty : Bool) (batches : List Batch)

/-- The `for` loop of `_bitmap_union`. The source resets the batches before an
exhausted one after the loop; here each is reset on the way back. -/
def unionWord (nextReadNo : BitVec 32) : Word → List Batch → WordPass
  | orWord, [] => .literal orWord []
  | orWord, bch :: rest =>
    let bch := findnextword bch nextReadNo
    if bch.nwords = 0 then .exhausted (bch :: rest)
    else if atOnes bch then
      let word := bch.curWord
      let nwordsread := bch.nwordsread + BitVec.ofNat 32 (fillLength word)
      let bch := {bch.advance with nwordsread}
      .ones (makeFillWord 1 (nwordsread - nextReadNo + 1).toNat) (nwordsread + 1)
        (rest.isEmpty && bch.nwords == 0) (bch :: rest)
    else
      let orWord := if bch.curWordIsFill then orWord else orWord ||| bch.curWord
      match unionWord nextReadNo orWord rest with
      | .exhausted rest => .exhausted (resetWord (readWord bch) bch.startNo :: rest)
      | .literal orWord rest => .literal orWord (readWord bch :: rest)
      | .ones orWord nextReadNo lastEmpty rest => .ones orWord nextReadNo lastEmpty (readWord bch :: rest)

/-- Append a word to the result. -/
def putWord (result : Batch) (fill : Bool) (w : Word) : Batch :=
  let n := result.nwords
  {result with
    hwords := fun i => if i = n / 16 ∧ fill = true then result.hwords i ||| headerBit n else result.hwords i
    cwords := fun i => if i = n then w else result.cwords i
    nwords := n + 1}

structure UnionState where
  done : Bool
  nextReadNo : BitVec 32
  batches : List Batch
  result : Batch

/-- One pass of the `while` loop of `_bitmap_union`. -/
def unionPass (s : UnionState) : UnionState :=
  match unionWord s.nextReadNo literalAllZero s.batches with
  | .exhausted batches => {s with done := true, batches}
  | .literal orWord batches =>
    {s with nextReadNo := s.nextReadNo + 1, batches, result := putWord s.result false orWord}
  | .ones orWord nextReadNo lastEmpty batches =>
    {done := lastEmpty, nextReadNo, batches, result := putWord s.result true orWord}

/-- `_bitmap_union`: every pass but the last adds a word to the result. -/
def union (batches : List Batch) (result : Batch) : List Batch × Batch :=
  match batches with
  | [] => ([], result)
  | first :: _ =>
    let s := Loop.whileN (fun s => !s.done && decide (s.result.nwords < s.result.maxNumOfWords)) unionPass
      (result.maxNumOfWords + 1) {done := false, nextReadNo := first.nextread, batches, result}
    (s.batches.map fun b => {b with nextread := s.nextReadNo}, s.result)

end PgStorage.Hrl
