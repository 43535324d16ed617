import PgStorage.Hrl.Word

/-! Pages and list-of-values items of the bitmap index, and the index relation with its write-ahead log.

A bitmap vector is a chain of pages with HRL words, and two more words in its LOV
item: the last complete word and the last, incomplete one. A last complete word
that equals `LITERAL_ALL_ONE` is not there yet (`_bitmap_formitem` starts with it).

An operation changes pages and LOV items in place and, when `use_wal` is set, logs what
it did. The records keep the fields of the structures in `access/bitmap.h`, less the
relation's own name. -/
namespace PgStorage.Hrl

/-- `InvalidBlockNumber` -/
def invalidBlockNumber : Nat := 0xFFFFFFFF

/-- `BM_NUM_OF_HRL_WORDS_PER_PAGE`, for pages of 8192 bytes -/
def hrlWordsPerPage : Nat := 3808

/-- `BM_NUM_OF_HEADER_WORDS` -/
def headerWords : Nat := 238

/-- `BM_MAX_HTUP_PER_PAGE` -/
def maxHtupPerPage : Nat := 291

/-- A bitmap page: `BMBitmapVectorPageData` and `BMPageOpaqueData`. The arrays are
functions; the code stays below their sizes. -/
structure BMPage where
  hwords : Nat → Word
  cwords : Nat → Word
  hrlWordsUsed : Nat
  bitmapNext : Nat
  lastTidLocation : BitVec 64

/-- `BMLOVItemData` -/
structure LovItem where
  lovHead : Nat
  lovTail : Nat
  lastCompword : Word
  lastWord : Word
  lastTidLocation : BitVec 64
  lastSetbit : BitVec 64
  wordsHeader : BitVec 8
  deriving DecidableEq, Repr

def lovWordsNoFill : BitVec 8 := 0
def lastWordBit : BitVec 8 := 1
def lastCompwordBit : BitVec 8 := 2

/-- `BM_LASTWORD_IS_FILL` -/
def lastwordIsFill (item : LovItem) : Bool := item.wordsHeader &&& lastWordBit != 0

/-- `BM_LAST_COMPWORD_IS_FILL` -/
def lastCompwordIsFill (item : LovItem) : Bool := item.wordsHeader &&& lastCompwordBit != 0

/-- The index relation: bitmap pages by block number, LOV items by block and offset. -/
structure Index where
  nblocks : Nat
  page : Nat → BMPage
  lov : Nat × Nat → LovItem

def pageCells (p : BMPage) : List Cell := cells p.hwords p.cwords 0 p.hrlWordsUsed

def lovCells (item : LovItem) : List Cell :=
  if item.lastCompword ≠ literalAllOne then
    [⟨lastCompwordIsFill item, item.lastCompword⟩, ⟨lastwordIsFill item, item.lastWord⟩]
  else [⟨lastwordIsFill item, item.lastWord⟩]

/-- The blocks of a chain, from its head. -/
inductive Chain (page : Nat → BMPage) : Nat → List Nat → Prop where
  | done : Chain page invalidBlockNumber []
  | page {b : Nat} {bs : List Nat} : b ≠ invalidBlockNumber → Chain page (page b).bitmapNext bs →
      Chain page b (b :: bs)

theorem Chain.unique {page : Nat → BMPage} {b : Nat} {bs cs : List Nat} (h : Chain page b bs)
    (h' : Chain page b cs) : bs = cs := by
  induction h generalizing cs with
  | done =>
    cases h' with
    | done => rfl
    | page hne _ => exact absurd rfl hne
  | page hne _ ih =>
    cases h' with
    | done => exact absurd rfl hne
    | page _ hrest => rw [ih hrest]

/-- A chain of one page. -/
theorem Chain.single {page : Nat → BMPage} {head b : Nat} (hhead : head = b) (hb : b ≠ invalidBlockNumber)
    (hnext : (page b).bitmapNext = invalidBlockNumber) : Chain page head [b] := by
  rw [hhead]
  refine .page hb ?_
  rw [hnext]
  exact .done

/-- The cells of a vector whose pages are `blocks`. -/
def vectorCells (idx : Index) (blocks : List Nat) (item : LovItem) : List Cell :=
  (blocks.flatMap fun b => pageCells (idx.page b)) ++ lovCells item

/-- The uncompressed words of a vector. -/
def vectorWords (idx : Index) (blocks : List Nat) (item : LovItem) : List Word :=
  expand (vectorCells idx blocks item)

/-- The format of a page: no more words than fit, none of the fills empty, and the
header bits of unused words clear. -/
structure PageValid (p : BMPage) : Prop where
  size : p.hrlWordsUsed ≤ hrlWordsPerPage
  cells : ∀ c ∈ pageCells p, c.Valid
  clear : ∀ n, p.hrlWordsUsed ≤ n → n < hrlWordsPerPage → isFillWord p.hwords n = false

/-- The format of a vector: a finite chain of valid pages, of which only the last
may be empty. -/
structure VectorValid (idx : Index) (item : LovItem) (blocks : List Nat) : Prop where
  chain : Chain idx.page item.lovHead blocks
  pages : ∀ b ∈ blocks, PageValid (idx.page b)
  filled : ∀ b ∈ blocks, (idx.page b).bitmapNext ≠ invalidBlockNumber → 1 ≤ (idx.page b).hrlWordsUsed
  last : ∀ c ∈ lovCells item, c.Valid

/-! ### Log records -/

/-- `xl_bm_bitmap_lastwords` -/
structure XlLastwords where
  lastCompword : Word
  lastWord : Word
  wordsHeader : BitVec 8
  lov : Nat × Nat

/-- `xl_bm_bitmapwords`, with the arrays that follow it -/
structure XlBitmapwords where
  blkno : Nat
  nextBlkno : Nat
  lastTid : BitVec 64
  lov : Nat × Nat
  lastCompword : Word
  lastWord : Word
  wordsHeader : BitVec 8
  lastSetbit : BitVec 64
  isLast : Bool
  isFirst : Bool
  startWordno : Nat
  wordsWritten : Nat
  numCwords : Nat
  lastTids : Nat → BitVec 64
  cwords : Nat → Word
  hwords : Nat → Word

/-- `xl_bm_updateword` -/
structure XlUpdateword where
  blkno : Nat
  wordNo : Nat
  cword : Word
  hword : Word

/-- `xl_bm_updatewords` -/
structure XlUpdatewords where
  lov : Nat × Nat
  firstBlkno : Nat
  firstCwords : Nat → Word
  firstHwords : Nat → Word
  firstLastTid : BitVec 64
  firstNumCwords : Nat
  secondBlkno : Nat
  secondCwords : Nat → Word
  secondHwords : Nat → Word
  secondLastTid : BitVec 64
  secondNumCwords : Nat
  twoPages : Bool
  nextBlkno : Nat
  newLastpage : Bool

inductive XlRecord where
  | lastwords (r : XlLastwords)
  | bitmapwords (r : XlBitmapwords)
  | updateword (r : XlUpdateword)
  | updatewords (r : XlUpdatewords)

/-- An index with its log. `stack` is what a record on the stack holds before its
fields are set. -/
structure Relation extends Index where
  useWal : Bool
  stack : XlUpdatewords
  wal : List XlRecord

/-- `_bitmap_init_bitmappage` on a new page -/
def emptyPage : BMPage :=
  { hwords := fun _ => 0, cwords := fun _ => 0, hrlWordsUsed := 0, bitmapNext := invalidBlockNumber
    lastTidLocation := 0 }

namespace Relation

def setPage (rel : Relation) (b : Nat) (p : BMPage) : Relation :=
  {rel with page := fun i => if i = b then p else rel.page i}

def setLov (rel : Relation) (l : Nat × Nat) (item : LovItem) : Relation :=
  {rel with lov := fun i => if i = l then item else rel.lov i}

/-- `_bitmap_getbuf` with `P_NEW`, and `_bitmap_init_bitmappage` -/
def newPage (rel : Relation) : Relation :=
  {rel.setPage rel.nblocks emptyPage with nblocks := rel.nblocks + 1}

/-- `XLogInsert`, if the operation logs -/
def log (rel : Relation) (r : XlRecord) : Relation :=
  if rel.useWal then {rel with wal := rel.wal ++ [r]} else rel

@[simp] theorem setPage_lov (rel : Relation) (b : Nat) (p : BMPage) : (rel.setPage b p).lov = rel.lov := rfl
@[simp] theorem setLov_page (rel : Relation) (l : Nat × Nat) (item : LovItem) : (rel.setLov l item).page = rel.page := rfl
@[simp] theorem newPage_lov (rel : Relation) : rel.newPage.lov = rel.lov := rfl
@[simp] theorem setPage_page_self (rel : Relation) (b : Nat) (p : BMPage) : (rel.setPage b p).page b = p := by
  simp [setPage]

@[simp] theorem setLov_lov_self (rel : Relation) (l : Nat × Nat) (item : LovItem) :
    (rel.setLov l item).lov l = item := by
  simp [setLov]

@[simp] theorem log_toIndex (rel : Relation) (r : XlRecord) : (rel.log r).toIndex = rel.toIndex := by
  unfold log
  split <;> rfl

end Relation

end PgStorage.Hrl
