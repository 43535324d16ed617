import PgStorage.Lib.OrderedMap
import PgStorage.TidBitmap.Words

/-! The tuple-id bitmap package.

The hash table is an exact map. A scan of it takes the keys it visits, in its order; keys that are gone when they come
are passed over, and one that leaves out an entry present at its start is no scan. -/
namespace PgStorage.TidBitmap

/-- `BLCKSZ / 32` -/
def pagesPerChunk : Nat := 256

def maxBlockNumber : Nat := 0xFFFFFFFF

def intMax : Int := 2147483647

structure ItemPointerData where
  block : Nat
  offset : Nat
  block_le : block ≤ maxBlockNumber

structure PagetableEntry where
  blockno : Nat
  ischunk : Bool
  words : Words

inductive TBMStatus
  | empty
  | onePage
  | hash
  deriving DecidableEq

structure TIDBitmap where
  status : TBMStatus
  pagetable : OrderedMap PagetableEntry
  nentries : Int
  maxentries : Int
  npages : Int
  nchunks : Int
  entry1 : PagetableEntry

/-- `MAXALIGN(sizeof(HASHELEMENT)) + MAXALIGN(sizeof(PagetableEntry)) + sizeof(Pointer) + sizeof(Pointer)` -/
def entryBytes : Nat := 16 + 48 + 8 + 8

/-- The division is one of unsigned numbers. -/
def tbmCreate (maxbytes : BitVec 64) : TIDBitmap where
  status := .empty
  pagetable := .empty
  nentries := 0
  maxentries := max (min (maxbytes.toNat / entryBytes : Nat) (intMax - 1)) 16
  npages := 0
  nchunks := 0
  entry1 := ⟨0, false, .zero⟩

def tbmCreatePagetable (tbm : TIDBitmap) : TIDBitmap :=
  { tbm with
    pagetable := if tbm.status = .onePage then .set .empty tbm.entry1.blockno tbm.entry1 else .empty
    status := .hash }

/-- An entry written through its pointer. -/
def store (tbm : TIDBitmap) (page : PagetableEntry) : TIDBitmap :=
  if tbm.status = .onePage then { tbm with entry1 := page }
  else { tbm with pagetable := tbm.pagetable.set page.blockno page }

def tbmFindPageentry (tbm : TIDBitmap) (pageno : Nat) : Option PagetableEntry :=
  if tbm.nentries = 0 then none
  else if tbm.status = .onePage then
    if tbm.entry1.blockno ≠ pageno then none else some tbm.entry1
  else
    match tbm.pagetable.get? pageno with
    | none => none
    | some page => if page.ischunk then none else some page

/-- `hash_search` with `HASH_ENTER`, and the entry set up if it is new. -/
def enterPageentry (tbm : TIDBitmap) (pageno : Nat) : TIDBitmap × PagetableEntry :=
  match tbm.pagetable.get? pageno with
  | some page => (tbm, page)
  | none =>
    let page := ⟨pageno, false, .zero⟩
    ({ tbm with
        pagetable := tbm.pagetable.set pageno page
        nentries := tbm.nentries + 1
        npages := tbm.npages + 1 }, page)

def tbmGetPageentry (tbm : TIDBitmap) (pageno : Nat) : TIDBitmap × PagetableEntry :=
  match tbm.status with
  | .empty =>
    let page := ⟨pageno, false, .zero⟩
    ({ tbm with
        status := .onePage
        entry1 := page
        nentries := tbm.nentries + 1
        npages := tbm.npages + 1 }, page)
  | .onePage =>
    if tbm.entry1.blockno = pageno then (tbm, tbm.entry1) else enterPageentry (tbmCreatePagetable tbm) pageno
  | .hash => enterPageentry tbm pageno

def tbmPageIsLossy (tbm : TIDBitmap) (pageno : Nat) : Bool :=
  if tbm.nchunks = 0 then false
  else
    let bitno := pageno % pagesPerChunk
    match tbm.pagetable.get? (pageno - bitno) with
    | none => false
    | some page => page.ischunk && page.words.testBit bitno

/-- `hash_search` with `HASH_REMOVE`: an entry that was there is assumed to be exact. -/
def removePageentry (tbm : TIDBitmap) (pageno : Nat) : TIDBitmap :=
  match tbm.pagetable.get? pageno with
  | none => tbm
  | some _ =>
    { tbm with
      pagetable := tbm.pagetable.erase pageno
      nentries := tbm.nentries - 1
      npages := tbm.npages - 1 }

def setChunkBit (tbm : TIDBitmap) (chunkPageno bitno : Nat) : TIDBitmap :=
  match tbm.pagetable.get? chunkPageno with
  | none =>
    { tbm with
      pagetable := tbm.pagetable.set chunkPageno ⟨chunkPageno, true, Words.zero.setBit bitno⟩
      nentries := tbm.nentries + 1
      nchunks := tbm.nchunks + 1 }
  | some page =>
    if page.ischunk then
      { tbm with pagetable := tbm.pagetable.set chunkPageno { page with words := page.words.setBit bitno } }
    else
      -- The page had some tuple, so its own bit is set with the other.
      { tbm with
        pagetable := tbm.pagetable.set chunkPageno ⟨chunkPageno, true, (Words.zero.setBit 0).setBit bitno⟩
        nchunks := tbm.nchunks + 1
        npages := tbm.npages - 1 }

def tbmMarkPageLossy (tbm : TIDBitmap) (pageno : Nat) : TIDBitmap :=
  let tbm := if tbm.status ≠ .hash then tbmCreatePagetable tbm else tbm
  let bitno := pageno % pagesPerChunk
  let tbm := if bitno ≠ 0 then removePageentry tbm pageno else tbm
  setChunkBit tbm (pageno - bitno) bitno

/-- The scan comes to each entry that is there when it begins. -/
def scans (order : List Nat) (m : OrderedMap PagetableEntry) : Bool := m.rows.all fun r => r.1 ∈ order

def lossifyLoop : List Nat → TIDBitmap → TIDBitmap
  | [], tbm => tbm
  | key :: order, tbm =>
    match tbm.pagetable.get? key with
    | none => lossifyLoop order tbm
    | some page =>
      if page.ischunk then lossifyLoop order tbm
      else if page.blockno % pagesPerChunk = 0 then lossifyLoop order tbm
      else
        let tbm := tbmMarkPageLossy tbm page.blockno
        if tbm.nentries ≤ tbm.maxentries / 2 then tbm else lossifyLoop order tbm

def tbmLossify (order : List Nat) (tbm : TIDBitmap) : Option TIDBitmap :=
  if scans order tbm.pagetable then
    let tbm := lossifyLoop order tbm
    some (if tbm.nentries > tbm.maxentries / 2 then
      { tbm with maxentries := min tbm.nentries ((intMax - 1) / 2) * 2 } else tbm)
  else none

/-- The end of a step that may have made the table too large. -/
def lossifyIfFull (order : List Nat) (tbm : TIDBitmap) : Option TIDBitmap :=
  if tbm.nentries > tbm.maxentries then tbmLossify order tbm else some tbm

/-- One pass of the loop of `tbm_add_tuples`, with the order of the scan should there be one. An offset out of range
is an error. -/
def tbmAddTuple (tbm : TIDBitmap) (tid : ItemPointerData) (order : List Nat) : Option TIDBitmap :=
  if tid.offset < 1 ∨ tid.offset > maxTuplesPerPage then none
  else if tbmPageIsLossy tbm tid.block then some tbm
  else
    let (tbm, page) := tbmGetPageentry tbm tid.block
    let place := if page.ischunk then 0 else tid.offset - 1
    lossifyIfFull order (store tbm { page with words := page.words.setBit place })

def tbmAddTuples (tbm : TIDBitmap) (tids : List (ItemPointerData × List Nat)) : Option TIDBitmap :=
  tids.foldlM (fun tbm t => tbmAddTuple tbm t.1 t.2) tbm

def tbmUnionPage (a : TIDBitmap) (bpage : PagetableEntry) (order : List Nat) : Option TIDBitmap :=
  if bpage.ischunk then
    lossifyIfFull order ((bpage.words.setBits bpage.blockno).foldl tbmMarkPageLossy a)
  else if tbmPageIsLossy a bpage.blockno then some a
  else
    let (a, apage) := tbmGetPageentry a bpage.blockno
    let words := if apage.ischunk then apage.words.setBit 0 else apage.words.merge bpage.words
    lossifyIfFull order (store a { apage with words })

/-- The scan of `b`, each entry with the order of the scan that makes `a` smaller. -/
def unionLoop (b : TIDBitmap) (a : TIDBitmap) (order : List (Nat × List Nat)) : Option TIDBitmap :=
  order.foldlM (fun a visit =>
    match b.pagetable.get? visit.1 with
    | none => some a
    | some bpage => tbmUnionPage a bpage visit.2) a

def tbmUnion (a b : TIDBitmap) (order : List (Nat × List Nat)) : Option TIDBitmap :=
  if b.nentries = 0 then some a
  else if b.status = .onePage then order.head?.bind fun visit => tbmUnionPage a b.entry1 visit.2
  else if scans (order.map Prod.fst) b.pagetable then unionLoop b a order
  else none

/-- Returns true if the page is now empty and should be deleted. -/
def tbmIntersectPage (a : TIDBitmap) (apage : PagetableEntry) (b : TIDBitmap) : TIDBitmap × Bool :=
  if apage.ischunk then
    let words := apage.words.clearBits
      (fun pg => tbmPageIsLossy b pg || (tbmFindPageentry b pg).isSome) apage.blockno
    (store a { apage with words }, words.allZero)
  else if tbmPageIsLossy b apage.blockno then (tbmMarkPageLossy a apage.blockno, false)
  else
    match tbmFindPageentry b apage.blockno with
    | none => (a, true)
    | some bpage =>
      let words := apage.words.intersect bpage.words
      (store a { apage with words }, words.allZero)

/-- The page or chunk is now empty. -/
def removeEmpty (a : TIDBitmap) (apage : PagetableEntry) : TIDBitmap :=
  { a with
    pagetable := a.pagetable.erase apage.blockno
    nchunks := if apage.ischunk then a.nchunks - 1 else a.nchunks
    npages := if apage.ischunk then a.npages else a.npages - 1
    nentries := a.nentries - 1 }

def intersectLoop (b : TIDBitmap) (a : TIDBitmap) (order : List Nat) : TIDBitmap :=
  order.foldl (fun a key =>
    match a.pagetable.get? key with
    | none => a
    | some apage =>
      let (a, candelete) := tbmIntersectPage a apage b
      if candelete then removeEmpty a apage else a) a

def removeEntry1 (a : TIDBitmap) : TIDBitmap :=
  { a with npages := a.npages - 1, nentries := a.nentries - 1, status := .empty }

def tbmIntersect (a b : TIDBitmap) (order : List Nat) : Option TIDBitmap :=
  if a.nentries = 0 then some a
  else if a.status = .onePage then
    let (a, candelete) := tbmIntersectPage a a.entry1 b
    some (if candelete then removeEntry1 a else a)
  else if scans order a.pagetable then some (intersectLoop b a order)
  else none

structure TBMIterateResult where
  blockno : Nat
  ntuples : Int
  offsets : List Nat

/-- The fields used while producing sorted output. -/
structure Iteration where
  tbm : TIDBitmap
  spages : List PagetableEntry
  schunks : List PagetableEntry
  spageptr : Nat
  schunkptr : Nat
  schunkbit : Nat
  output : TBMIterateResult

/-- `qsort` with `tbm_comparator` -/
def sortPages (pages : List PagetableEntry) : List PagetableEntry :=
  pages.mergeSort fun left right => left.blockno ≤ right.blockno

/-- Here the scan visits every entry exactly once. -/
def tbmBeginIterate (tbm : TIDBitmap) (order : List Nat) : Option Iteration :=
  if tbm.nentries = 0 ∨ tbm.status ≠ .hash then some ⟨tbm, [], [], 0, 0, 0, ⟨0, 0, []⟩⟩
  else if order.isPerm (tbm.pagetable.rows.map Prod.fst) then
    let pages := order.filterMap tbm.pagetable.get?
    some ⟨tbm, sortPages (pages.filter fun page => !page.ischunk), sortPages (pages.filter fun page => page.ischunk),
      0, 0, 0, ⟨0, 0, []⟩⟩
  else none

def nextBit (words : Words) (schunkbit : Nat) : Nat :=
  if schunkbit < pagesPerChunk then
    if words.testBit schunkbit then schunkbit else nextBit words (schunkbit + 1)
  else schunkbit
  termination_by pagesPerChunk - schunkbit

/-- To the next set bit of the chunks that remain. -/
def advanceChunk (schunks : List PagetableEntry) (nchunks : Int) (schunkptr schunkbit : Nat) : Nat × Nat :=
  if schunkptr < nchunks then
    match h : schunks[schunkptr]? with
    | none => (schunkptr, schunkbit)
    | some chunk =>
      if nextBit chunk.words schunkbit < pagesPerChunk then (schunkptr, nextBit chunk.words schunkbit)
      else advanceChunk schunks nchunks (schunkptr + 1) 0
  else (schunkptr, schunkbit)
  termination_by schunks.length - schunkptr
  decreasing_by
    have hlt := (List.getElem?_eq_some_iff.mp h).1
    omega

/-- The exact page that is next, in the one-page state the single entry. -/
def nextPage (it : Iteration) : Option PagetableEntry :=
  if it.spageptr < it.tbm.npages then
    if it.tbm.status = .onePage then some it.tbm.entry1 else it.spages[it.spageptr]?
  else none

/-- The lossy page that is next, unless an exact page comes before it. -/
def nextLossy (it : Iteration) : Option Nat :=
  if it.schunkptr < it.tbm.nchunks then
    match it.schunks[it.schunkptr]? with
    | none => none
    | some chunk =>
      let chunkBlockno := chunk.blockno + it.schunkbit
      if it.spageptr ≥ it.tbm.npages then some chunkBlockno
      else
        match it.spages[it.spageptr]? with
        | none => none
        | some page => if chunkBlockno < page.blockno then some chunkBlockno else none
  else none

def tbmIterate (it : Iteration) : Option TBMIterateResult × Iteration :=
  let next := advanceChunk it.schunks it.tbm.nchunks it.schunkptr it.schunkbit
  let it := { it with schunkptr := next.1, schunkbit := next.2 }
  match nextLossy it with
  | some chunkBlockno =>
    let output := { it.output with blockno := chunkBlockno, ntuples := -1 }
    (some output, { it with schunkbit := it.schunkbit + 1, output })
  | none =>
    match nextPage it with
    | some page =>
      let offsets := page.words.setBits 1
      let output := ⟨page.blockno, offsets.length, offsets⟩
      (some output, { it with spageptr := it.spageptr + 1, output })
    | none => (none, it)

end PgStorage.TidBitmap
