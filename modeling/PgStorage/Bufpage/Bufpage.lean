import PgStorage.Lib.Memory

/-! Slotted pages.

A page is one block of bytes: a header, the line pointers behind it, free space, the tuples, and
the special space. The bytes of the header are kept apart, as the fields that the routines here
read and write; line pointers and tuples are in the bytes. Line pointers are numbered from 1.
Fields are cut to their width when they are stored: 16 bits in the header, 15, 2 and 15 in a line
pointer. A routine that raises an error does not return, and neither does one that writes
behind an array of its own. Assertions are not compiled in. -/
namespace PgStorage.Bufpage
open Memory

def blcksz : Nat := 8192

def sizeOfPageHeaderData : Nat := 24

/-- `sizeof(ItemIdData)` -/
def sizeOfItemIdData : Nat := 4

/-- `MAXALIGN` -/
def maxAlign (n : Nat) : Nat := (n + 7) / 8 * 8

/-- A value of an unsigned type of 64 bits as one of a signed type of 32. -/
def toInt32 (n : Nat) : Int :=
  if n % 2 ^ 32 < 2 ^ 31 then (n % 2 ^ 32 : Nat) else (n % 2 ^ 32 : Nat) - 2 ^ 32

def toUInt16 (n : Int) : Nat := (n % 2 ^ 16).toNat

/-! ### Line pointers -/

/-- `ItemIdData` -/
structure ItemId where
  lpOff : Nat
  lpFlags : Nat
  lpLen : Nat
deriving DecidableEq

def lpUnused : Nat := 0

def lpNormal : Nat := 1

def ItemId.isUsed (lp : ItemId) : Bool := lp.lpFlags != lpUnused

def ItemId.hasStorage (lp : ItemId) : Bool := lp.lpLen != 0

/-- The word of the bit fields, the first one lowest. -/
def ItemId.toWord (lp : ItemId) : Nat :=
  lp.lpOff % 2 ^ 15 + 2 ^ 15 * (lp.lpFlags % 2 ^ 2) + 2 ^ 17 * (lp.lpLen % 2 ^ 15)

def ItemId.ofWord (w : Nat) : ItemId := ⟨w % 2 ^ 15, w / 2 ^ 15 % 2 ^ 2, w / 2 ^ 17 % 2 ^ 15⟩

structure Page where
  mem : Mem
  pdLower : Nat
  pdUpper : Nat
  pdSpecial : Nat
  /-- The flag `PD_HAS_FREE_LINES`, a hint. -/
  hasFreeLines : Bool

/-- The address of `pd_linp[n - 1]`. -/
def linpAddr (n : Nat) : Nat := sizeOfPageHeaderData + sizeOfItemIdData * (n - 1)

def getItemId (m : Mem) (n : Nat) : ItemId := .ofWord (load32 m (linpAddr n))

def setItemId (m : Mem) (n : Nat) (lp : ItemId) : Mem := store32 m (linpAddr n) lp.toWord

def Page.maxOffsetNumber (p : Page) : Nat :=
  if p.pdLower ≤ sizeOfPageHeaderData then 0 else (p.pdLower - sizeOfPageHeaderData) / sizeOfItemIdData

def Page.isEmpty (p : Page) : Bool := decide (p.pdLower ≤ sizeOfPageHeaderData)

/-- `MaxOffsetNumber` -/
def maxOffsetNumber : Nat := blcksz / sizeOfItemIdData

def offsetNumberIsValid (n : Nat) : Bool := decide (n ≠ 0 ∧ n ≤ maxOffsetNumber)

/-- The size of a heap tuple header is 23. -/
def maxHeapTuplesPerPage : Nat := (blcksz - sizeOfPageHeaderData) / (maxAlign 23 + sizeOfItemIdData)

/-- What all routines check first; `PageAddItemExtended` does not look at the alignment. -/
def Page.pointersOk (p : Page) : Bool :=
  decide (sizeOfPageHeaderData ≤ p.pdLower ∧ p.pdLower ≤ p.pdUpper ∧ p.pdUpper ≤ p.pdSpecial ∧ p.pdSpecial ≤ blcksz)

/-- The first line pointer that is free, or the one behind the last. -/
def findFree (m : Mem) (limit : Nat) : Nat :=
  match (List.range' 1 (limit - 1)).find? fun n => !(getItemId m n).isUsed && !(getItemId m n).hasStorage with
  | some n => n
  | none => limit

/-- The page, with the hint, the place for the item, and whether line pointers must be shuffled;
nothing if a line pointer in use would be overwritten. -/
def selectOffset (p : Page) (offsetNumber : Nat) (isOverwrite : Bool) : Option (Page × Nat × Bool) :=
  let limit := p.maxOffsetNumber + 1
  if offsetNumberIsValid offsetNumber = true then
    if isOverwrite = true then
      if offsetNumber < limit ∧
          ((getItemId p.mem offsetNumber).isUsed = true ∨ (getItemId p.mem offsetNumber).hasStorage = true) then
        none
      else some (p, offsetNumber, false)
    else some (p, offsetNumber, decide (offsetNumber < limit))
  else if p.hasFreeLines = true then
    let n := findFree p.mem limit
    some (if limit ≤ n then {p with hasFreeLines := false} else p, n, false)
  else some (p, limit, false)

/-- Returns the offset number of the item, 0 if it was not added. -/
def pageAddItemExtended (page : Page) (item : List UInt8) (offsetNumber : Nat) (isOverwrite isHeap : Bool) :
    Option (Page × Nat) :=
  if page.pointersOk = true then
    let limit := page.maxOffsetNumber + 1
    match selectOffset page offsetNumber isOverwrite with
    | none => some (page, 0)
    | some (page, n, needshuffle) =>
      if limit < n then some (page, 0)
      else if isHeap = true ∧ maxHeapTuplesPerPage < n then some (page, 0)
      else
        let lower := if n = limit ∨ needshuffle = true then page.pdLower + sizeOfItemIdData else page.pdLower
        let alignedSize := maxAlign item.length
        let upper : Int := page.pdUpper - toInt32 alignedSize
        if (lower : Int) > upper then some (page, 0)
        else
          let m := if needshuffle = true then
              memmove page.mem (linpAddr (n + 1)) (linpAddr n) ((limit - n) * sizeOfItemIdData)
            else page.mem
          let m := setItemId m n ⟨upper.toNat, lpNormal, item.length⟩
          let m := memcpy m upper.toNat item
          some ({page with mem := m, pdLower := toUInt16 lower, pdUpper := toUInt16 upper}, n)
  else none

/-- The loop over the line pointers that moves those of a kind by `delta`. -/
def adjustLines (m : Mem) (nline : Nat) (moved : ItemId → Bool) (delta : Int) : Mem :=
  (List.range' 1 nline).foldl (fun m n =>
    let lp := getItemId m n
    if moved lp = true then setItemId m n {lp with lpOff := ((lp.lpOff + delta) % 2 ^ 15).toNat} else m) m

/-- The checks of a line pointer that is to be removed or replaced. -/
def Page.targetOk (p : Page) (offnum : Nat) : Bool :=
  let tup := getItemId p.mem offnum
  p.pointersOk && decide (p.pdSpecial = maxAlign p.pdSpecial) &&
    decide (0 < offnum ∧ offnum ≤ p.maxOffsetNumber) &&
    decide (p.pdUpper ≤ tup.lpOff ∧ tup.lpOff + tup.lpLen ≤ p.pdSpecial ∧ tup.lpOff = maxAlign tup.lpOff)

def pageIndexTupleDelete (page : Page) (offnum : Nat) : Option Page :=
  if page.targetOk offnum = true then
    let tup := getItemId page.mem offnum
    let size := maxAlign tup.lpLen
    let offset := tup.lpOff
    let nline := page.maxOffsetNumber
    let nbytes := page.pdLower - linpAddr (offnum + 1)
    let m := if 0 < nbytes then memmove page.mem (linpAddr offnum) (linpAddr (offnum + 1)) nbytes else page.mem
    let m := if page.pdUpper < offset then
        memmove m (page.pdUpper + size) page.pdUpper (offset - page.pdUpper)
      else m
    let p := {page with
      mem := m
      pdUpper := toUInt16 (page.pdUpper + size)
      pdLower := toUInt16 (page.pdLower - sizeOfItemIdData)}
    if p.isEmpty = true then some p
    else some {p with mem := adjustLines m (nline - 1) (fun lp => decide (lp.lpOff ≤ offset)) size}
  else none

def pageIndexTupleDeleteNoCompact (page : Page) (offnum : Nat) : Option Page :=
  if page.targetOk offnum = true then
    let tup := getItemId page.mem offnum
    let size := maxAlign tup.lpLen
    let offset := tup.lpOff
    let last := decide (page.maxOffsetNumber ≤ offnum)
    let m := if last = true then page.mem else setItemId page.mem offnum ⟨0, lpUnused, 0⟩
    let lower : Int := if last = true then page.pdLower - sizeOfItemIdData else page.pdLower
    let nline := if last = true then page.maxOffsetNumber - 1 else page.maxOffsetNumber
    let m := if page.pdUpper < offset then
        memmove m (page.pdUpper + size) page.pdUpper (offset - page.pdUpper)
      else m
    let p := {page with mem := m, pdUpper := toUInt16 (page.pdUpper + size), pdLower := toUInt16 lower}
    if p.isEmpty = true then some p
    else some {p with
      mem := adjustLines m nline (fun lp => lp.hasStorage && decide (lp.lpOff ≤ offset)) size}
  else none

/-- `false` if there is not enough space. -/
def pageIndexTupleOverwrite (page : Page) (offnum : Nat) (newtup : List UInt8) : Option (Page × Bool) :=
  if page.targetOk offnum = true then
    let tup := getItemId page.mem offnum
    let offset := tup.lpOff
    let oldsize := maxAlign tup.lpLen
    let alignednewsize := maxAlign newtup.length
    if oldsize + (page.pdUpper - page.pdLower) < alignednewsize then some (page, false)
    else
      let sizeDiff : Int := oldsize - toInt32 alignednewsize
      let p := if sizeDiff ≠ 0 then
          let m := memmove page.mem (page.pdUpper + sizeDiff).toNat page.pdUpper (offset - page.pdUpper)
          {page with
            mem := adjustLines m page.maxOffsetNumber
              (fun lp => lp.hasStorage && decide (lp.lpOff ≤ offset)) sizeDiff
            pdUpper := toUInt16 (page.pdUpper + sizeDiff)}
        else page
      let m := setItemId p.mem offnum ⟨(offset + sizeDiff).toNat, lpNormal, newtup.length⟩
      some ({p with mem := memcpy m (getItemId m offnum).lpOff newtup}, true)
  else none

/-- `itemIdSortData` -/
structure ItemIdSort where
  offsetindex : Nat
  itemoff : Nat
  alignedlen : Nat

/-- What `qsort` does with `itemoffcompare`: decreasing offsets. -/
def sortItems (items : List ItemIdSort) : List ItemIdSort := items.insertionSort fun a b => b.itemoff ≤ a.itemoff

/-- One step of the loop of `compactify_tuples`. -/
def compactifyTuple (s : Mem × Nat) (it : ItemIdSort) : Mem × Nat :=
  let upper := s.2 - it.alignedlen
  let m := memmove s.1 upper it.itemoff it.alignedlen
  (setItemId m (it.offsetindex + 1) {getItemId m (it.offsetindex + 1) with lpOff := upper}, upper)

def compactifyTuples (page : Page) (items : List ItemIdSort) : Page :=
  let s := (sortItems items).foldl compactifyTuple (page.mem, page.pdSpecial)
  {page with mem := s.1, pdUpper := toUInt16 s.2}

/-- The first loop: what is not used is set unused, to be sure. -/
def clearUnused (m : Mem) (nline : Nat) : Mem :=
  (List.range' 1 nline).foldl (fun m n =>
    if (getItemId m n).isUsed = true then m else setItemId m n ⟨0, lpUnused, 0⟩) m

/-- What the second loop puts into its array. -/
def storageItems (m : Mem) (nline : Nat) : List ItemIdSort :=
  (List.range nline).filterMap fun i =>
    let lp := getItemId m (i + 1)
    if lp.hasStorage = true then some ⟨i, lp.lpOff, maxAlign lp.lpLen⟩ else none

/-- The array has room for `MaxHeapTuplesPerPage` items. -/
def pageRepairFragmentation (page : Page) : Option Page :=
  if page.pointersOk = true ∧ page.pdSpecial = maxAlign page.pdSpecial then
    let nline := page.maxOffsetNumber
    let m := clearUnused page.mem nline
    let nunused := (List.range' 1 nline).countP fun n => !(getItemId page.mem n).isUsed
    let nstorage := (List.range' 1 nline).countP fun n =>
      (getItemId page.mem n).isUsed && (getItemId page.mem n).hasStorage
    let p := {page with mem := m, hasFreeLines := decide (0 < nunused)}
    if nstorage = 0 then some {p with pdUpper := page.pdSpecial}
    else
      let items := storageItems m nline
      let totallen := (items.map ItemIdSort.alignedlen).sum
      if maxHeapTuplesPerPage < items.length then none
      else if items.any fun it => decide (it.itemoff < page.pdUpper ∨ page.pdSpecial ≤ it.itemoff) then none
      else if page.pdSpecial - page.pdLower < totallen then none
      else some (compactifyTuples p items)
  else none

end PgStorage.Bufpage
