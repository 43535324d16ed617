import PgStorage.Lib.Memory

/-! Slotted pages as the first release has them.

A page is one block of bytes: a header, the line pointers behind it, free space, the tuples, and the special space. The
bytes of the header are kept apart, as the fields that the routines here read and write; line pointers and tuples are in
the bytes. Line pointers are numbered from 1. Fields are cut to their width when they are stored: 16 bits in the header,
13, 6 and 13 in a line pointer. A routine that moves a negative number of bytes does not return. -/
namespace PgStorage.Slotted
open Memory
open List (range')

def blcksz : Nat := 8192

def sizeOfPageHeaderData : Nat := 12

def sizeOfItemIdData : Nat := 4

/-- `DOUBLEALIGN` -/
def doubleAlign (n : Nat) : Nat := (n + 7) / 8 * 8

/-- An unsigned value of 32 bits as a signed one. -/
def toInt32 (n : Nat) : Int := if n % 2 ^ 32 < 2 ^ 31 then (n % 2 ^ 32 : Nat) else (n % 2 ^ 32 : Nat) - 2 ^ 32

def toUInt16 (n : Int) : Nat := (n % 2 ^ 16).toNat

/-! ### Line pointers -/

/-- `ItemIdData` -/
structure ItemId where
  lpOff : Nat
  lpFlags : Nat
  lpLen : Nat
deriving DecidableEq

/-- The flag `LP_USED`. -/
def ItemId.isUsed (lp : ItemId) : Bool := lp.lpFlags % 2 == 1

/-- The word of the bit fields, the first one lowest. -/
def ItemId.toWord (lp : ItemId) : Nat :=
  lp.lpOff % 2 ^ 13 + 2 ^ 13 * (lp.lpFlags % 2 ^ 6) + 2 ^ 19 * (lp.lpLen % 2 ^ 13)

def ItemId.ofWord (w : Nat) : ItemId := ⟨w % 2 ^ 13, w / 2 ^ 13 % 2 ^ 6, w / 2 ^ 19 % 2 ^ 13⟩

structure Page where
  mem : Mem
  pdLower : Nat
  pdUpper : Nat
  pdSpecial : Nat

def Page.setMem (p : Page) (m : Mem) : Page := {p with mem := m}

@[simp] theorem Page.setMem_pdLower (p : Page) (m : Mem) : (p.setMem m).pdLower = p.pdLower := rfl

@[simp] theorem Page.setMem_pdUpper (p : Page) (m : Mem) : (p.setMem m).pdUpper = p.pdUpper := rfl

@[simp] theorem Page.setMem_pdSpecial (p : Page) (m : Mem) : (p.setMem m).pdSpecial = p.pdSpecial := rfl

/-- The address of `pd_linp[n - 1]`, which is the last field of the header for the first one. -/
def linpAddr (n : Nat) : Nat := sizeOfPageHeaderData - sizeOfItemIdData + sizeOfItemIdData * (n - 1)

def getItemId (m : Mem) (n : Nat) : ItemId := .ofWord (load32 m (linpAddr n))

def setItemId (m : Mem) (n : Nat) (lp : ItemId) : Mem := store32 m (linpAddr n) lp.toWord

/-- `PageGetMaxOffsetNumber` -/
def Page.maxOffsetNumber (p : Page) : Nat :=
  (p.pdLower + 2 ^ 32 - (sizeOfPageHeaderData - sizeOfItemIdData)) % 2 ^ 32 / sizeOfItemIdData % 2 ^ 16

/-- `PageIsEmpty` -/
def Page.isEmpty (p : Page) : Bool := p.pdLower == sizeOfPageHeaderData - sizeOfItemIdData

/-- `MaxOffsetNumber` -/
def maxOffsetNumber : Nat := blcksz / sizeOfItemIdData

def offsetNumberIsValid (n : Nat) : Bool := decide (n ≠ 0 ∧ n ≤ maxOffsetNumber)

def offsetNumberNext (n : Nat) : Nat := (1 + n) % 2 ^ 16

def pageInit (m : Mem) (pageSize specialSize : Nat) : Page :=
  { mem := m
    pdLower := sizeOfPageHeaderData - sizeOfItemIdData
    pdUpper := toUInt16 (pageSize - doubleAlign specialSize)
    pdSpecial := toUInt16 (pageSize - doubleAlign specialSize) }

/-- The loop that moves the line pointers from a number on up by one, the last one first. -/
def shuffleItemIds (m : Mem) (offsetNumber limit : Nat) : Mem :=
  (range' offsetNumber (limit - offsetNumber)).foldr
    (fun i m => memmove m (linpAddr (i + 1)) (linpAddr i) sizeOfItemIdData) m

/-- The first line pointer that is unused and deallocated, or the one behind the last. -/
def findUnused (m : Mem) (limit : Nat) : Nat :=
  match (range' 1 (limit - 1)).find? fun n => !(getItemId m n).isUsed && (getItemId m n).lpLen == 0 with
  | some n => n
  | none => limit

/-- The number of the line pointer has been chosen: the item goes in front of the tuples, if there is room. -/
def placeItem (page : Page) (item : List UInt8) (offsetNumber flags limit : Nat) (shuffled : Bool) : Page × Nat :=
  let lower : Int :=
    if limit < offsetNumber then linpAddr (offsetNumber + 1)
    else if offsetNumber = limit ∨ shuffled = true then page.pdLower + sizeOfItemIdData
    else page.pdLower
  let alignedSize := doubleAlign item.length % 2 ^ 32
  let upper := toInt32 (page.pdUpper + 2 ^ 32 - alignedSize)
  if lower > upper then (page, 0)
  else
    let m := setItemId page.mem offsetNumber ⟨(upper % 2 ^ 13).toNat, flags, item.length⟩
    let m := memcpy m upper.toNat item
    ({page with mem := m, pdLower := toUInt16 lower, pdUpper := toUInt16 upper}, offsetNumber)

/-- `PageManagerShuffle` is the mode. The number is 0 if there is no room; an error is raised with its text. -/
def pageAddItem (pageManagerShuffle : Bool) (page : Page) (item : List UInt8) (offsetNumber flags : Nat) :
    Page × Except String Nat :=
  let limit := offsetNumberNext page.maxOffsetNumber
  if offsetNumberIsValid offsetNumber = true then
    if pageManagerShuffle = true then
      let page := {page with mem := shuffleItemIds page.mem offsetNumber limit}
      (placeItem page item offsetNumber flags limit true).map id .ok
    else
      let itemId := getItemId page.mem offsetNumber
      if itemId.isUsed = true ∨ itemId.lpLen ≠ 0 then
        (page, .error "PageAddItem: tried overwrite of used ItemId")
      else (placeItem page item offsetNumber flags limit false).map id .ok
  else (placeItem page item (findUnused page.mem limit) flags limit false).map id .ok

/-- A loop over line pointers that rewrites those of a kind. -/
def forLines (m : Mem) (l : List Nat) (c : ItemId → Bool) (f : ItemId → ItemId) : Mem :=
  l.foldl (fun m n => if c (getItemId m n) = true then setItemId m n (f (getItemId m n)) else m) m

/-- `itemIdSortData` -/
structure ItemIdSort where
  offsetindex : Nat
  itemiddata : ItemId

def itemidcompare (a b : ItemIdSort) : Int :=
  if a.itemiddata.lpOff = b.itemiddata.lpOff then 0
  else if a.itemiddata.lpOff < b.itemiddata.lpOff then 1
  else -1

/-- What the second loop puts into its array. -/
def usedItems (m : Mem) (nline : Nat) : List ItemIdSort :=
  (List.range nline).filterMap fun i =>
    if (getItemId m (i + 1)).isUsed = true then some ⟨i, getItemId m (i + 1)⟩ else none

/-- One step of the loop that moves the items. -/
def compactItem (s : Mem × Nat) (it : ItemIdSort) : Mem × Nat :=
  let lp := getItemId s.1 (it.offsetindex + 1)
  let upper : Int := s.2 - doubleAlign lp.lpLen
  let m := memmove s.1 upper.toNat lp.lpOff lp.lpLen
  (setItemId m (it.offsetindex + 1) {getItemId m (it.offsetindex + 1) with lpOff := (upper % 2 ^ 13).toNat},
    toUInt16 upper)

/-- The number of line pointers as a signed value of 16 bits; a negative one is like none. -/
def Page.nline (p : Page) : Nat := if p.maxOffsetNumber < 2 ^ 15 then p.maxOffsetNumber else 0

/-- The loop that takes their storage from line pointers that are unused. -/
def deallocUnused (m : Mem) (nline : Nat) : Mem :=
  forLines m (range' 1 nline) (fun lp => !lp.isUsed && decide (0 < lp.lpLen)) fun lp => {lp with lpLen := 0}

/-- `pg_qsort` is a parameter: it sorts an array with `itemidcompare`. -/
def pageRepairFragmentation (pgQsort : List ItemIdSort → List ItemIdSort) (page : Page) : Page :=
  let nline := page.nline
  let nused := (range' 1 nline).countP fun n => (getItemId page.mem n).isUsed
  if nused = 0 then
    let m := forLines page.mem (range' 1 nline) (fun lp => decide (0 < lp.lpLen)) fun lp => {lp with lpLen := 0}
    {page with mem := m, pdUpper := page.pdSpecial}
  else
    let s := (pgQsort (usedItems page.mem nline)).foldl compactItem (deallocUnused page.mem nline, page.pdSpecial)
    {page with mem := s.1, pdUpper := s.2}

def pageIndexTupleDeleteAdjustLinePointers (p : Page) (location size : Nat) : Page :=
  p.setMem (forLines p.mem (range' 1 p.maxOffsetNumber).reverse (fun lp => decide (lp.lpOff ≤ location))
    fun lp => {lp with lpOff := lp.lpOff + size})

def pageIndexTupleDelete (page : Page) (offnum : Nat) : Option Page :=
  let tup := getItemId page.mem offnum
  let size := doubleAlign tup.lpLen
  let locn := tup.lpOff
  if page.pdLower < linpAddr (offnum + 1) ∨ locn < page.pdUpper then none
  else
    let m := memmove page.mem (linpAddr offnum) (linpAddr (offnum + 1)) (page.pdLower - linpAddr (offnum + 1))
    let m := if locn ≠ page.pdUpper then memmove m (page.pdUpper + size) page.pdUpper (locn - page.pdUpper) else m
    let p := {page with
      mem := m
      pdUpper := toUInt16 (page.pdUpper + size)
      pdLower := toUInt16 (page.pdLower - sizeOfItemIdData)}
    if p.isEmpty = true then some p else some (pageIndexTupleDeleteAdjustLinePointers p locn size)

end PgStorage.Slotted
