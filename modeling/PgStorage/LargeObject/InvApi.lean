import PgStorage.Lib.OrderedMap
import PgStorage.Lib.Splice

/-! Large objects.

The pages of an object are rows of `pg_largeobject`, an ordered map from page numbers to byte strings. A scan
sees the rows that were there when it began. The descriptor is open for reading and writing. A value that does
not fit its C type is a fault, and so is an assertion that does not hold. -/
namespace PgStorage.LargeObject
open Splice

/-- `BLCKSZ / 4` -/
def loblksize : Nat := 2048

theorem loblksize_eq : loblksize = 2048 := rfl

attribute [irreducible] loblksize

def maxLargeObjectSize : Nat := 2147483647 * loblksize

theorem maxLargeObjectSize_eq : maxLargeObjectSize = 4398046509056 := by
  rw [maxLargeObjectSize, loblksize_eq]

attribute [irreducible] maxLargeObjectSize

abbrev Bytes := List UInt8

abbrev Row := Nat × Bytes

inductive Fault
  | ereport (errmsg : String)
  | overflow
  | assertion

def fits (bits n : Nat) : Except Fault Nat := if n < 2 ^ bits then .ok n else .error .overflow

def int32 (n : Nat) : Except Fault Nat := fits 31 n

def uint64 (n : Nat) : Except Fault Nat := fits 64 n

def assert (p : Prop) [Decidable p] : Except Fault Unit := if p then .ok () else .error .assertion

/-- The descriptor, with the pages of the object. -/
structure LargeObjectDesc where
  id : Nat
  offset : Nat
  pages : OrderedMap Bytes

def zeros (n : Nat) : Bytes := List.replicate n 0

def getdatafield (id : Nat) (row : Row) : Except Fault Bytes :=
  if loblksize < row.2.length then
    .error (.ereport ("pg_largeobject entry for OID " ++ toString id ++ ", page " ++ toString row.1 ++
      " has invalid data field size " ++ toString row.2.length))
  else .ok row.2

def invGetsize (obj : LargeObjectDesc) : Except Fault Nat :=
  match obj.pages.last? with
  | none => .ok 0
  | some row => do
    let data ← getdatafield obj.id row
    uint64 (row.1 * loblksize + data.length)

/-- The sums are those of `uint64`, read as `int64`. -/
def newoffset (obj : LargeObjectDesc) (offset : Int64) (whence : Int32) : Except Fault Int :=
  if whence = 0 then .ok offset.toInt
  else if whence = 1 then .ok ((obj.offset + offset.toInt).bmod (2 ^ 64))
  else if whence = 2 then do
    let size ← invGetsize obj
    return (size + offset.toInt).bmod (2 ^ 64)
  else .error (.ereport ("invalid whence setting: " ++ toString whence))

def invSeek (obj : LargeObjectDesc) (offset : Int64) (whence : Int32) : Except Fault Int × LargeObjectDesc :=
  match newoffset obj offset whence with
  | .error fault => (.error fault, obj)
  | .ok newoffset =>
    if newoffset < 0 ∨ maxLargeObjectSize < newoffset then
      (.error (.ereport ("invalid large object seek target: " ++ toString newoffset)), obj)
    else (.ok newoffset, {obj with offset := newoffset.toNat})

/-- The position, and what was read. -/
structure ReadState where
  offset : Nat
  buf : Bytes

namespace ReadState

def advance (s : ReadState) (data : Bytes) : Except Fault ReadState := do
  let _ ← int32 (s.buf.length + data.length)
  let offset ← uint64 (s.offset + data.length)
  return ⟨offset, s.buf ++ data⟩

/-- Missing sections read as zeros. -/
def fillHole (s : ReadState) (nbytes pageoff : Nat) : Except Fault ReadState :=
  if s.offset < pageoff then s.advance (zeros (min (pageoff - s.offset) (nbytes - s.buf.length)))
  else .ok s

def copyPage (s : ReadState) (id nbytes pageoff : Nat) (row : Row) : Except Fault ReadState :=
  if s.buf.length < nbytes then do
    assert (pageoff ≤ s.offset)
    let off := s.offset - pageoff
    assert (off < loblksize)
    let data ← getdatafield id row
    if off < data.length then
      s.advance ((data.drop off).take (min (data.length - off) (nbytes - s.buf.length)))
    else return s
  else .ok s

def readPage (s : ReadState) (id nbytes : Nat) (row : Row) : Except Fault ReadState := do
  let pageoff ← uint64 (row.1 * loblksize)
  let s ← s.fillHole nbytes pageoff
  s.copyPage id nbytes pageoff row

def readPages (id nbytes : Nat) : List Row → ReadState → Except Fault ReadState
  | [], s => .ok s
  | row :: rest, s => do
    let s ← s.readPage id nbytes row
    if nbytes ≤ s.buf.length then return s else readPages id nbytes rest s

end ReadState

def invRead (obj : LargeObjectDesc) (nbytes : Int32) : Except Fault Bytes × LargeObjectDesc :=
  if nbytes ≤ 0 then (.ok [], obj)
  else
    let result := do
      let pageno ← int32 (obj.offset / loblksize)
      ReadState.readPages obj.id nbytes.toInt.toNat (obj.pages.scan pageno) ⟨obj.offset, []⟩
    match result with
    | .error fault => (.error fault, obj)
    | .ok s => (.ok s.buf, {obj with offset := s.offset})

/-! ### `inv_write` -/

structure WriteState where
  pages : OrderedMap Bytes
  offset : Nat
  nwritten : Nat
  pageno : Nat
  scan : List Row
  olddata : Option Row
  neednextpage : Bool

namespace WriteState

def nextPage (s : WriteState) : Except Fault WriteState :=
  if s.neednextpage = true then
    match s.scan with
    | [] => .ok {s with neednextpage := false}
    | row :: scan => do
      assert (s.pageno ≤ row.1)
      return {s with scan := scan, olddata := some row, neednextpage := false}
  else .ok s

/-- The page at hand is updated if it is there, and is a new one otherwise. -/
def putPage (s : WriteState) (id off : Nat) (data : Bytes) : Except Fault WriteState :=
  match s.olddata.filter (·.1 = s.pageno) with
  | some row => do
    let old ← getdatafield id row
    let workb := splice (old ++ zeros (off - old.length)) off data
    return {s with pages := s.pages.set s.pageno workb, olddata := none, neednextpage := true}
  | none => return {s with pages := s.pages.set s.pageno (zeros off ++ data)}

def writePage (s : WriteState) (id : Nat) (buf : Bytes) (nbytes : Nat) : Except Fault WriteState := do
  let s ← s.nextPage
  let off := s.offset % loblksize
  let n := min (loblksize - off) (nbytes - s.nwritten)
  let s ← s.putPage id off ((buf.drop s.nwritten).take n)
  let nwritten ← int32 (s.nwritten + n)
  let offset ← uint64 (s.offset + n)
  let pageno ← int32 (s.pageno + 1)
  return {s with nwritten := nwritten, offset := offset, pageno := pageno}

/-- Each round writes a byte at least. -/
def writePages (id : Nat) (buf : Bytes) (nbytes : Nat) : Nat → WriteState → Except Fault WriteState
  | 0, s => .ok s
  | fuel + 1, s =>
    if s.nwritten < nbytes then do
      let s ← s.writePage id buf nbytes
      writePages id buf nbytes fuel s
    else .ok s

end WriteState

def invWrite (obj : LargeObjectDesc) (buf : Bytes) (nbytes : Int32) : Except Fault Int × LargeObjectDesc :=
  if nbytes ≤ 0 then (.ok 0, obj)
  else if maxLargeObjectSize < nbytes.toInt + obj.offset then
    (.error (.ereport ("invalid large object write request size: " ++ toString nbytes)), obj)
  else
    let result := do
      let pageno ← int32 (obj.offset / loblksize)
      WriteState.writePages obj.id buf nbytes.toInt.toNat nbytes.toInt.toNat
        ⟨obj.pages, obj.offset, 0, pageno, obj.pages.scan pageno, none, true⟩
    match result with
    | .error fault => (.error fault, obj)
    | .ok s => (.ok s.nwritten, {obj with pages := s.pages, offset := s.offset})

/-- The page of the truncation point ends there. If it is missing, it is created to mark the end, and the page
that was found instead is deleted. -/
def truncatePage (id : Nat) (pages : OrderedMap Bytes) (pageno off : Nat) (row : Row) :
    Except Fault (OrderedMap Bytes) :=
  if row.1 = pageno then do
    let old ← getdatafield id row
    return pages.set pageno ((old ++ zeros (off - old.length)).take off)
  else return (pages.erase row.1).set pageno (zeros off)

def truncatePages (id : Nat) (pages : OrderedMap Bytes) (len : Nat) : Except Fault (OrderedMap Bytes) := do
  let pageno ← int32 (len / loblksize)
  let off := len % loblksize
  match pages.scan pageno with
  | [] => return pages.set pageno (zeros off)
  | row :: rest => do
    assert (pageno ≤ row.1)
    let pages ← truncatePage id pages pageno off row
    return rest.foldl (fun pages row => pages.erase row.1) pages

def invTruncate (obj : LargeObjectDesc) (len : Int64) : Except Fault Unit × LargeObjectDesc :=
  if len < 0 ∨ maxLargeObjectSize < len.toInt then
    (.error (.ereport ("invalid large object truncation target: " ++ toString len)), obj)
  else
    match truncatePages obj.id obj.pages len.toInt.toNat with
    | .error fault => (.error fault, obj)
    | .ok pages => (.ok (), {obj with pages := pages})

inductive Call
  | seek (offset : Int64) (whence : Int32)
  | read (nbytes : Int32)
  | write (buf : Bytes) (nbytes : Int32)
  | truncate (len : Int64)

inductive Reply
  | position (offset : Int)
  | data (buf : Bytes)
  | count (nwritten : Int)
  | done

def call (obj : LargeObjectDesc) : Call → Except Fault Reply × LargeObjectDesc
  | .seek offset whence => (invSeek obj offset whence).map (·.map .position) id
  | .read nbytes => (invRead obj nbytes).map (·.map .data) id
  | .write buf nbytes => (invWrite obj buf nbytes).map (·.map .count) id
  | .truncate len => (invTruncate obj len).map (·.map fun _ => .done) id

def run (obj : LargeObjectDesc) : List Call → List (Except Fault Reply) × LargeObjectDesc
  | [] => ([], obj)
  | c :: rest =>
    let r := call obj c
    let s := run r.2 rest
    (r.1 :: s.1, s.2)

end PgStorage.LargeObject
