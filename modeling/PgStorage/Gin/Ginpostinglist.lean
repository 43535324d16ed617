import Mathlib

/-! Compressed posting lists of GIN.

Memory is a list of bytes. A posting list is its first item, stored as it is, a byte count, and the distances from item
to item as integers of a variable number of bytes, seven bits in each; sixteen-bit fields are in little-endian order.
Reading behind the end of the memory is `none`. What is written behind the end of an allocation shows in the length of
what was written. -/
namespace PgStorage.Gin

abbrev Byte := BitVec 8

/-- `ItemPointerData` -/
structure ItemPointer where
  block : BitVec 32
  offset : BitVec 16
  deriving DecidableEq

def maxHeapTuplesPerPageBits : Nat := 11

def itemptrToUint64 (iptr : ItemPointer) : BitVec 64 :=
  (iptr.block.setWidth 64 <<< maxHeapTuplesPerPageBits) ||| iptr.offset.setWidth 64

def uint64ToItemptr (val : BitVec 64) : ItemPointer :=
  ⟨(val >>> maxHeapTuplesPerPageBits).setWidth 32, (val &&& ((1 <<< maxHeapTuplesPerPageBits) - 1)).setWidth 16⟩

/-- The loop, at most so many times. -/
def encodeVarbyteLoop : Nat → BitVec 64 → List Byte
  | 0, val => [val.setWidth 8]
  | n + 1, val =>
    if 0x7F < val then (0x80 ||| (val &&& 0x7F)).setWidth 8 :: encodeVarbyteLoop n (val >>> 7) else [val.setWidth 8]

/-- The bytes written for `val`; nine shifts leave one bit. -/
def encodeVarbyte (val : BitVec 64) : List Byte := encodeVarbyteLoop 9 val

/-- From one of the nested conditionals on, `n` levels above the innermost; the last byte is taken as it is. -/
def decodeVarbyteAt : Nat → Nat → BitVec 64 → List Byte → Option (BitVec 64 × List Byte)
  | _, _, _, [] => none
  | 0, shift, val, c :: p => some (val ||| (c.setWidth 64 <<< shift), p)
  | n + 1, shift, val, c :: p =>
    let val := val ||| ((c.setWidth 64 &&& 0x7F) <<< shift)
    if c &&& 0x80 = 0 then some (val, p) else decodeVarbyteAt n (shift + 7) val p

/-- With the memory behind the integer. -/
def decodeVarbyte (p : List Byte) : Option (BitVec 64 × List Byte) := decodeVarbyteAt 6 0 0 p

def shortalign (n : Nat) : Nat := (n + 1) / 2 * 2

def shortalignDown (n : Nat) : Nat := n / 2 * 2

/-- `offsetof(GinPostingList, bytes)` -/
def headerSize : Nat := 8

structure GinPostingList where
  first : ItemPointer
  nbytes : BitVec 16
  /-- With the padding byte, if there is one. -/
  bytes : List Byte

def sizeOfGinPostingList (nbytes : BitVec 16) : Nat := headerSize + shortalign nbytes.toNat

/-- The loop of `ginCompressPostingList`. -/
structure Packing where
  bytes : List Byte
  totalpacked : Nat
  /-- How many bytes of its buffer were written at most. -/
  scratch : Nat

/-- An item's bytes are copied to the segment. -/
def Packing.append (buf : List Byte) (s : Packing) : Packing :=
  { s with bytes := s.bytes ++ buf, totalpacked := s.totalpacked + 1 }

/-- They are written to the buffer. -/
def Packing.buffer (buf : List Byte) (s : Packing) : Packing := { s with scratch := max s.scratch buf.length }

def packItems (maxbytes : Nat) : BitVec 64 → List ItemPointer → Packing → Packing
  | _, [], s => s
  | prev, iptr :: ipd, s =>
    let val := itemptrToUint64 iptr
    let delta := val - prev
    if s.bytes.length + 6 ≤ maxbytes then packItems maxbytes val ipd (s.append (encodeVarbyte delta))
    else
      let buf := encodeVarbyte delta
      let s := s.buffer buf
      if maxbytes < s.bytes.length + buf.length then s else packItems maxbytes val ipd (s.append buf)

/-- The segment with `nwritten`, and how far the buffer was written. -/
structure Compressed where
  segment : GinPostingList
  nwritten : Nat
  scratch : Nat

/-- `maxbytes` -/
def segmentRoom (maxsize : Nat) : Nat := shortalignDown maxsize - headerSize

/-- The items are `first :: ipd`. -/
def ginCompressPostingList (first : ItemPointer) (ipd : List ItemPointer) (maxsize : Nat) : Compressed :=
  let s := packItems (segmentRoom maxsize) (itemptrToUint64 first) ipd ⟨[], 1, 0⟩
  let nbytes := BitVec.ofNat 16 s.bytes.length
  let bytes := if nbytes.toNat ≠ shortalign nbytes.toNat then s.bytes ++ [0] else s.bytes
  ⟨⟨first, nbytes, bytes⟩, s.totalpacked, s.scratch⟩

def uint16Bytes (x : BitVec 16) : List Byte := [x.setWidth 8, (x >>> 8).setWidth 8]

/-- A block number is stored as its high and its low half. -/
def GinPostingList.memory (segment : GinPostingList) : List Byte :=
  uint16Bytes ((segment.first.block >>> 16).setWidth 16) ++ uint16Bytes (segment.first.block.setWidth 16) ++
    uint16Bytes segment.first.offset ++ uint16Bytes segment.nbytes ++ segment.bytes

def uint16At (lo hi : Byte) : BitVec 16 := hi ++ lo

/-- `first` and `nbytes`, with the memory from `bytes` on. -/
def readHeader : List Byte → Option (ItemPointer × BitVec 16 × List Byte)
  | h :: h' :: l :: l' :: o :: o' :: n :: n' :: p => some (⟨uint16At h h' ++ uint16At l l', uint16At o o'⟩, uint16At n n', p)
  | _ => none

/-- The output array. -/
structure Decoded where
  items : List ItemPointer
  nallocated : Nat

/-- The array is enlarged when it is full. -/
def Decoded.push (r : Decoded) (item : ItemPointer) : Decoded :=
  ⟨r.items ++ [item], if r.nallocated ≤ r.items.length then r.nallocated * 2 else r.nallocated⟩

/-- The loop over the distances of a segment that ends where `stop` bytes of memory are left; each round reads a byte at
least. -/
def decodeItems : Nat → Nat → BitVec 64 → List Byte → Decoded → Option Decoded
  | 0, _, _, _, _ => none
  | n + 1, stop, val, p, r =>
    if stop < p.length then
      match decodeVarbyte p with
      | none => none
      | some (delta, p) => decodeItems n stop (val + delta) p (r.push (uint64ToItemptr (val + delta)))
    else some r

/-- The loop over the segments, up to the end of the memory. -/
def decodeSegments : Nat → List Byte → Decoded → Option Decoded
  | 0, _, _ => none
  | n + 1, segment, r =>
    if segment = [] then some r
    else
      match readHeader segment with
      | none => none
      | some (first, nbytes, p) =>
        match decodeItems (nbytes.toNat + 1) (p.length - nbytes.toNat) (itemptrToUint64 first) p (r.push first) with
        | none => none
        | some r => decodeSegments n (segment.drop (sizeOfGinPostingList nbytes)) r

/-- `len` is the length of the memory. The first guess for the array is taken from the first segment. -/
def ginPostingListDecodeAllSegments (segment : List Byte) : Option Decoded :=
  let nallocated := ((readHeader segment).map fun header => header.2.1.toNat * 2 + 1).getD 1
  decodeSegments (segment.length + 1) segment ⟨[], nallocated⟩

end PgStorage.Gin
