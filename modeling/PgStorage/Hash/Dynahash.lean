import Mathlib

/-! Dynamic hash tables.

A table has segments of 256 buckets, each the head of a chain of elements; elements that have
been removed, or were allocated in advance, are in a free list. `INVALID_INDEX` is represented
by `none`. The table grows by one bucket at a time, whose elements come from one other bucket.
Memory can always be allocated, and new elements have new indices. A call that fails an
assertion, accesses memory that is not allocated or does not end has no result. -/
namespace PgStorage.Hash
open Function (update)

def defSegsize : Nat := 256

def defSegsizeShift : Nat := 8

def defDirsize : Nat := 256

def bucketAllocIncr : Nat := 30

/-- What a `BUCKET_INDEX *` points to: an entry of a segment, or the link of an element. -/
inductive Link where
  | bucket (segmentNum segmentNdx : Nat)
  | next (e : Nat)
deriving DecidableEq

/-- `HTAB` with its header, for tables with default segments and a directory without limit.
`allocated` is the number of elements that have been allocated, and `saveState` is static in
`hash_search`. -/
structure Htab (K : Type) where
  hash : K → BitVec 64
  ffactor : Int
  dsize : Nat
  nsegs : Nat
  maxBucket : Nat
  highMask : Nat
  lowMask : Nat
  nkeys : Nat
  freeBucketIndex : Option Nat
  dir : Nat → Nat → Option Nat
  next : Nat → Option Nat
  key : Nat → K
  allocated : Nat
  saveState : Option (Link × Nat)

inductive HashAction where
  | find
  | enter
  | remove
  | findSave
  | removeSaved

section Table
variable {K : Type} [DecidableEq K]

/-- The smallest `i` with `num ≤ 2^i`; above `2^30` the counter overflows, and the loop does not
end. -/
def myLog2 (num : Int) : Option Nat := if num ≤ 2 ^ 30 then some (Nat.clog 2 num.toNat) else none

/-- `init_htab`, after the defaults; elements have no links and keys yet. -/
def hashCreate (hash : K → BitVec 64) (ffactor nelem : Int) (key : Nat → K) : Option (Htab K) :=
  if ffactor = 0 then none
  else
    (myLog2 ((nelem - 1).tdiv ffactor + 1)).bind fun l2 =>
    (myLog2 (((2 ^ l2 - 1) / defSegsize + 1 : Nat) : Int)).map fun l2segs => {
      hash := hash
      ffactor := ffactor
      dsize := if defDirsize < 2 ^ l2segs then 2 ^ l2segs else defDirsize
      nsegs := 2 ^ l2segs
      maxBucket := 2 ^ l2 - 1
      highMask := 2 ^ (l2 + 1) - 1
      lowMask := 2 ^ l2 - 1
      nkeys := 0
      freeBucketIndex := none
      dir := fun _ _ => none
      next := fun _ => none
      key := key
      allocated := 0
      saveState := none }

/-- `&segp[segment_ndx]` of a bucket. -/
def bucketLink (bucket : Nat) : Link := .bucket (bucket >>> defSegsizeShift) (bucket &&& (defSegsize - 1))

/-- The value of a link. -/
def Htab.link (t : Htab K) : Link → Option Nat
  | .bucket segmentNum segmentNdx => t.dir segmentNum segmentNdx
  | .next e => t.next e

def Htab.setLink (t : Htab K) (v : Option Nat) : Link → Htab K
  | .bucket segmentNum segmentNdx =>
    {t with dir := update t.dir segmentNum (update (t.dir segmentNum) segmentNdx v)}
  | .next e => {t with next := update t.next e v}

def callHash (t : Htab K) (k : K) : Nat :=
  let bucket := (t.hash k).toNat &&& t.highMask
  if t.maxBucket < bucket then bucket &&& t.lowMask else bucket

/-- The collision chain is followed from `currIndex`, the value of `prevIndexPtr`. A walk with more
steps than there are elements does not end. -/
def followChain (t : Htab K) (k : K) : Nat → Link → Option Nat → Option (Link × Option Nat)
  | _, prevIndexPtr, none => some (prevIndexPtr, none)
  | 0, _, some _ => none
  | fuel + 1, prevIndexPtr, some currIndex =>
    if t.key currIndex = k then some (prevIndexPtr, some currIndex)
    else followChain t k fuel (.next currIndex) (t.next currIndex)

/-- The link to the element of a key, or to the end of the chain, and the element. -/
def lookUp (t : Htab K) (k : K) : Option (Link × Option Nat) :=
  if callHash t k >>> defSegsizeShift < t.nsegs then
    followChain t k t.allocated (bucketLink (callHash t k)) (t.link (bucketLink (callHash t k)))
  else none

/-- The element is taken out of its chain and put into the free list. -/
def removeElement (t : Htab K) (prevIndexPtr : Link) (currIndex : Nat) : Option (Htab K) :=
  if 0 < t.nkeys then
    let u := t.setLink (t.next currIndex) prevIndexPtr
    some {u with
      nkeys := t.nkeys - 1
      next := update u.next currIndex t.freeBucketIndex
      freeBucketIndex := some currIndex}
  else none

/-! ### Growth -/

/-- A chunk of elements is allocated. The loop stops before the last one: the link of the last but
one is the one that is overwritten with the old free list. -/
def bucketAlloc (t : Htab K) : Htab K :=
  {t with
    next := fun e =>
      if t.allocated ≤ e ∧ e < t.allocated + (bucketAllocIncr - 2) then some (e + 1)
      else if e = t.allocated + (bucketAllocIncr - 2) then t.freeBucketIndex
      else t.next e
    freeBucketIndex := some t.allocated
    allocated := t.allocated + bucketAllocIncr}

/-- The new bucket gets a segment. `dir_realloc` takes the first segment for the directory, and
writes after its end. -/
def growDir (t : Htab K) (newSegnum : Nat) : Option (Htab K) :=
  if t.nsegs ≤ newSegnum then
    if t.dsize ≤ newSegnum then none
    else some {t with dir := update t.dir newSegnum fun _ => none, nsegs := t.nsegs + 1}
  else some t

/-- The masks after `max_bucket` has been increased. -/
def growMasks (t : Htab K) : Htab K :=
  {t with
    maxBucket := t.maxBucket + 1
    lowMask := if t.highMask < t.maxBucket + 1 then t.highMask else t.lowMask
    highMask := if t.highMask < t.maxBucket + 1 then (t.maxBucket + 1) ||| t.highMask else t.highMask}

/-- The loop that relocates the elements of a chain, with the ends of the two chains so far. -/
def relocate (oldBucket : Nat) : Nat → Htab K → Option Nat → Link → Link → Option (Htab K)
  | _, t, none, _, _ => some t
  | 0, _, some _, _, _ => none
  | fuel + 1, t, some chainIndex, old, newbi =>
    let nextIndex := t.next chainIndex
    if callHash t (t.key chainIndex) = oldBucket then
      let u := t.setLink (some chainIndex) old
      relocate oldBucket fuel {u with next := update u.next chainIndex none} nextIndex (.next chainIndex) newbi
    else
      let u := t.setLink (some chainIndex) newbi
      relocate oldBucket fuel {u with next := update u.next chainIndex none} nextIndex old (.next chainIndex)

def expandTable (t : Htab K) : Option (Htab K) :=
  let newBucket := t.maxBucket + 1
  let oldBucket := newBucket &&& t.lowMask
  (growDir t (newBucket >>> defSegsizeShift)).bind fun u =>
    let u := growMasks u
    relocate oldBucket u.allocated u (u.link (bucketLink oldBucket)) (bucketLink oldBucket) (bucketLink newBucket)

/-- The rest of `hash_search` for a key that is entered. -/
def enterElement (t : Htab K) (k : K) (prevIndexPtr : Link) : Option (Htab K × Nat) :=
  let t := if t.freeBucketIndex = none then bucketAlloc t else t
  t.freeBucketIndex.bind fun currIndex =>
    let u := {t with freeBucketIndex := t.next currIndex}.setLink (some currIndex) prevIndexPtr
    let u := {u with
      key := update u.key currIndex k
      next := update u.next currIndex none
      nkeys := u.nkeys + 1}
    if u.ffactor < ((u.nkeys / (u.maxBucket + 1) : Nat) : Int) then (expandTable u).map fun u => (u, currIndex)
    else some (u, currIndex)

/-- Gives `*foundPtr` and the element, if there is one. -/
def hashSearch (t : Htab K) (k : K) : HashAction → Option (Htab K × Bool × Option Nat)
  | .find => (lookUp t k).map fun (_, currIndex) => (t, currIndex.isSome, currIndex)
  | .findSave => (lookUp t k).map fun
    | (prevIndexPtr, some currIndex) => ({t with saveState := some (prevIndexPtr, currIndex)}, true, some currIndex)
    | (_, none) => (t, false, none)
  | .remove => (lookUp t k).bind fun
    | (prevIndexPtr, some currIndex) =>
      (removeElement t prevIndexPtr currIndex).map fun t => (t, true, some currIndex)
    | (_, none) => some (t, false, none)
  | .removeSaved => t.saveState.bind fun (prevIndexPtr, currIndex) =>
    (removeElement {t with saveState := none} prevIndexPtr currIndex).map fun t => (t, true, some currIndex)
  | .enter => (lookUp t k).bind fun
    | (_, some currIndex) => some (t, true, some currIndex)
    | (prevIndexPtr, none) => (enterElement t k prevIndexPtr).map fun (t, currIndex) => (t, false, some currIndex)

/-- The static state of `hash_seq`. -/
structure SeqState where
  curBucket : Nat
  curIndex : Option Nat

def SeqState.reset : SeqState := ⟨0, none⟩

/-- The loop of `hash_seq`; gives no element for `TRUE`. -/
def seqLoop (t : Htab K) : Nat → SeqState → Option (SeqState × Option Nat)
  | 0, _ => none
  | fuel + 1, s =>
    if t.maxBucket < s.curBucket then some (s, none)
    else
      match s.curIndex with
      | some e => some (⟨if t.next e = none then s.curBucket + 1 else s.curBucket, t.next e⟩, some e)
      | none =>
        if s.curBucket >>> defSegsizeShift < t.nsegs then
          let curIndex := t.link (bucketLink s.curBucket)
          seqLoop t fuel ⟨if curIndex = none then s.curBucket + 1 else s.curBucket, curIndex⟩
        else none

/-- The loop goes to another bucket in all but its last two rounds. -/
def hashSeq (t : Htab K) (s : SeqState) : Option (SeqState × Option Nat) := seqLoop t (t.maxBucket + 3) s

/-- The elements that so many calls of `hash_seq` give, the last of which returns `TRUE`. -/
def hashSeqAll (t : Htab K) : Nat → SeqState → Option (List Nat)
  | 0, _ => none
  | calls + 1, s => (hashSeq t s).bind fun
    | (_, none) => some []
    | (s, some e) => (hashSeqAll t calls s).map (e :: ·)

end Table

end PgStorage.Hash
