import Mathlib

/-! The shared invalidation segment.

The entries of the segment are in two chains: the messages that have been registered and not
been deleted, and the free entries. An offset is represented by the index of its entry, and
`InvalidOffset` by `none`. `limit` is the number of messages at the start of the chain that a
backend has read, negative for a backend that is not active. All routines run under
`SInvalLock`. A call that fails an assertion, raises an error or follows `InvalidOffset` does
not return. -/
namespace PgStorage.Ipc
open Function (update)

def maxBackendId : Nat := 32

def maxNumMessages : Nat := 1000

def invalidBackendTag : Int := -1

structure ProcState where
  limit : Int
  resetState : Bool
  tag : Int

/-- `SISeg`, with its entries. -/
structure SISeg (M : Type) where
  startFreeSpace : Option Nat
  startEntryChain : Option Nat
  endEntryChain : Option Nat
  numEntries : Nat
  procState : Fin maxBackendId → ProcState
  entryData : Nat → M
  isfree : Nat → Bool
  next : Nat → Option Nat

/-- What `SIReadEntryData` calls: `invalFunction` for each message, or `resetFunction`. -/
inductive Heard (M : Type) where
  | inval (messages : List M)
  | reset
deriving DecidableEq

section Segment
variable {M : Type}

def SISeg.setProcState (s : SISeg M) (i : Fin maxBackendId) (p : ProcState) : SISeg M :=
  {s with procState := update s.procState i p}

/-! ### Entries -/

/-- Gives `false` when the segment is full. -/
def siSetDataEntry (s : SISeg M) (data : M) : Option (SISeg M × Bool) :=
  if s.numEntries + 1 ≤ maxNumMessages then
    s.startFreeSpace.map fun e =>
      let t := {s with
        numEntries := s.numEntries + 1
        startFreeSpace := s.next e
        entryData := update s.entryData e data
        isfree := update s.isfree e false
        next := update s.next e none}
      match t.endEntryChain with
      | none => ({t with startEntryChain := some e, endEntryChain := some e}, true)
      | some last => ({t with next := update t.next last (some e), endEntryChain := some e}, true)
  else some (s, false)

/-- A limit of 0 stays 0, and a negative one is that of a dead backend. -/
def siDecProcLimit (s : SISeg M) (num : Int) : SISeg M :=
  {s with procState := fun i =>
    let p := s.procState i
    if 0 < p.limit then {p with limit := if p.limit - num < 0 then 0 else p.limit - num} else p}

/-- The first entry is freed; gives `false` when there is none. -/
def siDelDataEntry (s : SISeg M) : Option (SISeg M × Bool) :=
  if 1 ≤ s.numEntries then
    s.startEntryChain.map fun e =>
      (siDecProcLimit {s with
        numEntries := s.numEntries - 1
        startEntryChain := s.next e
        endEntryChain := if s.next e = none then none else s.endEntryChain
        isfree := update s.isfree e true
        next := update s.next e s.startFreeSpace
        startFreeSpace := some e} 1, true)
  else some (s, false)

/-- The backends that have not read the first message. -/
def siSetProcStateInvalid (s : SISeg M) : SISeg M :=
  {s with procState := fun i =>
    if (s.procState i).limit = 0 then {s.procState i with resetState := true} else s.procState i}

/-- The walk of `SIGetNthDataEntry` over `n` links. -/
def skipEntries (s : SISeg M) : Nat → Option Nat → Option (Option Nat)
  | 0, e => some e
  | _ + 1, none => none
  | n + 1, some e => skipEntries s n (s.next e)

def siGetNthDataEntry (s : SISeg M) (n : Int) : Option (Option Nat) :=
  if n ≤ 0 then some none else skipEntries s (n - 1).toNat s.startEntryChain

/-- The messages from an entry on; it is an error if there are more than the fuel, which is the
number of all entries. -/
def readEntries (s : SISeg M) : Nat → Option Nat → Option (List M)
  | _, none => some []
  | 0, some _ => none
  | fuel + 1, some e => (readEntries s fuel (s.next e)).map (s.entryData e :: ·)

def siReadEntryData (s : SISeg M) (i : Fin maxBackendId) : Option (SISeg M × Heard M) :=
  let p := s.procState i
  if p.resetState = false then
    (siGetNthDataEntry s (p.limit + 1)).bind fun data =>
      (readEntries s maxNumMessages data).map fun messages =>
        (s.setProcState i {p with limit := p.limit + messages.length}, .inval messages)
  else some (s.setProcState i {p with resetState := false, limit := s.numEntries}, .reset)

/-- The least limit of the active backends. -/
def minLimit (s : SISeg M) : Int :=
  (List.finRange maxBackendId).foldl (fun min i =>
    if 0 ≤ (s.procState i).limit ∧ (s.procState i).limit < min then (s.procState i).limit else min) 9999999

/-- The first `n` entries are freed; it is an error if there are fewer. -/
def deleteEntries : Nat → SISeg M → Option (SISeg M)
  | 0, s => some s
  | n + 1, s => (siDelDataEntry s).bind fun (t, ok) => if ok = true then deleteEntries n t else none

def siDelExpiredDataEntries (s : SISeg M) : Option (SISeg M) :=
  if minLimit s ≠ 9999999 then deleteEntries (minLimit s).toNat s else some s

/-- All messages are marked as read. -/
def siSetActiveProcess (s : SISeg M) (i : Fin maxBackendId) : SISeg M :=
  s.setProcState i {s.procState i with resetState := false, limit := s.numEntries}

/-- The first entry that is unused or has the tag; a tag must not be found twice. When there is
none, the entry that is chosen is not used. -/
def siAssignBackendId (s : SISeg M) (backendTag : Int) : Option (SISeg M × Fin maxBackendId) :=
  ((List.finRange maxBackendId).find? fun i =>
      decide ((s.procState i).tag = invalidBackendTag ∨ (s.procState i).tag = backendTag)).bind fun i =>
    if ∀ j, i < j → (s.procState j).tag ≠ backendTag then
      some (s.setProcState i {s.procState i with tag := backendTag}, i)
    else none

def siBackendInit (s : SISeg M) (backendTag : Int) : Option (SISeg M × Fin maxBackendId) :=
  if 0 < backendTag then
    (siAssignBackendId s backendTag).map fun (s, i) => (siSetActiveProcess s i, i)
  else none

def siSetDeadProcess (s : SISeg M) (i : Fin maxBackendId) : SISeg M :=
  s.setProcState i ⟨-1, false, invalidBackendTag⟩

/-- `SISegInit` in a segment with any contents. -/
def siSegInit (entryData : Nat → M) : SISeg M where
  startFreeSpace := some 0
  startEntryChain := none
  endEntryChain := none
  numEntries := 0
  procState _ := ⟨-1, false, invalidBackendTag⟩
  entryData := entryData
  isfree _ := true
  next i := if i + 1 < maxNumMessages then some (i + 1) else none

end Segment

structure ItemPointerData where
  blkid : Nat
  posid : Nat
deriving DecidableEq

structure SharedInvalidData where
  cacheId : Int
  hashIndex : Nat
  pointerData : ItemPointerData
deriving DecidableEq

/-- The message; an invalid pointer gives an invalid item pointer. -/
def newInvalid (cacheId : Int) (hashIndex : Nat) : Option ItemPointerData → SharedInvalidData
  | some pointer => ⟨cacheId, hashIndex, if pointer.posid ≠ 0 then pointer else ⟨2 ^ 32 - 1, 0⟩⟩
  | none => ⟨cacheId, hashIndex, ⟨2 ^ 32 - 1, 0⟩⟩

section Interface
variable {M : Type}

/-- `RegisterSharedInvalid`, once it has made the message. -/
def registerSharedInvalid (s : SISeg M) (newInvalid : M) : Option (SISeg M) :=
  (siSetDataEntry s newInvalid).bind fun (s, ok) =>
    if ok = true then some s
    else
      (siDelDataEntry (siSetProcStateInvalid s)).bind fun (s, ok) =>
        if ok = true then (siSetDataEntry s newInvalid).map Prod.fst else none

def invalidateSharedInvalid (s : SISeg M) (i : Fin maxBackendId) : Option (SISeg M × Heard M) :=
  (siReadEntryData s i).bind fun (s, heard) => (siDelExpiredDataEntries s).map fun s => (s, heard)

end Interface

end PgStorage.Ipc
