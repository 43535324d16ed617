import Mathlib

/-! Private pin counts.

A backend keeps count of its own pins in an array of eight entries and, when these are all in use, in
a hash table to which entries of the array are moved in turn. The shared reference count of a buffer
changes only with the first pin and the last unpin. `Option` results are `none` where an assertion of
the code fails. Memory for the hash table is never refused. -/
namespace PgStorage.Buffer
open Function (update)

/-- `REFCOUNT_ARRAY_ENTRIES` -/
abbrev refcountArrayEntries : Nat := 8

def invalidBuffer : Nat := 0

/-- `BM_MAX_USAGE_COUNT` -/
def maxUsageCount : Nat := 5

structure PrivateRefCountEntry where
  buffer : Nat
  refcount : Nat

/-- A pointer to an entry. -/
inductive Ref
  | slot (i : Fin refcountArrayEntries)
  | hashed (buffer : Nat)

structure Refs where
  array : Fin refcountArrayEntries → PrivateRefCountEntry
  hash : List PrivateRefCountEntry
  overflowed : Nat
  clock : Nat
  reserved : Option (Fin refcountArrayEntries)

def hashFind (l : List PrivateRefCountEntry) (b : Nat) : Option PrivateRefCountEntry := l.find? (·.buffer == b)

def hashSet (l : List PrivateRefCountEntry) (b n : Nat) : List PrivateRefCountEntry :=
  l.map fun e => if e.buffer = b then {e with refcount := n} else e

/-- `HASH_ENTER`, and the count of the entry set. -/
def hashEnter (l : List PrivateRefCountEntry) (b n : Nat) : List PrivateRefCountEntry :=
  if (hashFind l b).isSome = true then hashSet l b n else ⟨b, n⟩ :: l

def hashRemove (l : List PrivateRefCountEntry) (b : Nat) : List PrivateRefCountEntry := l.eraseP (·.buffer == b)

namespace Refs

/-- The first slot with a buffer. -/
def findSlot (r : Refs) (b : Nat) : Option (Fin refcountArrayEntries) :=
  (List.finRange refcountArrayEntries).find? fun i => (r.array i).buffer == b

def refcount (r : Refs) : Ref → Nat
  | .slot i => (r.array i).refcount
  | .hashed b => ((hashFind r.hash b).map (·.refcount)).getD 0

def setRefcount (r : Refs) (n : Nat) : Ref → Refs
  | .slot i => {r with array := update r.array i {r.array i with refcount := n}}
  | .hashed b => {r with hash := hashSet r.hash b n}

/-- `ReservePrivateRefCountEntry` -/
def reserve (r : Refs) : Refs :=
  if r.reserved.isSome = true then r
  else
    match r.findSlot invalidBuffer with
    | some i => {r with reserved := some i}
    | none =>
      let i := Fin.ofNat refcountArrayEntries r.clock
      {r with
        array := update r.array i ⟨invalidBuffer, 0⟩
        hash := hashEnter r.hash (r.array i).buffer (r.array i).refcount
        overflowed := r.overflowed + 1
        clock := (r.clock + 1) % 2 ^ 32
        reserved := some i}

/-- `NewPrivateRefCountEntry` -/
def new (r : Refs) (b : Nat) : Option (Refs × Ref) :=
  match r.reserved with
  | none => none
  | some i => some ({r with array := update r.array i ⟨b, 0⟩, reserved := none}, .slot i)

/-- `GetPrivateRefCountEntry` -/
def get (r : Refs) (b : Nat) (doMove : Bool) : Option (Refs × Option Ref) :=
  match r.findSlot b with
  | some i => some (r, some (.slot i))
  | none =>
    if r.overflowed = 0 then some (r, none)
    else
      match hashFind r.hash b with
      | none => some (r, none)
      | some _ =>
        if doMove = false then some (r, some (.hashed b))
        else
          let t := r.reserve
          match t.reserved with
          | none => none
          | some i =>
            some ({t with
              array := update t.array i ⟨b, t.refcount (.hashed b)⟩
              hash := hashRemove t.hash b
              overflowed := t.overflowed - 1
              reserved := none}, some (.slot i))

/-- `ForgetPrivateRefCountEntry` -/
def forget (r : Refs) : Ref → Refs
  | .slot i =>
    {r with array := update r.array i {r.array i with buffer := invalidBuffer}, reserved := some i}
  | .hashed b => {r with hash := hashRemove r.hash b, overflowed := r.overflowed - 1}

end Refs

/-- The fields of a buffer's header that pinning reads and writes. -/
structure BufferDesc where
  refcount : Nat
  usageCount : Nat
  valid : Bool
  pinCountWaiter : Bool
  waitBackendPid : Nat

structure Backend where
  refs : Refs
  desc : Nat → BufferDesc
  /-- The backends that `ProcSendSignal` was called for. -/
  signals : List Nat

/-- A pin is added; with a buffer access strategy, the usage count is only kept from being 0. -/
def BufferDesc.pin (d : BufferDesc) (strategy : Bool) : BufferDesc :=
  let limit := if strategy = true then 1 else maxUsageCount
  {d with
    refcount := d.refcount + 1
    usageCount := if d.usageCount < limit then d.usageCount + 1 else d.usageCount}

namespace Backend

/-- The count of an entry is increased. -/
def incr (s : Backend) (r : Refs) (ref : Ref) : Backend := {s with refs := r.setRefcount (r.refcount ref + 1) ref}

/-- `PinBuffer`, with its result. -/
def pinBuffer (s : Backend) (b : Nat) (strategy : Bool) : Option (Backend × Bool) :=
  match s.refs.get b true with
  | none => none
  | some (r, some ref) => some (s.incr r ref, true)
  | some (r, none) =>
    match r.reserve.new b with
    | none => none
    | some (r, ref) =>
      let d := (s.desc b).pin strategy
      some ({s with desc := update s.desc b d}.incr r ref, d.valid)

/-- `PinBuffer_Locked` -/
def pinBufferLocked (s : Backend) (b : Nat) : Option Backend :=
  match s.refs.get b false with
  | some (_, none) =>
    match s.refs.new b with
    | none => none
    | some (r, ref) =>
      let d := {s.desc b with refcount := (s.desc b).refcount + 1}
      some ({s with desc := update s.desc b d}.incr r ref)
  | _ => none

/-- The last pin is given up; a backend that waits for the buffer may be the only one left. -/
def unpinShared (s : Backend) (b : Nat) : Backend :=
  let d := {s.desc b with refcount := (s.desc b).refcount - 1}
  if d.pinCountWaiter = true ∧ d.refcount = 1 then
    {s with
      desc := update s.desc b {d with pinCountWaiter := false}
      signals := s.signals ++ [d.waitBackendPid]}
  else {s with desc := update s.desc b d}

/-- `UnpinBuffer` -/
def unpinBuffer (s : Backend) (b : Nat) : Option Backend :=
  match s.refs.get b false with
  | some (r, some ref) =>
    if r.refcount ref = 0 then none
    else
      let t := r.setRefcount (r.refcount ref - 1) ref
      if t.refcount ref = 0 then some {s.unpinShared b with refs := t.forget ref} else some {s with refs := t}
  | _ => none

/-- `GetPrivateRefCount` -/
def getPrivateRefCount (s : Backend) (b : Nat) : Option Nat :=
  match s.refs.get b false with
  | none => none
  | some (_, none) => some 0
  | some (r, some ref) => some (r.refcount ref)

/-- `IncrBufferRefCount`, on a buffer that is pinned. -/
def incrBufferRefCount (s : Backend) (b : Nat) : Option Backend :=
  match s.getPrivateRefCount b, s.refs.get b true with
  | some n, some (r, some ref) => if n = 0 then none else some (s.incr r ref)
  | _, _ => none

end Backend

/-- What happens in a backend. Others may pin and unpin a buffer, and change the rest of its header. -/
inductive Act
  | pin (b : Nat) (strategy : Bool)
  | reserve
  | reservePinLocked (b : Nat)
  | incr (b : Nat)
  | unpin (b : Nat)
  | query (b : Nat)
  | otherPin (b : Nat)
  | otherUnpin (b : Nat)
  | header (b usageCount : Nat) (valid pinCountWaiter : Bool) (waitBackendPid : Nat)

def Backend.next (s : Backend) : Act → Option Backend
  | .pin b strategy => (s.pinBuffer b strategy).map (·.1)
  | .reserve => some {s with refs := s.refs.reserve}
  | .reservePinLocked b => {s with refs := s.refs.reserve}.pinBufferLocked b
  | .incr b => s.incrBufferRefCount b
  | .unpin b => s.unpinBuffer b
  | .query b => (s.getPrivateRefCount b).map fun _ => s
  | .otherPin b =>
    let d := {s.desc b with refcount := (s.desc b).refcount + 1}
    some {s with desc := update s.desc b d}
  | .otherUnpin b =>
    let d := {s.desc b with refcount := (s.desc b).refcount - 1}
    some {s with desc := update s.desc b d}
  | .header b usageCount valid pinCountWaiter waitBackendPid =>
    let d := ⟨(s.desc b).refcount, usageCount, valid, pinCountWaiter, waitBackendPid⟩
    some {s with desc := update s.desc b d}

def Backend.start (desc : Nat → BufferDesc) : Backend :=
  ⟨⟨fun _ => ⟨invalidBuffer, 0⟩, [], 0, 0, none⟩, desc, []⟩

/-- Pins minus unpins of this backend, and the pins of the others. -/
structure Pins where
  count : Nat → Nat
  others : Nat → Nat

/-- The calls that are made: of valid buffers, unpins and extra pins of pinned ones, `PinBuffer_Locked`
of ones that are not. -/
def Pins.next (σ : Pins) : Act → Option Pins
  | .pin b _ => if b = invalidBuffer then none
    else some {σ with count := update σ.count b (σ.count b + 1)}
  | .reserve => some σ
  | .reservePinLocked b =>
    if b = invalidBuffer ∨ 0 < σ.count b then none else some {σ with count := update σ.count b 1}
  | .incr b =>
    if b = invalidBuffer ∨ σ.count b = 0 then none
    else some {σ with count := update σ.count b (σ.count b + 1)}
  | .unpin b =>
    if b = invalidBuffer ∨ σ.count b = 0 then none
    else some {σ with count := update σ.count b (σ.count b - 1)}
  | .query b => if b = invalidBuffer then none else some σ
  | .otherPin b => some {σ with others := update σ.others b (σ.others b + 1)}
  | .otherUnpin b =>
    if σ.others b = 0 then none else some {σ with others := update σ.others b (σ.others b - 1)}
  | .header _ _ _ _ _ => some σ

def Pins.start (desc : Nat → BufferDesc) : Pins := ⟨fun _ => 0, fun b => (desc b).refcount⟩

end PgStorage.Buffer
