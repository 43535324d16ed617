import Mathlib

/-! Dynamic shared memory segments and their control slots.

A step is one section under the control lock, or one operating-system call, of some backend. A segment is known by its
handle; the numbers `segment` tell segments of one name apart and are read by no step. -/
namespace PgStorage.Dsm

/-- `dsm_control_item`. A `refcnt` of 2 or more is active, 1 is moribund and 0 is gone. -/
structure DsmControlItem where
  handle : Nat
  refcnt : Nat
  pinned : Bool
  segment : Nat

inductive Stage
  /-- In `dsm_create`, the segment made but not entered; with `DSM_CREATE_NULL_IF_MAXSEGMENTS` or without. -/
  | creating (nullIfMax : Bool)
  /-- In `dsm_create`, to destroy the segment and return NULL. -/
  | refused
  /-- `dsm_create` raised its error; `dsm_detach` of the descriptor is to come. -/
  | failed
  /-- In `dsm_attach`, counted but not mapped. -/
  | attaching
  | ready
  /-- In `dsm_detach`, not mapped but still counted. -/
  | detaching
  deriving DecidableEq

/-- `dsm_segment`, the descriptor of a backend, with the place of the call it is in. -/
structure DsmSegment where
  backend : Nat
  handle : Nat
  controlSlot : Option Nat
  stage : Stage
  segment : Nat

/-- The end of a call whose decrement left 1: the segment is destroyed, then the slot is cleared. -/
structure Destroyer where
  backend : Nat
  handle : Nat
  slot : Nat
  segment : Nat
  done : Bool

structure State where
  items : List DsmControlItem
  maxitems : Nat
  segs : List DsmSegment
  destroyers : List Destroyer
  /-- The segments the operating system has. -/
  os : Nat → Option Nat
  next : Nat
  /-- The segments destroyed, the last one first. -/
  destroyed : List Nat

def start (maxitems : Nat) : State := ⟨[], maxitems, [], [], fun _ => none, 0, []⟩

inductive Action
  | create (backend handle : Nat) (nullIfMax : Bool)
  | register (k : Nat)
  | destroyRefused (k : Nat)
  | detachFailed (k : Nat)
  | attach (backend handle : Nat)
  | map (k : Nat)
  | unmap (k : Nat)
  | release (k : Nat)
  | pin (k : Nat)
  | unpin (backend handle : Nat)
  | destroy (k : Nat)
  | clear (k : Nat)

/-- The backend is in no call. -/
def idle (s : State) (backend : Nat) : Bool :=
  s.segs.all (fun d => d.backend ≠ backend || d.stage = .ready) && s.destroyers.all fun e => e.backend ≠ backend

def findFree (items : List DsmControlItem) : Option Nat := items.findIdx? fun it => it.refcnt = 0

/-- The search of `dsm_attach` and `dsm_unpin_segment`: unused slots are skipped and the first with the handle ends
it. -/
def search (items : List DsmControlItem) (handle : Nat) : Option Nat :=
  items.findIdx? fun it => it.refcnt ≠ 0 && it.handle = handle

/-- An item entered in a slot, or in a new one behind the last. -/
def enter (items : List DsmControlItem) (i : Nat) (it : DsmControlItem) : List DsmControlItem :=
  if i < items.length then items.set i it else items ++ [it]

/-- The lock section of `dsm_create`. -/
def register (s : State) (k : Nat) (d : DsmSegment) (nullIfMax : Bool) : State :=
  let item := ⟨d.handle, 2, false, d.segment⟩
  match findFree s.items with
  | some i =>
    { s with
      items := enter s.items i item
      segs := s.segs.set k { d with controlSlot := some i, stage := .ready } }
  | none =>
    if s.items.length ≥ s.maxitems then
      if nullIfMax then { s with segs := s.segs.set k { d with stage := .refused } }
      else { s with segs := s.segs.set k { d with stage := .failed } }
    else
      { s with
        items := enter s.items s.items.length item
        segs := s.segs.set k { d with controlSlot := some s.items.length, stage := .ready } }

/-- The lock section of `dsm_attach`; a slot that is going away is as good as none, and the search has ended there. -/
def attach (s : State) (backend handle : Nat) : State :=
  match search s.items handle with
  | none => s
  | some i =>
    match s.items[i]? with
    | none => s
    | some it =>
      if it.refcnt = 1 then s
      else
        { s with
          items := s.items.set i { it with refcnt := it.refcnt + 1 }
          segs := ⟨backend, handle, some i, .attaching, it.segment⟩ :: s.segs }

/-- A reference less, and the call goes on to destroy the segment if 1 is left. -/
def decrement (s : State) (backend handle i : Nat) (it : DsmControlItem) : State :=
  { s with
    items := s.items.set i { it with refcnt := it.refcnt - 1 }
    destroyers :=
      if it.refcnt - 1 = 1 then ⟨backend, handle, i, it.segment, false⟩ :: s.destroyers else s.destroyers }

/-- The lock section of `dsm_unpin_segment`; an unknown handle and a segment that is not pinned are errors. -/
def unpin (s : State) (backend handle : Nat) : State :=
  match search s.items handle with
  | none => s
  | some i =>
    match s.items[i]? with
    | none => s
    | some it => if it.pinned then decrement s backend handle i { it with pinned := false } else s

/-- What is of this name is destroyed. -/
def osDestroy (s : State) (handle : Nat) : State :=
  { s with os := Function.update s.os handle none, destroyed := (s.os handle).toList ++ s.destroyed }

def step (s : State) : Action → Option State
  | .create backend handle nullIfMax =>
    -- A name that exists is refused and another one drawn.
    if idle s backend ∧ handle ≠ 0 ∧ s.os handle = none then
      some { s with
        os := Function.update s.os handle (some s.next)
        segs := ⟨backend, handle, none, .creating nullIfMax, s.next⟩ :: s.segs
        next := s.next + 1 }
    else none
  | .register k =>
    match s.segs[k]? with
    | some d =>
      match d.stage with
      | .creating nullIfMax => some (register s k d nullIfMax)
      | _ => none
    | none => none
  | .destroyRefused k =>
    match s.segs[k]? with
    | some d => if d.stage = .refused then some { osDestroy s d.handle with segs := s.segs.eraseIdx k } else none
    | none => none
  | .detachFailed k =>
    match s.segs[k]? with
    | some d => if d.stage = .failed then some { s with segs := s.segs.eraseIdx k } else none
    | none => none
  | .attach backend handle =>
    if idle s backend ∧ s.segs.all fun d => d.backend ≠ backend || d.handle ≠ handle then
      some (attach s backend handle)
    else none
  | .map k =>
    match s.segs[k]? with
    | some d =>
      if d.stage = .attaching ∧ (s.os d.handle).isSome then some { s with segs := s.segs.set k { d with stage := .ready } }
      else none
    | none => none
  | .unmap k =>
    match s.segs[k]? with
    | some d =>
      if d.stage = .ready ∧ idle s d.backend then some { s with segs := s.segs.set k { d with stage := .detaching } }
      else none
    | none => none
  | .release k =>
    match s.segs[k]? with
    | some d =>
      match d.controlSlot with
      | some i =>
        match s.items[i]? with
        | some it =>
          if d.stage = .detaching then some { decrement s d.backend d.handle i it with segs := s.segs.eraseIdx k } else none
        | none => none
      | none => none
    | none => none
  | .pin k =>
    match s.segs[k]? with
    | some d =>
      match d.controlSlot with
      | some i =>
        match s.items[i]? with
        | some it =>
          -- A segment that is pinned already is an error.
          if d.stage = .ready ∧ idle s d.backend ∧ it.pinned = false then
            some { s with items := s.items.set i { it with pinned := true, refcnt := it.refcnt + 1 } }
          else none
        | none => none
      | none => none
    | none => none
  | .unpin backend handle => if idle s backend then some (unpin s backend handle) else none
  | .destroy k =>
    match s.destroyers[k]? with
    | some e =>
      if e.done = false then some { osDestroy s e.handle with destroyers := s.destroyers.set k { e with done := true } }
      else none
    | none => none
  | .clear k =>
    match s.destroyers[k]? with
    | some e =>
      match s.items[e.slot]? with
      | some it =>
        if e.done then
          some { s with items := s.items.set e.slot { it with refcnt := 0 }, destroyers := s.destroyers.eraseIdx k }
        else none
      | none => none
    | none => none

end PgStorage.Dsm
