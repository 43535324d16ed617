import PgStorage.Lib.Count
import PgStorage.Lib.Trace

/-! The lock manager: `LockAcquire`, `LockRelease`, `LockReleaseAll`, wake-ups and deadlock aborts.

A lock table has an element for each object that is locked and an entry for each transaction
and element, found by the element's offset. Elements that are removed go to a free list with
their contents and are taken from it again, the last one first. A request is counted on the
element before it is granted. Each step is one stay under the master lock: a transaction that
has to wait gives it up in `ProcSleep` and goes on when it has been woken up or has timed out.
User locks are left out. -/
namespace PgStorage.Lmgr
open Function (update)

/-- An offset in shared memory: which element of the lock table. -/
abbrev Addr := Nat

/-- The control structure of a lock table. Type 0 is not used, and there are less than
`MAX_LOCKTYPES` others. -/
structure Ctl where
  nLockTypes : Nat
  conflictTab : Nat → BitVec 32
  prio : Nat → Int
  nLockTypes_lt : nLockTypes < 6

def Ctl.types (ctl : Ctl) : Finset Nat := Finset.Icc 1 ctl.nLockTypes

/-- Two types conflict: each is in the other's mask. -/
def Ctl.Conflict (ctl : Ctl) (i j : Nat) : Prop :=
  (ctl.conflictTab i).getLsbD j = true ∧ (ctl.conflictTab j).getLsbD i = true

def bitsOn (i : Nat) : BitVec 32 := 1#32 <<< i

def bitsOff (i : Nat) : BitVec 32 := ~~~ bitsOn i

/-- An element of the lock table. The wait queue is in the order of wake-ups. -/
structure Lock (X T : Type) where
  tag : T
  mask : BitVec 32
  waitProcs : List X
  holders : Nat → Int
  nHolding : Int
  activeHolders : Nat → Int
  nActive : Int

/-- What a transaction holds on an element. -/
structure XidEnt where
  holders : Nat → Int
  nHolding : Int

/-- Where the process of a transaction is: on its way, asleep in `ProcSleep`, out of the queue
after a timeout but not yet back in `WaitOnLock`, or past its `LockReleaseAll`. -/
inductive ProcState where
  | running
  | waiting (lock : Addr) (token : Nat)
  | timedOut (lock : Addr) (token : Nat)
  | ended
deriving DecidableEq

def ProcState.token : ProcState → Nat
  | .waiting _ t | .timedOut _ t => t
  | .running | .ended => 0

/-- The lock table with the processes. `procPrio` is the field `prio` of each process. -/
structure LockSys (X T : Type) where
  lock : Addr → Lock X T
  lockHash : T → Option Addr
  free : List Addr
  fresh : Addr
  xidHash : X → Addr → Option XidEnt
  lockQueue : X → List Addr
  proc : X → ProcState
  procPrio : X → Int

section Operations
variable {X T : Type} [DecidableEq X] [DecidableEq T]

def Lock.init (tag : T) : Lock X T := ⟨tag, 0, [], fun _ => 0, 0, fun _ => 0, 0⟩

def XidEnt.init : XidEnt := ⟨fun _ => 0, 0⟩

/-- The head of the free list, or a new element. -/
def LockSys.takeFree (s : LockSys X T) : Addr × LockSys X T :=
  match s.free with
  | a :: rest => (a, {s with free := rest})
  | [] => (s.fresh, {s with fresh := s.fresh + 1})

/-- `hash_search` with `HASH_ENTER` for a lock, which is initialized if it is new. -/
def LockSys.enterLock (s : LockSys X T) (tag : T) : Addr × LockSys X T :=
  match s.lockHash tag with
  | some a => (a, s)
  | none =>
    let (a, s) := s.takeFree
    (a, {s with lockHash := update s.lockHash tag (some a), lock := update s.lock a (.init tag)})

/-- `hash_search` with `HASH_REMOVE` for a lock: whether there is one, and the table without it. -/
def LockSys.removeLock (s : LockSys X T) (tag : T) : LockSys X T × Bool :=
  match s.lockHash tag with
  | some a => ({s with lockHash := update s.lockHash tag none, free := a :: s.free}, true)
  | none => (s, false)

def LockSys.setLock (s : LockSys X T) (a : Addr) (l : Lock X T) : LockSys X T :=
  {s with lock := update s.lock a l}

def LockSys.setEnt (s : LockSys X T) (x : X) (a : Addr) (e : Option XidEnt) : LockSys X T :=
  {s with xidHash := update s.xidHash x (update (s.xidHash x) a e)}

def LockSys.setProc (s : LockSys X T) (x : X) (p : ProcState) : LockSys X T :=
  {s with proc := update s.proc x p}

/-- The entry of a transaction; one that is missing is entered with nothing held. -/
def LockSys.ent (s : LockSys X T) (x : X) (a : Addr) : XidEnt := (s.xidHash x a).getD .init

/-- `hash_search` with `HASH_ENTER` for an entry, with `ProcAddLock` if it is new. -/
def LockSys.enterXid (s : LockSys X T) (x : X) (a : Addr) : LockSys X T :=
  match s.xidHash x a with
  | some _ => s
  | none => {s.setEnt x a (some .init) with lockQueue := update s.lockQueue x (a :: s.lockQueue x)}

/-- `SHMQueueDelete` and `HASH_REMOVE` of an entry. -/
def LockSys.removeXid (s : LockSys X T) (x : X) (a : Addr) : LockSys X T :=
  {s.setEnt x a none with lockQueue := update s.lockQueue x ((s.lockQueue x).erase a)}

/-- A request is counted before it is granted. -/
def Lock.request (l : Lock X T) (t : Nat) : Lock X T :=
  {l with nHolding := l.nHolding + 1, holders := update l.holders t (l.holders t + 1)}

/-- A request that is given up. -/
def Lock.unrequest (l : Lock X T) (t : Nat) : Lock X T :=
  {l with nHolding := l.nHolding - 1, holders := update l.holders t (l.holders t - 1)}

def grantLock (l : Lock X T) (t : Nat) : Lock X T :=
  {l with
    nActive := l.nActive + 1
    activeHolders := update l.activeHolders t (l.activeHolders t + 1)
    mask := l.mask ||| bitsOn t}

/-- The counters in `LockRelease`. -/
def Lock.ungrant (l : Lock X T) (t : Nat) : Lock X T :=
  {l.unrequest t with
    nActive := l.nActive - 1
    activeHolders := update l.activeHolders t (l.activeHolders t - 1)}

/-- No more locks of a type that nobody holds. -/
def Lock.clearMask (l : Lock X T) (t : Nat) : Lock X T :=
  if l.activeHolders t = 0 then {l with mask := l.mask &&& bitsOff t} else l

/-- The counters of one type in `LockReleaseAll`. -/
def Lock.dropType (l : Lock X T) (e : XidEnt) (i : Nat) : Lock X T :=
  Lock.clearMask {l with
    holders := update l.holders i (l.holders i - e.holders i)
    activeHolders := update l.activeHolders i (l.activeHolders i - e.holders i)} i

/-- The counters of the types `1` to `n` in `LockReleaseAll`. -/
def Lock.dropTypes (l : Lock X T) (e : XidEnt) : Nat → Lock X T
  | 0 => l
  | n + 1 => (l.dropTypes e n).dropType e (n + 1)

def XidEnt.add (e : XidEnt) (t : Nat) : XidEnt :=
  ⟨update e.holders t (e.holders t + 1), e.nHolding + 1⟩

def XidEnt.sub (e : XidEnt) (t : Nat) : XidEnt :=
  ⟨update e.holders t (e.holders t - 1), e.nHolding - 1⟩

/-- The types `1` to `n` that others hold. -/
def othersMask (l : Lock X T) (e : XidEnt) : Nat → BitVec 32
  | 0 => 0
  | n + 1 => if l.activeHolders (n + 1) - e.holders (n + 1) ≠ 0 then othersMask l e n ||| bitsOn (n + 1)
    else othersMask l e n

/-- Gives the new entry when the lock can be had (`STATUS_OK`). -/
def lockResolveConflicts (ctl : Ctl) (l : Lock X T) (e : XidEnt) (t : Nat) : Option XidEnt :=
  if ctl.conflictTab t &&& l.mask = 0 then some (e.add t)
  else if ctl.conflictTab t &&& othersMask l e ctl.nLockTypes = 0 then some (e.add t)
  else none

/-- The place of a sleeper in the wait queue: the processes at the head whose `prio` is less
than the priority of the lock are passed. -/
def procSleep (procPrio : X → Int) (prio : Int) (x : X) : List X → List X
  | [] => [x]
  | p :: ps => if procPrio p < prio then p :: procSleep procPrio prio x ps else x :: p :: ps

/-- `GrantLock` and `ProcWakeup` for a waiting process whose entry has been brought up to date. -/
def LockSys.wake (s : LockSys X T) (a : Addr) (p : X) (e : XidEnt) : LockSys X T :=
  let l := grantLock (s.lock a) (s.proc p).token
  ((s.setEnt p a (some e)).setLock a {l with waitProcs := l.waitProcs.erase p}).setProc p .running

/-- Wakes the processes of a queue as long as they do not conflict. -/
def procLockWakeup (ctl : Ctl) (a : Addr) : List X → LockSys X T → LockSys X T
  | [], s => s
  | p :: ps, s =>
    match lockResolveConflicts ctl (s.lock a) (s.ent p a) (s.proc p).token with
    | some e => procLockWakeup ctl a ps (s.wake a p e)
    | none => s

/-! ### The routines -/

/-- `LockAcquire` up to its end or to the sleep in `ProcSleep`; whether the lock was granted. -/
def lockAcquire (ctl : Ctl) (s : LockSys X T) (x : X) (tag : T) (t : Nat) : LockSys X T × Bool :=
  let (a, s) := s.enterLock tag
  let s := s.enterXid x a
  let e := s.ent x a
  let l := (s.lock a).request t
  if e.nHolding = l.nActive then ((s.setEnt x a (some (e.add t))).setLock a (grantLock l t), true)
  else
    match lockResolveConflicts ctl l e t with
    | some e => ((s.setEnt x a (some e)).setLock a (grantLock l t), true)
    | none =>
      ((s.setLock a {l with waitProcs := procSleep s.procPrio (ctl.prio t) x l.waitProcs}).setProc x (.waiting a t),
        false)

/-- `LockRelease`: the new table and what it returns. -/
def lockRelease (ctl : Ctl) (s : LockSys X T) (x : X) (tag : T) (t : Nat) : LockSys X T × Bool :=
  match s.lockHash tag with
  | none => (s, false)
  | some a =>
    let l := (s.lock a).ungrant t
    let s := s.setLock a l
    let s := if l.nHolding = 0 then (s.removeLock tag).1 else s
    match s.xidHash x a with
    | none => (s, false)
    | some e =>
      let e := e.sub t
      let s := if e.nHolding = 0 then s.removeXid x a else s.setEnt x a (some e)
      let s := s.setLock a (l.clearMask t)
      (if l.nHolding = 0 then s else procLockWakeup ctl a l.waitProcs s, true)

/-- One entry in `LockReleaseAll`. -/
def releaseEntry (ctl : Ctl) (s : LockSys X T) (x : X) (a : Addr) : LockSys X T × Bool :=
  match s.xidHash x a with
  | none => (s, false)
  | some e =>
    let l := s.lock a
    let l :=
      if l.nHolding ≠ e.nHolding then
        Lock.dropTypes {l with nHolding := l.nHolding - e.nHolding, nActive := l.nActive - e.nHolding} e ctl.nLockTypes
      else {l with nHolding := 0}
    let s := (s.setLock a l).removeXid x a
    if l.nHolding = 0 then s.removeLock l.tag else (procLockWakeup ctl a l.waitProcs s, true)

/-- The loop of `LockReleaseAll`, with `n` more entries before it gives up. -/
def releaseEntries (ctl : Ctl) (x : X) : Nat → List Addr → LockSys X T → LockSys X T × Bool
  | _, [], s => (s, true)
  | 0, _ :: _, s => (s, true)
  | n + 1, a :: q, s =>
    match releaseEntry ctl s x a with
    | (s, true) => releaseEntries ctl x n q s
    | (s, false) => (s, false)

def lockReleaseAll (ctl : Ctl) (s : LockSys X T) (x : X) : LockSys X T × Bool :=
  match releaseEntries ctl x 2001 (s.lockQueue x) s with
  | (s, true) => ({s with lockQueue := update s.lockQueue x []}, true)
  | (s, false) => (s, false)

/-- `HandleDeadLock`: a process that still waits leaves the queue. -/
def handleDeadLock (s : LockSys X T) (x : X) : LockSys X T :=
  match s.proc x with
  | .waiting a t =>
    let l := s.lock a
    (s.setLock a {l with waitProcs := l.waitProcs.erase x}).setProc x (.timedOut a t)
  | _ => s

/-- The rest of `WaitOnLock` after a timeout. -/
def waitOnLockError (s : LockSys X T) (x : X) : Option (LockSys X T) :=
  match s.proc x with
  | .timedOut a t => some ((s.setLock a ((s.lock a).unrequest t)).setProc x .running)
  | _ => none

inductive Act (X T : Type) where
  | acquire (x : X) (tag : T) (t : Nat)
  | release (x : X) (tag : T) (t : Nat)
  | releaseAll (x : X)
  | deadLock (x : X)
  | waitError (x : X)

/-- One stay under the master lock. `LockReleaseAll` is a transaction's last. -/
def step (ctl : Ctl) (s : LockSys X T) : Act X T → Option (LockSys X T)
  | .acquire x tag t => if s.proc x = .running then some (lockAcquire ctl s x tag t).1 else none
  | .release x tag t => if s.proc x = .running then some (lockRelease ctl s x tag t).1 else none
  | .releaseAll x => if s.proc x = .running then some ((lockReleaseAll ctl s x).1.setProc x .ended) else none
  | .deadLock x => some (handleDeadLock s x)
  | .waitError x => waitOnLockError s x

/-- A table without locks. -/
def LockSys.start (tag : T) (procPrio : X → Int) : LockSys X T where
  lock _ := .init tag
  lockHash _ := none
  free := []
  fresh := 0
  xidHash _ _ := none
  lockQueue _ := []
  proc _ := .running
  procPrio := procPrio

end Operations

/-- The lock table of `multi.c`: write, read, write intent, read intent and extend locks. -/
def multiCtl : Ctl where
  nLockTypes := 5
  conflictTab i := [0, 0b11110, 0b01010, 0b00110, 0b00010, 0b100000].getD i 0
  prio i := [0, 2, 1, 2, 1, 1].getD i 0
  nLockTypes_lt := by decide

end PgStorage.Lmgr
