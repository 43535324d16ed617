import PgStorage.Lmgr.LockProofs

/-! Multi-level locks: `MultiAcquire` and `MultiRelease`.

A lock on a page or a tuple is a lock on the granule and an intent lock on every granule that
contains it. `MultiRelease` goes through its loop and returns `false`: that it has released the locks is nowhere
reported. -/
namespace PgStorage.Lmgr
open Trace

/-- A `LOCKTAG`, with the tuple's identifier as block and offset. -/
structure LockTag where
  relId : Nat
  dbId : Nat
  blkid : Nat
  posid : Nat
deriving DecidableEq

inductive Level where
  | reln
  | page
  | tuple
deriving DecidableEq

def noLock : Nat := 0

def readLock : Nat := 2

def writeLock : Nat := 1

def intent : Nat := 2

/-- The tag of the granule of a level around a tuple. -/
def LockTag.granule (tag : LockTag) : Level → LockTag
  | .reln => {tag with blkid := 0xFFFFFFFF, posid := 0}
  | .page => {tag with posid := 0}
  | .tuple => tag

/-- The locks of the levels that are set for a lock, from the highest on. -/
def multiLocks (tag : LockTag) (t : Nat) : Level → List (Level × LockTag × Nat)
  | .reln => [(.reln, tag.granule .reln, t)]
  | .page => [(.reln, tag.granule .reln, t + intent), (.page, tag.granule .page, t)]
  | .tuple =>
    [(.reln, tag.granule .reln, t + intent), (.page, tag.granule .page, t + intent), (.tuple, tag.granule .tuple, t)]

section Multi
variable {X : Type} [DecidableEq X]

/-- `LockRelease` for one granule after the other; failures are only reported. -/
def releaseLevels (ctl : Ctl) (x : X) : List (Level × LockTag × Nat) → LockSys X LockTag → LockSys X LockTag
  | [], s => s
  | (_, tag, t) :: rest, s => releaseLevels ctl x rest (if t = noLock then s else (lockRelease ctl s x tag t).1)

/-- Releases from the lowest level to the highest. -/
def multiRelease (ctl : Ctl) (s : LockSys X LockTag) (x : X) (tag : LockTag) (t : Nat) (level : Level) :
    LockSys X LockTag × Bool :=
  (releaseLevels ctl x (multiLocks tag t level).reverse s, false)

/-- The loop of `MultiAcquire`. It ends with `none` where it goes to sleep in `LockAcquire`.
`refuses` says at which levels `LockAcquire` fails, as with a full hash table. -/
def acquireLevels (ctl : Ctl) (refuses : Level → Bool) (x : X) (tag : LockTag) (t : Nat) :
    List (Level × LockTag × Nat) → LockSys X LockTag → LockSys X LockTag × Option Bool
  | [], s => (s, some true)
  | (level, granule, i) :: rest, s =>
    if i = noLock then acquireLevels ctl refuses x tag t rest s
    else if refuses level then ((multiRelease ctl s x tag t level).1, some false)
    else
      match lockAcquire ctl s x granule i with
      | (s, true) => acquireLevels ctl refuses x tag t rest s
      | (s, false) => (s, none)

def multiAcquire (ctl : Ctl) (refuses : Level → Bool) (s : LockSys X LockTag) (x : X) (tag : LockTag) (t : Nat)
    (level : Level) : LockSys X LockTag × Option Bool :=
  acquireLevels ctl refuses x tag t (multiLocks tag t level) s

/-- `MultiAcquire` and then `MultiRelease` return success, and everybody holds what he held. -/
def RoundTrip (ctl : Ctl) (s : LockSys X LockTag) (x : X) (tag : LockTag) (t : Nat) (level : Level) : Prop :=
  ∃ u v, multiAcquire ctl (fun _ => false) s x tag t level = (u, some true) ∧
    multiRelease ctl u x tag t level = (v, true) ∧ ∀ y g i, v.Holds y g i ↔ s.Holds y g i

end Multi

end PgStorage.Lmgr
