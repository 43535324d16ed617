import Mathlib

/-! Cleanup locks.

Any number of backends pin, lock, unlock and unpin one shared buffer, one of them at a time inside
`LockBufferForCleanup`. A step is one successful compare-and-swap of the header, one section under the
header lock, one operation on the content lock, or one operation on a latch, with the local
computation that follows. Latches may be set and interrupts may arrive at any time. On a hot standby
the startup process waits in the same way, with time limits that are wake-ups like any others. -/
namespace PgStorage.Buffer.Cleanup
open Function (update)

/-- Where a backend is in `UnpinBuffer`, `LockBufferForCleanup` or `UnlockBuffers`. -/
inductive Pc (β : Type)
  | idle
  /-- The shared count is decremented, and the waiter bit was seen. -/
  | unpinRecheck
  | unpinSignal (waitBackendPid : Option β)
  | lock
  | check
  | unlock
  | sleep
  | resetLatch
  | interrupts
  | clear
  /-- Another backend is waiting. -/
  | refuse
  | unlockBuffers
  deriving DecidableEq

/-- The points inside of `LockBufferForCleanup`, also when it is left by an error. -/
def Pc.inCleanup {β : Type} : Pc β → Bool
  | .idle => false
  | .unpinRecheck => false
  | .unpinSignal _ => false
  | _ => true

structure Sys (β : Type) where
  refcount : Nat
  pinCountWaiter : Bool
  waitBackendPid : Option β
  /-- The content lock. -/
  exclusive : Option β
  shared : β → Bool
  latch : β → Bool
  privateRefCount : β → Nat
  pc : β → Pc β
  /-- The callers of `LockBufferForCleanup` that returned with the lock, and for each backend how many
  there had been when it took its first pin. -/
  returns : List β
  since : β → Nat

/-- What a backend that is not in the middle of a call may do, and what happens from outside. -/
inductive Act (β : Type)
  | pin (p : β)
  | unpin (p : β)
  | lockShared (p : β)
  | lockExclusive (p : β)
  | unlock (p : β)
  | lockForCleanup (p : β)
  | resetLatch (p : β)
  | setLatch (p : β)
  /-- The next step of a call; `interrupt` says whether an interrupt is pending. -/
  | step (p : β) (interrupt : Bool)

variable {β : Type} [Fintype β] [DecidableEq β]

namespace Sys

def create : Sys β where
  refcount := 0
  pinCountWaiter := false
  waitBackendPid := none
  exclusive := none
  shared := fun _ => false
  latch := fun _ => false
  privateRefCount := fun _ => 0
  pc := fun _ => .idle
  returns := []
  since := fun _ => 0

def goto (s : Sys β) (p : β) (c : Pc β) : Sys β := {s with pc := update s.pc p c}

def HoldsLock (s : Sys β) (p : β) : Prop := s.exclusive = some p ∨ s.shared p = true

instance (s : Sys β) (p : β) : Decidable (s.HoldsLock p) := instDecidableOr

def LockFree (s : Sys β) : Prop := s.exclusive = none ∧ ∀ p, s.shared p = false

instance (s : Sys β) : Decidable s.LockFree := instDecidableAnd

/-- `PinBuffer`; only the first pin changes the shared count. -/
def pinBuffer (s : Sys β) (p : β) : Sys β :=
  let t := {s with privateRefCount := update s.privateRefCount p (s.privateRefCount p + 1)}
  if s.privateRefCount p = 0 then
    {t with refcount := s.refcount + 1, since := update s.since p s.returns.length}
  else t

/-- `UnpinBuffer`, up to the test of the waiter bit in the value that was written. -/
def unpinBuffer (s : Sys β) (p : β) : Sys β :=
  let t := {s with privateRefCount := update s.privateRefCount p (s.privateRefCount p - 1)}
  if s.privateRefCount p = 1 then
    let t := {t with refcount := s.refcount - 1}
    if s.pinCountWaiter = true then t.goto p .unpinRecheck else t
  else t

/-- The flag is removed, if it marks this backend. -/
def clearWaiter (s : Sys β) (p : β) : Sys β :=
  if s.pinCountWaiter = true ∧ s.waitBackendPid = some p then {s with pinCountWaiter := false} else s

def step (s : Sys β) (p : β) (interrupt : Bool) : Option (Sys β) :=
  match s.pc p with
  | .idle => none
  | .unpinRecheck =>
    if s.pinCountWaiter = true ∧ s.refcount = 1 then
      some ({s with pinCountWaiter := false}.goto p (.unpinSignal s.waitBackendPid))
    else some (s.goto p .idle)
  | .unpinSignal (some q) => some ({s with latch := update s.latch q true}.goto p .idle)
  | .unpinSignal none => some (s.goto p .idle)
  | .lock => if s.LockFree then some ({s with exclusive := some p}.goto p .check) else none
  | .check =>
    if s.refcount = 1 then some ({s with returns := s.returns ++ [p]}.goto p .idle)
    else if s.pinCountWaiter = true then some (s.goto p .refuse)
    else some ({s with waitBackendPid := some p, pinCountWaiter := true}.goto p .unlock)
  | .unlock => some ({s with exclusive := none}.goto p .sleep)
  | .sleep => if s.latch p = true then some (s.goto p .resetLatch) else none
  | .resetLatch => some ({s with latch := update s.latch p false}.goto p .interrupts)
  | .interrupts => some (s.goto p (if interrupt = true then .unlockBuffers else .clear))
  | .clear => some ((s.clearWaiter p).goto p .lock)
  | .refuse => some ({s with exclusive := none}.goto p .idle)
  | .unlockBuffers => some ((s.clearWaiter p).goto p .idle)

/-- `PinBuffer` serves for `IncrBufferRefCount` too. A backend has a pin while it holds the content lock,
and calls `LockBufferForCleanup` only while no other backend is inside; with more than one pin of its
own the call is an error. -/
def next (s : Sys β) : Act β → Option (Sys β)
  | .pin p => if s.pc p = .idle then some (s.pinBuffer p) else none
  | .unpin p =>
    if s.pc p = .idle ∧ 0 < s.privateRefCount p ∧ (s.privateRefCount p = 1 → ¬ s.HoldsLock p) then
      some (s.unpinBuffer p)
    else none
  | .lockShared p =>
    if s.pc p = .idle ∧ 0 < s.privateRefCount p ∧ ¬ s.HoldsLock p ∧ s.exclusive = none then
      some {s with shared := update s.shared p true}
    else none
  | .lockExclusive p =>
    if s.pc p = .idle ∧ 0 < s.privateRefCount p ∧ s.LockFree then some {s with exclusive := some p} else none
  | .unlock p =>
    if s.pc p = .idle ∧ s.HoldsLock p then
      if s.exclusive = some p then some {s with exclusive := none}
      else some {s with shared := update s.shared p false}
    else none
  | .lockForCleanup p =>
    if s.pc p = .idle ∧ ∀ q, (s.pc q).inCleanup = false then
      some (if s.privateRefCount p = 1 then s.goto p .lock else s)
    else none
  | .resetLatch p =>
    if s.pc p = .idle then some {s with latch := update s.latch p false} else none
  | .setLatch p => some {s with latch := update s.latch p true}
  | .step p interrupt => s.step p interrupt

end Sys
end PgStorage.Buffer.Cleanup
