import Mathlib

/-! Marking transactions as no longer running.

Any number of processes end transactions, one after the other. One that cannot take
`ProcArrayLock` at once puts itself on a list; the first one on it becomes the leader, waits for
the lock, takes the whole list and clears the entries of all its members. A step is one atomic
operation, one operation on the lock or on a semaphore, or one plain read or write of a field
that another process may be using; what a process does to entries while it has the lock goes with
the step before. The lock may also be held by others, and semaphores may be signalled from outside.

Transaction ids are given by their full numbers; the code sees the last 32 bits. -/
namespace PgStorage.Procarray
open Function (update)

def invalidTransactionId : Nat := 0

def firstNormalTransactionId : Nat := 3

/-- The id of the transaction with a full number. -/
def toXid (n : Nat) : Nat := n % 2 ^ 32

def transactionIdIsNormal (x : Nat) : Bool := decide (firstNormalTransactionId ≤ x)

/-- The difference is taken modulo 2^32, as a signed number. -/
def transactionIdPrecedes (id1 id2 : Nat) : Bool :=
  if transactionIdIsNormal id1 = true ∧ transactionIdIsNormal id2 = true then
    decide (2 ^ 31 ≤ (id1 + 2 ^ 32 - id2) % 2 ^ 32)
  else decide (id1 < id2)

structure PgXact where
  xid : Nat
  xmin : Nat
  vacuumFlags : Nat
  overflowed : Bool
  delayChkpt : Bool
  nxids : Nat

/-- The fields of `PGPROC` that the end of a transaction resets, with its `PGXACT`. -/
structure PgProc where
  pgxact : PgXact
  lxid : Nat
  recoveryConflictPending : Bool

def procInVacuum : Nat := 0x02

def procInAnalyze : Nat := 0x04

def procVacuumForWraparound : Nat := 0x08

/-- `PROC_VACUUM_STATE_MASK` -/
def procVacuumStateMask : Nat := procInVacuum ||| procInAnalyze ||| procVacuumForWraparound

/-- `flags & ~PROC_VACUUM_STATE_MASK`, in a byte. -/
def clearVacuumState (flags : Nat) : Nat := flags &&& (0xff ^^^ procVacuumStateMask)

/-- The fields that `ProcArrayEndTransactionInternal` sets. -/
def PgProc.ended (r : PgProc) : PgProc where
  pgxact := {
    xid := invalidTransactionId
    xmin := invalidTransactionId
    vacuumFlags := clearVacuumState r.pgxact.vacuumFlags
    overflowed := false
    delayChkpt := false
    nxids := 0}
  lxid := 0
  recoveryConflictPending := false

/-- What is reset for a transaction without an id. -/
def PgProc.endedWithoutXid (r : PgProc) : PgProc where
  pgxact := {r.pgxact with
    xmin := invalidTransactionId
    vacuumFlags := clearVacuumState r.pgxact.vacuumFlags
    delayChkpt := false}
  lxid := 0
  recoveryConflictPending := false

/-! ### The system -/

/-- Where a process is in `ProcArrayEndTransaction` or `ProcArrayGroupClearXid`, with its local variables. -/
inductive Pc
  | idle
  | start (latestXid : Nat)
  /-- It has the lock, and clears its own entry. -/
  | direct (latestXid : Nat)
  | directRelease
  | enroll (latestXid : Nat)
  | readFirst
  | writeNext (nextidx : Option Nat)
  | cas (nextidx : Option Nat)
  | sleep (extraWaits : Nat)
  | check (extraWaits : Nat)
  | giveBack (extraWaits : Nat)
  /-- It is the leader, and waits for the lock. -/
  | lead
  | detach
  | detachCas (nextidx : Option Nat)
  | walk (nextidx wakeidx : Option Nat)
  | wake (wakeidx : Option Nat)
  | wakeWrite (proc : Nat) (wakeidx : Option Nat)
  | wakeFlag (proc : Nat) (wakeidx : Option Nat)
  | wakeUnlock (proc : Nat) (wakeidx : Option Nat)

/-- What is recorded of a run. -/
inductive Event
  | call (p : Nat) (latestXid : Nat)
  /-- A process executes `ProcArrayEndTransactionInternal` for a process. -/
  | clear (q p : Nat)
  /-- A call returns; as a follower it has been woken by a leader. -/
  | ret (p : Nat) (follower : Bool)
  /-- A semaphore is signalled, except by a process that gives back what it has absorbed. -/
  | post (p : Nat)

structure Sys where
  proc : Nat → PgProc
  latestCompletedXid : Nat
  procArrayGroupFirst : Option Nat
  procArrayGroupNext : Nat → Option Nat
  procArrayGroupMember : Nat → Bool
  procArrayGroupMemberXid : Nat → Nat
  sem : Nat → Nat
  /-- The process that holds `ProcArrayLock` exclusively, and the number of holders outside. -/
  lock : Option Nat
  outside : Nat
  pc : Nat → Pc
  hist : List Event

def Sys.goto (s : Sys) (p : Nat) (c : Pc) : Sys := {s with pc := update s.pc p c}

def Sys.record (s : Sys) (e : Event) : Sys := {s with hist := s.hist ++ [e]}

def Sys.lockFree (s : Sys) : Bool := s.lock.isNone && s.outside == 0

/-- Executed by the process `q`, which holds the lock. -/
def procArrayEndTransactionInternal (s : Sys) (q p latestXid : Nat) : Sys :=
  let r := {s with
    proc := update s.proc p (s.proc p).ended
    latestCompletedXid :=
      if transactionIdPrecedes s.latestCompletedXid latestXid = true then latestXid else s.latestCompletedXid}
  r.record (.clear q p)

/-- The next step of a process, `none` if it has to wait. -/
def Sys.continue (s : Sys) (p : Nat) : Option Sys :=
  match s.pc p with
  | .idle => none
  | .start latestXid =>
    if latestXid = invalidTransactionId then
      let r := {s with proc := update s.proc p (s.proc p).endedWithoutXid}
      some ((r.record (.ret p false)).goto p .idle)
    else if s.lockFree = true then some ({s with lock := some p}.goto p (.direct latestXid))
    else some (s.goto p (.enroll latestXid))
  | .direct latestXid => some ((procArrayEndTransactionInternal s p p latestXid).goto p .directRelease)
  | .directRelease => some (({s with lock := none}.record (.ret p false)).goto p .idle)
  | .enroll latestXid =>
    let r := {s with
      procArrayGroupMember := update s.procArrayGroupMember p true
      procArrayGroupMemberXid := update s.procArrayGroupMemberXid p latestXid}
    some (r.goto p .readFirst)
  | .readFirst => some (s.goto p (.writeNext s.procArrayGroupFirst))
  | .writeNext nextidx =>
    some ({s with procArrayGroupNext := update s.procArrayGroupNext p nextidx}.goto p (.cas nextidx))
  | .cas nextidx =>
    if s.procArrayGroupFirst = nextidx then
      some ({s with procArrayGroupFirst := some p}.goto p (if nextidx = none then .lead else .sleep 0))
    else some (s.goto p .readFirst)
  | .sleep extraWaits =>
    if 0 < s.sem p then some ({s with sem := update s.sem p (s.sem p - 1)}.goto p (.check extraWaits))
    else none
  | .check extraWaits =>
    if s.procArrayGroupMember p = true then some (s.goto p (.sleep (extraWaits + 1)))
    else some (s.goto p (.giveBack extraWaits))
  | .giveBack 0 => some ((s.record (.ret p true)).goto p .idle)
  | .giveBack (extraWaits + 1) =>
    some ({s with sem := update s.sem p (s.sem p + 1)}.goto p (.giveBack extraWaits))
  | .lead => if s.lockFree = true then some ({s with lock := some p}.goto p .detach) else none
  | .detach => some (s.goto p (.detachCas s.procArrayGroupFirst))
  | .detachCas nextidx =>
    if s.procArrayGroupFirst = nextidx then
      some ({s with procArrayGroupFirst := none}.goto p (.walk nextidx nextidx))
    else some (s.goto p .detach)
  | .walk (some x) wakeidx =>
    some ((procArrayEndTransactionInternal s p x (s.procArrayGroupMemberXid x)).goto p
      (.walk (s.procArrayGroupNext x) wakeidx))
  | .walk none wakeidx => some ({s with lock := none}.goto p (.wake wakeidx))
  | .wake (some x) => some (s.goto p (.wakeWrite x (s.procArrayGroupNext x)))
  | .wake none => some ((s.record (.ret p false)).goto p .idle)
  | .wakeWrite x wakeidx =>
    some ({s with procArrayGroupNext := update s.procArrayGroupNext x none}.goto p (.wakeFlag x wakeidx))
  | .wakeFlag x wakeidx =>
    some ({s with procArrayGroupMember := update s.procArrayGroupMember x false}.goto p
      (if x = p then .wake wakeidx else .wakeUnlock x wakeidx))
  | .wakeUnlock x wakeidx =>
    some (({s with sem := update s.sem x (s.sem x + 1)}.record (.post x)).goto p (.wake wakeidx))

inductive Act
  /-- A process works on a transaction, which sets the fields of its entry. -/
  | work (p : Nat) (r : PgProc)
  /-- A process calls `ProcArrayEndTransaction`. -/
  | call (p : Nat) (latestXid : Nat)
  | step (p : Nat)
  /-- The lock is taken or released by somebody else. -/
  | hold
  | drop
  /-- A semaphore is signalled for another reason. -/
  | signal (p : Nat)

/-- What the assertions of `ProcArrayEndTransaction` say of the entry. -/
def PgXact.callable (x : PgXact) (latestXid : Nat) : Bool :=
  if toXid latestXid = invalidTransactionId then
    decide (x.xid = invalidTransactionId ∧ x.nxids = 0 ∧ x.overflowed = false)
  else decide (x.xid ≠ invalidTransactionId)

def Pc.isIdle : Pc → Bool
  | .idle => true
  | _ => false

def Sys.next (s : Sys) : Act → Option Sys
  | .work p r => if (s.pc p).isIdle = true then some {s with proc := update s.proc p r} else none
  | .call p latestXid =>
    if (s.pc p).isIdle = true ∧ (s.proc p).pgxact.callable latestXid = true then
      some ((s.record (.call p latestXid)).goto p (.start (toXid latestXid)))
    else none
  | .step p => s.continue p
  | .hold => if s.lock = none then some {s with outside := s.outside + 1} else none
  | .drop => some {s with outside := s.outside - 1}
  | .signal p => some ({s with sem := update s.sem p (s.sem p + 1)}.record (.post p))

/-- No call is under way, and nobody has the lock. -/
def Sys.start (proc : Nat → PgProc) (sem : Nat → Nat) (latestCompleted : Nat) : Sys where
  proc := proc
  latestCompletedXid := toXid latestCompleted
  procArrayGroupFirst := none
  procArrayGroupNext := fun _ => none
  procArrayGroupMember := fun _ => false
  procArrayGroupMemberXid := fun _ => invalidTransactionId
  sem := sem
  lock := none
  outside := 0
  pc := fun _ => .idle
  hist := []

inductive Phase
  | out
  | called (latestXid : Nat)
  | cleared

/-- The calls of the processes, and the greatest full number of a transaction that has been cleared. -/
structure Spec where
  phase : Nat → Phase
  latest : Nat

/-- Every call with an id is cleared once, and then returns. -/
def Spec.next (σ : Spec) : Event → Option Spec
  | .call p l =>
    match σ.phase p with
    | .out => some {σ with phase := update σ.phase p (.called l)}
    | _ => none
  | .clear _ p =>
    match σ.phase p with
    | .called l => some ⟨update σ.phase p .cleared, max σ.latest l⟩
    | _ => none
  | .ret p _ =>
    match σ.phase p with
    | .cleared => some {σ with phase := update σ.phase p .out}
    | .called l => if toXid l = invalidTransactionId then some {σ with phase := update σ.phase p .out} else none
    | .out => none
  | .post _ => some σ

def Spec.run (σ : Spec) (hist : List Event) : Option Spec := hist.foldlM Spec.next σ

def Spec.start (latestCompleted : Nat) : Spec := ⟨fun _ => .out, latestCompleted⟩

end PgStorage.Procarray
