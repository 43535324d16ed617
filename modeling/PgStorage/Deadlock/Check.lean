import PgStorage.Deadlock.FindLockCycle

/-! The topological sort of a wait queue (`TopoSort` in `deadlock.c`), with lock groups, and the deadlock check
(`DeadLockCheck`).

A constraint names the leaders of two groups. In the queue a group is represented by its last member, which counts the
constraints that say that the group must be before something else.

A configuration is a list of soft edges to be reversed. It is tested by sorting the queues that they name and looking
for cycles; a soft cycle that is left gives the edges to be tried as the next constraint. -/
namespace PgStorage.Deadlock

section
variable {P L : Type} [DecidableEq P] [DecidableEq L]

/-- The last index below a bound that passes a test. -/
def lastIndex (test : Nat → Bool) : Nat → Option Nat
  | 0 => none
  | n + 1 => if test n then some n else lastIndex test n

/-- The process is the leader or a member of its group. -/
def inGroup (t : LockState P L) (leader proc : P) : Bool :=
  decide (proc = leader) || decide (t.lockGroupLeader proc = some leader)

/-- `beforeConstraints[]`, and the `pred`s of the constraints that `afterConstraints[]` lists. -/
structure Counts where
  beforeConstraints : Nat → Int
  afterConstraints : Nat → List Nat

/-- The last process of a group that is in the queue. -/
def representative (t : LockState P L) (queue : List P) (leader : P) : Option Nat :=
  lastIndex (fun j => queue[j]?.any (inGroup t leader)) queue.length

/-- One constraint. Other processes of the blocker's group get a count of -1; those of the waiter's group do not, the
scan for it ends with its representative. -/
def countConstraint (t : LockState P L) (queue : List P) (s : Counts) (c : Edge P L) : Counts :=
  match representative t queue c.waiter with
  | none => s
  | some jj =>
    match representative t queue c.blocker with
    | none => s
    | some kk =>
      let beforeConstraints := fun k =>
        if k ≠ kk ∧ queue[k]?.any (inGroup t c.blocker) = true then -1 else s.beforeConstraints k
      {beforeConstraints := fun j => if j = jj then beforeConstraints j + 1 else beforeConstraints j
       afterConstraints := fun k => if k = kk then jj :: s.afterConstraints k else s.afterConstraints k}

/-- The scan of the constraints. -/
def countConstraints (t : LockState P L) (queue : List P) (constraints : List (Edge P L)) : Counts :=
  constraints.foldl (countConstraint t queue) ⟨fun _ => 0, fun _ => []⟩

/-- The last process left that has no before-constraints. -/
def nextCandidate (topoProcs : List (Option P)) (beforeConstraints : Nat → Int) : Option Nat :=
  lastIndex (fun j => topoProcs[j]?.any Option.isSome && decide (beforeConstraints j = 0)) topoProcs.length

/-- The output loop, from the end of the ordering. Each round outputs the group of a candidate, and counts down its
predecessors. -/
def emit (t : LockState P L) (afterConstraints : Nat → List Nat) :
    Nat → List (Option P) → (Nat → Int) → List P → Option (List P)
  | 0, _, _, ordering => some ordering
  | rounds + 1, topoProcs, beforeConstraints, ordering =>
    if ordering.length = topoProcs.length then some ordering
    else
      match nextCandidate topoProcs beforeConstraints with
      | none => none
      | some j =>
        match topoProcs[j]?.join with
        | none => none
        | some proc =>
          let proc := t.leaderOf proc
          emit t afterConstraints rounds
            (topoProcs.map fun slot => if slot.any (inGroup t proc) then none else slot)
            (fun k => beforeConstraints k - (afterConstraints j).count k)
            ((topoProcs.filterMap fun slot => slot.filter (inGroup t proc)).reverse ++ ordering)

/-- `TopoSort`, with `none` for contradictory constraints. Each round outputs at least one process. -/
def topoSort (t : LockState P L) (lock : L) (constraints : List (Edge P L)) : Option (List P) :=
  let queue := t.waitProcs lock
  let s := countConstraints t queue constraints
  emit t s.afterConstraints queue.length (queue.map some) s.beforeConstraints []

end

/-! ### The check -/

/-- `DeadLockState` -/
inductive DeadLockState
  | noDeadlock
  | softDeadlock
  | hardDeadlock
  | blockedByAutovacuum
  deriving DecidableEq

section
variable {P L : Type} [DecidableEq P] [DecidableEq L]

/-- The scan of `ExpandConstraints`, of the constraints in the reverse order. -/
def expandReversed (t : LockState P L) : List (Edge P L) → List (WaitOrder P L) → Option (List (WaitOrder P L))
  | [], waitOrders => some waitOrders
  | c :: constraints, waitOrders =>
    if waitOrders.any fun w => decide (w.lock = c.lock) then expandReversed t constraints waitOrders
    else
      -- the constraints up to this one
      match topoSort t c.lock (constraints.reverse ++ [c]) with
      | none => none
      | some procs => expandReversed t constraints (waitOrders ++ [⟨c.lock, procs⟩])

/-- `ExpandConstraints` -/
def expandConstraints (t : LockState P L) (constraints : List (Edge P L)) : Option (List (WaitOrder P L)) :=
  expandReversed t constraints.reverse []

/-- The processes of whose cycles a configuration must be free. -/
def startProcs (constraints : List (Edge P L)) (startProc : P) : List P :=
  constraints.flatMap (fun c => [c.waiter, c.blocker]) ++ [startProc]

variable [Fintype P]

/-- The search from each of some processes: the soft edges of the last cycle found, or `none` for a hard deadlock. -/
def findCycles (t : LockState P L) (waitOrders : List (WaitOrder P L)) :
    List P → List (Edge P L) → Option P → Option (List (Edge P L)) × Option P
  | [], softEdges, blockingAutovacuum => (some softEdges, blockingAutovacuum)
  | proc :: procs, softEdges, blockingAutovacuum =>
    match findLockCycle t waitOrders proc blockingAutovacuum with
    | (true, s) =>
      if s.softEdges = [] then (none, s.blockingAutovacuum)
      else findCycles t waitOrders procs s.softEdges s.blockingAutovacuum
    | (false, s) => findCycles t waitOrders procs softEdges s.blockingAutovacuum

/-- `TestConfiguration`: the soft edges of a cycle, none if there is none, `none` for -1. -/
def testConfiguration (t : LockState P L) (maxBackends : Nat) (startProc : P) (constraints : List (Edge P L))
    (nPossibleConstraints : Nat) (blockingAutovacuum : Option P) :
    Option (List (Edge P L)) × List (WaitOrder P L) × Option P :=
  if maxBackends * 4 < nPossibleConstraints + maxBackends then (none, [], blockingAutovacuum)
  else
    match expandConstraints t constraints with
    | none => (none, [], blockingAutovacuum)
    | some waitOrders =>
      let (result, blockingAutovacuum) :=
        findCycles t waitOrders (startProcs constraints startProc) [] blockingAutovacuum
      (result, waitOrders, blockingAutovacuum)

/-- The loop over the soft edges. Those not saved are found again by `retest` before each one but the first. -/
def tryEdges {R : Type} (go : Edge P L → Option P → Option R × Option P) (retest : Option P → Option P) :
    List (Edge P L) → Option P → Option R × Option P
  | [], blockingAutovacuum => (none, blockingAutovacuum)
  | e :: edges, blockingAutovacuum =>
    match go e blockingAutovacuum with
    | (some r, blockingAutovacuum) => (some r, blockingAutovacuum)
    | (none, blockingAutovacuum) =>
      tryEdges go retest edges (if edges.isEmpty then blockingAutovacuum else retest blockingAutovacuum)

/-- `DeadLockCheckRecurse`, with room for some more constraints: the orders of a good configuration. -/
def deadLockCheckRecurse (t : LockState P L) (maxBackends : Nat) (proc : P) :
    Nat → List (Edge P L) → Nat → Option P → Option (List (WaitOrder P L)) × Option P
  | 0, constraints, nPossibleConstraints, blockingAutovacuum =>
    match testConfiguration t maxBackends proc constraints nPossibleConstraints blockingAutovacuum with
    | (some [], waitOrders, blockingAutovacuum) => (some waitOrders, blockingAutovacuum)
    | (_, _, blockingAutovacuum) => (none, blockingAutovacuum)
  | room + 1, constraints, nPossibleConstraints, blockingAutovacuum =>
    match testConfiguration t maxBackends proc constraints nPossibleConstraints blockingAutovacuum with
    | (none, _, blockingAutovacuum) => (none, blockingAutovacuum)
    | (some [], waitOrders, blockingAutovacuum) => (some waitOrders, blockingAutovacuum)
    | (some edges, _, blockingAutovacuum) =>
      let savedList := decide (nPossibleConstraints + edges.length + maxBackends ≤ maxBackends * 4)
      tryEdges
        (fun e => deadLockCheckRecurse t maxBackends proc room (constraints ++ [e])
          (if savedList then nPossibleConstraints + edges.length else nPossibleConstraints))
        (fun blockingAutovacuum => if savedList then blockingAutovacuum else
          (testConfiguration t maxBackends proc constraints nPossibleConstraints blockingAutovacuum).2.2)
        edges blockingAutovacuum

/-- The wait queues after the rearrangements. -/
def rearranged (t : LockState P L) (waitOrders : List (WaitOrder P L)) (lock : L) : List P :=
  match waitOrders.find? fun w => decide (w.lock = lock) with
  | some w => w.procs
  | none => t.waitProcs lock

/-- `DeadLockCheck`: its result and the wait queues before any process is woken up, or `none` where it ends with an
error. -/
def deadLockCheck (t : LockState P L) (maxBackends : Nat) (proc : P) : Option (DeadLockState × (L → List P)) :=
  match deadLockCheckRecurse t maxBackends proc maxBackends [] 0 none with
  | (none, blockingAutovacuum) =>
    -- the cycle is found once more, in the basic state
    if (findLockCycle t [] proc blockingAutovacuum).1 then some (.hardDeadlock, t.waitProcs) else none
  | (some waitOrders, blockingAutovacuum) =>
    let state :=
      if waitOrders ≠ [] then .softDeadlock
      else if blockingAutovacuum.isSome then .blockedByAutovacuum
      else .noDeadlock
    some (state, rearranged t waitOrders)

end

end PgStorage.Deadlock
