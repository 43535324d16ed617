import PgStorage.Lib.CycleSearch

/-! The search for a deadlock cycle (`FindLockCycle` in `deadlock.c`).

A process waits for the holders of conflicting locks, by a hard edge, and for those ahead in the queue with
conflicting requests, by a soft one. A lock group waits when any of its members does. Queues can be given other orders
than they have. -/
namespace PgStorage.Deadlock

/-- What the checker reads: the locks, with their holders and wait queues, the processes and `MyProc`. A process that
waits is in the queue of its lock, and the members of a group have one leader, who is one of them. -/
structure LockState (P L : Type) where
  numLockModes : L → Nat
  conflictTab : L → Nat → Nat → Bool
  procLocks : L → List (P × (Nat → Bool))
  waitProcs : L → List P
  waitLock : P → Option L
  waitLockMode : P → Nat
  lockGroupLeader : P → Option P
  lockGroupMembers : P → List P
  isAutovacuum : P → Bool
  myProc : P
  queued : ∀ p l, p ∈ waitProcs l ↔ waitLock p = some l
  nodup : ∀ l, (waitProcs l).Nodup
  member : ∀ p g, p ∈ lockGroupMembers g ↔ lockGroupLeader p = some g
  leads : ∀ p g, lockGroupLeader p = some g → lockGroupLeader g = some g

/-- `EDGE`, between leaders of lock groups -/
structure Edge (P L : Type) where
  waiter : P
  blocker : P
  lock : L
  deriving DecidableEq

/-- `WAIT_ORDER` -/
structure WaitOrder (P L : Type) where
  lock : L
  procs : List P

/-- `DEADLOCK_INFO` -/
structure DeadlockInfo (P L : Type) where
  lock : L
  lockmode : Nat
  pid : P
  deriving DecidableEq

/-- The workspace of `FindLockCycle`. -/
structure Search (P L : Type) where
  visitedProcs : List P
  softEdges : List (Edge P L)
  deadlockDetails : Nat → Option (DeadlockInfo P L)
  nDeadlockDetails : Nat
  blockingAutovacuum : Option P

section
variable {P L : Type} [DecidableEq P] [DecidableEq L]

/-- The leader of a process's group, or the process itself. -/
def LockState.leaderOf (t : LockState P L) (p : P) : P := (t.lockGroupLeader p).getD p

/-- The holders of conflicting locks that are not in the group. -/
def hardBlockers (t : LockState P L) (lock : L) (checkProc checkProcLeader : P) : List P :=
  ((t.procLocks lock).filter fun (proc, holdMask) =>
    decide (t.leaderOf proc ≠ checkProcLeader) && (List.range' 1 (t.numLockModes lock)).any fun lm =>
      holdMask lm && t.conflictTab lock (t.waitLockMode checkProc) lm).map Prod.fst

/-- The last member of the group in the true queue. -/
def lastGroupMember (t : LockState P L) (lock : L) (checkProc checkProcLeader : P) : Option P :=
  if t.lockGroupLeader checkProc = none then some checkProc
  else ((t.waitProcs lock).filter fun proc => decide (t.lockGroupLeader proc = some checkProcLeader)).getLast?

/-- Those with conflicting requests ahead of the group: in a given order of its first member, in the true queue of its
last one. -/
def softBlockers (t : LockState P L) (waitOrders : List (WaitOrder P L)) (lock : L) (checkProc checkProcLeader : P)
    : List P :=
  match waitOrders.find? fun w => decide (w.lock = lock) with
  | some w =>
    (w.procs.takeWhile fun proc => decide (t.leaderOf proc ≠ checkProcLeader)).filter fun proc =>
      t.conflictTab lock (t.waitLockMode checkProc) (t.waitLockMode proc)
  | none =>
    ((t.waitProcs lock).takeWhile fun proc => decide
      (some proc ≠ lastGroupMember t lock checkProc checkProcLeader)).filter
      fun proc => t.conflictTab lock (t.waitLockMode checkProc) (t.waitLockMode proc) &&
        decide (t.leaderOf proc ≠ checkProcLeader)

/-- A scan of blocking processes: the first one that the search `go` comes back from. -/
def scanBlockers (go : P → Search P L → Bool × Search P L) (found missed : P → Search P L → Search P L) :
    List P → Search P L → Bool × Search P L
  | [], s => (false, s)
  | proc :: procs, s =>
    match go proc s with
    | (true, s) => (true, found proc s)
    | (false, s) => scanBlockers go found missed procs (missed proc s)

/-- `deadlockDetails[depth]` is filled. -/
def fillDetails (t : LockState P L) (lock : L) (checkProc : P) (depth : Nat) (s : Search P L) : Search P L :=
  {s with deadlockDetails := fun i =>
    if i = depth then some ⟨lock, t.waitLockMode checkProc, checkProc⟩ else s.deadlockDetails i}

/-- An autovacuum that hard-blocks `MyProc` itself is remembered. -/
def noteAutovacuum (t : LockState P L) (checkProc proc : P) (s : Search P L) : Search P L :=
  if checkProc = t.myProc ∧ t.isAutovacuum proc = true then {s with blockingAutovacuum := some proc} else s

/-- The edge is added to the list of soft edges in the cycle. -/
def addSoftEdge (t : LockState P L) (lock : L) (checkProcLeader proc : P) (s : Search P L) : Search P L :=
  {s with softEdges := s.softEdges ++ [⟨checkProcLeader, t.leaderOf proc, lock⟩]}

/-- `FindLockCycleRecurseMember`; `go` is `FindLockCycleRecurse` at the next depth. -/
def findLockCycleRecurseMember (t : LockState P L) (waitOrders : List (WaitOrder P L))
    (go : P → Search P L → Bool × Search P L) (checkProcLeader : P) (depth : Nat) (checkProc : P) (s : Search P L) :
    Bool × Search P L :=
  match t.waitLock checkProc with
  | none => (false, s)
  | some lock =>
    match scanBlockers go (fun _ => fillDetails t lock checkProc depth) (noteAutovacuum t checkProc)
        (hardBlockers t lock checkProc checkProcLeader) s with
    | (true, s) => (true, s)
    | (false, s) =>
      scanBlockers go (fun proc s => addSoftEdge t lock checkProcLeader proc (fillDetails t lock checkProc depth s))
        (fun _ s => s) (softBlockers t waitOrders lock checkProc checkProcLeader) s

/-- The members of a group that wait, its leader first. -/
def waitingMembers (t : LockState P L) (checkProc : P) : List P :=
  (if (t.waitLock checkProc).isSome then [checkProc] else []) ++
    (t.lockGroupMembers checkProc).filter fun memberProc =>
      (t.waitLock memberProc).isSome && decide (memberProc ≠ checkProc)

/-- The members of a group, until the search comes back from one. -/
def scanMembers (go : P → Search P L → Bool × Search P L) : List P → Search P L → Bool × Search P L
  | [], s => (false, s)
  | memberProc :: members, s =>
    match go memberProc s with
    | (true, s) => (true, s)
    | (false, s) => scanMembers go members s

/-- `FindLockCycleRecurse`; the depth is bounded by `fuel`. -/
def findLockCycleRecurse (t : LockState P L) (waitOrders : List (WaitOrder P L)) :
    Nat → Nat → P → Search P L → Bool × Search P L
  | 0, _, _, s => (false, s)
  | fuel + 1, depth, checkProc, s =>
    let checkProc := t.leaderOf checkProc
    if checkProc ∈ s.visitedProcs then
      if s.visitedProcs.head? = some checkProc then (true, {s with nDeadlockDetails := depth}) else (false, s)
    else
      scanMembers
        (findLockCycleRecurseMember t waitOrders (findLockCycleRecurse t waitOrders fuel (depth + 1)) checkProc depth)
        (waitingMembers t checkProc) {s with visitedProcs := s.visitedProcs ++ [checkProc]}

/-- `FindLockCycle`. No group is visited twice, so the depth is bounded by the number of processes. -/
def findLockCycle [Fintype P] (t : LockState P L) (waitOrders : List (WaitOrder P L)) (checkProc : P)
    (blockingAutovacuum : Option P) : Bool × Search P L :=
  findLockCycleRecurse t waitOrders (Fintype.card P + 1) 0 checkProc ⟨[], [], fun _ => none, 0, blockingAutovacuum⟩

end

end PgStorage.Deadlock
