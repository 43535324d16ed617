import Mathlib

/-! The records of serializable transactions.

Each serializable transaction has a `SERIALIZABLEXACT`, on one of two lists, and conflicts between transactions are
elements of a pool. A step of a process is one section under `SerializableXactHashLock`, or what it does under
`SerializableFinishedListLock` before such a section. Conflicts and doomed flags may be set between transactions at any
time; predicate locks, transaction ids and the summary on disk are left out. Transaction ids are given by their full
numbers. -/
namespace PgStorage.Predicate
open Function (update)

def invalidSerCommitSeqNo : Nat := 2 ^ 64 - 1

def firstNormalSerCommitSeqNo : Nat := 2

/-- `SERIALIZABLEXACT`. `seqNo` is the union of `lastCommitBeforeSnapshot` and `earliestOutConflictCommit`. -/
structure SerializableXact where
  prepareSeqNo : Nat
  commitSeqNo : Nat
  seqNo : Nat
  outConflicts : List Nat
  inConflicts : List Nat
  /-- Linked by `outLink` where the transaction may write, by `inLink` where it is read-only. -/
  possibleUnsafeConflicts : List Nat
  finishedBefore : Nat
  xmin : Nat
  committed : Bool
  prepared : Bool
  rolledBack : Bool
  doomed : Bool
  conflictOut : Bool
  readOnly : Bool
  roSafe : Bool
  roUnsafe : Bool
  summaryConflictIn : Bool
  summaryConflictOut : Bool

/-- `RWConflictData` -/
structure RwConflict where
  sxactOut : Nat
  sxactIn : Nat

structure VirtualTransactionId where
  backendId : Nat
  localTransactionId : Nat

/-- Where a process is, with its variable `MySerializableXact`. -/
inductive Pc
  /-- No transaction of its own is registered. -/
  | idle
  /-- To take the lock in `GetSerializableTransactionSnapshotInt`. -/
  | registering (readOnly : Bool) (source : Option VirtualTransactionId)
  /-- To call `SummarizeOldestCommittedSxact`. -/
  | summarize (readOnly : Bool) (source : Option VirtualTransactionId)
  /-- In there, with an entry that it took off the finished list. -/
  | summarizing (sxact : Nat) (readOnly : Bool) (source : Option VirtualTransactionId)
  | running (sxact : Nat) (myXactDidWrite : Bool)
  /-- In `ReleasePredicateLocks`, behind its first section. -/
  | finishing (sxact : Nat) (isCommit needToClear : Bool)
  /-- Rolled back, to release the entry. -/
  | releasing (sxact : Nat) (needToClear : Bool)
  /-- To call `ClearOldPredicateLocks`, which does not read `MySerializableXact`. -/
  | clear
  /-- In there, to look at an entry of the finished list. -/
  | clearing (finishedSxact : Option Nat)
  /-- To release an entry; off the list, unless it is released in part only. -/
  | clearingOne (sxact : Nat) (nextSxact : Option Nat) (keep clearThrough : Bool)
  /-- To set `HavePartialClearedThrough`. -/
  | cleared (sxact : Nat) (nextSxact : Option Nat)

structure State where
  sxact : Nat → SerializableXact
  availableList : List Nat
  activeList : List Nat
  sxactGlobalXmin : Option Nat
  sxactGlobalXminCount : Nat
  writableSxactCount : Nat
  lastSxactCommitSeqNo : Nat
  canPartialClearThrough : Nat
  havePartialClearedThrough : Nat
  /-- The number of `RWConflict` elements. -/
  conflicts : Nat
  conflict : Nat → RwConflict
  /-- The pool's `availableList`. -/
  pool : List Nat
  /-- `FinishedSerializableTransactions` -/
  finished : List Nat
  finishedListLock : Option Nat
  /-- The entries of the transactions that are prepared for a two-phase commit. -/
  preparedXacts : List Nat
  pc : Nat → Pc
  /-- The transaction each process runs, and the `xmin` of its serializable snapshot. -/
  lxid : Nat → Nat
  snapshotXmin : Nat → Option Nat
  /-- The `xmin` of a snapshot taken now. -/
  oldestXid : Nat
  nextXid : Nat

/-- `OldCommittedSxact`, the first element. -/
def oldCommittedSxact : Nat := 0

def blank : SerializableXact :=
  ⟨0, 0, 0, [], [], [], 0, 0, false, false, false, false, false, false, false, false, false, false⟩

/-- Behind `InitPredicateLocks`; `maxXacts` is `MaxBackends + max_prepared_xacts`. -/
def start (maxXacts xid : Nat) : State where
  sxact i := if i = oldCommittedSxact then { blank with committed := true } else blank
  availableList := List.range' 1 (10 * maxXacts - 1)
  activeList := [oldCommittedSxact]
  sxactGlobalXmin := none
  sxactGlobalXminCount := 0
  writableSxactCount := 0
  lastSxactCommitSeqNo := firstNormalSerCommitSeqNo - 1
  canPartialClearThrough := 0
  havePartialClearedThrough := 0
  conflicts := 5 * (10 * maxXacts)
  conflict _ := ⟨0, 0⟩
  pool := List.range (5 * (10 * maxXacts))
  finished := []
  finishedListLock := none
  preparedXacts := []
  pc _ := .idle
  lxid _ := 0
  snapshotXmin _ := none
  oldestXid := xid
  nextXid := xid

def State.setPc (s : State) (b : Nat) (pc : Pc) : State := { s with pc := update s.pc b pc }

def State.setSxact (s : State) (i : Nat) (x : SerializableXact) : State :=
  { s with sxact := update s.sxact i x }

def createPredXact (s : State) : Option (Nat × State) :=
  match s.availableList with
  | [] => none
  | i :: rest => some (i, { s with availableList := rest, activeList := s.activeList ++ [i] })

def releasePredXact (i : Nat) (s : State) : State :=
  { s with activeList := s.activeList.erase i, availableList := s.availableList ++ [i] }

def SerializableXact.insertOut (e : Nat) (x : SerializableXact) : SerializableXact :=
  { x with outConflicts := x.outConflicts ++ [e] }

def SerializableXact.insertIn (e : Nat) (x : SerializableXact) : SerializableXact :=
  { x with inConflicts := x.inConflicts ++ [e] }

def SerializableXact.insertPossibleUnsafe (e : Nat) (x : SerializableXact) : SerializableXact :=
  { x with possibleUnsafeConflicts := x.possibleUnsafeConflicts ++ [e] }

/-- `none` is the error of an exhausted pool. -/
def setRwConflict (reader writer : Nat) (s : State) : Option State :=
  match s.pool with
  | [] => none
  | e :: rest =>
    let s := { s with pool := rest, conflict := update s.conflict e ⟨reader, writer⟩ }
    let s := s.setSxact reader ((s.sxact reader).insertOut e)
    some (s.setSxact writer ((s.sxact writer).insertIn e))

def setPossibleUnsafeConflict (roXact activeXact : Nat) (s : State) : Option State :=
  match s.pool with
  | [] => none
  | e :: rest =>
    let s := { s with pool := rest, conflict := update s.conflict e ⟨activeXact, roXact⟩ }
    let s := s.setSxact activeXact ((s.sxact activeXact).insertPossibleUnsafe e)
    some (s.setSxact roXact ((s.sxact roXact).insertPossibleUnsafe e))

/-- `SHMQueueDelete` on both links of an element. -/
def SerializableXact.delete (e : Nat) (x : SerializableXact) : SerializableXact :=
  { x with
    outConflicts := x.outConflicts.erase e
    inConflicts := x.inConflicts.erase e
    possibleUnsafeConflicts := x.possibleUnsafeConflicts.erase e }

def releaseRwConflict (e : Nat) (s : State) : State :=
  { s with sxact := fun i => (s.sxact i).delete e, pool := s.pool ++ [e] }

def releaseRwConflicts (l : List Nat) (s : State) : State := l.foldl (fun s e => releaseRwConflict e s) s

def flagSxactUnsafe (i : Nat) (s : State) : State :=
  let s := s.setSxact i { s.sxact i with roUnsafe := true }
  releaseRwConflicts (s.sxact i).possibleUnsafeConflicts s

/-- `GetSnapshotData`, or `ProcArrayInstallImportedXmin` on the snapshot of a transaction that may have ended. -/
def takeSnapshot (s : State) : Option VirtualTransactionId → Option Nat
  | none => some s.oldestXid
  | some v => if s.lxid v.backendId = v.localTransactionId then s.snapshotXmin v.backendId else none

def countXmin (xmin : Nat) (s : State) : State :=
  match s.sxactGlobalXmin with
  | none => { s with sxactGlobalXmin := some xmin, sxactGlobalXminCount := 1 }
  | some globalXmin =>
    if xmin = globalXmin then { s with sxactGlobalXminCount := s.sxactGlobalXminCount + 1 } else s

def newSxact (s : State) (xmin : Nat) (readOnly : Bool) : SerializableXact :=
  { blank with
    prepareSeqNo := invalidSerCommitSeqNo
    commitSeqNo := invalidSerCommitSeqNo
    seqNo := s.lastSxactCommitSeqNo
    xmin
    readOnly }

/-- The entry as it is filled in, before conflicts are recorded and the writers counted. -/
def enterSxact (s : State) (i xmin : Nat) (readOnly : Bool) : State :=
  let s := countXmin xmin s
  s.setSxact i (newSxact s xmin readOnly)

/-- The transactions that make a read-only one unsafe if they commit with a conflict out. -/
def SerializableXact.mayMakeUnsafe (x : SerializableXact) : Bool := !x.committed && !x.doomed && !x.readOnly

/-- The loop over the active list; an exhausted pool ends it with what it did so far. -/
def setPossibleUnsafeConflicts (roXact : Nat) : List Nat → State → State × Bool
  | [], s => (s, true)
  | other :: l, s =>
    if (s.sxact other).mayMakeUnsafe then
      match setPossibleUnsafeConflict roXact other s with
      | none => (s, false)
      | some s => setPossibleUnsafeConflicts roXact l s
    else setPossibleUnsafeConflicts roXact l s

/-- The section of `GetSerializableTransactionSnapshotInt`. Behind an error the transaction aborts, with
`MySerializableXact` not set; `raises` is an error in `GetSnapshotData`. -/
def getSerializableTransactionSnapshotInt (b : Nat) (readOnly : Bool) (source : Option VirtualTransactionId)
    (raises : Bool) (s : State) : State :=
  match createPredXact s with
  | none => s.setPc b (.summarize readOnly source)
  | some (i, s) =>
    if source.isNone && raises then s.setPc b .idle
    else
      match takeSnapshot s source with
      | none => (releasePredXact i s).setPc b .idle
      | some xmin =>
        let s := { s with snapshotXmin := update s.snapshotXmin b (some xmin) }
        if readOnly && s.writableSxactCount = 0 then (releasePredXact i s).setPc b .idle
        else
          let s := enterSxact s i xmin readOnly
          if readOnly then
            match setPossibleUnsafeConflicts i s.activeList s with
            | (s, true) => s.setPc b (.running i false)
            | (s, false) => s.setPc b .idle
          else { s with writableSxactCount := s.writableSxactCount + 1 }.setPc b (.running i false)

/-! ### The end of a transaction -/

/-- The entries that `SetNewSxactGlobalXmin` counts. -/
def inProgress (sxact : Nat → SerializableXact) (i : Nat) : Bool :=
  !(sxact i).rolledBack && !(sxact i).committed && i ≠ oldCommittedSxact

/-- One round of its loop. -/
def countOldest (sxact : Nat → SerializableXact) (oldest : Option Nat × Nat) (i : Nat) : Option Nat × Nat :=
  if inProgress sxact i then
    match oldest.1 with
    | none => (some (sxact i).xmin, 1)
    | some globalXmin =>
      if (sxact i).xmin < globalXmin then (some (sxact i).xmin, 1)
      else if (sxact i).xmin = globalXmin then (some globalXmin, oldest.2 + 1) else oldest
  else oldest

def setNewSxactGlobalXmin (s : State) : State :=
  let oldest := s.activeList.foldl (countOldest s.sxact) (none, 0)
  { s with sxactGlobalXmin := oldest.1, sxactGlobalXminCount := oldest.2 }

def markFinished (i : Nat) (isCommit myXactDidWrite : Bool) (s : State) : State :=
  let x := s.sxact i
  if isCommit then
    { s with lastSxactCommitSeqNo := s.lastSxactCommitSeqNo + 1 }.setSxact i
      { x with
        finishedBefore := s.nextXid
        committed := true
        commitSeqNo := s.lastSxactCommitSeqNo + 1
        readOnly := x.readOnly || !myXactDidWrite }
  else s.setSxact i { x with finishedBefore := s.nextXid, doomed := true, rolledBack := true, prepared := false }

def uncountWritable (s : State) : State :=
  { s with
    writableSxactCount := s.writableSxactCount - 1
    canPartialClearThrough :=
      if s.writableSxactCount - 1 = 0 then s.lastSxactCommitSeqNo else s.canPartialClearThrough }

/-- Conflicts out to transactions that were summarized. -/
def noteOldConflictOut (i : Nat) (isCommit : Bool) (s : State) : State :=
  let x := s.sxact i
  if isCommit && !x.readOnly && x.summaryConflictOut then
    s.setSxact i { x with seqNo := firstNormalSerCommitSeqNo, conflictOut := true }
  else s

def releaseOutConflict (i : Nat) (isCommit : Bool) (s : State) (e : Nat) : State :=
  let x := s.sxact i
  let other := s.sxact (s.conflict e).sxactIn
  let s' :=
    if isCommit && !x.readOnly && other.committed then
      s.setSxact i
        { x with
          seqNo := if !x.conflictOut || decide (other.prepareSeqNo < x.seqNo) then other.prepareSeqNo else x.seqNo
          conflictOut := true }
    else s
  if !isCommit || other.committed || decide (s.lastSxactCommitSeqNo ≤ other.seqNo) then releaseRwConflict e s' else s'

def releaseInConflict (isCommit : Bool) (s : State) (e : Nat) : State :=
  let other := s.sxact (s.conflict e).sxactOut
  if !isCommit || other.committed || other.readOnly then releaseRwConflict e s else s

/-- Tells a concurrent read-only transaction about the end of one that might have made it unsafe. -/
def reportPossibleUnsafe (i : Nat) (isCommit myXactDidWrite : Bool) (s : State) (e : Nat) : State :=
  let roXact := (s.conflict e).sxactIn
  let x := s.sxact i
  if isCommit && myXactDidWrite && x.conflictOut && decide (x.seqNo ≤ (s.sxact roXact).seqNo) then
    flagSxactUnsafe roXact s
  else
    let s := releaseRwConflict e s
    if (s.sxact roXact).possibleUnsafeConflicts = [] then s.setSxact roXact { s.sxact roXact with roSafe := true }
    else s

/-- With whether it is time to clear. -/
def uncountXmin (i : Nat) (s : State) : State × Bool :=
  if s.sxactGlobalXmin = some (s.sxact i).xmin then
    let s := { s with sxactGlobalXminCount := s.sxactGlobalXminCount - 1 }
    if s.sxactGlobalXminCount = 0 then (setNewSxactGlobalXmin s, true) else (s, false)
  else (s, false)

/-- The conflicts of a transaction at its end. -/
def releaseConflicts (i : Nat) (topLevelIsDeclaredReadOnly isCommit myXactDidWrite : Bool) (s : State) : State :=
  let s := if topLevelIsDeclaredReadOnly then releaseRwConflicts (s.sxact i).possibleUnsafeConflicts s else s
  let s := noteOldConflictOut i isCommit s
  let s := (s.sxact i).outConflicts.foldl (releaseOutConflict i isCommit) s
  let s := (s.sxact i).inConflicts.foldl (releaseInConflict isCommit) s
  if topLevelIsDeclaredReadOnly then s
  else (s.sxact i).possibleUnsafeConflicts.foldl (reportPossibleUnsafe i isCommit myXactDidWrite) s

/-- The first section of `ReleasePredicateLocks`. -/
def releasePredicateLocks (b i : Nat) (isCommit myXactDidWrite : Bool) (s : State) : State :=
  let topLevelIsDeclaredReadOnly := (s.sxact i).readOnly
  let s := markFinished i isCommit myXactDidWrite s
  let s := if topLevelIsDeclaredReadOnly then s else uncountWritable s
  let s := releaseConflicts i topLevelIsDeclaredReadOnly isCommit myXactDidWrite s
  let (s, needToClear) := uncountXmin i s
  s.setPc b (.finishing i isCommit needToClear)

def releaseSummarizedOut (summarize : Bool) (s : State) (e : Nat) : State :=
  let other := (s.conflict e).sxactIn
  releaseRwConflict e (if summarize then s.setSxact other { s.sxact other with summaryConflictIn := true } else s)

def releaseSummarizedIn (summarize : Bool) (s : State) (e : Nat) : State :=
  let other := (s.conflict e).sxactOut
  releaseRwConflict e (if summarize then s.setSxact other { s.sxact other with summaryConflictOut := true } else s)

/-- The section of `ReleaseOneSerializableXact`; `keep` is its argument for a release in part. -/
def releaseOneSerializableXact (i : Nat) (keep summarize : Bool) (s : State) : State :=
  let s := if keep then s else (s.sxact i).outConflicts.foldl (releaseSummarizedOut summarize) s
  let s := (s.sxact i).inConflicts.foldl (releaseSummarizedIn summarize) s
  if keep then s else releasePredXact i s

/-- `SHMQueueNext` -/
def shmQueueNext (l : List Nat) (i : Nat) : Option Nat := (l.dropWhile (· != i)).tail.head?

/-- One round of the loop in `ClearOldPredicateLocks`, up to where it gives `SerializableXactHashLock` back. -/
def clearNext (b i : Nat) (s : State) : State :=
  let x := s.sxact i
  let nextSxact := shmQueueNext s.finished i
  if s.sxactGlobalXmin.all fun globalXmin => decide (x.finishedBefore ≤ globalXmin) then
    { s with finished := s.finished.erase i }.setPc b (.clearingOne i nextSxact false false)
  else if s.havePartialClearedThrough < x.commitSeqNo ∧ x.commitSeqNo ≤ s.canPartialClearThrough then
    if x.readOnly then { s with finished := s.finished.erase i }.setPc b (.clearingOne i nextSxact false true)
    else s.setPc b (.clearingOne i nextSxact true true)
  else { s with finishedListLock := none }.setPc b .idle

inductive Action
  /-- A transaction asks for a snapshot, its own or that of a running transaction. -/
  | start (readOnly : Bool) (source : Option VirtualTransactionId)
  | register (raises : Bool)
  | summarize
  /-- `room` is false where no element is left for a predicate lock of the dummy. -/
  | summarized (room : Bool)
  | setRwConflict (reader writer : Nat)
  | doom (i : Nat)
  | write
  | preCommit
  | postPrepare
  | twoPhaseFinish (i : Nat) (isCommit : Bool)
  | release (isCommit : Bool)
  | finish
  | releaseOne
  | clear
  | clearNext
  | clearOne
  | clearThrough
  | endTransaction
  | assignXids (oldestXid nextXid : Nat)

/-- Entries of transactions, as other processes find them. -/
def State.found (s : State) (i : Nat) : Bool := decide (i ∈ s.activeList ∧ i ≠ oldCommittedSxact)

/-- What process `b` does, `none` where it is not at the place for it. -/
def step (s : State) (b : Nat) (action : Action) : Option State :=
  match action, s.pc b with
  | .start readOnly source, .idle => some (s.setPc b (.registering readOnly source))
  | .register raises, .registering readOnly source =>
    some (getSerializableTransactionSnapshotInt b readOnly source raises s)
  | .summarize, .summarize readOnly source =>
    if s.finishedListLock = none then
      match s.finished with
      | [] => some (s.setPc b (.registering readOnly source))
      | i :: rest =>
        some ({ s with finished := rest, finishedListLock := some b }.setPc b (.summarizing i readOnly source))
    else none
  | .summarized room, .summarizing i readOnly source =>
    if room then
      some ({ releaseOneSerializableXact i false true s with finishedListLock := none }.setPc b
        (.registering readOnly source))
    else some ({ s with finishedListLock := none }.setPc b .idle)
  | .setRwConflict reader writer, .running i _ =>
    if (reader = i ∨ writer = i) ∧ reader ≠ writer ∧ s.found reader ∧ s.found writer then
      some ((setRwConflict reader writer s).getD s)
    else none
  | .doom i, .running _ _ =>
    if s.found i && !(s.sxact i).prepared then some (s.setSxact i { s.sxact i with doomed := true }) else none
  | .write, .running i _ => some (s.setPc b (.running i true))
  | .preCommit, .running i _ =>
    if (s.sxact i).doomed then some s
    else
      some ({ s with lastSxactCommitSeqNo := s.lastSxactCommitSeqNo + 1 }.setSxact i
        { s.sxact i with prepareSeqNo := s.lastSxactCommitSeqNo + 1, prepared := true })
  | .postPrepare, .running i _ =>
    if (s.sxact i).prepared then some ({ s with preparedXacts := i :: s.preparedXacts }.setPc b .idle) else none
  | .twoPhaseFinish i isCommit, .idle =>
    if i ∈ s.preparedXacts then
      some (releasePredicateLocks b i isCommit true { s with preparedXacts := s.preparedXacts.erase i })
    else none
  | .release isCommit, .running i myXactDidWrite =>
    if isCommit && (!(s.sxact i).prepared || (s.sxact i).doomed) then none
    else some (releasePredicateLocks b i isCommit myXactDidWrite s)
  | .finish, .finishing i isCommit needToClear =>
    if s.finishedListLock = none then
      if isCommit then
        some ({ s with finished := s.finished ++ [i] }.setPc b (if needToClear then .clear else .idle))
      else some ({ s with finishedListLock := some b }.setPc b (.releasing i needToClear))
    else none
  | .releaseOne, .releasing i needToClear =>
    some ({ releaseOneSerializableXact i false false s with finishedListLock := none }.setPc b
      (if needToClear then .clear else .idle))
  | .clear, .clear =>
    if s.finishedListLock = none then
      some ({ s with finishedListLock := some b }.setPc b (.clearing s.finished.head?))
    else none
  | .clearNext, .clearing none => some ({ s with finishedListLock := none }.setPc b .idle)
  | .clearNext, .clearing (some i) => some (clearNext b i s)
  | .clearOne, .clearingOne i nextSxact keep clearThrough =>
    some ((releaseOneSerializableXact i keep false s).setPc b
      (if clearThrough then .cleared i nextSxact else .clearing nextSxact))
  | .clearThrough, .cleared i nextSxact =>
    some ({ s with havePartialClearedThrough := (s.sxact i).commitSeqNo }.setPc b (.clearing nextSxact))
  | .endTransaction, _ =>
    some { s with
      lxid := update s.lxid b (s.lxid b + 1)
      snapshotXmin := update s.snapshotXmin b none }
  | .assignXids oldestXid nextXid, _ =>
    if s.oldestXid ≤ oldestXid ∧ s.nextXid ≤ nextXid then some { s with oldestXid, nextXid } else none
  | _, _ => none

end PgStorage.Predicate
