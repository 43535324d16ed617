import Mathlib

/-! The shared invalidation buffer with message numbers.

Messages are numbered from 0 on and kept in a circular buffer; `maxMsgNum` is the next number,
and every backend counts for itself what it has read. A process moves from one program counter
to the next where another process can tell the difference: at an acquisition or release of
`SInvalWriteLock` or `SInvalReadLock`, at the spinlock of `maxMsgNum`, at an access to the
`hasMessages` flag, which is set without a lock, and at every message that is written or read.
A step that has to wait is not enabled. -/
namespace PgStorage.Sinval
open Function (update)

def maxNumMessages : Nat := 4096

def msgNumWraparound : Int := maxNumMessages * 262144

def cleanupMin : Int := maxNumMessages / 2

def cleanupQuantum : Int := maxNumMessages / 16

def sigThreshold : Int := maxNumMessages / 2

def writeQuantum : Nat := 64

structure ProcState where
  /-- 0 in an entry that is not used. -/
  procPid : Nat
  nextMsgNum : Int
  resetState : Bool
  signaled : Bool
  hasMessages : Bool
  sendOnly : Bool

structure SISeg (M : Type) where
  minMsgNum : Int
  maxMsgNum : Int
  nextThreshold : Int
  lastBackend : Nat
  maxBackends : Nat
  buffer : Int → M
  procState : Nat → ProcState

/-- Who runs `SICleanupQueue`: an insertion, with the messages it has left, or a backend that
has caught up. Only the first holds the write lock when it calls. -/
inductive Caller (M : Type) where
  | insert (data : List M)
  | backend

/-- What `SIGetDataEntries` returns under its lock: -1, or messages. -/
inductive Reply (M : Type) where
  | reset
  | messages (data : List M)

/-- Where a process is. The values after a name are the local variables that are still used;
of the messages of one round of an insertion, `done` have been written. -/
inductive Pc (M : Type) where
  | absent
  | idle
  | insertLock (data : List M)
  | check (data : List M)
  | fill (max : Int) (done todo rest : List M)
  | publish (max : Int) (done rest : List M)
  | kick (i : Nat) (rest : List M)
  | cleanupLock (minFree : Nat)
  | cleanupRead (caller : Caller M) (minFree : Nat)
  | cleanup (caller : Caller M) (minFree : Nat)
  | cleanupUnlock (caller : Caller M) (needSig : Option Nat)
  | cleanupRelease (caller : Caller M)
  | getLock (datasize : Nat)
  | getClear (datasize : Nat)
  | getMax (datasize : Nat)
  | getReset (datasize : Nat) (max : Int)
  | getData (datasize : Nat) (max : Int) (data : List M)
  | getUnlock (reply : Reply M)

/-- What a backend is told, one message at a time. A reset carries the number of messages that
had been inserted when it was returned. -/
inductive Event (M : Type) where
  | message (m : M)
  | reset (sent : Nat)

def Reply.events {M : Type} (sent : Nat) : Reply M → List (Event M)
  | .reset => [.reset sent]
  | .messages data => data.map .message

/-- The segment, the holders of the locks, the processes, and as a history the messages
inserted so far, the number of those whose insertion has given back the write lock, and for
each process how many there were at its start and what it has been told since. -/
structure Sys (M : Type) where
  seg : SISeg M
  writeLock : Option Nat
  readLock : Option Nat
  readers : List Nat
  pc : Nat → Pc M
  /-- `MyBackendId - 1`. -/
  slot : Nat → Nat
  log : List M
  completed : Nat
  since : Nat → Nat
  heard : Nat → List (Event M)

/-- The calls of a process; `step` continues the one it is in. -/
inductive Act (M : Type) where
  | init (sendOnly : Bool)
  | exit
  | insert (data : List M)
  | cleanup (minFree : Nat)
  | get (datasize : Nat)
  | step

section Segment
variable {M : Type}

def SISeg.setProcState (g : SISeg M) (i : Nat) (st : ProcState) : SISeg M :=
  {g with procState := update g.procState i st}

/-- `CreateSharedInvalidationState`; the buffer is not filled. -/
def createSharedInvalidationState (maxBackends : Nat) (buffer : Int → M) : SISeg M where
  minMsgNum := 0
  maxMsgNum := 0
  nextThreshold := cleanupMin
  lastBackend := 0
  maxBackends := maxBackends
  buffer := buffer
  procState := fun _ => ⟨0, 0, false, false, false, false⟩

/-! ### `SICleanupQueue` -/

/-- The variables of the loop over the backends, and the entries it changes. -/
structure Scan where
  min : Int
  minsig : Int
  needSig : Option Nat
  procState : Nat → ProcState

def scanBackend (lowbound : Int) (a : Scan) (i : Nat) : Scan :=
  let st := a.procState i
  if st.procPid = 0 ∨ st.resetState = true ∨ st.sendOnly = true then a
  else if st.nextMsgNum < lowbound then
    {a with procState := update a.procState i {st with resetState := true}}
  else
    let b := if st.nextMsgNum < a.min then {a with min := st.nextMsgNum} else a
    if st.nextMsgNum < b.minsig ∧ st.signaled = false then
      {b with minsig := st.nextMsgNum, needSig := some i}
    else b

def scanBackends (g : SISeg M) (minFree : Nat) : Scan :=
  (List.range g.lastBackend).foldl (scanBackend (g.maxMsgNum - maxNumMessages + minFree))
    ⟨g.maxMsgNum, g.maxMsgNum - sigThreshold, none, g.procState⟩

/-- All counters are decremented when the smallest gets large. Without `wrap` they grow for
ever, as the conceptual message numbers do. -/
def renumber (wrap : Bool) (g : SISeg M) : SISeg M :=
  if wrap = true ∧ msgNumWraparound ≤ g.minMsgNum then
    {g with
      minMsgNum := g.minMsgNum - msgNumWraparound
      maxMsgNum := g.maxMsgNum - msgNumWraparound
      procState := fun i =>
        if i < g.lastBackend then
          {g.procState i with nextMsgNum := (g.procState i).nextMsgNum - msgNumWraparound}
        else g.procState i}
  else g

def cleanupThreshold (numMsgs : Int) : Int :=
  if numMsgs < cleanupMin then cleanupMin else (numMsgs / cleanupQuantum + 1) * cleanupQuantum

/-- The threshold for the next cleanup is set, and the backend that is to be signaled is marked. -/
def finishCleanup (g : SISeg M) (needSig : Option Nat) : SISeg M × Option Nat :=
  let t := {g with nextThreshold := cleanupThreshold (g.maxMsgNum - g.minMsgNum)}
  match needSig with
  | none => (t, none)
  | some i => (t.setProcState i {t.procState i with signaled := true}, some i)

/-- What is done under both locks, and the backend that is to be signaled. -/
def siCleanupQueue (wrap : Bool) (g : SISeg M) (minFree : Nat) : SISeg M × Option Nat :=
  let a := scanBackends g minFree
  finishCleanup (renumber wrap {g with minMsgNum := a.min, procState := a.procState}) a.needSig

/-- The first entry that is not used among those in front, or the next one behind them. -/
def freeEntry (g : SISeg M) : Option Nat :=
  match (List.range g.lastBackend).find? fun i => decide ((g.procState i).procPid = 0) with
  | some i => some i
  | none => if g.lastBackend < g.maxBackends then some g.lastBackend else none

/-- The loop of `CleanupInvalidationState` from an index downwards. -/
def lastActive (procState : Nat → ProcState) : Nat → Nat
  | 0 => 0
  | i + 1 => if (procState i).procPid ≠ 0 then i + 1 else lastActive procState i

def Sys.goto (s : Sys M) (p : Nat) (pc : Pc M) : Sys M := {s with pc := update s.pc p pc}

/-- The entry of a process. -/
def Sys.own (s : Sys M) (p : Nat) : ProcState := s.seg.procState (s.slot p)

def Sys.setOwn (s : Sys M) (p : Nat) (st : ProcState) : Sys M :=
  {s with seg := s.seg.setProcState (s.slot p) st}

/-- Under the write lock. Without an entry left the process does not start. -/
def sharedInvalBackendInit (s : Sys M) (p : Nat) (sendOnly : Bool) : Sys M :=
  match freeEntry s.seg with
  | none => s
  | some i =>
    {s with
      seg := {s.seg.setProcState i ⟨p, s.seg.maxMsgNum, false, false, false, sendOnly⟩ with
        lastBackend := max s.seg.lastBackend (i + 1)}
      pc := update s.pc p .idle
      slot := update s.slot p i
      since := update s.since p s.log.length
      heard := update s.heard p []}

/-- Under the write lock; the flag is left as it is. -/
def cleanupInvalidationState (s : Sys M) (p : Nat) : Sys M :=
  let g := s.seg.setProcState (s.slot p)
    {s.own p with procPid := 0, nextMsgNum := 0, resetState := false, signaled := false}
  {s with
    seg := {g with lastBackend := lastActive g.procState g.lastBackend}
    pc := update s.pc p .absent}

/-- The start of the loop of `SIInsertDataEntries`. -/
def insertNext : List M → Pc M
  | [] => .idle
  | data => .insertLock data

/-- A process goes on in its call. -/
def siContinue (wrap : Bool) (s : Sys M) (p : Nat) : Pc M → Option (Sys M)
  | .absent => none
  | .idle => none
  | .insertLock data =>
    if s.writeLock = none then some ({s with writeLock := some p}.goto p (.check data)) else none
  | .check data =>
    let nthistime := min data.length writeQuantum
    let numMsgs := s.seg.maxMsgNum - s.seg.minMsgNum
    if numMsgs + nthistime > maxNumMessages ∨ numMsgs ≥ s.seg.nextThreshold then
      some (s.goto p (.cleanupRead (.insert data) nthistime))
    else some (s.goto p (.fill s.seg.maxMsgNum [] (data.take nthistime) (data.drop nthistime)))
  | .fill max done [] rest => some (s.goto p (.publish max done rest))
  | .fill max done (m :: todo) rest =>
    let g := {s.seg with buffer := update s.seg.buffer (max % maxNumMessages) m}
    some ({s with seg := g}.goto p (.fill (max + 1) (done ++ [m]) todo rest))
  | .publish max done rest =>
    some ({s with seg := {s.seg with maxMsgNum := max}, log := s.log ++ done}.goto p (.kick 0 rest))
  | .kick i rest =>
    if i < s.seg.lastBackend then
      let g := s.seg.setProcState i {s.seg.procState i with hasMessages := true}
      some ({s with seg := g}.goto p (.kick (i + 1) rest))
    else some ({s with writeLock := none, completed := s.log.length}.goto p (insertNext rest))
  | .cleanupLock minFree =>
    if s.writeLock = none then
      some ({s with writeLock := some p}.goto p (.cleanupRead .backend minFree))
    else none
  | .cleanupRead caller minFree =>
    if s.readLock = none ∧ s.readers = [] then
      some ({s with readLock := some p}.goto p (.cleanup caller minFree))
    else none
  | .cleanup caller minFree =>
    let r := siCleanupQueue wrap s.seg minFree
    some ({s with seg := r.1}.goto p (.cleanupUnlock caller r.2))
  | .cleanupUnlock caller needSig =>
    -- an insertion keeps the write lock unless it has to signal somebody
    let pc := match caller, needSig with
      | .insert data, none => .check data
      | _, _ => .cleanupRelease caller
    some ({s with readLock := none}.goto p pc)
  | .cleanupRelease caller =>
    let pc := match caller with
      | .insert data => .insertLock data
      | .backend => .idle
    some ({s with writeLock := none}.goto p pc)
  | .getLock datasize =>
    if s.readLock = none then some ({s with readers := p :: s.readers}.goto p (.getClear datasize)) else none
  | .getClear datasize =>
    some ((s.setOwn p {s.own p with hasMessages := false}).goto p (.getMax datasize))
  | .getMax datasize => some (s.goto p (.getReset datasize s.seg.maxMsgNum))
  | .getReset datasize max =>
    if (s.own p).resetState = true then
      let st := {s.own p with nextMsgNum := max, resetState := false, signaled := false}
      some ((s.setOwn p st).goto p (.getUnlock .reset))
    else some (s.goto p (.getData datasize max []))
  | .getData datasize max data =>
    let st := s.own p
    if data.length < datasize ∧ st.nextMsgNum < max then
      let m := s.seg.buffer (st.nextMsgNum % maxNumMessages)
      some ((s.setOwn p {st with nextMsgNum := st.nextMsgNum + 1}).goto p
        (.getData datasize max (data ++ [m])))
    else
      let done := if max ≤ st.nextMsgNum then {st with signaled := false} else {st with hasMessages := true}
      some ((s.setOwn p done).goto p (.getUnlock (.messages data)))
  | .getUnlock reply =>
    some ({s with
      readers := s.readers.filter (· ≠ p)
      heard := update s.heard p (s.heard p ++ reply.events s.log.length)}.goto p .idle)

/-- One step of a process; `none` if it has to wait or cannot make the call. -/
def siStep (wrap : Bool) (s : Sys M) (pa : Nat × Act M) : Option (Sys M) :=
  match s.pc pa.1, pa.2 with
  | .absent, .init sendOnly =>
    if s.writeLock = none ∧ pa.1 ≠ 0 then some (sharedInvalBackendInit s pa.1 sendOnly) else none
  | .idle, .exit => if s.writeLock = none then some (cleanupInvalidationState s pa.1) else none
  | .idle, .insert data => some (s.goto pa.1 (insertNext data))
  | .idle, .cleanup minFree =>
    if minFree ≤ maxNumMessages then some (s.goto pa.1 (.cleanupLock minFree)) else none
  | .idle, .get datasize =>
    -- the quick test without a lock; nothing to read is returned as 0
    some (if (s.own pa.1).hasMessages = true then s.goto pa.1 (.getLock datasize) else s)
  | pc, .step => siContinue wrap s pa.1 pc
  | _, _ => none

/-- No process has started. -/
def Sys.start (maxBackends : Nat) (buffer : Int → M) : Sys M where
  seg := createSharedInvalidationState maxBackends buffer
  writeLock := none
  readLock := none
  readers := []
  pc := fun _ => .absent
  slot := fun _ => 0
  log := []
  completed := 0
  since := fun _ => 0
  heard := fun _ => []

/-- A sequence of steps. -/
def siRun (wrap : Bool) (s : Sys M) : List (Nat × Act M) → Option (Sys M)
  | [] => some s
  | pa :: rest => (siStep wrap s pa).bind fun t => siRun wrap t rest

end Segment
end PgStorage.Sinval
