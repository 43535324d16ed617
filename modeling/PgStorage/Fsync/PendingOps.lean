import Mathlib

/-! The pending fsync requests of the checkpointer.

Other processes queue requests to fsync segments, and cancels before they remove files. The checkpointer
absorbs the queue into its table, and `mdsync` works the table off. The queue, the files and the errors
are those of an environment that moves between any two steps. A fork is removed as a whole, after its
requests are cancelled; `ENOENT` is the error for a file that was removed, and such a file has no other.
Requests to unlink files go to a list of their own and are left out. `fsync` is on. -/
namespace PgStorage.Fsync
open Function (update)

def maxForknum : Nat := 3

/-- `FSYNCS_PER_ABSORB` -/
def fsyncsPerAbsorb : Nat := 10

abbrev CycleCtr := BitVec 16

structure RelFileNode where
  spcNode : Nat
  dbNode : Nat
  relNode : Nat
  deriving DecidableEq

abbrev ForkNumber := Fin (maxForknum + 1)

abbrev Fork := RelFileNode × ForkNumber

structure PendingOperationEntry where
  cycleCtr : CycleCtr
  requests : ForkNumber → Finset Nat
  canceled : ForkNumber → Bool

/-- The arguments of `RememberFsyncRequest`; without a fork number all forks are meant. -/
inductive Request
  | segment (rnode : RelFileNode) (forknum : ForkNumber) (segno : Nat)
  | forgetRelation (rnode : RelFileNode) (forknum : Option ForkNumber)
  | forgetDatabase (dbNode : Nat)
  deriving DecidableEq

/-- What a cancel is about. -/
def Request.covers (m : Request) (k : Fork) : Bool :=
  match m with
  | .segment _ _ _ => false
  | .forgetRelation rnode none => k.1 = rnode
  | .forgetRelation rnode (some forknum) => k = (rnode, forknum)
  | .forgetDatabase dbNode => k.1.dbNode = dbNode

def bmsFirstMember (requests : Finset Nat) : Option Nat :=
  if h : requests.Nonempty then some (requests.min' h) else none

/-- Where the checkpointer is in `mdsync`: at the head of the scan, of the loop over the forks (with those
that are left), of the loop over the segments (with the bitmap that is left), or in the retry loop. -/
inductive Pc
  | idle
  | scan
  | forks (rnode : RelFileNode) (rest : List ForkNumber)
  | segments (rnode : RelFileNode) (forknum : ForkNumber) (rest : List ForkNumber) (requests : Finset Nat)
  | attempt (rnode : RelFileNode) (forknum : ForkNumber) (rest : List ForkNumber) (requests : Finset Nat)
    (segno failures : Nat)
  /-- After a failure of a file that may be deleted. -/
  | retry (rnode : RelFileNode) (forknum : ForkNumber) (rest : List ForkNumber) (requests : Finset Nat)
    (segno failures : Nat)

/-- How an attempt to open and fsync a segment ends. -/
inductive Outcome
  | synced
  /-- `FILE_POSSIBLY_DELETED` -/
  | missing
  | failed
  deriving DecidableEq

structure Sys where
  pendingOpsTable : RelFileNode → Option PendingOperationEntry
  keys : List RelFileNode
  mdsyncCycleCtr : CycleCtr
  mdsyncInProgress : Bool
  queue : List Request
  absorbCounter : Nat
  /-- The entries that the scan has still to visit. -/
  todo : List RelFileNode
  pc : Pc
  gone : Fork → Bool
  /-- Whether a request was queued after the last cancel. -/
  sent : Fork → Bool
  /-- The segments with a request that is remembered, and neither cancelled nor synced since; and those
  of them from before the current `mdsync` began. -/
  owed : Fork → Finset Nat
  old : Fork → Finset Nat

inductive Act
  | send (m : Request)
  | remove (k : Fork)
  | create (k : Fork)
  | absorb
  | mdsync
  | visit (rnode : RelFileNode)
  | attempt (outcome : Outcome)
  | step
  | finish

namespace PendingOperationEntry

def cancelFork (e : PendingOperationEntry) (forknum : ForkNumber) : PendingOperationEntry :=
  {e with
    requests := update e.requests forknum ∅
    canceled := update e.canceled forknum true}

def cancelForks (e : PendingOperationEntry) : PendingOperationEntry :=
  {e with requests := fun _ => ∅, canceled := fun _ => true}

def addRequest (e : PendingOperationEntry) (forknum : ForkNumber) (segno : Nat) : PendingOperationEntry :=
  {e with requests := update e.requests forknum (insert segno (e.requests forknum))}

end PendingOperationEntry

namespace Sys

def start : Sys where
  pendingOpsTable := fun _ => none
  keys := []
  mdsyncCycleCtr := 0
  mdsyncInProgress := false
  queue := []
  absorbCounter := 0
  todo := []
  pc := .idle
  gone := fun _ => false
  sent := fun _ => false
  owed := fun _ => ∅
  old := fun _ => ∅

def setEntry (s : Sys) (rnode : RelFileNode) (e : Option PendingOperationEntry) : Sys :=
  {s with pendingOpsTable := update s.pendingOpsTable rnode e}

def rememberFsyncRequest (s : Sys) : Request → Sys
  | .forgetRelation rnode none => s.setEntry rnode ((s.pendingOpsTable rnode).map .cancelForks)
  | .forgetRelation rnode (some forknum) =>
    s.setEntry rnode ((s.pendingOpsTable rnode).map fun e => e.cancelFork forknum)
  | .forgetDatabase dbNode =>
    {s with pendingOpsTable := fun rnode =>
      if rnode.dbNode = dbNode then (s.pendingOpsTable rnode).map .cancelForks else s.pendingOpsTable rnode}
  | .segment rnode forknum segno =>
    match s.pendingOpsTable rnode with
    | some e => s.setEntry rnode (some (e.addRequest forknum segno))
    | none =>
      let e : PendingOperationEntry := ⟨s.mdsyncCycleCtr, fun _ => ∅, fun _ => false⟩
      {s.setEntry rnode (some (e.addRequest forknum segno)) with keys := s.keys ++ [rnode]}

/-- What is owed after a request is remembered. -/
def account (s : Sys) (m : Request) : Sys :=
  let owed := fun k => if m.covers k = true then ∅ else s.owed k
  {s with
    owed :=
      match m with
      | .segment rnode forknum segno => update owed (rnode, forknum) (insert segno (owed (rnode, forknum)))
      | _ => owed
    old := fun k => if m.covers k = true then ∅ else s.old k}

def remember (s : Sys) (m : Request) : Sys := (s.rememberFsyncRequest m).account m

def absorbFsyncRequests (s : Sys) : Sys := {s.queue.foldl remember s with queue := []}

/-! ### `mdsync` -/

def mdsync (s : Sys) : Sys :=
  let s := s.absorbFsyncRequests
  let s :=
    if s.mdsyncInProgress = true then
      -- the prior try failed
      {s with pendingOpsTable := fun rnode =>
        (s.pendingOpsTable rnode).map fun e => {e with cycleCtr := s.mdsyncCycleCtr}}
    else s
  {s with
    mdsyncCycleCtr := s.mdsyncCycleCtr + 1
    mdsyncInProgress := true
    absorbCounter := fsyncsPerAbsorb
    todo := s.keys
    old := s.owed
    pc := .scan}

/-- `hash_seq_search` returns an entry; a new one is not processed this time. -/
def visit (s : Sys) (rnode : RelFileNode) : Option Sys :=
  (s.pendingOpsTable rnode).map fun e =>
    let s := {s with todo := s.todo.erase rnode}
    if e.cycleCtr = s.mdsyncCycleCtr then s else {s with pc := .forks rnode (List.finRange (maxForknum + 1))}

/-- The bitmap is unlinked from the entry before it is scanned. -/
def detach (s : Sys) (rnode : RelFileNode) (e : PendingOperationEntry) (forknum : ForkNumber)
    (rest : List ForkNumber) : Sys :=
  {s.setEntry rnode (some {e with
      requests := update e.requests forknum ∅
      canceled := update e.canceled forknum false}) with
    pc := .segments rnode forknum rest (e.requests forknum)}

/-- The entry is removed, or it holds new requests only. -/
def finishEntry (s : Sys) (rnode : RelFileNode) (e : PendingOperationEntry) : Sys :=
  if ∃ forknum, e.requests forknum ≠ ∅ then
    {s.setEntry rnode (some {e with cycleCtr := s.mdsyncCycleCtr}) with pc := .scan}
  else {s.setEntry rnode none with keys := s.keys.erase rnode, pc := .scan}

def nextSegment (s : Sys) (rnode : RelFileNode) (forknum : ForkNumber) (rest : List ForkNumber)
    (requests : Finset Nat) : Sys :=
  match bmsFirstMember requests with
  | none => {s with pc := .forks rnode rest}
  | some segno =>
    let s :=
      if s.absorbCounter ≤ 1 then {s.absorbFsyncRequests with absorbCounter := fsyncsPerAbsorb}
      else {s with absorbCounter := s.absorbCounter - 1}
    {s with pc := .attempt rnode forknum rest (requests.erase segno) segno 0}

/-- An error leaves `mdsync_in_progress` set. -/
def raise (s : Sys) : Sys := {s with todo := [], pc := .idle}

def attempt (s : Sys) (rnode : RelFileNode) (forknum : ForkNumber) (rest : List ForkNumber)
    (requests : Finset Nat) (segno failures : Nat) : Outcome → Option Sys
  | .synced =>
    let k := (rnode, forknum)
    some {s with
      owed := update s.owed k ((s.owed k).erase segno)
      old := update s.old k ((s.old k).erase segno)
      pc := .segments rnode forknum rest requests}
  | .missing =>
    if s.gone (rnode, forknum) = true then
      if 0 < failures then some s.raise else some {s with pc := .retry rnode forknum rest requests segno failures}
    else none
  | .failed => if s.gone (rnode, forknum) = true then none else some s.raise

/-- Incoming requests are absorbed, to see if a cancel arrived. -/
def retry (s : Sys) (rnode : RelFileNode) (forknum : ForkNumber) (rest : List ForkNumber)
    (requests : Finset Nat) (segno failures : Nat) : Option Sys :=
  let s := {s.absorbFsyncRequests with absorbCounter := fsyncsPerAbsorb}
  (s.pendingOpsTable rnode).map fun e =>
    if e.canceled forknum = true then {s with pc := .segments rnode forknum rest requests}
    else {s with pc := .attempt rnode forknum rest requests segno (failures + 1)}

/-- A request is for a file that exists. -/
def send (s : Sys) (m : Request) : Option Sys :=
  let sent := fun k => if m.covers k = true then false else s.sent k
  match m with
  | .segment rnode forknum _ =>
    if s.gone (rnode, forknum) = true then none
    else some {s with queue := s.queue ++ [m], sent := update sent (rnode, forknum) true}
  | _ => some {s with queue := s.queue ++ [m], sent := sent}

/-- A fork is removed only after its requests are cancelled. -/
def next (s : Sys) : Act → Option Sys
  | .send m => s.send m
  | .remove k => if s.sent k = true then none else some {s with gone := update s.gone k true}
  | .create k => some {s with gone := update s.gone k false}
  | .absorb =>
    match s.pc with
    | .idle => some s.absorbFsyncRequests
    | _ => none
  | .mdsync =>
    match s.pc with
    | .idle => some s.mdsync
    | _ => none
  | .visit rnode =>
    match s.pc with
    | .scan => s.visit rnode
    | _ => none
  | .finish =>
    match s.pc with
    | .scan => if s.todo = [] then some {s with mdsyncInProgress := false, pc := .idle} else none
    | _ => none
  | .attempt outcome =>
    match s.pc with
    | .attempt rnode forknum rest requests segno failures =>
      s.attempt rnode forknum rest requests segno failures outcome
    | _ => none
  | .step =>
    match s.pc with
    | .forks rnode (forknum :: rest) => (s.pendingOpsTable rnode).map fun e => s.detach rnode e forknum rest
    | .forks rnode [] => (s.pendingOpsTable rnode).map fun e => s.finishEntry rnode e
    | .segments rnode forknum rest requests => some (s.nextSegment rnode forknum rest requests)
    | .retry rnode forknum rest requests segno failures => s.retry rnode forknum rest requests segno failures
    | _ => none

end Sys
end PgStorage.Fsync
