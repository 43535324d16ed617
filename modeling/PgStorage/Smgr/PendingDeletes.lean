import Mathlib

/-! The pending deletes of a transaction.

The file of a relation is created at once and remembered, to be unlinked when the transaction aborts. An unlink
that is scheduled waits for the commit. Unlinks succeed; the storage manager's own errors are left out. -/
namespace PgStorage.Smgr

structure RelFileNode where
  spcNode : Nat
  dbNode : Nat
  relNode : Nat
  deriving DecidableEq

structure PendingRelDelete where
  relnode : RelFileNode
  /-- Delete at commit, or at abort. -/
  atCommit : Bool
  nestLevel : Nat
  deriving DecidableEq

structure Sys where
  files : Finset RelFileNode
  pendingDeletes : List PendingRelDelete
  /-- `GetCurrentTransactionNestLevel()` -/
  nestLevel : Nat
  /-- What was unlinked so far. -/
  unlinked : List RelFileNode

inductive Act
  | smgrcreate (rnode : RelFileNode)
  | smgrscheduleunlink (rnode : RelFileNode)
  | startSub
  | commitSub
  | abortSub
  | finish (isCommit : Bool)

namespace Sys

def start (files : Finset RelFileNode) : Sys := ⟨files, [], 1, []⟩

def smgrcreate (s : Sys) (rnode : RelFileNode) : Sys :=
  {s with
    files := insert rnode s.files
    pendingDeletes := ⟨rnode, false, s.nestLevel⟩ :: s.pendingDeletes}

def smgrscheduleunlink (s : Sys) (rnode : RelFileNode) : Sys :=
  {s with pendingDeletes := ⟨rnode, true, s.nestLevel⟩ :: s.pendingDeletes}

def smgrInternalUnlink (s : Sys) (rnode : RelFileNode) : Sys :=
  {s with files := s.files.erase rnode, unlinked := s.unlinked ++ [rnode]}

/-- The walk over the list, and the entries that stay on it. -/
def pendingLoop (isCommit : Bool) (nestLevel : Nat) : List PendingRelDelete → Sys → List PendingRelDelete × Sys
  | [], s => ([], s)
  | pending :: next, s =>
    if pending.nestLevel < nestLevel then
      -- outer-level entries are not processed yet
      let r := pendingLoop isCommit nestLevel next s
      (pending :: r.1, r.2)
    else
      pendingLoop isCommit nestLevel next
        (if pending.atCommit = isCommit then s.smgrInternalUnlink pending.relnode else s)

def smgrDoPendingDeletes (s : Sys) (isCommit : Bool) : Sys :=
  let r := pendingLoop isCommit s.nestLevel s.pendingDeletes s
  {r.2 with pendingDeletes := r.1}

def smgrGetPendingDeletes (s : Sys) (forCommit : Bool) : List RelFileNode :=
  (s.pendingDeletes.filter fun p => s.nestLevel ≤ p.nestLevel ∧ p.atCommit = forCommit).map (·.relnode)

def atSubCommitSmgr (s : Sys) : Sys :=
  {s with pendingDeletes := s.pendingDeletes.map fun p =>
    if s.nestLevel ≤ p.nestLevel then {p with nestLevel := s.nestLevel - 1} else p}

def atSubAbortSmgr (s : Sys) : Sys := s.smgrDoPendingDeletes false

/-- Relations are created new, and scheduled to be unlinked if they exist and are not scheduled already. -/
def next (s : Sys) : Act → Option Sys
  | .smgrcreate rnode => if rnode ∈ s.files then none else some (s.smgrcreate rnode)
  | .smgrscheduleunlink rnode =>
    if rnode ∈ s.files ∧ ∀ p ∈ s.pendingDeletes, p.relnode = rnode → p.atCommit = false then
      some (s.smgrscheduleunlink rnode)
    else none
  | .startSub => some {s with nestLevel := s.nestLevel + 1}
  | .commitSub => if 1 < s.nestLevel then some {s.atSubCommitSmgr with nestLevel := s.nestLevel - 1} else none
  | .abortSub => if 1 < s.nestLevel then some {s.atSubAbortSmgr with nestLevel := s.nestLevel - 1} else none
  | .finish isCommit => if s.nestLevel = 1 then some (s.smgrDoPendingDeletes isCommit) else none

end Sys
end PgStorage.Smgr
