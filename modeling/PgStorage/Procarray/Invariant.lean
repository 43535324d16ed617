import PgStorage.Lib.Links
import PgStorage.Lib.Locks
import PgStorage.Procarray.Procarray

/-! What holds between any two steps.

A process that has put itself on the list is on it until a leader takes the whole list, and then
in the group of that leader until the leader has reset its flag. So every process has one place,
and only the process itself or the leader it belongs to changes its link. -/
namespace PgStorage.Procarray
open Links Locks

/-- What a process is, as far as the lists are concerned. -/
inductive Role
  | outside
  | follower
  | leading
  | walking
  | waking
deriving DecidableEq

def Pc.role : Pc → Role
  | .sleep _ | .check _ => .follower
  | .lead | .detach | .detachCas _ => .leading
  | .walk .. => .walking
  | .wake _ | .wakeWrite .. | .wakeFlag .. | .wakeUnlock .. => .waking
  | _ => .outside

def Pc.locked : Pc → Bool
  | .direct _ | .directRelease | .detach | .detachCas _ | .walk .. => true
  | _ => false

/-- The first member of the group of a leader that it has not yet come to. -/
def Pc.head : Pc → Option Nat
  | .walk _ w | .wake w | .wakeWrite _ w | .wakeFlag _ w | .wakeUnlock _ w => w
  | _ => none

/-- The member that a leader is about to release. -/
def Pc.current : Pc → Option Nat
  | .wakeWrite x _ | .wakeFlag x _ => some x
  | _ => none

/-- Its flag is set, but it is not yet on the list. -/
def Pc.enrolled : Pc → Bool
  | .readFirst | .writeNext _ | .cas _ => true
  | _ => false

/-- The id it has been called with, until it is stored in its entry. -/
def Pc.latestXid : Pc → Option Nat
  | .start x | .direct x | .enroll x => some x
  | _ => none

/-- The signals it has taken from its semaphore in this call. -/
def Pc.absorbed : Pc → Nat
  | .sleep e => e
  | .check e | .giveBack e => e + 1
  | _ => 0

/-- The phase of the call of a process that is on no list. -/
def Pc.FreePhase : Pc → Phase → Prop
  | .idle, f => f = .out
  | .start _, f | .direct _, f | .enroll _, f | .readFirst, f | .writeNext _, f | .cas _, f => ∃ l, f = .called l
  | _, f => f = .cleared

inductive Place
  | free
  | shared
  | group (leader : Nat)
deriving DecidableEq

/-- Where a process of a role may be. -/
def Place.Allows (p : Nat) : Place → Role → Prop
  | .free, r => r = .outside ∨ r = .follower ∨ r = .waking
  | .shared, r => r = .follower ∨ r = .leading
  | .group q, r => r = .follower ∨ (q = p ∧ (r = .walking ∨ r = .waking))

/-- `l` is the shared list and `g` are the groups of the leaders. -/
structure Lists (s : Sys) (l : List Nat) (g : Nat → List Nat) (place : Nat → Place) : Prop where
  shared : Linked s.procArrayGroupNext s.procArrayGroupFirst l
  groups : ∀ q, Linked s.procArrayGroupNext (s.pc q).head (g q)
  mem_shared : ∀ p, p ∈ l ↔ place p = .shared
  mem_group : ∀ p q, (p ∈ g q ∨ (s.pc q).current = some p) ↔ place p = .group q
  current : ∀ p q, (s.pc q).current = some p → p ∉ g q
  allows : ∀ p, (place p).Allows p (s.pc p).role
  leader : ∀ p q, (s.pc p).role = .leading → (s.pc q).role = .leading → p = q
  led : l ≠ [] → ∃ p, (s.pc p).role = .leading
  link : ∀ p n, s.pc p = .cas n → s.procArrayGroupNext p = n
  cut : ∀ q x w, s.pc q = .wakeFlag x w → s.procArrayGroupNext x = none
  freed : ∀ p, place p = .free → (s.pc p).role = .follower → s.procArrayGroupNext p = none
  member : ∀ p, place p ≠ .free ∨ (s.pc p).enrolled = true → s.procArrayGroupMember p = true

/-- Where the calls are. A leader that walks has cleared the members it has passed. -/
structure Phases (s : Sys) (g : Nat → List Nat) (place : Nat → Place) (σ : Spec) : Prop where
  free : ∀ p, place p = .free → (s.pc p).FreePhase (σ.phase p)
  shared : ∀ p, place p = .shared → ∃ l, σ.phase p = .called l
  walk : ∀ q n w, s.pc q = .walk n w → ∃ done rest, g q = done ++ rest ∧ Path s.procArrayGroupNext w done n ∧
    (∀ p ∈ done, σ.phase p = .cleared) ∧ ∀ p ∈ rest, ∃ l, σ.phase p = .called l
  woken : ∀ p q, place p = .group q → (s.pc q).role = .waking → σ.phase p = .cleared

/-- The entry of a transaction that has ended. -/
structure PgProc.Cleared (r : PgProc) : Prop where
  xid : r.pgxact.xid = invalidTransactionId
  xmin : r.pgxact.xmin = invalidTransactionId
  nxids : r.pgxact.nxids = 0
  overflowed : r.pgxact.overflowed = false

/-- The entries, and the ids that go with the calls. -/
structure Entries (s : Sys) (σ : Spec) : Prop where
  valid : ∀ p l, σ.phase p = .called l → toXid l = invalidTransactionId → ∃ x, s.pc p = .start x
  running : ∀ p l, σ.phase p = .called l → toXid l ≠ invalidTransactionId →
    (s.proc p).pgxact.xid ≠ invalidTransactionId
  cleared : ∀ p, σ.phase p = .cleared → (s.proc p).Cleared
  xid : ∀ p l, σ.phase p = .called l → (s.pc p).latestXid.getD (s.procArrayGroupMemberXid p) = toXid l

def Event.isRet (p : Nat) : Event → Bool
  | .ret q true => q == p
  | _ => false

def Event.isPost (p : Nat) : Event → Bool
  | .post q => q == p
  | _ => false

/-- Signals are in the semaphore, absorbed for now, or used by a call that has returned. -/
def Balanced (sem : Nat → Nat) (s : Sys) : Prop :=
  ∀ p, s.sem p + (s.pc p).absorbed + s.hist.countP (Event.isRet p) = sem p + s.hist.countP (Event.isPost p)

structure Inv (σ₀ : Spec) (s : Sys) (l : List Nat) (g : Nat → List Nat) (place : Nat → Place) (σ : Spec) : Prop where
  owner : Owner Pc.locked s.pc s.lock
  alone : s.lock ≠ none → s.outside = 0
  lists : Lists s l g place
  phases : Phases s g place σ
  entries : Entries s σ
  hist : σ₀.run s.hist = some σ

/-- The invariant, with the lists, places and phases as the run has made them. -/
def Holds (σ₀ : Spec) (s : Sys) : Prop := ∃ l g place σ, Inv σ₀ s l g place σ

end PgStorage.Procarray
