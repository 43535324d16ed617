import PgStorage.Lmgr.Lock

/-! Releases that fail.

`LockRelease` takes the lock off the shared counters before it looks for the caller's own entry; of
a user lock it does so afterwards. A release that finds no entry returns false in both cases, and
only the second leaves the table as it was. -/
namespace PgStorage.Lmgr

section
variable {X T : Type} [DecidableEq X] [DecidableEq T]

/-- `LockRelease` of a user lock. The holder is a process, and its entry is in no queue. -/
def lockReleaseUser (ctl : Ctl) (s : LockSys X T) (x : X) (tag : T) (t : Nat) : LockSys X T × Bool :=
  match s.lockHash tag with
  | none => (s, false)
  | some a =>
    match s.xidHash x a with
    | none => (s, false)
    | some e =>
      let e := e.sub t
      let s := s.setEnt x a (if e.nHolding = 0 then none else some e)
      let l := (s.lock a).ungrant t
      let s := s.setLock a l
      let s := if l.nHolding = 0 then (s.removeLock tag).1 else s
      let s := s.setLock a (l.clearMask t)
      (if l.nHolding = 0 then s else procLockWakeup ctl a l.waitProcs s, true)

/-- `LockRelease`, by the kind of lock. -/
def release (ctl : Ctl) (s : LockSys X T) (userLock : Bool) (x : X) (tag : T) (t : Nat) : LockSys X T × Bool :=
  if userLock then lockReleaseUser ctl s x tag t else lockRelease ctl s x tag t

/-- A release that returns false has changed nothing. -/
def FailsAtomically (ctl : Ctl) (s : LockSys X T) (userLock : Bool) (x : X) (tag : T) (t : Nat) : Prop :=
  (release ctl s userLock x tag t).2 = false → (release ctl s userLock x tag t).1 = s

variable {ctl : Ctl} {s : LockSys X T} {x : X} {tag : T} {t : Nat} {a : Addr}

theorem lockReleaseUser_atomic : FailsAtomically ctl s true x tag t := by
  intro hfalse
  change (lockReleaseUser ctl s x tag t).2 = false at hfalse
  change (lockReleaseUser ctl s x tag t).1 = s
  unfold lockReleaseUser at hfalse ⊢
  split
  · rfl
  · rename_i a ha
    split
    · rfl
    · rename_i e he
      simp only [ha, he] at hfalse
      exact absurd hfalse nofun

/-- A release by a transaction without an entry counts the lock down all the same. -/
theorem lockRelease_counts (h : s.lockHash tag = some a) (hx : s.xidHash x a = none) :
    (lockRelease ctl s x tag t).2 = false ∧
      ((lockRelease ctl s x tag t).1.lock a).nHolding = (s.lock a).nHolding - 1 := by
  have hlock (u : LockSys X T) : (u.removeLock tag).1.lock = u.lock := by
    unfold LockSys.removeLock
    split <;> rfl
  have hent (u : LockSys X T) : (u.removeLock tag).1.xidHash = u.xidHash := by
    unfold LockSys.removeLock
    split <;> rfl
  have hset : ((s.setLock a ((s.lock a).ungrant t)).lock a).nHolding = (s.lock a).nHolding - 1 := by
    show ((Function.update s.lock a ((s.lock a).ungrant t)) a).nHolding = _
    rw [Function.update_self]
    rfl
  simp only [lockRelease, h]
  by_cases hlast : ((s.lock a).ungrant t).nHolding = 0
  · have hnone : ((s.setLock a ((s.lock a).ungrant t)).removeLock tag).1.xidHash x a = none := by
      rw [hent]
      exact hx
    rw [if_pos hlast, hnone]
    exact ⟨rfl, by rw [hlock]; exact hset⟩
  · have hnone : (s.setLock a ((s.lock a).ungrant t)).xidHash x a = none := hx
    rw [if_neg hlast, hnone]
    exact ⟨rfl, hset⟩

theorem lockRelease_returns {e : XidEnt} (h : s.lockHash tag = some a) (hx : s.xidHash x a = some e) :
    (lockRelease ctl s x tag t).2 = true := by
  have hent (u : LockSys X T) : (u.removeLock tag).1.xidHash = u.xidHash := by
    unfold LockSys.removeLock
    split <;> rfl
  simp only [lockRelease, h]
  by_cases hlast : ((s.lock a).ungrant t).nHolding = 0
  · have hsome : ((s.setLock a ((s.lock a).ungrant t)).removeLock tag).1.xidHash x a = some e := by
      rw [hent]
      exact hx
    rw [if_pos hlast, hsome]
  · have hsome : (s.setLock a ((s.lock a).ungrant t)).xidHash x a = some e := hx
    rw [if_neg hlast, hsome]

end

/-- **A failed release leaves the table alone exactly for user locks, for a lock that is not in the
table, and for a holder with an entry for it.** -/
theorem release_atomic_iff {X T : Type} [DecidableEq X] [DecidableEq T] (ctl : Ctl) (s : LockSys X T)
    (userLock : Bool) (x : X) (tag : T) (t : Nat) :
    FailsAtomically ctl s userLock x tag t ↔
      (userLock = false → ∀ a, s.lockHash tag = some a → s.xidHash x a ≠ none) := by
  cases userLock with
  | true => exact ⟨fun _ => nofun, fun _ => lockReleaseUser_atomic⟩
  | false =>
    constructor
    · intro h _ a ha hx
      obtain ⟨hfalse, hcount⟩ : (lockRelease ctl s x tag t).2 = false ∧
          ((lockRelease ctl s x tag t).1.lock a).nHolding = (s.lock a).nHolding - 1 := lockRelease_counts ha hx
      have hsame : (lockRelease ctl s x tag t).1 = s := h hfalse
      rw [hsame] at hcount
      omega
    · intro h hfalse
      cases ha : s.lockHash tag with
      | none =>
        show (lockRelease ctl s x tag t).1 = s
        rw [lockRelease, ha]
      | some a =>
        obtain ⟨e, he⟩ := Option.ne_none_iff_exists'.mp (h rfl a ha)
        have htrue : (lockRelease ctl s x tag t).2 = true := lockRelease_returns ha he
        exact absurd (htrue.symm.trans hfalse) nofun

/-- Transaction 0 holds the lock and transaction 1 releases it. -/
theorem release_not_atomic :
    ¬ FailsAtomically multiCtl (lockAcquire multiCtl (LockSys.start 7 fun _ : Nat => 0) 0 7 1).1 false 1 7 1 := by
  intro h
  have hsame := congrArg (fun s : LockSys Nat Nat => (s.lock 0).nHolding) (h rfl)
  exact absurd hsame (by decide)

end PgStorage.Lmgr
