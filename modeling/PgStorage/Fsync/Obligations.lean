import PgStorage.Fsync.PendingOps
import PgStorage.Lib.Trace

/-! What a completed `mdsync` has synced, and what it loses.

A request that is owed is in its entry of the table or in the bitmap that is detached from it. A failure
leaves the detached bitmap behind, and with it what is owed, unless the fork was cancelled meanwhile. -/
namespace PgStorage.Fsync
open Request PendingOperationEntry

namespace Sys

/-- The requests for a fork in its entry. -/
def requests (s : Sys) (k : Fork) : Finset Nat := (s.pendingOpsTable k.1).elim ∅ fun e => e.requests k.2

def canceled (s : Sys) (k : Fork) : Bool := (s.pendingOpsTable k.1).elim false fun e => e.canceled k.2

end Sys

/-- What a request adds for a fork. -/
def Request.adds (m : Request) (k : Fork) : Finset Nat :=
  match m with
  | .segment rnode forknum segno => if k = (rnode, forknum) then {segno} else ∅
  | _ => ∅

/-- The entry that is being processed. -/
def Pc.current : Pc → Option RelFileNode
  | .forks rnode _ => some rnode
  | .segments rnode _ _ _ => some rnode
  | .attempt rnode _ _ _ _ _ => some rnode
  | .retry rnode _ _ _ _ _ => some rnode
  | _ => none

/-- The forks of the entry that are still to be scanned. -/
def Pc.rest : Pc → List ForkNumber
  | .forks _ rest => rest
  | .segments _ _ rest _ => rest
  | .attempt _ _ rest _ _ _ => rest
  | .retry _ _ rest _ _ _ => rest
  | _ => []

/-- The fork that is being scanned. -/
def Pc.fork : Pc → Option Fork
  | .segments rnode forknum _ _ => some (rnode, forknum)
  | .attempt rnode forknum _ _ _ _ => some (rnode, forknum)
  | .retry rnode forknum _ _ _ _ => some (rnode, forknum)
  | _ => none

/-- The segments of it that are neither in the table nor done. -/
def Pc.detached : Pc → Finset Nat
  | .segments _ _ _ requests => requests
  | .attempt _ _ _ requests segno _ => insert segno requests
  | .retry _ _ _ requests segno _ => insert segno requests
  | _ => ∅

/-- The segment is in the detached bitmap, and the fork was not cancelled since. -/
def Held (s : Sys) (k : Fork) (n : Nat) : Prop :=
  s.pc.fork = some k ∧ n ∈ s.pc.detached ∧ s.canceled k = false

section Remember
variable {s t : Sys} {m : Request} {k : Fork} {n : Nat} {l : List Request} {r : RelFileNode}

/-! ### One request -/

/-- What a request does to one entry. -/
def Request.apply (m : Request) (ctr : CycleCtr) (r : RelFileNode) (e : Option PendingOperationEntry) :
    Option PendingOperationEntry :=
  match m with
  | .segment r' f n => if r = r' then some ((e.getD ⟨ctr, fun _ => ∅, fun _ => false⟩).addRequest f n) else e
  | .forgetRelation r' none => if r = r' then e.map .cancelForks else e
  | .forgetRelation r' (some f) => if r = r' then e.map fun e => e.cancelFork f else e
  | .forgetDatabase d => if r.dbNode = d then e.map .cancelForks else e

theorem setEntry_table (s : Sys) (r' : RelFileNode) (e : Option PendingOperationEntry) (r : RelFileNode) :
    (s.setEntry r' e).pendingOpsTable r = if r = r' then e else s.pendingOpsTable r := by
  rw [Sys.setEntry]
  dsimp only
  by_cases h : r = r'
  · rw [if_pos h, h, Function.update_self]
  · rw [if_neg h, Function.update_of_ne h]

theorem remember_table (s : Sys) (m : Request) (r : RelFileNode) :
    (s.remember m).pendingOpsTable r = m.apply s.mdsyncCycleCtr r (s.pendingOpsTable r) := by
  cases m with
  | segment r' f n =>
    have hset : ∀ e, (s.setEntry r' e).pendingOpsTable r = if r = r' then e else s.pendingOpsTable r :=
      fun e => setEntry_table s r' e r
    rw [Sys.remember, Sys.account, Sys.rememberFsyncRequest, apply]
    dsimp only
    by_cases hr : r = r'
    · subst hr
      rw [if_pos rfl]
      cases he : s.pendingOpsTable r with
      | none | some e => exact (hset _).trans (if_pos rfl)
    · rw [if_neg hr]
      cases s.pendingOpsTable r' with
      | none | some e => exact (hset _).trans (if_neg hr)
  | forgetRelation r' f =>
    cases f with
    | none | some f =>
      refine (setEntry_table s r' _ r).trans ?_
      rw [apply]
      split
      next hr => rw [hr]
      next => rfl
  | forgetDatabase d => rfl

/-- A request adds to what is there, and a cancel empties it. -/
theorem requests_remember :
    (s.remember m).requests k = if m.covers k = true then ∅ else m.adds k ∪ s.requests k := by
  rw [Sys.requests, remember_table, Sys.requests]
  cases m with
  | segment r f n =>
    cases s.pendingOpsTable k.1 <;>
      by_cases hr : k.1 = r <;> by_cases hf : k.2 = f <;>
      simp [apply, covers, adds, addRequest, Prod.ext_iff, hr, hf]
  | forgetRelation r f =>
    cases f with
    | none =>
      cases s.pendingOpsTable k.1 <;> by_cases hr : k.1 = r <;>
        simp [apply, covers, adds, cancelForks, hr]
    | some f =>
      cases s.pendingOpsTable k.1 <;> by_cases hr : k.1 = r <;> by_cases hf : k.2 = f <;>
        simp [apply, covers, adds, cancelFork, Prod.ext_iff, hr, hf]
  | forgetDatabase d =>
    cases s.pendingOpsTable k.1 <;> by_cases hd : k.1.dbNode = d <;>
      simp [apply, covers, adds, cancelForks, hd]

/-- A cancel marks the forks of the entries that are there. -/
theorem canceled_remember :
    (s.remember m).canceled k =
      ((m.covers k && (s.pendingOpsTable k.1).isSome) || s.canceled k) := by
  rw [Sys.canceled, remember_table, Sys.canceled]
  cases m with
  | segment r f n =>
    cases s.pendingOpsTable k.1 <;> by_cases hr : k.1 = r <;>
      simp [apply, covers, addRequest, hr]
  | forgetRelation r f =>
    cases f with
    | none =>
      cases s.pendingOpsTable k.1 <;> by_cases hr : k.1 = r <;>
        simp [apply, covers, cancelForks, hr]
    | some f =>
      cases s.pendingOpsTable k.1 <;> by_cases hr : k.1 = r <;> by_cases hf : k.2 = f <;>
        simp [apply, covers, cancelFork, Prod.ext_iff, hr, hf]
  | forgetDatabase d =>
    cases s.pendingOpsTable k.1 <;> by_cases hd : k.1.dbNode = d <;>
      simp [apply, covers, cancelForks, hd]

/-- What a request does not touch. -/
structure Frame (s t : Sys) : Prop where
  pc : t.pc = s.pc
  todo : t.todo = s.todo
  ctr : t.mdsyncCycleCtr = s.mdsyncCycleCtr
  inProgress : t.mdsyncInProgress = s.mdsyncInProgress
  gone : t.gone = s.gone
  sent : t.sent = s.sent

theorem rememberFsyncRequest_eq (s : Sys) (m : Request) :
    ∃ table keys, s.rememberFsyncRequest m = {s with pendingOpsTable := table, keys := keys} := by
  cases m with
  | segment r f n =>
    rw [Sys.rememberFsyncRequest]
    split
    · exact ⟨_, _, rfl⟩
    · exact ⟨_, _, rfl⟩
  | forgetRelation r f =>
    cases f with
    | none | some f => exact ⟨_, _, rfl⟩
  | forgetDatabase d => exact ⟨_, _, rfl⟩

theorem remember_frame (s : Sys) (m : Request) : Frame s (s.remember m) := by
  obtain ⟨table, keys, h⟩ := rememberFsyncRequest_eq s m
  rw [Sys.remember, h]
  exact ⟨rfl, rfl, rfl, rfl, rfl, rfl⟩

theorem owed_remember : (s.remember m).owed k = if m.covers k = true then ∅ else m.adds k ∪ s.owed k := by
  obtain ⟨table, keys, h⟩ := rememberFsyncRequest_eq s m
  rw [Sys.remember, h]
  cases m with
  | segment r f n =>
    by_cases hk : k = (r, f)
    · simp [Sys.account, covers, adds, hk]
    · simp [Sys.account, covers, adds, hk]
  | forgetRelation r f | forgetDatabase d => simp [Sys.account, adds]

theorem old_remember : (s.remember m).old k = if m.covers k = true then ∅ else s.old k := by
  obtain ⟨table, keys, h⟩ := rememberFsyncRequest_eq s m
  rw [Sys.remember, h]
  rfl

theorem apply_some (m : Request) (ctr : CycleCtr) (r : RelFileNode) (e : PendingOperationEntry) :
    ∃ e', m.apply ctr r (some e) = some e' ∧ e'.cycleCtr = e.cycleCtr := by
  cases m with
  | segment r' f n | forgetDatabase d => rw [apply]; split <;> exact ⟨_, rfl, rfl⟩
  | forgetRelation r' f =>
    cases f with
    | none | some f => rw [apply]; split <;> exact ⟨_, rfl, rfl⟩

variable {e : PendingOperationEntry}

theorem apply_none {ctr : CycleCtr} (h : m.apply ctr r none = some e) :
    e.cycleCtr = ctr := by
  cases m with
  | segment r' f n =>
    rw [apply] at h
    split at h
    · exact Option.some_inj.mp h ▸ rfl
    · exact absurd h nofun
  | forgetRelation r' f => cases f <;> simp [apply] at h
  | forgetDatabase d => simp [apply] at h

/-- Entries stay, with their cycle. -/
theorem remember_some (h : s.pendingOpsTable r = some e) :
    ∃ e', (s.remember m).pendingOpsTable r = some e' ∧ e'.cycleCtr = e.cycleCtr := by
  rw [remember_table, h]
  exact apply_some m _ r e

/-- New entries are of this cycle. -/
theorem remember_none (h : s.pendingOpsTable r = none)
    (he : (s.remember m).pendingOpsTable r = some e) : e.cycleCtr = s.mdsyncCycleCtr := by
  rw [remember_table, h] at he
  exact apply_none he

theorem keys_remember (h : ∀ r, r ∈ s.keys ↔ (s.pendingOpsTable r).isSome = true) (hnd : s.keys.Nodup) :
    (∀ r, r ∈ (s.remember m).keys ↔ ((s.remember m).pendingOpsTable r).isSome = true) ∧ (s.remember m).keys.Nodup := by
  have hsame : (s.remember m).keys = s.keys → (∀ r, (m.apply s.mdsyncCycleCtr r (s.pendingOpsTable r)).isSome =
      (s.pendingOpsTable r).isSome) →
      (∀ r, r ∈ (s.remember m).keys ↔ ((s.remember m).pendingOpsTable r).isSome = true) ∧
        (s.remember m).keys.Nodup := by
    intro hk ht
    rw [hk]
    exact ⟨fun r => by rw [h, remember_table, ht], hnd⟩
  cases m with
  | segment r' f n =>
    cases he : s.pendingOpsTable r' with
    | some e =>
      refine hsame (by rw [Sys.remember, Sys.rememberFsyncRequest, he]; rfl) fun r => ?_
      rw [apply]
      split
      next hr => rw [hr, he]; rfl
      next => rfl
    | none =>
      have hk : (s.remember (.segment r' f n)).keys = s.keys ++ [r'] := by
        rw [Sys.remember, Sys.rememberFsyncRequest, he]
        rfl
      have hr' : r' ∉ s.keys := by
        rw [h, he]
        exact nofun
      rw [hk]
      refine ⟨fun r => ?_, List.nodup_append.mpr ⟨hnd, List.nodup_singleton _, ?_⟩⟩
      · rw [remember_table, apply, List.mem_append, List.mem_singleton, h]
        by_cases hr : r = r'
        · simp [hr]
        · simp [hr]
      · rintro a ha b hb rfl
        exact hr' (List.mem_singleton.mp hb ▸ ha)
  | forgetRelation r' f =>
    refine hsame ?_ fun r => ?_
    · cases f <;> rfl
    · cases f <;> rw [apply] <;> split <;> simp
  | forgetDatabase d =>
    refine hsame rfl fun r => ?_
    rw [apply]
    split <;> simp

theorem absorb_keeps {P : Sys → Prop} (h : P s) (hstep : ∀ s m, P s → P (s.remember m))
    (hqueue : ∀ s, P s → P {s with queue := []}) : P s.absorbFsyncRequests := by
  have hfold : ∀ l s, P s → P (List.foldl Sys.remember s l) := by
    intro l
    induction l with
    | nil => exact fun _ h => h
    | cons m l ih => exact fun s h => ih _ (hstep s m h)
  exact hqueue _ (hfold s.queue s h)

theorem Frame.trans {u : Sys} (h : Frame s t) (h' : Frame t u) : Frame s u :=
  ⟨h'.pc.trans h.pc, h'.todo.trans h.todo, h'.ctr.trans h.ctr, h'.inProgress.trans h.inProgress,
    h'.gone.trans h.gone, h'.sent.trans h.sent⟩

theorem absorb_frame (s : Sys) : Frame s s.absorbFsyncRequests :=
  absorb_keeps (P := Frame s) ⟨rfl, rfl, rfl, rfl, rfl, rfl⟩ (fun t m h => h.trans (remember_frame t m))
    fun _ h => {h with}

end Remember

def Pc.busy : Pc → Bool
  | .idle => false
  | _ => true

/-- The table and the scan. -/
structure Scanning (s : Sys) : Prop where
  keys : ∀ r, r ∈ s.keys ↔ (s.pendingOpsTable r).isSome = true
  nodup : s.keys.Nodup
  present : ∀ r, s.pc.current = some r → (s.pendingOpsTable r).isSome = true
  todo_nodup : s.todo.Nodup
  todo_current : ∀ r ∈ s.todo, s.pc.current ≠ some r
  /-- What is still to be visited is of the last cycle. -/
  todo : ∀ r ∈ s.todo, ∃ e, s.pendingOpsTable r = some e ∧ e.cycleCtr + 1 = s.mdsyncCycleCtr
  idle : s.pc.busy = false → s.todo = []
  progress : s.mdsyncInProgress = false → s.pc.busy = false
  /-- What was visited is of this cycle, and so is all if the last `mdsync` completed. -/
  fresh : s.mdsyncInProgress = false ∨ s.pc.busy = true → ∀ r e, s.pendingOpsTable r = some e →
    r ∈ s.todo ∨ s.pc.current = some r ∨ e.cycleCtr = s.mdsyncCycleCtr

/-- What is owed is not lost, and what is old is still ahead of the scan. -/
structure Owing (s : Sys) : Prop where
  older : ∀ k, s.old k ⊆ s.owed k
  owed : ∀ k n, n ∈ s.owed k → n ∈ s.requests k ∨ Held s k n
  old : s.pc.busy = true → ∀ k n, n ∈ s.old k →
    k.1 ∈ s.todo ∨ (s.pc.current = some k.1 ∧ k.2 ∈ s.pc.rest) ∨ Held s k n

section Remember
variable {s t : Sys} {m : Request} {k : Fork} {n : Nat}

theorem Scanning.remember (h : Scanning s) (m : Request) : Scanning (s.remember m) := by
  have hf := remember_frame s m
  obtain ⟨hkeys, hnodup⟩ := keys_remember (m := m) h.keys h.nodup
  refine ⟨hkeys, hnodup, fun r hr => ?_, hf.todo ▸ h.todo_nodup, by rw [hf.todo, hf.pc]; exact h.todo_current,
    fun r hr => ?_, by rw [hf.pc, hf.todo]; exact h.idle, by rw [hf.inProgress, hf.pc]; exact h.progress,
    fun hp r e he => ?_⟩
  · rw [hf.pc] at hr
    obtain ⟨e, he⟩ := Option.isSome_iff_exists.mp (h.present r hr)
    obtain ⟨e', he', -⟩ := remember_some (m := m) he
    rw [he']
    rfl
  · rw [hf.todo] at hr
    obtain ⟨e, he, hc⟩ := h.todo r hr
    obtain ⟨e', he', hc'⟩ := remember_some (m := m) he
    exact ⟨e', he', by rw [hc', hf.ctr, hc]⟩
  · rw [hf.inProgress, hf.pc] at hp
    rw [hf.todo, hf.pc, hf.ctr]
    cases hs : s.pendingOpsTable r with
    | none => exact .inr (.inr (remember_none hs he))
    | some e' =>
      obtain ⟨x, hx, hc⟩ := remember_some (m := m) hs
      rw [he, Option.some_inj] at hx
      rw [hx, hc]
      exact h.fresh hp r e' hs

theorem Held.remember (h : Held s k n) (hm : m.covers k = false) : Held (s.remember m) k n := by
  have hf := remember_frame s m
  refine ⟨hf.pc ▸ h.1, hf.pc ▸ h.2.1, ?_⟩
  rw [canceled_remember, hm]
  exact h.2.2

/-- A cancel ends what is owed, and a request is owed from now on. -/
theorem Owing.remember (h : Owing s) (m : Request) : Owing (s.remember m) := by
  have hf := remember_frame s m
  constructor
  · intro k
    rw [old_remember, owed_remember]
    split
    · exact subset_rfl
    · exact (h.older k).trans Finset.subset_union_right
  · intro k n hn
    rw [owed_remember] at hn
    rw [requests_remember]
    split at hn
    next => exact absurd hn (Finset.notMem_empty n)
    next hm =>
      rw [if_neg hm]
      rcases Finset.mem_union.mp hn with hn | hn
      · exact .inl (Finset.mem_union_left _ hn)
      · rcases h.owed k n hn with hn | hn
        · exact .inl (Finset.mem_union_right _ hn)
        · exact .inr (hn.remember (Bool.eq_false_iff.mpr hm))
  · intro hb k n hn
    rw [hf.pc] at hb ⊢
    rw [old_remember] at hn
    rw [hf.todo]
    split at hn
    next => exact absurd hn (Finset.notMem_empty n)
    next hm =>
      rcases h.old hb k n hn with hn | hn | hn
      · exact .inl hn
      · exact .inr (.inl hn)
      · exact .inr (.inr (hn.remember (Bool.eq_false_iff.mpr hm)))

theorem Scanning.absorb (h : Scanning s) : Scanning s.absorbFsyncRequests :=
  absorb_keeps h (fun _ m h => h.remember m) fun _ h => {h with}

theorem Owing.absorb (h : Owing s) : Owing s.absorbFsyncRequests :=
  absorb_keeps h (fun _ m h => h.remember m) fun _ h => {h with}

end Remember
end PgStorage.Fsync
