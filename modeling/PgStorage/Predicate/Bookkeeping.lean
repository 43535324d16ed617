import PgStorage.Predicate.Register
import PgStorage.Lib.Trace

/-! The bookkeeping over whole runs. -/
namespace PgStorage.Predicate
open Places Locks
open List Option

variable {s s' t : State} {place : Nat → Place} {holder : Nat → Holder} {b i : Nat}

/-- The steps that lose neither an entry nor the oldest `xmin`. -/
def Clean (s : State) (b : Nat) (action : Action) : Prop :=
  match action, s.pc b with
  | .register raises, .registering readOnly source => registersCleanly s readOnly source raises = true
  | .summarized room, _ => room = true
  | _, _ => True

instance (s : State) (b : Nat) (action : Action) : Decidable (Clean s b action) := by
  unfold Clean
  split <;> infer_instance

section
variable (h : Inv s place holder)
include h

theorem Inv.setRwConflict {reader writer : Nat} (hne : reader ≠ writer)
    (hr : reader ∈ s.activeList) (hw : writer ∈ s.activeList) :
    ∃ place', Inv ((Predicate.setRwConflict reader writer s).getD s) place' holder := by
  cases heq : Predicate.setRwConflict reader writer s with
  | none => exact ⟨place, h⟩
  | some s' =>
    obtain ⟨hlinks, e, hpool, he⟩ := setRwConflict_spec h.elements hne heq
    refine ⟨_, h.relink hlinks.frame hlinks.status he (h.sides.link hlinks hpool (fun r w hp => ?_) nofun)⟩
    cases hp
    exact ⟨hr, hw⟩

theorem Inv.flags (hf : Flags s s') : Inv s' place holder :=
  (h.elements.shrinks_flags hf).inv h

theorem Inv.doom (i : Nat) :
    Inv (s.setSxact i { s.sxact i with doomed := true }) place holder := by
  refine h.flags (.set rfl ?_)
  have hd := h.marked.doomed i
  simp only [SerializableXact.status, Prod.mk.injEq, true_and, Bool.or_true]
  exact hd.symm

theorem Inv.preCommit (i n : Nat) :
    Inv ({ s with lastSxactCommitSeqNo := n }.setSxact i { s.sxact i with prepareSeqNo := n, prepared := true }) place
      holder := by
  have h' : Inv { s with lastSxactCommitSeqNo := n } place holder :=
    h.other ⟨rfl, rfl, rfl, rfl, rfl, rfl, rfl, le_rfl⟩
      ⟨h.entries.placed, h.entries.dummy, h.entries.process, h.entries.status⟩ h.lock h.points h.snapshots
  exact h'.flags (.set rfl rfl)

theorem Inv.clearNext (hpc : s.pc b = .clearing (some i)) :
    ∃ holder', Inv (Predicate.clearNext b i s) place holder' := by
  have hentry : (s.pc b).entry = none := by rw [hpc]; rfl
  have hholds : (s.pc b).holdsFinishedListLock = true := by rw [hpc]; rfl
  have hi : i ∈ s.finished := h.points (b := b) (by rw [hpc]; exact mem_cons_self)
  have hnd := h.entries.nodup .finished
  have hnext : ∀ j ∈ (shmQueueNext s.finished i).toList, j ∈ s.finished ∧ j ≠ i := fun j hj => by
    have heq := mem_toList.mp hj
    exact ⟨mem_shmQueueNext heq, shmQueueNext_ne hnd hi heq⟩
  have htake : ∀ through, Inv ({ s with finished := s.finished.erase i }.setPc b
      (.clearingOne i (shmQueueNext s.finished i) false through)) place (Function.update holder i (.process b)) :=
    fun through => h.take s.finishedListLock hi hentry rfl rfl (h.lock.keep hholds.symm)
      (fun j hj => hnd.mem_erase_iff.mpr (hnext j hj).symm) fun _ hne => h.no_other_points hholds hne
  rw [Predicate.clearNext]
  split
  · exact ⟨_, htake false⟩
  · split
    · split
      · exact ⟨_, htake true⟩
      · refine ⟨holder, h.turn b (.clearingOne i (shmQueueNext s.finished i) true true) s.finishedListLock
          hentry.symm nofun (h.lock.keep hholds.symm) (fun j hj => ?_)
          s.havePartialClearedThrough⟩
        rcases mem_cons.mp hj with rfl | hj
        · exact hi
        · exact (hnext j hj).1
    · exact ⟨holder, h.turn b .idle none hentry.symm nofun (h.lock.release hholds rfl) nofun s.havePartialClearedThrough⟩

/-- **The invariant is kept by every clean step.** -/
theorem Inv.step {action : Action} (hclean : Clean s b action)
    (heq : step s b action = some s') : ∃ place' holder', Inv s' place' holder' := by
  cases action with
  | start readOnly source =>
    cases hpc : s.pc b with
    | idle =>
      simp only [Predicate.step, hpc, some.injEq] at heq
      subst heq
      exact ⟨place, holder, h.turn b (.registering readOnly source) s.finishedListLock (by rw [hpc]; rfl) nofun
        (h.lock.keep (by rw [hpc]; rfl)) nofun s.havePartialClearedThrough⟩
    | _ => simp [Predicate.step, hpc] at heq
  | register raises =>
    cases hpc : s.pc b with
    | registering readOnly source =>
      simp only [Predicate.step, hpc, some.injEq] at heq
      simp only [Clean, hpc] at hclean
      subst heq
      exact h.register hpc hclean
    | _ => simp [Predicate.step, hpc] at heq
  | summarize =>
    cases hpc : s.pc b with
    | summarize readOnly source =>
      simp only [Predicate.step, hpc] at heq
      split at heq
      next hfree =>
        have hl := h.lock
        rw [hfree] at hl
        split at heq
        next hnil =>
          obtain rfl := some.inj heq
          exact ⟨place, holder, h.turn b (.registering readOnly source) s.finishedListLock (by rw [hpc]; rfl) nofun
            (h.lock.keep (by rw [hpc]; rfl)) nofun s.havePartialClearedThrough⟩
        next i rest hcons =>
          obtain rfl := some.inj heq
          have hi : i ∈ s.finished := by
            rw [hcons]
            exact mem_cons_self
          have htake := h.take (some b) (c := .summarizing i readOnly source) hi (by rw [hpc]; rfl) rfl rfl (hl.acquire (p := b) rfl) nofun
            fun b' _ => h.no_points hfree b'
          rw [hcons, erase_cons_head] at htake
          exact ⟨place, _, htake⟩
      · cases heq
    | _ => simp [Predicate.step, hpc] at heq
  | summarized room =>
    cases hpc : s.pc b with
    | summarizing i readOnly source =>
      simp only [Predicate.step, hpc] at heq
      obtain rfl : room = true := hclean
      rw [if_pos rfl] at heq
      obtain rfl := some.inj heq
      exact h.releaseOne none true (by rw [hpc]; rfl) (by rw [hpc]; rfl) rfl (h.lock.release (by rw [hpc]; rfl) rfl) nofun
    | _ => simp [Predicate.step, hpc] at heq
  | setRwConflict reader writer =>
    cases hpc : s.pc b with
    | running i didWrite =>
      simp only [Predicate.step, hpc] at heq
      split at heq
      next hguard =>
        obtain rfl := some.inj heq
        obtain ⟨place', h'⟩ := h.setRwConflict hguard.2.1 (of_decide_eq_true hguard.2.2.1).1
          (of_decide_eq_true hguard.2.2.2).1
        exact ⟨place', holder, h'⟩
      · cases heq
    | _ => simp [Predicate.step, hpc] at heq
  | doom i =>
    cases hpc : s.pc b with
    | running j didWrite =>
      simp only [Predicate.step, hpc] at heq
      split at heq
      · obtain rfl := some.inj heq
        exact ⟨place, holder, h.doom i⟩
      · cases heq
    | _ => simp [Predicate.step, hpc] at heq
  | write =>
    cases hpc : s.pc b with
    | running i didWrite =>
      simp only [Predicate.step, hpc, some.injEq] at heq
      subst heq
      exact ⟨place, holder, h.turn b (.running i true) s.finishedListLock (by rw [hpc]; rfl)
        (fun _ => by rw [hpc]; rfl) (h.lock.keep (by rw [hpc]; rfl)) nofun s.havePartialClearedThrough⟩
    | _ => simp [Predicate.step, hpc] at heq
  | preCommit =>
    cases hpc : s.pc b with
    | running i didWrite =>
      simp only [Predicate.step, hpc] at heq
      split at heq
      · obtain rfl := some.inj heq
        exact ⟨place, holder, h⟩
      · obtain rfl := some.inj heq
        exact ⟨place, holder, h.preCommit i _⟩
    | _ => simp [Predicate.step, hpc] at heq
  | postPrepare =>
    cases hpc : s.pc b with
    | running i didWrite =>
      simp only [Predicate.step, hpc] at heq
      split at heq
      · obtain rfl := some.inj heq
        exact ⟨place, _, h.prepare hpc⟩
      · cases heq
    | _ => simp [Predicate.step, hpc] at heq
  | twoPhaseFinish i isCommit =>
    cases hpc : s.pc b with
    | idle =>
      simp only [Predicate.step, hpc] at heq
      split at heq
      next hi =>
        obtain rfl := some.inj heq
        have hholder := h.entries.prepared.mp hi
        have hnd := h.entries.nodup .prepared
        refine h.close (s.preparedXacts.erase i) isCommit true (.inr hholder) ?_ (fun k _ => by rw [hpc]; exact nofun) (by rw [hpc]; rfl)
          (.erase hnd) fun hmem => (hnd.mem_erase_iff.mp hmem).1 rfl
        rw [h.entries.status i (h.entries.active.mpr (by rw [hholder]; exact .inl rfl)), hholder]
        rfl
      · cases heq
    | _ => simp [Predicate.step, hpc] at heq
  | release isCommit =>
    cases hpc : s.pc b with
    | running i didWrite =>
      simp only [Predicate.step, hpc] at heq
      split at heq
      · cases heq
      · obtain rfl := some.inj heq
        have hentry : (s.pc b).entry = some i := by rw [hpc]; rfl
        have hholder := h.entries.entry hentry
        refine h.close s.preparedXacts isCommit didWrite (.inl hholder) ?_ (fun k hk => ?_) (by rw [hpc]; rfl)
          (.same (h.entries.nodup .prepared)) fun hmem => nomatch hholder.symm.trans (h.entries.prepared.mp hmem)
        · rw [h.entries.status i (h.entries.entry_active hentry), hholder]
          show (!(s.pc b).over) = true
          rw [hpc]
          rfl
        · rw [hentry]
          rintro ⟨⟩
          exact hk rfl
    | _ => simp [Predicate.step, hpc] at heq
  | finish =>
    cases hpc : s.pc b with
    | finishing i isCommit needToClear =>
      simp only [Predicate.step, hpc] at heq
      split at heq
      next hfree =>
        have hl := h.lock
        rw [hfree] at hl
        split at heq
        · obtain rfl := some.inj heq
          refine ⟨place, _, h.give (by rw [hpc]; rfl) (by rw [hpc]; rfl) hfree ?_ ?_⟩
          all_goals cases needToClear <;> rfl
        · obtain rfl := some.inj heq
          exact ⟨place, holder, h.turn b (.releasing i needToClear) (some b) (by rw [hpc]; rfl) (fun _ => by rw [hpc]; rfl)
            (hl.acquire rfl) nofun s.havePartialClearedThrough⟩
      · cases heq
    | _ => simp [Predicate.step, hpc] at heq
  | releaseOne =>
    cases hpc : s.pc b with
    | releasing i needToClear =>
      simp only [Predicate.step, hpc, some.injEq] at heq
      subst heq
      refine h.releaseOne none false (by rw [hpc]; rfl) (by rw [hpc]; rfl) ?_ (h.lock.release (by rw [hpc]; rfl) ?_) ?_
      · cases needToClear <;> rfl
      · cases needToClear <;> rfl
      · cases needToClear <;> exact nofun
    | _ => simp [Predicate.step, hpc] at heq
  | clear =>
    cases hpc : s.pc b with
    | clear =>
      simp only [Predicate.step, hpc] at heq
      split at heq
      next hfree =>
        obtain rfl := some.inj heq
        have hl := h.lock
        rw [hfree] at hl
        exact ⟨place, holder, h.turn b (.clearing s.finished.head?) (some b) (by rw [hpc]; rfl) nofun (hl.acquire rfl)
          (fun j hj => mem_of_head? (mem_toList.mp hj)) s.havePartialClearedThrough⟩
      · cases heq
    | _ => simp [Predicate.step, hpc] at heq
  | clearNext =>
    cases hpc : s.pc b with
    | clearing finishedSxact =>
      cases finishedSxact with
      | none =>
        simp only [Predicate.step, hpc, some.injEq] at heq
        subst heq
        exact ⟨place, holder, h.turn b .idle none (by rw [hpc]; rfl) nofun
          (h.lock.release (by rw [hpc]; rfl) rfl) nofun s.havePartialClearedThrough⟩
      | some i =>
        simp only [Predicate.step, hpc, some.injEq] at heq
        subst heq
        obtain ⟨holder', h'⟩ := h.clearNext hpc
        exact ⟨place, holder', h'⟩
    | _ => simp [Predicate.step, hpc] at heq
  | clearOne =>
    cases hpc : s.pc b with
    | clearingOne i nextSxact keep clearThrough =>
      simp only [Predicate.step, hpc, some.injEq] at heq
      subst heq
      have hholds : (s.pc b).holdsFinishedListLock = true := by rw [hpc]; rfl
      have hpoints : ∀ j ∈ nextSxact.toList, j ∈ s.finished := fun j hj =>
        h.points (b := b) (by rw [hpc]; exact mem_append_right _ hj)
      cases keep with
      | true =>
        obtain ⟨place', h', hpc', hfinished⟩ := h.releasePart i
        refine ⟨place', holder, h'.turn b (if clearThrough then .cleared i nextSxact else .clearing nextSxact)
          (releaseOneSerializableXact i true false s).finishedListLock ?_ ?_ (h'.lock.keep ?_) (fun j hj => ?_)
          (releaseOneSerializableXact i true false s).havePartialClearedThrough⟩
        · rw [hpc', hpc]
          cases clearThrough <;> rfl
        · cases clearThrough <;> exact nofun
        · rw [hpc', hpc]
          cases clearThrough <;> rfl
        · rw [hfinished]
          refine hpoints j ?_
          cases clearThrough <;> exact hj
      | false =>
        refine h.releaseOne (c := if clearThrough then .cleared i nextSxact else .clearing nextSxact)
          (releaseOneSerializableXact i false false s).finishedListLock false (by rw [hpc]; rfl) (by rw [hpc]; rfl)
          ?_ ?_ fun j hj => hpoints j ?_
        · cases clearThrough <;> rfl
        · rw [releaseOne_lock i false false h.elements]
          refine h.lock.keep ?_
          rw [hholds]
          cases clearThrough <;> rfl
        · cases clearThrough <;> exact hj
    | _ => simp [Predicate.step, hpc] at heq
  | clearThrough =>
    cases hpc : s.pc b with
    | cleared i nextSxact =>
      simp only [Predicate.step, hpc, some.injEq] at heq
      subst heq
      exact ⟨place, holder, h.turn b (.clearing nextSxact) s.finishedListLock (by rw [hpc]; rfl) nofun
        (h.lock.keep (by rw [hpc]; rfl)) (fun j hj => h.points (b := b) (by rw [hpc]; exact hj)) (s.sxact i).commitSeqNo⟩
    | _ => simp [Predicate.step, hpc] at heq
  | endTransaction =>
    simp only [Predicate.step, some.injEq] at heq
    subst heq
    refine ⟨place, holder, h.other ⟨rfl, rfl, rfl, rfl, rfl, rfl, rfl, le_rfl⟩
      ⟨h.entries.placed, h.entries.dummy, h.entries.process, h.entries.status⟩ h.lock h.points fun {b' x} hx => ?_⟩
    change Function.update s.snapshotXmin b none b' = some x at hx
    rcases eq_or_ne b' b with rfl | hne
    · rw [Function.update_self] at hx
      cases hx
    · rw [Function.update_of_ne hne] at hx
      exact h.snapshots hx
  | assignXids oldestXid nextXid =>
    have heq' : (if s.oldestXid ≤ oldestXid ∧ s.nextXid ≤ nextXid then some { s with oldestXid, nextXid } else none) =
      some s' := by simpa only [Predicate.step] using heq
    split at heq'
    next hle =>
      obtain rfl := some.inj heq'
      exact ⟨place, holder, h.other ⟨rfl, rfl, rfl, rfl, rfl, rfl, rfl, hle.1⟩
        ⟨h.entries.placed, h.entries.dummy, h.entries.process, h.entries.status⟩ h.lock h.points
        fun hx => (h.snapshots hx).trans hle.1⟩
    · cases heq'

end

/-! ### The books -/

/-- Registered, and neither committed nor rolled back. -/
def Registered (s : State) (i : Nat) : Prop :=
  i ∈ s.activeList ∧ i ≠ oldCommittedSxact ∧ (s.sxact i).committed = false ∧ (s.sxact i).rolledBack = false

/-- `MySerializableXact` -/
def Pc.mySerializableXact : Pc → Option Nat
  | .running i _ | .finishing i _ _ | .releasing i _ => some i
  | _ => none

/-- The entry that a process has unlinked from the finished list, under the lock of the list, to release it. -/
def Pc.unlinked : Pc → Option Nat
  | .summarizing i _ _ | .clearingOne i _ false _ => some i
  | _ => none

/-- The lists that an element's `outLink` may be on: a transaction's conflicts out, and the possibly unsafe conflicts of
one that may write. -/
def State.outLists (s : State) (i : Nat) : List Nat :=
  (s.sxact i).outConflicts ++ if (s.sxact i).readOnly then [] else (s.sxact i).possibleUnsafeConflicts

/-- Those of its `inLink`. -/
def State.inLists (s : State) (i : Nat) : List Nat :=
  (s.sxact i).inConflicts ++ if (s.sxact i).readOnly then (s.sxact i).possibleUnsafeConflicts else []

/-- What the books say while `SerializableXactHashLock` is free. -/
structure Bookkeeping (s : State) : Prop where
  noXmin : s.sxactGlobalXmin = none → s.sxactGlobalXminCount = 0 ∧ ∀ i, ¬ Registered s i
  xmin : ∀ xmin, s.sxactGlobalXmin = some xmin → (∃ i, Registered s i ∧ (s.sxact i).xmin = xmin) ∧
    (∀ i, Registered s i → xmin ≤ (s.sxact i).xmin) ∧
    ∃ l : List Nat, l.Nodup ∧ (∀ i, i ∈ l ↔ Registered s i ∧ (s.sxact i).xmin = xmin) ∧ s.sxactGlobalXminCount = l.length
  writable : ∃ l : List Nat, l.Nodup ∧ (∀ i, i ∈ l ↔ Registered s i ∧ (s.sxact i).readOnly = false) ∧
    s.writableSxactCount = l.length
  conflicts : ∀ e < s.conflicts,
    (s.pool.count e = 1 ∧ ∀ i, e ∉ s.outLists i ∧ e ∉ s.inLists i) ∨
    s.pool.count e = 0 ∧ ∃ o i, (∀ k, (s.outLists k).count e = if k = o then 1 else 0) ∧
      ∀ k, (s.inLists k).count e = if k = i then 1 else 0
  active : ∀ i ∈ s.activeList, i = oldCommittedSxact ∨ (∃ b, (s.pc b).mySerializableXact = some i) ∨
    i ∈ s.preparedXacts ∨ i ∈ s.finished ∨ ∃ b, s.finishedListLock = some b ∧ (s.pc b).unlinked = some i

theorem registered_iff : Registered s i ↔ i ∈ s.activeList ∧ inProgress s.sxact i = true := by
  rw [Registered, inProgress, Bool.and_eq_true, Bool.and_eq_true, Bool.not_eq_true', Bool.not_eq_true',
    decide_eq_true_eq]
  constructor
  · rintro ⟨hmem, hne, hc, hr⟩
    exact ⟨hmem, ⟨hr, hc⟩, hne⟩
  · rintro ⟨hmem, ⟨hr, hc⟩, hne⟩
    exact ⟨hmem, hne, hc, hr⟩

/-- A count over the active list is the length of a list without repetitions. -/
theorem Inv.counted (h : Inv s place holder) (p : Nat → Bool) :
    ∃ l : List Nat, l.Nodup ∧ (∀ i, i ∈ l ↔ i ∈ s.activeList ∧ p i = true) ∧ s.activeList.countP p = l.length :=
  ⟨s.activeList.filter p, (h.entries.nodup .active).filter p, fun _ => mem_filter, countP_eq_length_filter⟩

theorem count_eq_ite {l : List Nat} {e : Nat} (hl : l.Nodup) {p : Prop} [Decidable p] (h : e ∈ l ↔ p) :
    l.count e = if p then 1 else 0 := by
  split
  next hp => exact count_eq_one_of_mem hl (h.mpr hp)
  next hp => exact count_eq_zero_of_not_mem fun hmem => hp (h.mp hmem)

theorem Inv.conflicts (h : Inv s place holder) {e : Nat} (he : e < s.conflicts) :
    (s.pool.count e = 1 ∧ ∀ i, e ∉ s.outLists i ∧ e ∉ s.inLists i) ∨
    s.pool.count e = 0 ∧ ∃ o i, (∀ k, (s.outLists k).count e = if k = o then 1 else 0) ∧
      ∀ k, (s.inLists k).count e = if k = i then 1 else 0 := by
  have hnd := h.elements.nodup
  have hpool : e ∈ s.pool ↔ (place e).on .pool := h.elements.mem (q := .pool)
  have hout : ∀ k, e ∈ (s.sxact k).outConflicts ↔ (place e).on (.outConflicts k) := fun k =>
    h.elements.mem (q := .outConflicts k)
  have hin : ∀ k, e ∈ (s.sxact k).inConflicts ↔ (place e).on (.inConflicts k) := fun k =>
    h.elements.mem (q := .inConflicts k)
  have hpossible : ∀ k, e ∈ (s.sxact k).possibleUnsafeConflicts ↔ (place e).on (.possibleUnsafeConflicts k) := fun k =>
    h.elements.mem (q := .possibleUnsafeConflicts k)
  have hzero : ∀ {l : List Nat}, e ∉ l → l.count e = 0 := fun hmem => count_eq_zero_of_not_mem hmem
  cases hx : place e with
  | none => exact absurd hx (h.elements.element he)
  | pool =>
    rw [hx] at hpool hout hin hpossible
    refine .inl ⟨count_eq_one_of_mem (hnd .pool) (hpool.mpr rfl), fun k => ⟨fun hmem => ?_, fun hmem => ?_⟩⟩
    · rcases mem_append.mp hmem with hmem | hmem
      · cases (hout k).mp hmem
      · split at hmem
        · cases hmem
        · cases (hpossible k).mp hmem
    · rcases mem_append.mp hmem with hmem | hmem
      · cases (hin k).mp hmem
      · split at hmem
        · cases (hpossible k).mp hmem
        · cases hmem
  | conflict reader writer =>
    rw [hx] at hpool hout hin hpossible
    have hnone : ∀ k, e ∉ (s.sxact k).possibleUnsafeConflicts := fun k hmem => ((hpossible k).mp hmem).elim nofun nofun
    refine .inr ⟨hzero fun hmem => (hpool.mp hmem).elim nofun nofun, reader, writer, fun k => ?_, fun k => ?_⟩
    · rw [State.outLists, count_append, hzero (l := ite ..), add_zero]
      · refine count_eq_ite (hnd (.outConflicts k)) ((hout k).trans ?_)
        exact ⟨(·.elim (fun heq => by cases heq; rfl) nofun), fun heq => .inl (by rw [heq])⟩
      · split
        · exact not_mem_nil
        · exact hnone k
    · rw [State.inLists, count_append, hzero (l := ite ..), add_zero]
      · refine count_eq_ite (hnd (.inConflicts k)) ((hin k).trans ?_)
        exact ⟨(·.elim nofun fun heq => by cases heq; rfl), fun heq => .inr (by rw [heq])⟩
      · split
        · exact hnone k
        · exact not_mem_nil
  | possibleUnsafe activeXact roXact =>
    obtain ⟨ha, hr⟩ := h.sides.possibleUnsafe hx
    rw [hx] at hpool hout hin hpossible
    have hpossible' : ∀ k, e ∈ (s.sxact k).possibleUnsafeConflicts ↔ k = activeXact ∨ k = roXact := fun k => by
      rw [hpossible]
      exact ⟨(·.imp (fun heq => by cases heq; rfl) fun heq => by cases heq; rfl), (·.imp (by rw [·]) (by rw [·]))⟩
    refine .inr ⟨hzero fun hmem => (hpool.mp hmem).elim nofun nofun, activeXact, roXact, fun k => ?_, fun k => ?_⟩
    · rw [State.outLists, count_append, hzero fun hmem => ((hout k).mp hmem).elim nofun nofun, zero_add]
      cases hro : (s.sxact k).readOnly with
      | true =>
        rw [if_pos rfl, if_neg]
        · rfl
        · rintro rfl
          exact absurd (ha.readOnly.symm.trans hro) nofun
      | false =>
        rw [if_neg nofun]
        refine count_eq_ite (hnd (.possibleUnsafeConflicts k)) ((hpossible' k).trans (or_iff_left ?_))
        rintro rfl
        exact absurd (hr.readOnly.symm.trans hro) nofun
    · rw [State.inLists, count_append, hzero fun hmem => ((hin k).mp hmem).elim nofun nofun, zero_add]
      cases hro : (s.sxact k).readOnly with
      | true =>
        rw [if_pos rfl]
        refine count_eq_ite (hnd (.possibleUnsafeConflicts k)) ((hpossible' k).trans (or_iff_right ?_))
        rintro rfl
        exact absurd (ha.readOnly.symm.trans hro) nofun
      | false =>
        rw [if_neg nofun, if_neg]
        · rfl
        · rintro rfl
          exact absurd (hr.readOnly.symm.trans hro) nofun

theorem Inv.active (h : Inv s place holder) (hi : i ∈ s.activeList) :
    i = oldCommittedSxact ∨ (∃ b, (s.pc b).mySerializableXact = some i) ∨ i ∈ s.preparedXacts ∨ i ∈ s.finished ∨
      ∃ b, s.finishedListLock = some b ∧ (s.pc b).unlinked = some i := by
  have hon := h.entries.active.mp hi
  cases hx : holder i with
  | none =>
    rw [hx] at hon
    exact hon.elim
  | free =>
    rw [hx] at hon
    cases hon
  | dummy => exact .inl ((h.entries.dummy i).mp hx)
  | prepared => exact .inr (.inr (.inl (h.entries.prepared.mpr hx)))
  | finished => exact .inr (.inr (.inr (.inl (h.entries.finished.mpr hx))))
  | process b =>
    have hentry := (h.entries.process b i).mpr hx
    have hlock := h.lock b
    cases hpc : s.pc b with
    | running j didWrite | finishing j isCommit needToClear | releasing j needToClear =>
      rw [hpc] at hentry
      exact .inr (.inl ⟨b, by rw [hpc]; exact hentry⟩)
    | summarizing j readOnly source =>
      rw [hpc] at hentry hlock
      exact .inr (.inr (.inr (.inr ⟨b, hlock.mpr rfl, by rw [hpc]; exact hentry⟩)))
    | clearingOne j nextSxact keep clearThrough =>
      rw [hpc] at hentry hlock
      cases keep with
      | true => cases hentry
      | false => exact .inr (.inr (.inr (.inr ⟨b, hlock.mpr rfl, by rw [hpc]; exact hentry⟩)))
    | _ =>
      rw [hpc] at hentry
      cases hentry

theorem Inv.bookkeeping (h : Inv s place holder) : Bookkeeping s := by
  have ho := h.oldest
  rw [State.oldest] at ho
  refine ⟨fun hnone => ?_, fun xmin hsome => ?_, ?_, fun e he => h.conflicts he, fun i hi => h.active hi⟩
  · rw [hnone] at ho
    exact ⟨ho.1, fun i hi => absurd ((registered_iff.mp hi).2.symm.trans (ho.2 i hi.1)) (by simp)⟩
  · rw [hsome] at ho
    obtain ⟨l, hl, hmem, hlen⟩ := h.counted fun i => inProgress s.sxact i && decide ((s.sxact i).xmin = xmin)
    have hiff : ∀ i, i ∈ l ↔ Registered s i ∧ (s.sxact i).xmin = xmin := fun i => by
      rw [hmem, registered_iff, Bool.and_eq_true, decide_eq_true_eq, and_assoc]
    refine ⟨?_, fun i hi => ho.2.2 i hi.1 (registered_iff.mp hi).2, l, hl, hiff, ho.1.trans hlen⟩
    obtain ⟨i, hi⟩ := exists_mem_of_length_pos (hlen ▸ ho.1 ▸ ho.2.1)
    exact ⟨i, (hiff i).mp hi⟩
  · obtain ⟨l, hl, hmem, hlen⟩ := h.counted fun i => inProgress s.sxact i && !(s.sxact i).readOnly
    refine ⟨l, hl, fun i => ?_, h.writable.trans hlen⟩
    rw [hmem, registered_iff, Bool.and_eq_true, Bool.not_eq_true', and_assoc]

/-! ### Runs -/

def startPlace (maxXacts e : Nat) : Place := if e < 5 * (10 * maxXacts) then .pool else .none

def startHolder (maxXacts i : Nat) : Holder :=
  if i = oldCommittedSxact then .dummy else if i < 1 + (10 * maxXacts - 1) then .free else .none

theorem startPlace_cases (maxXacts e : Nat) : startPlace maxXacts e = .pool ∨ startPlace maxXacts e = .none := by
  rw [startPlace]
  exact ite_eq_or_eq ..

theorem start_elements (maxXacts xid : Nat) : Elements (start maxXacts xid) (startPlace maxXacts) := by
  have hflags : ∀ i, ((start maxXacts xid).sxact i).queues = ([], [], []) := fun i => by
    show SerializableXact.queues (if _ then _ else _) = _
    split <;> rfl
  have hempty : ∀ q, q ≠ .pool → (start maxXacts xid).queue q = [] := fun q hq => by
    cases q with
    | pool => exact absurd rfl hq
    | outConflicts i => exact congrArg (fun x => x.1) (hflags i)
    | inConflicts i => exact congrArg (fun x => x.2.1) (hflags i)
    | possibleUnsafeConflicts i => exact congrArg (fun x => x.2.2) (hflags i)
  refine ⟨fun q => ⟨?_, fun e => ?_⟩, fun {e} he => ?_, fun {e r w} heq => ?_, fun {e a r} heq => ?_⟩
  · by_cases hq : q = .pool
    · rw [hq]
      exact nodup_range
    · rw [hempty q hq]
      exact nodup_nil
  · by_cases hq : q = .pool
    · rw [hq, Place.on_pool, startPlace]
      show e ∈ range _ ↔ _
      rw [mem_range]
      split
      next hlt => exact iff_of_true hlt rfl
      next hlt => exact iff_of_false hlt nofun
    · rw [hempty q hq]
      refine iff_of_false not_mem_nil ?_
      rcases startPlace_cases maxXacts e with heq | heq
      · rw [heq]
        exact hq
      · rw [heq]
        exact id
  · rw [startPlace, if_pos (show e < 5 * (10 * maxXacts) from he)]
    exact nofun
  · exact (startPlace_cases maxXacts e).elim (fun hp => nomatch hp.symm.trans heq) fun hp => nomatch hp.symm.trans heq
  · exact (startPlace_cases maxXacts e).elim (fun hp => nomatch hp.symm.trans heq) fun hp => nomatch hp.symm.trans heq

theorem start_inProgress (maxXacts xid : Nat) : inProgress (start maxXacts xid).sxact oldCommittedSxact = false := by
  rw [inProgress]
  simp

theorem start_entries (maxXacts xid : Nat) : Entries (start maxXacts xid) (startHolder maxXacts) := by
  have hoff : ∀ i r, r ≠ .available → r ≠ .active → ¬ (startHolder maxXacts i).on r := fun i r hr hr' => by
    rw [startHolder]
    split
    · exact hr'
    · split
      · exact hr
      · exact id
  refine ⟨fun r => ⟨?_, fun i => ?_⟩, fun i => ?_, fun b i => iff_of_false nofun ?_, fun i hi => ?_⟩
  · cases r with
    | available => exact nodup_range' 1
    | active => exact pairwise_singleton _ _
    | prepared | finished => exact nodup_nil
  · cases r with
    | available =>
      show i ∈ range' 1 (10 * maxXacts - 1) ↔ _
      rw [mem_range'_1, startHolder]
      split
      next heq => exact iff_of_false (fun hx => by rw [heq] at hx; exact absurd hx.1 (by decide)) nofun
      next hne =>
        split
        next hlt => exact iff_of_true ⟨Nat.pos_of_ne_zero hne, hlt⟩ rfl
        next hlt => exact iff_of_false (fun hx => hlt hx.2) id
    | active =>
      show i ∈ [oldCommittedSxact] ↔ _
      rw [mem_singleton, startHolder]
      split
      next heq => exact iff_of_true heq rfl
      next hne =>
        refine iff_of_false hne ?_
        split
        · exact nofun
        · exact id
    | prepared | finished => exact iff_of_false not_mem_nil (hoff i _ nofun nofun)
  · rw [startHolder]
    split
    next heq => exact iff_of_true rfl heq
    next hne =>
      refine iff_of_false ?_ hne
      split <;> exact nofun
  · rw [startHolder]
    split
    · exact nofun
    · split <;> exact nofun
  · obtain rfl := mem_singleton.mp hi
    rw [start_inProgress]
    rfl

theorem inv_start (maxXacts xid : Nat) : Inv (start maxXacts xid) (startPlace maxXacts) (startHolder maxXacts) := by
  have hp : ∀ {e p}, startPlace maxXacts e = p → p = .pool ∨ p = .none := fun {e p} heq =>
    heq ▸ startPlace_cases maxXacts e
  have hin : ∀ i ∈ (start maxXacts xid).activeList, inProgress (start maxXacts xid).sxact i = false := fun i hi => by
    obtain rfl := mem_singleton.mp hi
    exact start_inProgress maxXacts xid
  refine ⟨start_elements maxXacts xid,
    ⟨fun heq => (hp heq).elim nofun nofun, fun heq => (hp heq).elim nofun nofun, fun heq => (hp heq).elim nofun nofun⟩,
    ⟨fun i => ?_, rfl⟩, start_entries maxXacts xid, fun b => iff_of_false nofun nofun, fun hj => absurd hj not_mem_nil,
    ⟨rfl, hin⟩, (countP_eq_zero.mpr fun i hi => ?_).symm, fun {i} hi hx => absurd (hx.symm.trans (hin i hi)) nofun, nofun⟩
  · show (!SerializableXact.rolledBack (if _ then _ else _) || _) = true
    split <;> rfl
  · rw [hin i hi]
    exact nofun

/-- The states reached by any steps of any processes that meet a condition. -/
abbrev Runs (Ok : State → Nat → Action → Prop) (s t : State) : Prop :=
  Trace.Reaches (fun (s : State) (a : Nat × Action) => step s a.1 a.2) (fun s a => Ok s a.1 a.2) s t

theorem Runs.inv (h : Runs Clean s t) (hs : Inv s place holder) : ∃ place' holder', Inv t place' holder' :=
  h.keeps (P := fun t => ∃ place' holder', Inv t place' holder') ⟨place, holder, hs⟩
    fun _ _ _ hok heq ⟨_, _, hinv⟩ => hinv.step hok heq

abbrev followRun (Ok : State → Nat → Action → Prop) [∀ s b action, Decidable (Ok s b action)] (s : State)
    (l : List (Nat × Action)) : Option State :=
  Trace.follow (fun (s : State) (a : Nat × Action) => step s a.1 a.2) (fun s a => Ok s a.1 a.2) s l

/-- A writer and a reader register, conflict, and the writer commits and is cleared away. -/
def cleanRun : List (Nat × Action) :=
  [(1, .start false none), (1, .register false), (2, .start true none), (2, .register false), (2, .setRwConflict 2 1),
    (1, .write), (1, .preCommit), (1, .release true), (1, .finish), (2, .preCommit), (2, .release true), (2, .finish),
    (2, .clear), (2, .clearNext), (2, .clearOne)]

/-- Process 1 does without an entry, since nobody may write; its snapshot is imported when `SxactGlobalXmin` is past
it. -/
def oldImportRun : List (Nat × Action) :=
  [(1, .start true none), (1, .register false), (2, .assignXids 105 105), (2, .start false none), (2, .register false),
    (3, .start true (some ⟨1, 0⟩)), (3, .register false)]

end PgStorage.Predicate
