import PgStorage.Deadlock.FindLockCycleProofs

/-! The waits-for graph between lock groups, and that `FindLockCycle` is exact.

A group waits for another one when a member of it waits for a lock that a member of the other holds, or asks for ahead
of it, in a conflicting mode. Ahead is, in the true queue, ahead of some member of the group, and in a hypothetical
order ahead of all of them. -/
namespace PgStorage.Deadlock
open CycleSearch
open List

section
variable {P L : Type} [DecidableEq P] [DecidableEq L]

/-- Another group's process holds the lock in a conflicting mode. -/
structure HardWait (t : LockState P L) (p : P) (l : L) (q : P) : Prop where
  waits : t.waitLock p = some l
  other : t.leaderOf q ≠ t.leaderOf p
  holds : ∃ held, (q, held) ∈ t.procLocks l ∧
    ∃ mode, 1 ≤ mode ∧ mode ≤ t.numLockModes l ∧ held mode = true ∧ t.conflictTab l (t.waitLockMode p) mode = true

/-- One process is ahead of another one's group, in the order that is believed. -/
def Ahead (t : LockState P L) (waitOrders : List (WaitOrder P L)) (l : L) (q p : P) : Prop :=
  match waitOrders.find? fun w => decide (w.lock = l) with
  | some w => ∃ front behind, w.procs = front ++ q :: behind ∧ ∀ m ∈ front, t.leaderOf m ≠ t.leaderOf p
  | none => ∃ front behind, t.waitProcs l = front ++ q :: behind ∧ ∃ m ∈ behind, t.leaderOf m = t.leaderOf p

/-- Another group's process is ahead with a conflicting request. -/
structure SoftWait (t : LockState P L) (waitOrders : List (WaitOrder P L)) (p : P) (l : L) (q : P) : Prop where
  waits : t.waitLock p = some l
  other : t.leaderOf q ≠ t.leaderOf p
  ahead : Ahead t waitOrders l q p
  conflicts : t.conflictTab l (t.waitLockMode p) (t.waitLockMode q) = true

/-- The waits-for graph between groups. -/
def WaitsFor (t : LockState P L) (waitOrders : List (WaitOrder P L)) (g h : P) : Prop :=
  ∃ p l q, t.leaderOf p = g ∧ t.leaderOf q = h ∧ (HardWait t p l q ∨ SoftWait t waitOrders p l q)

/-- An edge of a group, hard or soft. -/
structure IsWait (t : LockState P L) (waitOrders : List (WaitOrder P L)) (g : P) (w : Wait P L) : Prop where
  member : t.leaderOf w.waiter = g
  blocks : if w.soft then SoftWait t waitOrders w.waiter w.lock w.blocker else HardWait t w.waiter w.lock w.blocker

variable {t : LockState P L} {waitOrders : List (WaitOrder P L)} {p q : P} {l : L}

omit [DecidableEq L] in
theorem mem_hardBlockers (hwait : t.waitLock p = some l) :
    q ∈ hardBlockers t l p (t.leaderOf p) ↔ HardWait t p l q := by
  unfold hardBlockers
  rw [mem_map]
  constructor
  · rintro ⟨⟨proc, held⟩, hmem, rfl⟩
    rw [mem_filter, Bool.and_eq_true, decide_eq_true_iff, any_eq_true] at hmem
    obtain ⟨hheld, hother, mode, hmode, hc⟩ := hmem
    rw [mem_range'_1] at hmode
    rw [Bool.and_eq_true] at hc
    exact ⟨hwait, hother, held, hheld, mode, hmode.1, by omega, hc.1, hc.2⟩
  · rintro ⟨-, hother, held, hheld, mode, hlow, hhigh, hc⟩
    refine ⟨(q, held), ?_, rfl⟩
    rw [mem_filter, Bool.and_eq_true, decide_eq_true_iff, any_eq_true]
    refine ⟨hheld, hother, mode, ?_, by rw [hc.1, hc.2]; rfl⟩
    rw [mem_range'_1]
    omega

theorem mem_takeWhile {α : Type} {f : α → Bool} {a : α} (as : List α) :
    a ∈ as.takeWhile f ↔ ∃ front behind, as = front ++ a :: behind ∧ (∀ x ∈ front, f x = true) ∧ f a = true := by
  induction as with
  | nil => simp
  | cons x as ih =>
    rw [takeWhile_cons]
    constructor
    · intro h
      split at h
      · next hx =>
        rcases mem_cons.mp h with rfl | h
        · exact ⟨[], as, rfl, nofun, hx⟩
        · obtain ⟨front, behind, rfl, hfront, ha⟩ := ih.mp h
          exact ⟨x :: front, behind, rfl, forall_mem_cons.mpr ⟨hx, hfront⟩, ha⟩
      · cases h
    · rintro ⟨front, behind, heq, hfront, ha⟩
      cases front with
      | nil =>
        cases heq
        rw [if_pos ha]
        exact mem_cons_self
      | cons y front =>
        cases heq
        rw [if_pos (hfront x mem_cons_self)]
        exact mem_cons_of_mem x (ih.mpr ⟨front, behind, rfl, fun y hy => hfront y (mem_cons_of_mem x hy), ha⟩)

omit [DecidableEq P] [DecidableEq L] in
theorem leaderOf_eq_some {g : P} (hp : t.lockGroupLeader p = some g) : t.leaderOf q = g ↔ t.lockGroupLeader q =
    some g := by
  unfold LockState.leaderOf
  cases hq : t.lockGroupLeader q with
  | some g' => rw [Option.getD_some, Option.some.injEq]
  | none =>
    rw [Option.getD_none]
    constructor
    · rintro rfl
      rw [t.leads p q hp] at hq
      exact nomatch hq
    · exact nofun

omit [DecidableEq P] [DecidableEq L] in
theorem leaderOf_eq_none (hp : t.lockGroupLeader p = none) : t.leaderOf q = t.leaderOf p ↔ q = p := by
  unfold LockState.leaderOf
  rw [hp, Option.getD_none]
  cases hq : t.lockGroupLeader q with
  | none => rfl
  | some g =>
    rw [Option.getD_some]
    constructor
    · rintro rfl
      rw [t.leads q g hq] at hp
      exact nomatch hp
    · rintro rfl
      rw [hp] at hq
      exact nomatch hq

omit [DecidableEq L] in
/-- Behind any place of the queue where there is a member of the group, there is the last one. -/
theorem lastGroupMember_last (hwait : t.waitLock p = some l) : ∃ last,
    lastGroupMember t l p (t.leaderOf p) = some last ∧ t.leaderOf last = t.leaderOf p ∧ last ∈ t.waitProcs l ∧
      ∀ front behind m, t.waitProcs l = front ++ behind → m ∈ behind → t.leaderOf m = t.leaderOf p → last ∈ behind := by
  have hin : p ∈ t.waitProcs l := (t.queued p l).mpr hwait
  unfold lastGroupMember
  cases hp : t.lockGroupLeader p with
  | none =>
    rw [if_pos rfl]
    refine ⟨p, rfl, rfl, hin, fun _ behind m _ hm hg => ?_⟩
    rw [(leaderOf_eq_none hp).mp hg] at hm
    exact hm
  | some g =>
    have hg : t.leaderOf p = g := (leaderOf_eq_some hp).mpr hp
    rw [if_neg (Option.some_ne_none g), hg]
    let f (proc : P) : Bool := decide (t.lockGroupLeader proc = some g)
    have hne : (t.waitProcs l).filter f ≠ [] :=
      ne_nil_of_mem (mem_filter.mpr ⟨hin, decide_eq_true hp⟩)
    have hlast : ((t.waitProcs l).filter f).getLast hne ∈ (t.waitProcs l).filter f := getLast_mem hne
    obtain ⟨hqueue, hmember⟩ := mem_filter.mp hlast
    refine ⟨((t.waitProcs l).filter f).getLast hne, getLast?_eq_some_getLast hne,
      (leaderOf_eq_some hp).mpr (of_decide_eq_true hmember), hqueue, fun front behind m hsplit hm hmg => ?_⟩
    have hbehind : behind.filter f ≠ [] :=
      ne_nil_of_mem (mem_filter.mpr ⟨hm, decide_eq_true ((leaderOf_eq_some hp).mp hmg)⟩)
    have heq : ((t.waitProcs l).filter f).getLast hne = (behind.filter f).getLast hbehind := by
      simp only [hsplit, filter_append]
      exact getLast_append_of_ne_nil _ hbehind
    rw [heq]
    exact (mem_filter.mp (getLast_mem hbehind)).1

theorem mem_softBlockers (hwait : t.waitLock p = some l) :
    q ∈ softBlockers t waitOrders l p (t.leaderOf p) ↔ SoftWait t waitOrders p l q := by
  have hsoft : SoftWait t waitOrders p l q ↔ t.leaderOf q ≠ t.leaderOf p ∧ Ahead t waitOrders l q p ∧
      t.conflictTab l (t.waitLockMode p) (t.waitLockMode q) = true :=
    ⟨fun h => ⟨h.other, h.ahead, h.conflicts⟩, fun ⟨hother, hahead, hc⟩ => ⟨hwait, hother, hahead, hc⟩⟩
  rw [hsoft]
  unfold softBlockers Ahead
  cases waitOrders.find? fun w => decide (w.lock = l) with
  | some w =>
    dsimp only
    rw [mem_filter, mem_takeWhile]
    simp only [decide_eq_true_iff]
    constructor
    · rintro ⟨⟨front, behind, heq, hfront, hother⟩, hc⟩
      exact ⟨hother, ⟨front, behind, heq, hfront⟩, hc⟩
    · rintro ⟨hother, ⟨front, behind, heq, hfront⟩, hc⟩
      exact ⟨⟨front, behind, heq, hfront, hother⟩, hc⟩
  | none =>
    dsimp only
    obtain ⟨last, hlast, hgroup, hqueue, hbehind⟩ := lastGroupMember_last hwait
    rw [mem_filter, mem_takeWhile, hlast]
    simp only [decide_eq_true_iff, Bool.and_eq_true, ne_eq, Option.some.injEq]
    constructor
    · rintro ⟨⟨front, behind, heq, hfront, hq⟩, hc, hother⟩
      refine ⟨hother, ⟨front, behind, heq, last, ?_, hgroup⟩, hc⟩
      rw [heq] at hqueue
      rcases mem_append.mp hqueue with h | h
      · exact absurd rfl (hfront last h)
      · exact (mem_cons.mp h).resolve_left fun h => hq h.symm
    · rintro ⟨hother, ⟨front, behind, heq, m, hm, hmg⟩, hc⟩
      have hnd := t.nodup l
      rw [heq] at hnd
      have hin := hbehind front (q :: behind) m heq (mem_cons_of_mem q hm) hmg
      refine ⟨⟨front, behind, heq, fun x hx hxl => ?_, fun hql => hother (by rw [hql, hgroup])⟩, hc, hother⟩
      subst hxl
      exact disjoint_of_nodup_append hnd hx hin

theorem mem_waits_iff {g : P} {w : Wait P L} (hg : t.leaderOf g = g) :
    w ∈ waits t waitOrders g ↔ IsWait t waitOrders g w := by
  rw [mem_waits hg]
  constructor
  · rintro ⟨rfl, hwait, ⟨hsoft, h⟩ | ⟨hsoft, h⟩⟩
    · refine ⟨rfl, ?_⟩
      rw [hsoft, if_neg Bool.false_ne_true]
      exact (mem_hardBlockers hwait).mp h
    · refine ⟨rfl, ?_⟩
      rw [hsoft, if_pos rfl]
      exact (mem_softBlockers hwait).mp h
  · rintro ⟨rfl, h⟩
    cases hsoft : w.soft with
    | false =>
      rw [hsoft, if_neg Bool.false_ne_true] at h
      exact ⟨rfl, h.waits, .inl ⟨rfl, (mem_hardBlockers h.waits).mpr h⟩⟩
    | true =>
      rw [hsoft, if_pos rfl] at h
      exact ⟨rfl, h.waits, .inr ⟨rfl, (mem_softBlockers h.waits).mpr h⟩⟩

theorem leads_iff {g h : P} (hg : t.leaderOf g = g) :
    Leads (waits t waitOrders) t.target g h ↔ WaitsFor t waitOrders g h := by
  constructor
  · rintro ⟨w, hw, rfl⟩
    obtain ⟨hmember, hblocks⟩ := (mem_waits_iff hg).mp hw
    refine ⟨w.waiter, w.lock, w.blocker, hmember, rfl, ?_⟩
    split at hblocks
    · exact .inr hblocks
    · exact .inl hblocks
  · rintro ⟨p, l, q, hp, hq, h | h⟩
    · exact ⟨⟨p, l, q, false⟩, (mem_waits_iff hg).mpr ⟨hp, h⟩, hq⟩
    · exact ⟨⟨p, l, q, true⟩, (mem_waits_iff hg).mpr ⟨hp, h⟩, hq⟩

/-! ### The edges on a cycle -/

theorem flatMap_split {α β : Type} {f : α → List β} {b : β} (as : List α) (before : List β) {behind : List β}
    (h : as.flatMap f = before ++ b :: behind) : ∃ a ∈ as, ∃ before' behind', f a = before' ++ b :: behind' ∧
      before' ⊆ before := by
  induction as generalizing before with
  | nil => exact absurd h (by simp)
  | cons a as ih =>
    rw [flatMap_cons] at h
    rcases append_eq_append_iff.mp h with ⟨rest, rfl, hrest⟩ | ⟨rest, hfa, hrest⟩
    · obtain ⟨a', ha', before', behind', hsplit, hsub⟩ := ih rest hrest
      exact ⟨a', mem_cons_of_mem a ha', before', behind', hsplit,
        fun x hx => mem_append_right _ (hsub hx)⟩
    · cases rest with
      | nil =>
        obtain ⟨a', ha', before', behind', hsplit, hsub⟩ := ih [] hrest.symm
        exact ⟨a', mem_cons_of_mem a ha', before', behind', hsplit, fun x hx => nomatch hsub hx⟩
      | cons x rest =>
        cases hrest
        exact ⟨a, mem_cons_self, before, rest, hfa, List.Subset.refl _⟩

/-- An edge that is the first one to its group is soft only when no process of that group holds a conflicting lock. -/
theorem First.not_hard {g : P} {w : Wait P L} (hg : t.leaderOf g = g) (h : First (waits t waitOrders) t.target g w)
    (hsoft : w.soft = true) (q : P) (hq : t.leaderOf q = t.target w) : ¬ HardWait t w.waiter w.lock q := by
  intro hhard
  obtain ⟨before, behind, hedges, hfirst⟩ := h
  obtain ⟨m, hm, before', behind', hsplit, hsub⟩ := flatMap_split _ before hedges
  have hleader : t.leaderOf m = g := ((mem_waitingMembers hg).mp hm).1
  subst hleader
  rw [memberWaits] at hsplit
  split at hsplit
  · exact absurd hsplit (by simp)
  · next lock hlock =>
    have hw : w ∈ (hardBlockers t lock m (t.leaderOf m)).map (⟨m, lock, ·, false⟩) ++
        (softBlockers t waitOrders lock m (t.leaderOf m)).map (⟨m, lock, ·, true⟩) := by
      rw [hsplit]
      exact mem_append_right _ mem_cons_self
    obtain ⟨b, -, rfl⟩ : ∃ b ∈ softBlockers t waitOrders lock m (t.leaderOf m), ⟨m, lock, b, true⟩ = w := by
      rcases mem_append.mp hw with hw | hw
      · obtain ⟨b, -, rfl⟩ := mem_map.mp hw
        cases hsoft
      · exact mem_map.mp hw
    have hin : (⟨m, lock, q, false⟩ : Wait P L) ∈ (hardBlockers t lock m (t.leaderOf m)).map (⟨m, lock, ·, false⟩) :=
      mem_map.mpr ⟨q, (mem_hardBlockers hlock).mpr hhard, rfl⟩
    -- all hard edges of a member come before its soft ones
    rcases append_eq_append_iff.mp hsplit with ⟨rest, hbefore, -⟩ | ⟨rest, hhards, hrest⟩
    · exact hfirst ⟨m, lock, q, false⟩ (hsub (by rw [hbefore]; exact mem_append_left _ hin)) hq
    · cases rest with
      | nil =>
        rw [append_nil] at hhards
        exact hfirst ⟨m, lock, q, false⟩ (hsub (by rw [← hhards]; exact hin)) hq
      | cons x rest =>
        cases hrest
        have hx : (⟨m, lock, b, true⟩ : Wait P L) ∈
            (hardBlockers t lock m (t.leaderOf m)).map (⟨m, lock, ·, false⟩) := by
          rw [hhards]
          exact mem_append_right _ mem_cons_self
        obtain ⟨b', -, hb'⟩ := mem_map.mp hx
        cases hb'

theorem walk_isWait {x y : P} {path : List (Wait P L)}
    (h : Walk (First (waits t waitOrders) t.target) t.target x path y) (hx : t.leaderOf x = x) :
    Walk (IsWait t waitOrders) t.target x path y ∧
      ∀ w ∈ path, w.soft = true → ∀ q, t.leaderOf q = t.target w → ¬ HardWait t w.waiter w.lock q := by
  induction h with
  | nil => exact ⟨.nil, nofun⟩
  | @cons x y w path hstep _ ih =>
    obtain ⟨hwalk, hall⟩ := ih (t.leaderOf_leaderOf w.blocker)
    exact ⟨.cons ((mem_waits_iff hx).mp hstep.mem) hwalk, forall_mem_cons.mpr ⟨First.not_hard hx hstep, hall⟩⟩

theorem transGen_leads_iff {g h : P} (hg : t.leaderOf g = g) :
    Relation.TransGen (Leads (waits t waitOrders) t.target) g h ↔ Relation.TransGen (WaitsFor t waitOrders) g h := by
  constructor
  · intro hpath
    have hboth : Relation.TransGen (WaitsFor t waitOrders) g h ∧ t.leaderOf h = h := by
      induction hpath with
      | single hstep =>
        obtain ⟨w, -, rfl⟩ := id hstep
        exact ⟨.single ((leads_iff hg).mp hstep), t.leaderOf_leaderOf _⟩
      | tail _ hstep ih =>
        obtain ⟨w, -, rfl⟩ := id hstep
        exact ⟨ih.1.tail ((leads_iff ih.2).mp hstep), t.leaderOf_leaderOf _⟩
    exact hboth.1
  · refine Relation.TransGen.mono (fun x y hstep => ?_) g h
    obtain ⟨p, l, q, rfl, -⟩ := id hstep
    exact (leads_iff (t.leaderOf_leaderOf p)).mpr hstep

section
variable [Fintype P] (t : LockState P L) (waitOrders : List (WaitOrder P L)) (p : P) (blockingAutovacuum : Option P)

/-- What `FindLockCycle` reports of a cycle: its soft edges, and its waiters in their order. -/
structure Reports (s : Search P L) (path : List (Wait P L)) : Prop where
  nonempty : path ≠ []
  cycle : Walk (IsWait t waitOrders) t.target (t.leaderOf p) path (t.leaderOf p)
  simple : (sources t.target (t.leaderOf p) path).Nodup
  softEdges : s.softEdges = t.softEdges path
  soft : ∀ w ∈ path, w.soft = true → ∀ q, t.leaderOf q = t.target w → ¬ HardWait t w.waiter w.lock q
  count : s.nDeadlockDetails = path.length
  details : ∀ i w, path[i]? = some w → s.deadlockDetails i = some (t.info w)

theorem findLockCycle_true : (findLockCycle t waitOrders p blockingAutovacuum).1 = true ↔
    Relation.TransGen (WaitsFor t waitOrders) (t.leaderOf p) (t.leaderOf p) := by
  rw [← transGen_leads_iff (t.leaderOf_leaderOf p), ← findCycle_isSome]
  have h : Unwound t 0 _ (findCycle (waits t waitOrders) t.target (t.leaderOf p))
    (findLockCycle t waitOrders p blockingAutovacuum) := findLockCycle_unwound p blockingAutovacuum
  generalize findCycle (waits t waitOrders) t.target (t.leaderOf p) = r at h ⊢
  generalize findLockCycle t waitOrders p blockingAutovacuum = out at h ⊢
  obtain ⟨result, visited⟩ := r
  obtain ⟨found, s⟩ := out
  cases result with
  | none =>
    obtain ⟨rfl, -⟩ := h
    exact ⟨nofun, nofun⟩
  | some path =>
    obtain ⟨rfl, -⟩ := h
    exact ⟨fun _ => rfl, fun _ => rfl⟩

theorem findLockCycle_reports (hfound : (findLockCycle t waitOrders p blockingAutovacuum).1 = true) :
    ∃ path, Reports t waitOrders p (findLockCycle t waitOrders p blockingAutovacuum).2 path := by
  have h : Unwound t 0 _ (findCycle (waits t waitOrders) t.target (t.leaderOf p))
    (findLockCycle t waitOrders p blockingAutovacuum) := findLockCycle_unwound p blockingAutovacuum
  generalize hr : findCycle (waits t waitOrders) t.target (t.leaderOf p) = r at h
  generalize findLockCycle t waitOrders p blockingAutovacuum = out at h hfound ⊢
  obtain ⟨result, visited⟩ := r
  obtain ⟨found, s⟩ := out
  cases result with
  | none =>
    obtain ⟨rfl, -⟩ := h
    exact nomatch hfound
  | some path =>
    obtain ⟨-, -, hsoft, hcount, hdetails, -⟩ := h
    obtain ⟨hne, hwalk, hnd⟩ := findCycle_some hr
    obtain ⟨hcycle, hno⟩ := walk_isWait hwalk (t.leaderOf_leaderOf p)
    refine ⟨path, hne, hcycle, hnd, hsoft, hno, hcount.trans (zero_add _), fun i w hi => ?_⟩
    have := hdetails i w hi
    rwa [zero_add] at this

/-- **`FindLockCycle` is exact.** It terminates, it finds a cycle through the process's group if and only if the
waits-for graph has one, and what it reports is one such cycle. -/
theorem findLockCycle_exact :
    (∀ fuel, Fintype.card P < fuel →
      findLockCycleRecurse t waitOrders fuel 0 p ⟨[], [], fun _ => none, 0, blockingAutovacuum⟩ =
        findLockCycle t waitOrders p blockingAutovacuum) ∧
    ((findLockCycle t waitOrders p blockingAutovacuum).1 = true ↔
      Relation.TransGen (WaitsFor t waitOrders) (t.leaderOf p) (t.leaderOf p)) ∧
    ((findLockCycle t waitOrders p blockingAutovacuum).1 = true →
      ∃ path, Reports t waitOrders p (findLockCycle t waitOrders p blockingAutovacuum).2 path) :=
  ⟨fun _ hfuel => findLockCycle_deeper hfuel p blockingAutovacuum, findLockCycle_true t waitOrders p blockingAutovacuum,
    findLockCycle_reports t waitOrders p blockingAutovacuum⟩

end

/-- The order of a queue that is believed. -/
def believedOrder (t : LockState P L) (waitOrders : List (WaitOrder P L)) (l : L) : List P :=
  match waitOrders.find? fun w => decide (w.lock = l) with
  | some w => w.procs
  | none => t.waitProcs l

/-- The graph in which each member waits for those ahead of itself. -/
def OwnWaitsFor (t : LockState P L) (waitOrders : List (WaitOrder P L)) (g h : P) : Prop :=
  ∃ p l q, t.leaderOf p = g ∧ t.leaderOf q = h ∧ (HardWait t p l q ∨
    t.waitLock p = some l ∧ t.leaderOf q ≠ t.leaderOf p ∧ [q, p].Sublist (believedOrder t waitOrders l) ∧
      t.conflictTab l (t.waitLockMode p) (t.waitLockMode q) = true)

/-- Processes 0 and 1 are a group. Both wait, with 2 between them, for the lock that 1 and 3 hold. -/
def splitGroup : LockState (Fin 4) Unit where
  numLockModes _ := 5
  conflictTab _ a b := [(1, 2), (2, 1), (2, 4), (4, 2), (1, 5), (5, 1), (3, 5), (5, 3)].contains (a, b)
  procLocks _ := [(1, fun m => m == 4), (3, fun m => m == 5)]
  waitProcs _ := [0, 2, 1]
  waitLock p := if p = 3 then none else some ()
  waitLockMode p := if p = 0 then 1 else if p = 2 then 2 else 3
  lockGroupLeader p := if p = 0 ∨ p = 1 then some 0 else none
  lockGroupMembers p := if p = 0 then [0, 1] else []
  isAutovacuum _ := false
  myProc := 2
  queued := by decide
  nodup := by decide
  member := by decide
  leads := by decide

/-- The search counts 2 as ahead of 0, because it is ahead of 1. -/
theorem splitGroup_cycle : (findLockCycle splitGroup [] 2 none).1 = true ∧
    ¬ Relation.TransGen (OwnWaitsFor splitGroup []) (splitGroup.leaderOf 2) (splitGroup.leaderOf 2) := by
  refine ⟨by decide +kernel, fun hcycle => ?_⟩
  have hedge : ∀ p q : Fin 4, (q ∈ hardBlockers splitGroup () p (splitGroup.leaderOf p) ∨
      splitGroup.leaderOf q ≠ splitGroup.leaderOf p ∧ [q, p].Sublist (splitGroup.waitProcs ()) ∧
        splitGroup.conflictTab () (splitGroup.waitLockMode p) (splitGroup.waitLockMode q) = true) →
      splitGroup.leaderOf q ≠ splitGroup.leaderOf 2 := by
    decide
  obtain ⟨g, -, p, ⟨⟩, q, -, hq, h⟩ := Relation.TransGen.tail'_iff.mp hcycle
  rcases h with h | ⟨-, hother, hahead, hc⟩
  · exact hedge p q (.inl ((mem_hardBlockers h.waits).mpr h)) hq
  · exact hedge p q (.inr ⟨hother, hahead, hc⟩) hq

end

end PgStorage.Deadlock
