import PgStorage.Deadlock.Arrangement

/-! The deadlock check, without lock groups.

An arrangement without cycles that reverses the constraints so far also reverses some soft edge of any cycle that is
left, so that the search that adds this edge next comes to it, as long as there is room for one more constraint. A
configuration that passes its test has no cycles but those that were there before. -/
namespace PgStorage.Deadlock
open CycleSearch
open List
open Relation (TransGen)

section
variable {P L : Type} [DecidableEq P] [DecidableEq L] [Fintype P] {t : LockState P L} {queues : L → List P}
  {waitOrders : List (WaitOrder P L)} {constraints edges : List (Edge P L)} {maxBackends n : Nat}
  {proc p q x y : P} {blockingAutovacuum : Option P}

/-- The autovacuum found so far does not matter for the cycles. -/
theorem findLockCycle_same (t : LockState P L) (waitOrders : List (WaitOrder P L)) (p : P)
    (blockingAutovacuum blockingAutovacuum' : Option P) :
    (findLockCycle t waitOrders p blockingAutovacuum).1 = (findLockCycle t waitOrders p blockingAutovacuum').1 ∧
      (findLockCycle t waitOrders p blockingAutovacuum).2.softEdges =
        (findLockCycle t waitOrders p blockingAutovacuum').2.softEdges := by
  have h : Unwound t 0 _ (findCycle (waits t waitOrders) t.target (t.leaderOf p))
    (findLockCycle t waitOrders p blockingAutovacuum) := findLockCycle_unwound p blockingAutovacuum
  have h' : Unwound t 0 _ (findCycle (waits t waitOrders) t.target (t.leaderOf p))
    (findLockCycle t waitOrders p blockingAutovacuum') := findLockCycle_unwound p blockingAutovacuum'
  generalize findCycle (waits t waitOrders) t.target (t.leaderOf p) = r at h h'
  obtain ⟨result, visited⟩ := r
  cases result with
  | none | some path => exact ⟨h.1.trans h'.1.symm, h.2.2.1.trans h'.2.2.1.symm⟩

theorem findCycles_same (procs : List P) (softEdges : List (Edge P L))
    (blockingAutovacuum blockingAutovacuum' : Option P) :
    (findCycles t waitOrders procs softEdges blockingAutovacuum).1 =
      (findCycles t waitOrders procs softEdges blockingAutovacuum').1 := by
  induction procs generalizing softEdges blockingAutovacuum blockingAutovacuum' with
  | nil => rfl
  | cons p procs ih =>
    obtain ⟨hfound, hsoft⟩ := findLockCycle_same t waitOrders p blockingAutovacuum blockingAutovacuum'
    rw [findCycles, findCycles]
    generalize findLockCycle t waitOrders p blockingAutovacuum = out at hfound hsoft ⊢
    generalize findLockCycle t waitOrders p blockingAutovacuum' = out' at hfound hsoft ⊢
    obtain ⟨found, s⟩ := out
    obtain ⟨found', s'⟩ := out'
    dsimp only at hfound hsoft
    subst hfound
    cases found with
    | true =>
      dsimp only
      rw [hsoft]
      split
      · rfl
      · exact ih s'.softEdges _ _
    | false => exact ih softEdges _ _

theorem testConfiguration_same (t : LockState P L) (maxBackends : Nat) (proc : P) (constraints : List (Edge P L))
    (n : Nat)
    (blockingAutovacuum blockingAutovacuum' : Option P) :
    (testConfiguration t maxBackends proc constraints n blockingAutovacuum).1 =
      (testConfiguration t maxBackends proc constraints n blockingAutovacuum').1 := by
  unfold testConfiguration
  split
  · rfl
  · split
    · rfl
    · exact findCycles_same _ _ _ _

/-- What the searches of a configuration find. -/
theorem findCycles_spec (t : LockState P L) (waitOrders : List (WaitOrder P L)) (procs : List P)
    (softEdges : List (Edge P L)) (blockingAutovacuum : Option P) :
    match (findCycles t waitOrders procs softEdges blockingAutovacuum).1 with
    | none => ∃ p ∈ procs, (findLockCycle t waitOrders p none).1 = true ∧
        (findLockCycle t waitOrders p none).2.softEdges = []
    | some edges => (edges = softEdges ∧ ∀ p ∈ procs, (findLockCycle t waitOrders p none).1 = false) ∨
        edges ≠ [] ∧ ∃ p ∈ procs, (findLockCycle t waitOrders p none).1 = true ∧
          (findLockCycle t waitOrders p none).2.softEdges = edges := by
  induction procs generalizing softEdges blockingAutovacuum with
  | nil => exact .inl ⟨rfl, nofun⟩
  | cons p procs ih =>
    obtain ⟨hfound, hsoft⟩ := findLockCycle_same t waitOrders p blockingAutovacuum none
    rw [findCycles]
    generalize findLockCycle t waitOrders p blockingAutovacuum = out at hfound hsoft
    obtain ⟨found, s⟩ := out
    dsimp only at hfound hsoft
    cases found with
    | true =>
      dsimp only
      by_cases hnil : s.softEdges = []
      · rw [if_pos hnil]
        exact ⟨p, mem_cons_self, hfound.symm, hsoft.symm.trans hnil⟩
      · rw [if_neg hnil]
        have hrest := ih s.softEdges s.blockingAutovacuum
        split at hrest
        · obtain ⟨q, hq, h⟩ := hrest
          exact ⟨q, mem_cons_of_mem p hq, h⟩
        · right
          rcases hrest with ⟨rfl, -⟩ | ⟨hne, q, hq, h⟩
          · exact ⟨hnil, p, mem_cons_self, hfound.symm, hsoft.symm⟩
          · exact ⟨hne, q, mem_cons_of_mem p hq, h⟩
    | false =>
      dsimp only
      have hrest := ih softEdges s.blockingAutovacuum
      split at hrest
      · obtain ⟨q, hq, h⟩ := hrest
        exact ⟨q, mem_cons_of_mem p hq, h⟩
      · rcases hrest with ⟨rfl, hall⟩ | ⟨hne, q, hq, h⟩
        · exact .inl ⟨rfl, forall_mem_cons.mpr ⟨hfound.symm, hall⟩⟩
        · exact .inr ⟨hne, q, mem_cons_of_mem p hq, h⟩

/-! ### The edges of a cycle -/

/-- The soft edges of a cycle are constraints that can be added. -/
theorem softEdges_constrain (hng : NoGroups t) (hre : Rearranges t (rearranged t waitOrders))
    (hfound : (findLockCycle t waitOrders p none).1 = true) {e : Edge P L}
    (he : e ∈ (findLockCycle t waitOrders p none).2.softEdges) :
    Constrains t e ∧ [e.blocker, e.waiter].Sublist (rearranged t waitOrders e.lock) := by
  obtain ⟨path, hpath⟩ := findLockCycle_reports t waitOrders p none hfound
  rw [hpath.softEdges, LockState.softEdges, mem_reverse] at he
  obtain ⟨w, hw, rfl⟩ := mem_map.mp he
  obtain ⟨hin, hsoft⟩ := mem_filter.mp hw
  obtain ⟨g, -, hblocks⟩ := hpath.cycle.mem hin
  rw [hsoft, if_pos rfl] at hblocks
  obtain ⟨hwait, hother, hahead, -⟩ := hblocks
  rw [hng.leaderOf, hng.leaderOf] at hother
  have hpair := (ahead_iff hng hre hwait hother).mp hahead
  unfold LockState.edge
  rw [hng.leaderOf, hng.leaderOf]
  exact ⟨⟨hwait, (mem_queue_iff hre).mp (hpair.subset mem_cons_self)⟩, hpair⟩

/-- An arrangement without the cycle has one of its soft edges reversed. -/
theorem exists_reversed (hng : NoGroups t) (hre : Rearranges t (rearranged t waitOrders))
    (hqueues : Rearranges t queues)
    (hacyclic : ¬ TransGen (WaitsIn t queues) p p)
    (hfound : (findLockCycle t waitOrders p none).1 = true) :
    ∃ e ∈ (findLockCycle t waitOrders p none).2.softEdges, [e.waiter, e.blocker].Sublist (queues e.lock) := by
  obtain ⟨path, hpath⟩ := findLockCycle_reports t waitOrders p none hfound
  obtain ⟨w, hw, hnot⟩ : ∃ w ∈ path, ¬ WaitsIn t queues w.waiter w.blocker := by
    by_contra hall
    apply hacyclic
    have hcycle := hpath.cycle
    rw [hng.leaderOf] at hcycle
    refine hcycle.transGen hpath.nonempty fun z e he hstep => ?_
    have hz := hstep.member
    rw [hng.leaderOf] at hz
    have hin : WaitsIn t queues e.waiter e.blocker := by
      by_contra hnot
      exact hall ⟨e, he, hnot⟩
    rw [← hz, LockState.target, hng.leaderOf]
    exact hin
  obtain ⟨g, -, hblocks⟩ := hpath.cycle.mem hw
  cases hsoft : w.soft with
  | false =>
    rw [hsoft, if_neg Bool.false_ne_true] at hblocks
    obtain ⟨hwait, hother, hholds⟩ := hblocks
    rw [hng.leaderOf, hng.leaderOf] at hother
    exact absurd ⟨w.lock, hwait, hother, .inl hholds⟩ hnot
  | true =>
    have he : t.edge w ∈ (findLockCycle t waitOrders p none).2.softEdges := by
      rw [hpath.softEdges, LockState.softEdges, mem_reverse]
      exact mem_map.mpr ⟨w, mem_filter.mpr ⟨hw, hsoft⟩, rfl⟩
    refine ⟨t.edge w, he, ?_⟩
    obtain ⟨⟨hwait, hblocker⟩, -⟩ := softEdges_constrain hng hre hfound he
    rw [hsoft, if_pos rfl] at hblocks
    have hother := hblocks.other
    have hc := hblocks.conflicts
    unfold LockState.edge at hwait hblocker ⊢
    rw [hng.leaderOf, hng.leaderOf] at *
    refine (pair_total ((mem_queue_iff hqueues).mpr hwait) ((mem_queue_iff hqueues).mpr hblocker)
      (Ne.symm hother)).resolve_right fun hpair => ?_
    exact hnot ⟨w.lock, hwait, hother, .inr ⟨hpair, hc⟩⟩

/-- The waits-for graph of an arrangement has no cycle. -/
def Acyclic (t : LockState P L) (queues : L → List P) : Prop := ∀ p, ¬ TransGen (WaitsIn t queues) p p

/-- What a test says: that no arrangement without cycles satisfies the constraints, that the expanded one has no cycle
through the processes tested, or which edges to try. -/
def TestTells (t : LockState P L) (proc : P) (constraints : List (Edge P L)) :
    Option (List (Edge P L)) × List (WaitOrder P L) × Option P → Prop
  | (none, _, _) => ∀ queues, Acyclic t queues → ¬ Satisfies t queues constraints
  | (some [], waitOrders, _) => Expanded t constraints constraints waitOrders ∧
      ∀ p ∈ startProcs constraints proc, ¬ TransGen (WaitsIn t (rearranged t waitOrders)) p p
  | (some (e :: es), _, _) => (∀ e' ∈ e :: es, Constrains t e' ∧ e' ∉ constraints) ∧
      ∀ queues, Acyclic t queues → Satisfies t queues constraints →
        ∃ e' ∈ e :: es, Satisfies t queues (constraints ++ [e'])

theorem findLockCycle_false (hng : NoGroups t) (hre : Rearranges t (rearranged t waitOrders)) :
    (findLockCycle t waitOrders p none).1 = false ↔ ¬ TransGen (WaitsIn t (rearranged t waitOrders)) p p := by
  have hgraph : WaitsFor t waitOrders = WaitsIn t (rearranged t waitOrders) :=
    funext fun x => funext fun y => propext (waitsFor_iff hng hre)
  rw [← hgraph, ← Bool.not_eq_true, findLockCycle_true, hng.leaderOf]

theorem testConfiguration_tells (proc : P) (hng : NoGroups t) (hcons : ∀ c ∈ constraints, Constrains t c)
    (hroom : n + maxBackends ≤ maxBackends * 4) (blockingAutovacuum : Option P) :
    TestTells t proc constraints (testConfiguration t maxBackends proc constraints n blockingAutovacuum) := by
  unfold testConfiguration
  rw [if_neg (by omega)]
  have hexpand := expandConstraints_expanded hng hcons
  cases hwo : expandConstraints t constraints with
  | none =>
    rw [hwo] at hexpand
    exact fun queues _ => hexpand queues
  | some waitOrders =>
    rw [hwo] at hexpand
    have hre := hexpand.rearranges
    have hspec := findCycles_spec t waitOrders (startProcs constraints proc) [] blockingAutovacuum
    dsimp only
    generalize findCycles t waitOrders (startProcs constraints proc) [] blockingAutovacuum = r at hspec
    obtain ⟨result, blockingAutovacuum'⟩ := r
    match result with
    | none =>
      obtain ⟨p, -, hfound, hnil⟩ := hspec
      intro queues hacyclic hsat
      obtain ⟨e, he, -⟩ := exists_reversed hng hre hsat.rearranges (hacyclic p) hfound
      rw [hnil] at he
      cases he
    | some [] =>
      obtain ⟨-, hall⟩ := hspec.resolve_right fun h => h.1 rfl
      exact ⟨hexpand, fun p hp => (findLockCycle_false hng hre).mp (hall p hp)⟩
    | some (e :: es) =>
      obtain ⟨-, p, -, hfound, hedges⟩ := hspec.resolve_left fun h => cons_ne_nil _ _ h.1
      refine ⟨fun e' he' => ?_, fun queues hacyclic hsat => ?_⟩
      · obtain ⟨hcon, hpair⟩ := softEdges_constrain hng hre hfound (by rw [hedges]; exact he')
        exact ⟨hcon, fun hin => pair_asymm (hre.nodup _) hpair (hexpand.satisfies.order e' hin)⟩
      · obtain ⟨e', he', hpair⟩ := exists_reversed hng hre hsat.rearranges (hacyclic p) hfound
        rw [hedges] at he'
        refine ⟨e', he', hsat.rearranges, fun c hc => ?_⟩
        rcases mem_append.mp hc with hc | hc
        · exact hsat.order c hc
        · rw [mem_singleton.mp hc]
          exact hpair

/-! ### The calls of the recursion -/

/-- The calls that `DeadLockCheckRecurse` makes, if it does not find a solution before it comes to them. -/
inductive Tested (t : LockState P L) (maxBackends : Nat) (proc : P) : List (Edge P L) → Nat → Prop
  | start : Tested t maxBackends proc [] 0
  | add {constraints edges : List (Edge P L)} {n : Nat} {e : Edge P L} : Tested t maxBackends proc constraints n →
      constraints.length < maxBackends → (testConfiguration t maxBackends proc constraints n none).1 = some edges →
      e ∈ edges → Tested t maxBackends proc (constraints ++ [e])
        (if n + edges.length + maxBackends ≤ maxBackends * 4 then n + edges.length else n)

/-- Some configuration with a soft cycle left has no room for one more constraint. -/
def LimitHit (t : LockState P L) (maxBackends : Nat) (proc : P) : Prop :=
  ∃ constraints n e es, Tested t maxBackends proc constraints n ∧ constraints.length = maxBackends ∧
    (testConfiguration t maxBackends proc constraints n none).1 = some (e :: es)

/-- There is always room for the edges of one more cycle. -/
theorem Tested.room (h : Tested t maxBackends proc constraints n) : n + maxBackends ≤ maxBackends * 4 := by
  induction h with
  | start => omega
  | add _ _ _ _ ih =>
    split
    · assumption
    · exact ih

theorem Tested.constrains (hng : NoGroups t) (h : Tested t maxBackends proc constraints n) :
    (∀ c ∈ constraints, Constrains t c) ∧ constraints.Nodup := by
  induction h with
  | start => exact ⟨nofun, nodup_nil⟩
  | @add constraints edges n e htested _ hedges he ih =>
    obtain ⟨hcons, hnd⟩ := ih
    have htold := testConfiguration_tells proc hng hcons htested.room none
    generalize testConfiguration t maxBackends proc constraints n none = r at htold hedges
    obtain ⟨result, waitOrders, blockingAutovacuum⟩ := r
    dsimp only at hedges
    subst hedges
    cases edges with
    | nil => cases he
    | cons e' es =>
      obtain ⟨hcon, hnew⟩ := htold.1 e he
      refine ⟨fun c hc => ?_, nodup_snoc hnd hnew⟩
      rcases mem_append.mp hc with hc | hc
      · exact hcons c hc
      · rw [mem_singleton.mp hc]
        exact hcon

omit [DecidableEq P] [DecidableEq L] [Fintype P] in
theorem tryEdges_some {R : Type} {go : Edge P L → Option P → Option R × Option P} {retest : Option P → Option P} {r : R}
    (edges : List (Edge P L)) (blockingAutovacuum : Option P)
    (h : (tryEdges go retest edges blockingAutovacuum).1 = some r) :
    ∃ e ∈ edges, ∃ blockingAutovacuum, (go e blockingAutovacuum).1 = some r := by
  induction edges generalizing blockingAutovacuum with
  | nil => exact nomatch h
  | cons e edges ih =>
    rw [tryEdges] at h
    split at h
    · next r' _ hgo =>
      exact ⟨e, mem_cons_self, blockingAutovacuum, by rw [hgo]; exact h⟩
    · obtain ⟨e', he', hgo⟩ := ih _ h
      exact ⟨e', mem_cons_of_mem e he', hgo⟩

omit [DecidableEq P] [DecidableEq L] [Fintype P] in
/-- The loop finds something when the search of one edge does, whatever came before. -/
theorem tryEdges_isSome {R : Type} {go : Edge P L → Option P → Option R × Option P} {retest : Option P → Option P}
    {e : Edge P L} (edges : List (Edge P L)) (he : e ∈ edges)
    (hgo : ∀ blockingAutovacuum, (go e blockingAutovacuum).1.isSome) (blockingAutovacuum : Option P) :
    (tryEdges go retest edges blockingAutovacuum).1.isSome := by
  induction edges generalizing blockingAutovacuum with
  | nil => cases he
  | cons e' edges ih =>
    rw [tryEdges]
    split
    · rfl
    · next hnone =>
      rcases mem_cons.mp he with rfl | he
      · have := hgo blockingAutovacuum
        rw [hnone] at this
        exact nomatch this
      · exact ih he _

/-- A solution passes the test of its configuration. -/
theorem deadLockCheckRecurse_good (hng : NoGroups t) (room : Nat) (htested : Tested t maxBackends proc constraints n)
    (hroom : constraints.length + room = maxBackends) (blockingAutovacuum : Option P)
    (h : (deadLockCheckRecurse t maxBackends proc room constraints n blockingAutovacuum).1 = some waitOrders) :
    ∃ constraints, Expanded t constraints constraints waitOrders ∧
      ∀ p ∈ startProcs constraints proc, ¬ TransGen (WaitsIn t (rearranged t waitOrders)) p p := by
  induction room generalizing constraints n blockingAutovacuum with
  | zero =>
    have htold := testConfiguration_tells proc hng (htested.constrains hng).1 htested.room blockingAutovacuum
    rw [deadLockCheckRecurse] at h
    generalize testConfiguration t maxBackends proc constraints n blockingAutovacuum = r at htold h
    obtain ⟨result, waitOrders', blockingAutovacuum'⟩ := r
    match result, htold, h with
    | some [], htold, h =>
      cases h
      exact ⟨constraints, htold⟩
  | succ room ih =>
    have htold := testConfiguration_tells proc hng (htested.constrains hng).1 htested.room blockingAutovacuum
    have hsame := testConfiguration_same t maxBackends proc constraints n blockingAutovacuum none
    rw [deadLockCheckRecurse] at h
    generalize testConfiguration t maxBackends proc constraints n blockingAutovacuum = r at htold hsame h
    obtain ⟨result, waitOrders', blockingAutovacuum'⟩ := r
    match result, htold, hsame, h with
    | some [], htold, _, h =>
      cases h
      exact ⟨constraints, htold⟩
    | some (e :: es), _, hsame, h =>
      obtain ⟨e', he', av, hgo⟩ := tryEdges_some _ _ h
      simp only [decide_eq_true_iff] at hgo
      exact ih (.add htested (by omega) hsame.symm he') (by
        rw [length_append, length_singleton]
        omega) av hgo

/-- The search comes to a solution, following the edges that an arrangement without cycles reverses, or to a
configuration that has no more room. -/
theorem deadLockCheckRecurse_complete (proc : P) (hng : NoGroups t) (hacyclic : Acyclic t queues) (room : Nat)
    (htested : Tested t maxBackends proc constraints n) (hroom : constraints.length + room = maxBackends)
    (hsat : Satisfies t queues constraints) (blockingAutovacuum : Option P) :
    (deadLockCheckRecurse t maxBackends proc room constraints n blockingAutovacuum).1.isSome ∨
      ∃ constraints n e es, Tested t maxBackends proc constraints n ∧ constraints.length = maxBackends ∧
        (testConfiguration t maxBackends proc constraints n none).1 = some (e :: es) ∧
          Satisfies t queues constraints := by
  induction room generalizing constraints n blockingAutovacuum with
  | zero =>
    have htold := testConfiguration_tells proc hng (htested.constrains hng).1 htested.room blockingAutovacuum
    have hsame := testConfiguration_same t maxBackends proc constraints n blockingAutovacuum none
    rw [deadLockCheckRecurse]
    generalize testConfiguration t maxBackends proc constraints n blockingAutovacuum = r at htold hsame
    obtain ⟨result, waitOrders', blockingAutovacuum'⟩ := r
    match result, htold, hsame with
    | none, htold, _ => exact absurd hsat (htold queues hacyclic)
    | some [], _, _ => exact .inl rfl
    | some (e :: es), _, hsame => exact .inr ⟨constraints, n, e, es, htested, hroom, hsame.symm, hsat⟩
  | succ room ih =>
    have htold := testConfiguration_tells proc hng (htested.constrains hng).1 htested.room blockingAutovacuum
    have hsame := testConfiguration_same t maxBackends proc constraints n blockingAutovacuum none
    rw [deadLockCheckRecurse]
    generalize testConfiguration t maxBackends proc constraints n blockingAutovacuum = r at htold hsame
    obtain ⟨result, waitOrders', blockingAutovacuum'⟩ := r
    match result, htold, hsame with
    | none, htold, _ => exact absurd hsat (htold queues hacyclic)
    | some [], _, _ => exact .inl rfl
    | some (e :: es), htold, hsame =>
      obtain ⟨e', he', hsat'⟩ := htold.2 queues hacyclic hsat
      have hnext := ih (.add htested (by omega) hsame.symm he') (by
        rw [length_append, length_singleton]
        omega) hsat'
      by_cases hlimit : ∃ constraints n e es, Tested t maxBackends proc constraints n ∧
          constraints.length = maxBackends ∧
          (testConfiguration t maxBackends proc constraints n none).1 = some (e :: es) ∧ Satisfies t queues constraints
      · exact .inr hlimit
      · refine .inl (tryEdges_isSome (e :: es) he' (fun av => ?_) _)
        simp only [decide_eq_true_iff]
        exact (hnext av).resolve_right hlimit

end

end PgStorage.Deadlock
