import PgStorage.Deadlock.CheckProofs

/-! What `DeadLockCheck` does about deadlocks, without lock groups.

Where it does not report a hard deadlock, the queues are rearranged so that the process is on no cycle and no new
cycle is made. Where some arrangement has no cycles, it finds one, unless it runs out of room for constraints. -/
namespace PgStorage.Deadlock
open List
open Relation (TransGen)

/-- A cycle of a graph, as the list of its nodes. -/
def IsCycle {P : Type} (R : P → P → Prop) : List P → Prop
  | [] => False
  | x :: xs => List.IsChain R (x :: xs ++ [x])

theorem IsCycle.transGen {P : Type} {R : P → P → Prop} {cycle : List P} (h : IsCycle R cycle) {y : P} (hy : y ∈ cycle) :
    TransGen R y y := by
  match cycle, h with
  | x :: xs, h =>
    have hchain : List.IsChain (TransGen R) (x :: xs ++ [x]) := h.imp fun _ _ => .single
    rw [isChain_iff_pairwise, cons_append, pairwise_cons, pairwise_append] at hchain
    obtain ⟨hfirst, -, -, hlast⟩ := hchain
    rcases mem_cons.mp hy with rfl | hy
    · exact hfirst y (mem_append_right _ mem_cons_self)
    · exact (hlast y hy x mem_cons_self).trans (hfirst y (mem_append_left _ hy))

theorem IsCycle.imp_of_mem {P : Type} {R S : P → P → Prop} {cycle : List P} (h : IsCycle R cycle)
    (himp : ∀ x ∈ cycle, ∀ y ∈ cycle, R x y → S x y) : IsCycle S cycle := by
  match cycle, h with
  | x :: xs, h =>
    have hmem (y : P) (hy : y ∈ x :: xs ++ [x]) : y ∈ x :: xs := by
      rcases mem_append.mp hy with hy | hy
      · exact hy
      · rw [mem_singleton.mp hy]
        exact mem_cons_self
    exact List.IsChain.imp_of_mem_imp (fun a b ha hb => himp a (hmem a ha) b (hmem b hb)) h

section
variable {P L : Type} [DecidableEq P] [DecidableEq L] {t : LockState P L} {queues : L → List P}
  {waitOrders : List (WaitOrder P L)} {constraints : List (Edge P L)} {p q : P}

omit [DecidableEq P] in
/-- Who is not the waiter of a constraint is waited for by no one it was not waited for by before. -/
theorem Expanded.waitsIn_before (h : Expanded t constraints constraints waitOrders)
    (hfree : ∀ c ∈ constraints, c.waiter ≠ q)
    (hpq : WaitsIn t (rearranged t waitOrders) p q) : WaitsIn t t.waitProcs p q := by
  obtain ⟨l, hwait, hne, hholds | ⟨hahead, hc⟩⟩ := hpq
  · exact ⟨l, hwait, hne, .inl hholds⟩
  · have hq : q ∈ t.waitProcs l := (h.rearranges l).mem_iff.mp (hahead.subset mem_cons_self)
    refine ⟨l, hwait, hne, .inr ⟨(pair_total hq ((t.queued p l).mpr hwait) hne).resolve_right fun hpq => ?_, hc⟩⟩
    exact pair_asymm (h.rearranges.nodup l) hahead (h.kept hfree hpq)

variable [Fintype P] {maxBackends : Nat} {proc : P}

omit [DecidableEq P] [Fintype P] in
/-- No new cycle is made: those of the waiters of constraints have been searched for. -/
theorem cycles_before (h : Expanded t constraints constraints waitOrders)
    (hnone : ∀ p ∈ startProcs constraints proc, ¬ TransGen (WaitsIn t (rearranged t waitOrders)) p p)
    {cycle : List P} (hcycle : IsCycle (WaitsIn t (rearranged t waitOrders)) cycle) :
    IsCycle (WaitsIn t t.waitProcs) cycle := by
  refine hcycle.imp_of_mem fun p _ q hq => h.waitsIn_before fun c hc hcq => ?_
  subst hcq
  refine hnone c.waiter (mem_append_left _ (mem_flatMap.mpr ⟨c, hc, mem_cons_self⟩)) (hcycle.transGen hq)

/-- A check that finds no solution has found a cycle in the basic state. -/
theorem deadLockCheckRecurse_none {room : Nat} (blockingAutovacuum : Option P)
    (h : (deadLockCheckRecurse t maxBackends proc room [] 0 none).1 = none) :
    (findLockCycle t [] proc blockingAutovacuum).1 = true := by
  by_contra hfound
  rw [Bool.not_eq_true, (findLockCycle_same t [] proc blockingAutovacuum none).1] at hfound
  have htest : ∃ av, testConfiguration t maxBackends proc [] 0 none = (some [], [], av) := by
    unfold testConfiguration
    rw [if_neg (by omega)]
    refine ⟨(findLockCycle t [] proc none).2.blockingAutovacuum, ?_⟩
    have hstart : startProcs ([] : List (Edge P L)) proc = [proc] := rfl
    have hexpand : expandConstraints t [] = some [] := rfl
    rw [hexpand, hstart]
    dsimp only
    rw [findCycles]
    generalize findLockCycle t [] proc none = out at hfound
    obtain ⟨found, s⟩ := out
    dsimp only at hfound
    subst hfound
    rfl
  obtain ⟨av, htest⟩ := htest
  cases room with
  | zero | succ room =>
    rw [deadLockCheckRecurse, htest] at h
    cases h

/-- **Deadlock resolution is sound and complete.** The searches end, and the check has a result; where that is no hard
deadlock, the queues are rearranged, the process is on no cycle, and every cycle was there before; where some
arrangement has no cycles, it is no hard deadlock unless the limit of the constraints is hit. -/
theorem deadLockCheck_resolves (t : LockState P L) (maxBackends : Nat) (proc : P) (hng : NoGroups t) :
    (∀ waitOrders p blockingAutovacuum fuel, Fintype.card P < fuel →
      findLockCycleRecurse t waitOrders fuel 0 p ⟨[], [], fun _ => none, 0, blockingAutovacuum⟩ =
        findLockCycle t waitOrders p blockingAutovacuum) ∧
    ∃ state queues, deadLockCheck t maxBackends proc = some (state, queues) ∧
      (state ≠ .hardDeadlock → Rearranges t queues ∧ ¬ TransGen (WaitsIn t queues) proc proc ∧
        ∀ cycle, IsCycle (WaitsIn t queues) cycle → IsCycle (WaitsIn t t.waitProcs) cycle) ∧
      ((∃ queues, Rearranges t queues ∧ Acyclic t queues) → ¬ LimitHit t maxBackends proc → state ≠ .hardDeadlock) := by
  refine ⟨fun _ p blockingAutovacuum _ hfuel => findLockCycle_deeper hfuel p blockingAutovacuum, ?_⟩
  have hlen : ([] : List (Edge P L)).length + maxBackends = maxBackends := zero_add _
  unfold deadLockCheck
  cases hr : deadLockCheckRecurse t maxBackends proc maxBackends [] 0 none with
  | mk result blockingAutovacuum =>
  cases result with
  | none =>
    dsimp only
    rw [if_pos (deadLockCheckRecurse_none blockingAutovacuum (by rw [hr]))]
    refine ⟨_, _, rfl, fun h => absurd rfl h, fun ⟨queues, hre, hacyclic⟩ hlimit => ?_⟩
    rcases deadLockCheckRecurse_complete proc hng hacyclic maxBackends .start hlen ⟨hre, nofun⟩ none with
      h | ⟨constraints, n, e, es, htested, hfull, htest, -⟩
    · rw [hr] at h
      exact nomatch h
    · exact absurd ⟨constraints, n, e, es, htested, hfull, htest⟩ hlimit
  | some waitOrders =>
    obtain ⟨constraints, hexpanded, hfree⟩ := deadLockCheckRecurse_good hng maxBackends .start hlen none (by rw [hr])
    refine ⟨_, _, rfl, fun _ => ⟨hexpanded.rearranges, hfree proc (mem_append_right _ mem_cons_self),
      fun cycle => cycles_before hexpanded hfree⟩, fun _ _ => ?_⟩
    split
    · nofun
    · split
      · nofun
      · nofun

/-! ### The limit of the constraints -/

/-- The pairs of processes that wait in one queue, each in both orders. -/
def rivals (t : LockState P L) : Finset (P × P) :=
  Finset.univ.filter fun (p, q) => p ≠ q ∧ (t.waitLock p).isSome ∧ t.waitLock p = t.waitLock q

/-- Constraints that an arrangement satisfies are of different pairs. -/
theorem constraints_le_rivals (hcons : ∀ c ∈ constraints, Constrains t c) (hnd : constraints.Nodup)
    (hsat : Satisfies t queues constraints) : 2 * constraints.length ≤ (rivals t).card := by
  have hlock {c c' : Edge P L} (hc : c ∈ constraints) (hc' : c' ∈ constraints)
      (h : c.waiter = c'.waiter ∨ c.waiter = c'.blocker) : c.lock = c'.lock := by
    have hw := (hcons c hc).waiter
    rcases h with h | h
    · rw [h, (hcons c' hc').waiter] at hw
      exact (Option.some.inj hw).symm
    · rw [h, (hcons c' hc').blocker] at hw
      exact (Option.some.inj hw).symm
  have hforth : (constraints.map fun c => (c.waiter, c.blocker)).Nodup := by
    refine hnd.map_on fun c hc c' hc' heq => ?_
    obtain ⟨hw, hb⟩ := Prod.mk.inj heq
    have hl := hlock hc hc' (.inl hw)
    obtain ⟨w, b, l⟩ := c
    obtain ⟨w', b', l'⟩ := c'
    rw [Edge.mk.injEq]
    exact ⟨hw, hb, hl⟩
  have hback : (constraints.map fun c => (c.blocker, c.waiter)).Nodup := by
    refine hnd.map_on fun c hc c' hc' heq => ?_
    obtain ⟨hb, hw⟩ := Prod.mk.inj heq
    have hl := hlock hc hc' (.inl hw)
    obtain ⟨w, b, l⟩ := c
    obtain ⟨w', b', l'⟩ := c'
    rw [Edge.mk.injEq]
    exact ⟨hw, hb, hl⟩
  have hboth : ((constraints.map fun c => (c.waiter, c.blocker)) ++
      constraints.map fun c => (c.blocker, c.waiter)).Nodup := by
    rw [nodup_append]
    refine ⟨hforth, hback, fun z hz z' hz' heq => ?_⟩
    obtain ⟨c, hc, rfl⟩ := mem_map.mp hz
    obtain ⟨c', hc', rfl⟩ := mem_map.mp hz'
    obtain ⟨hw, hb⟩ := Prod.mk.inj heq
    have hpair := hsat.order c' hc'
    rw [← hw, ← hb, ← hlock hc hc' (.inr hw)] at hpair
    exact pair_asymm (hsat.rearranges.nodup c.lock) (hsat.order c hc) hpair
  have hin {c : Edge P L} (hc : c ∈ constraints) : c.waiter ≠ c.blocker ∧ (t.waitLock c.waiter).isSome ∧
      t.waitLock c.waiter = t.waitLock c.blocker := by
    obtain ⟨hw, hb⟩ := hcons c hc
    refine ⟨fun heq => ?_, by rw [hw]; rfl, by rw [hw, hb]⟩
    have hpair := hsat.order c hc
    rw [heq] at hpair
    exact pair_asymm (hsat.rearranges.nodup _) hpair hpair
  calc 2 * constraints.length = ((constraints.map fun c => (c.waiter, c.blocker)) ++
        constraints.map fun c => (c.blocker, c.waiter)).length := by
        rw [length_append, length_map, length_map, Nat.two_mul]
    _ = ((constraints.map fun c => (c.waiter, c.blocker)) ++
        constraints.map fun c => (c.blocker, c.waiter)).toFinset.card := (toFinset_card_of_nodup hboth).symm
    _ ≤ (rivals t).card := by
      refine Finset.card_le_card fun z hz => ?_
      unfold rivals
      rw [Finset.mem_filter]
      rw [mem_toFinset, mem_append, mem_map, mem_map] at hz
      rcases hz with ⟨c, hc, rfl⟩ | ⟨c, hc, rfl⟩
      · exact ⟨Finset.mem_univ _, hin hc⟩
      · obtain ⟨hne, hsome, heq⟩ := hin hc
        exact ⟨Finset.mem_univ _, hne.symm, by rwa [← heq], heq.symm⟩

/-- **The constraint limit.** Where some arrangement has no cycles, there is always room for the edges of one more
cycle, and a solution is found unless the limit of the constraints is hit; it is found if there are no more pairs of
processes in one queue than that limit. -/
theorem deadLockCheckRecurse_finds (t : LockState P L) (maxBackends : Nat) (proc : P) (hng : NoGroups t)
    (queues : L → List P) (hre : Rearranges t queues) (hacyclic : Acyclic t queues) :
    (∀ constraints n, Tested t maxBackends proc constraints n → n + maxBackends ≤ maxBackends * 4) ∧
    ((deadLockCheckRecurse t maxBackends proc maxBackends [] 0 none).1.isSome ∨ LimitHit t maxBackends proc) ∧
    ((rivals t).card ≤ 2 * maxBackends →
      (deadLockCheckRecurse t maxBackends proc maxBackends [] 0 none).1.isSome) := by
  have hlen : ([] : List (Edge P L)).length + maxBackends = maxBackends := zero_add _
  have hcomplete := deadLockCheckRecurse_complete proc hng hacyclic maxBackends .start hlen ⟨hre, nofun⟩ none
  refine ⟨fun _ _ h => h.room, ?_, fun hrivals => ?_⟩
  · rcases hcomplete with h | ⟨constraints, n, e, es, htested, hfull, htest, -⟩
    · exact .inl h
    · exact .inr ⟨constraints, n, e, es, htested, hfull, htest⟩
  · rcases hcomplete with h | ⟨constraints, n, e, es, htested, hfull, htest, hsat⟩
    · exact h
    · -- one more constraint would make more pairs than there are
      exfalso
      obtain ⟨hcons, hnd⟩ := htested.constrains hng
      have htold := testConfiguration_tells proc hng hcons htested.room none
      generalize testConfiguration t maxBackends proc constraints n none = r at htold htest
      obtain ⟨result, waitOrders, blockingAutovacuum⟩ := r
      dsimp only at htest
      subst htest
      obtain ⟨e', he', hsat'⟩ := htold.2 queues hacyclic hsat
      obtain ⟨hcon, hnew⟩ := htold.1 e' he'
      have hcount := constraints_le_rivals (fun c hc => ?_) (CycleSearch.nodup_snoc hnd hnew) hsat'
      · rw [length_append, length_singleton] at hcount
        omega
      · rcases mem_append.mp hc with hc | hc
        · exact hcons c hc
        · rw [mem_singleton.mp hc]
          exact hcon

end

/-- `LockConflicts` -/
def lockConflicts : Nat → List Nat
  | 1 => [8]
  | 2 => [7, 8]
  | 3 => [5, 6, 7, 8]
  | 4 => [4, 5, 6, 7, 8]
  | 5 => [3, 4, 6, 7, 8]
  | 6 => [3, 4, 5, 6, 7, 8]
  | 7 => [2, 3, 4, 5, 6, 7, 8]
  | 8 => [1, 2, 3, 4, 5, 6, 7, 8]
  | _ => []

local instance fourProcs : NeZero 4 := ⟨by decide⟩

/-- Four processes wait for one lock, which three of them hold. -/
def crowded : LockState (Fin 4) Unit where
  numLockModes _ := 8
  conflictTab _ a b := (lockConflicts a).contains b
  procLocks _ := [(0, fun m => m == 1 || m == 3), (1, fun m => m == 1), (2, fun m => m == 1)]
  waitProcs _ := [3, 1, 2, 0]
  waitLock _ := some ()
  waitLockMode p := if p = 0 then 7 else if p = 1 then 5 else if p = 2 then 6 else 8
  lockGroupLeader _ := none
  lockGroupMembers _ := []
  isAutovacuum _ := false
  myProc := 3
  queued := by decide
  nodup := by decide
  member := by decide
  leads := by decide

/-- The order 0, 1, 2, 3 has no cycles, but takes five constraints to come to. -/
theorem crowded_acyclic : Rearranges crowded (fun _ => [0, 1, 2, 3]) ∧ Acyclic crowded (fun _ => [0, 1, 2, 3]) := by
  refine ⟨fun l => by cases l; decide, fun p hcycle => ?_⟩
  have hedge : ∀ p q : Fin 4, (q ∈ hardBlockers crowded () p (crowded.leaderOf p) ∨ [q, p].Sublist [0, 1, 2, 3]) →
      q ≠ p → q < p := by
    decide
  have hlt {p q : Fin 4} (h : WaitsIn crowded (fun _ => [0, 1, 2, 3]) p q) : q < p := by
    obtain ⟨l, hwait, hne, hholds | ⟨hahead, -⟩⟩ := h
    · exact hedge p q (.inl ((mem_hardBlockers hwait).mpr ⟨hwait, hne, hholds⟩)) hne
    · exact hedge p q (.inr hahead) hne
  have hdown {p q : Fin 4} (h : TransGen (WaitsIn crowded fun _ => [0, 1, 2, 3]) p q) : q < p := by
    induction h with
    | single h => exact hlt h
    | tail _ h ih => exact lt_trans (hlt h) ih
  exact absurd (hdown hcycle) (lt_irrefl p)

/-- With room for six constraints, one for each pair, a solution is found. -/
theorem crowded_found : (deadLockCheckRecurse crowded 6 3 6 [] 0 none).1.isSome :=
  (deadLockCheckRecurse_finds crowded 6 3 (fun _ => rfl) _ crowded_acyclic.1 crowded_acyclic.2).2.2 (by decide)

/-- With room for four, as many as there are processes, none is found. -/
theorem crowded_unsolved : NoGroups crowded ∧ (∃ queues, Rearranges crowded queues ∧ Acyclic crowded queues) ∧
    (Finset.univ.filter fun p => (crowded.waitLock p).isSome).card ≤ 4 ∧
    (deadLockCheckRecurse crowded 4 3 4 [] 0 none).1 = none :=
  ⟨fun _ => rfl, ⟨_, crowded_acyclic⟩, by decide, Option.isNone_iff_eq_none.mp (by decide +kernel)⟩

/-- With room for five the queue is rearranged. -/
theorem crowded_resolved : ∃ queues, deadLockCheck crowded 5 3 = some (.softDeadlock, queues) ∧
    Rearranges crowded queues ∧ ¬ TransGen (WaitsIn crowded queues) 3 3 := by
  obtain ⟨-, state, queues, hcheck, hsound, -⟩ := deadLockCheck_resolves crowded 5 3 (fun _ => rfl)
  have hstate : (deadLockCheck crowded 5 3).map Prod.fst = some .softDeadlock := by decide +kernel
  rw [hcheck, Option.map_some, Option.some.injEq] at hstate
  dsimp only at hstate
  subst hstate
  obtain ⟨hre, hfree, -⟩ := hsound nofun
  exact ⟨queues, hcheck, hre, hfree⟩

end PgStorage.Deadlock
