import PgStorage.Deadlock.CheckProofs

/-! The workspace of the deadlock checker (`InitDeadLockChecking` in `deadlock.c`).

The arrays are allocated once, by `MaxBackends`. Waiting processes are backends, and queues have no process in common,
so that all that is about waiters and queues fits. The groups that a search visits also include those that only hold
locks, such as prepared transactions, and of these there can be more. -/
namespace PgStorage.Deadlock
open CycleSearch
open List
open Finset (card_le_card mem_univ mem_coe)

section
variable {P L : Type} [DecidableEq P] [DecidableEq L]

/-- `visitedProcs` and `deadlockDetails` have room for `MaxBackends` entries, and so has what is left of
`possibleConstraints` for the soft edges of a search. -/
structure SearchFits (maxBackends nPossibleConstraints : Nat) (s : Search P L) : Prop where
  visitedProcs : s.visitedProcs.length ≤ maxBackends
  deadlockDetails : ∀ i, (s.deadlockDetails i).isSome → i < maxBackends
  softEdges : s.softEdges.length ≤ maxBackends
  possibleConstraints : nPossibleConstraints + s.softEdges.length ≤ maxBackends * 4

/-- Each entry of `waitOrders`, and its part of `waitOrderProcs`, is inside the array when `ExpandConstraints` writes
it, and the queue has room in `topoProcs`. -/
def ExpandFits (t : LockState P L) (maxBackends : Nat) : List (Edge P L) → List (WaitOrder P L) → Nat → Prop
  | [], _, _ => True
  | c :: constraints, waitOrders, nWaitOrderProcs =>
    if waitOrders.any fun w => decide (w.lock = c.lock)
      then ExpandFits t maxBackends constraints waitOrders nWaitOrderProcs
    else
      waitOrders.length < maxBackends / 2 ∧ nWaitOrderProcs + (t.waitProcs c.lock).length ≤ maxBackends ∧
        (t.waitProcs c.lock).length ≤ maxBackends ∧
        ∀ procs, topoSort t c.lock (constraints.reverse ++ [c]) = some procs →
          ExpandFits t maxBackends constraints (waitOrders ++ [⟨c.lock, procs⟩])
            (nWaitOrderProcs + (t.waitProcs c.lock).length)

variable [Fintype P]

/-- No call writes past the end of an array. -/
structure CheckFits (t : LockState P L) (maxBackends : Nat) (proc : P) : Prop where
  searches : ∀ constraints n, Tested t maxBackends proc constraints n →
    ∀ waitOrders, expandConstraints t constraints = some waitOrders →
      ∀ p ∈ startProcs constraints proc, ∀ blockingAutovacuum,
        SearchFits maxBackends n (findLockCycle t waitOrders p blockingAutovacuum).2
  orders : ∀ constraints n, Tested t maxBackends proc constraints n →
    ExpandFits t maxBackends constraints.reverse [] 0
  curConstraints : ∀ constraints n, Tested t maxBackends proc constraints n → constraints.length ≤ maxBackends

/-- One group waits for another one in some order of the queues. -/
def MayWaitFor (t : LockState P L) (g h : P) : Prop :=
  ∃ p l q, t.leaderOf p = g ∧ t.leaderOf q = h ∧ (HardWait t p l q ∨ t.waitLock p = some l ∧ t.waitLock q = some l ∧
    t.leaderOf q ≠ t.leaderOf p ∧ t.conflictTab l (t.waitLockMode p) (t.waitLockMode q) = true)

variable {t : LockState P L} {waitOrders : List (WaitOrder P L)} {constraints edges : List (Edge P L)}
  {maxBackends n : Nat} {proc p q : P} {l : L}

/-! ### Orders of queues -/

omit [DecidableEq L] [Fintype P] in
theorem emit_subset {after : Nat → List Nat} (rounds : Nat) {topoProcs : List (Option P)} {before : Nat → Int}
    {ordering ordering' : List P} (h : emit t after rounds topoProcs before ordering = some ordering') :
    ∀ x ∈ ordering', x ∈ ordering ∨ some x ∈ topoProcs := by
  induction rounds generalizing topoProcs before ordering with
  | zero =>
    cases h
    exact fun x hx => .inl hx
  | succ rounds ih =>
    rw [emit] at h
    split at h
    · cases h
      exact fun x hx => .inl hx
    · split at h
      · cases h
      · split at h
        · cases h
        · intro x hx
          rcases ih h x hx with hx | hx
          · rcases mem_append.mp hx with hx | hx
            · obtain ⟨slot, hslot, hfilter⟩ := mem_filterMap.mp (mem_reverse.mp hx)
              obtain ⟨rfl, -⟩ := Option.filter_eq_some_iff.mp hfilter
              exact .inr hslot
            · exact .inl hx
          · obtain ⟨slot, hslot, heq⟩ := mem_map.mp hx
            split at heq
            · cases heq
            · subst heq
              exact .inr hslot

omit [DecidableEq L] [Fintype P] in
theorem topoSort_subset {procs : List P} (h : topoSort t l constraints = some procs) : procs ⊆ t.waitProcs l := by
  intro x hx
  rcases emit_subset _ h x hx with hx | hx
  · cases hx
  · obtain ⟨y, hy, heq⟩ := mem_map.mp hx
    cases heq
    exact hy

/-- Each order has only processes of its queue. -/
def OfQueues (t : LockState P L) (waitOrders : List (WaitOrder P L)) : Prop := ∀ w ∈ waitOrders,
    w.procs ⊆ t.waitProcs w.lock

omit [Fintype P] in
theorem expandReversed_ofQueues (constraints : List (Edge P L)) {waitOrders waitOrders' : List (WaitOrder P L)}
    (hof : OfQueues t waitOrders) (h : expandReversed t constraints waitOrders = some waitOrders') :
    OfQueues t waitOrders' := by
  induction constraints generalizing waitOrders with
  | nil =>
    cases h
    exact hof
  | cons c constraints ih =>
    rw [expandReversed] at h
    split at h
    · exact ih hof h
    · split at h
      · cases h
      · next procs hprocs =>
        refine ih (fun w hw => ?_) h
        rcases mem_append.mp hw with hw | hw
        · exact hof w hw
        · rw [mem_singleton.mp hw]
          exact topoSort_subset hprocs

omit [DecidableEq P] [Fintype P] in
theorem SoftWait.queued (hof : OfQueues t waitOrders) (h : SoftWait t waitOrders p l q) : t.waitLock q = some l := by
  have hahead := h.ahead
  rw [← t.queued]
  unfold Ahead at hahead
  split at hahead
  · next w hfind =>
    obtain ⟨front, behind, heq, -⟩ := hahead
    obtain ⟨hw, rfl⟩ := find_order hfind
    exact hof w hw (by rw [heq]; exact mem_append_right _ mem_cons_self)
  · obtain ⟨front, behind, heq, -⟩ := hahead
    rw [heq]
    exact mem_append_right _ mem_cons_self

omit [DecidableEq P] [Fintype P] in
theorem IsWait.mayWaitFor (hof : OfQueues t waitOrders) {g : P} {w : Wait P L} (h : IsWait t waitOrders g w) :
    MayWaitFor t g (t.target w) := by
  obtain ⟨hmember, hblocks⟩ := h
  refine ⟨w.waiter, w.lock, w.blocker, hmember, rfl, ?_⟩
  split at hblocks
  · exact .inr ⟨hblocks.waits, hblocks.queued hof, hblocks.other, hblocks.conflicts⟩
  · exact .inl hblocks

omit [DecidableEq P] [Fintype P] in
theorem WaitsFor.mayWaitFor (hof : OfQueues t waitOrders) {g h : P} (hgh : WaitsFor t waitOrders g h) :
    MayWaitFor t g h := by
  obtain ⟨p, l, q, hp, hq, hhard | hsoft⟩ := hgh
  · exact ⟨p, l, q, hp, hq, .inl hhard⟩
  · exact ⟨p, l, q, hp, hq, .inr ⟨hsoft.waits, hsoft.queued hof, hsoft.other, hsoft.conflicts⟩⟩

/-- The processes that wait. -/
def waiters (t : LockState P L) : Finset P := Finset.univ.filter fun p => (t.waitLock p).isSome

/-- The groups that a group may wait for, in some order of the queues. -/
def Reached (t : LockState P L) (g : P) : Set P := {h | Relation.ReflTransGen (MayWaitFor t) g h}

omit [DecidableEq P] [Fintype P] in
theorem sources_eq {x y : P} {path : List (Wait P L)} (h : Walk (IsWait t waitOrders) t.target x path y) :
    sources t.target x path = path.map fun w => t.leaderOf w.waiter := by
  induction h with
  | nil => rfl
  | cons hstep _ ih => rw [sources, map_cons, ih, hstep.member]

/-- The waiters of a cycle are different processes. -/
theorem Reports.length_le {s : Search P L} {path : List (Wait P L)} (h : Reports t waitOrders p s path) :
    path.length ≤ (waiters t).card := by
  have hnd : ((path.map Wait.waiter).map t.leaderOf).Nodup := by
    have hsources := h.simple
    rw [sources_eq h.cycle] at hsources
    rw [map_map]
    exact hsources
  have hnd' : (path.map Wait.waiter).Nodup := hnd.of_map
  rw [← length_map (f := Wait.waiter), ← toFinset_card_of_nodup hnd']
  refine card_le_card fun x hx => ?_
  obtain ⟨w, hw, rfl⟩ := mem_map.mp (mem_toFinset.mp hx)
  obtain ⟨g, -, hblocks⟩ := h.cycle.mem hw
  refine Finset.mem_filter.mpr ⟨mem_univ _, ?_⟩
  split at hblocks
  · rw [hblocks.waits]
    rfl
  · rw [hblocks.waits]
    rfl

/-- What a search writes to `deadlockDetails` and to its soft edges. -/
theorem findLockCycle_writes (t : LockState P L) (waitOrders : List (WaitOrder P L)) (p : P)
    (blockingAutovacuum : Option P) :
    (findLockCycle t waitOrders p blockingAutovacuum).2.softEdges.length ≤ (waiters t).card ∧
      ∀ i, ((findLockCycle t waitOrders p blockingAutovacuum).2.deadlockDetails i).isSome → i < (waiters t).card := by
  have h : Unwound t 0 _ (findCycle (waits t waitOrders) t.target (t.leaderOf p))
    (findLockCycle t waitOrders p blockingAutovacuum) := findLockCycle_unwound p blockingAutovacuum
  have hreports := findLockCycle_reports t waitOrders p blockingAutovacuum
  generalize findCycle (waits t waitOrders) t.target (t.leaderOf p) = r at h
  generalize findLockCycle t waitOrders p blockingAutovacuum = out at h hreports
  obtain ⟨result, visited⟩ := r
  obtain ⟨found, s⟩ := out
  cases result with
  | none =>
    obtain ⟨-, -, hsoft, hdetails⟩ := h
    dsimp only
    rw [hsoft, hdetails]
    exact ⟨Nat.zero_le _, by simp⟩
  | some path =>
    obtain ⟨rfl, -, -, hcount, -, hbeyond⟩ := h
    obtain ⟨path', hpath⟩ := hreports rfl
    have hlen := hpath.length_le
    have hsame : path.length = path'.length := by
      rw [← hpath.count, hcount, zero_add]
    refine ⟨?_, fun i hi => ?_⟩
    · rw [hpath.softEdges, LockState.softEdges, length_reverse, length_map]
      exact le_trans (length_filter_le _ _) hlen
    · by_contra hge
      rw [hbeyond i (by omega)] at hi
      cases hi

/-- The groups that a group waits for, in given orders of the queues. -/
def ReachedNow (t : LockState P L) (waitOrders : List (WaitOrder P L)) (g : P) : Set P :=
  {h | Relation.ReflTransGen (WaitsFor t waitOrders) g h}

theorem findLockCycle_visitedProcs (p : P) (blockingAutovacuum : Option P) :
    (findLockCycle t waitOrders p blockingAutovacuum).2.visitedProcs =
      (findCycle (waits t waitOrders) t.target (t.leaderOf p)).2 := by
  have h : Unwound t 0 _ (findCycle (waits t waitOrders) t.target (t.leaderOf p))
    (findLockCycle t waitOrders p blockingAutovacuum) := findLockCycle_unwound p blockingAutovacuum
  generalize findCycle (waits t waitOrders) t.target (t.leaderOf p) = r at h
  generalize findLockCycle t waitOrders p blockingAutovacuum = out at h
  obtain ⟨result, visited⟩ := r
  obtain ⟨found, s⟩ := out
  cases result with
  | none => exact h.2.1
  | some path => exact h.2.1

/-- A search visits groups that are waited for. -/
theorem findLockCycle_visited (p : P) (blockingAutovacuum : Option P) :
    (findLockCycle t waitOrders p blockingAutovacuum).2.visitedProcs.length ≤
      (ReachedNow t waitOrders (t.leaderOf p)).ncard := by
  obtain ⟨hnd, hreach⟩ := findCycle_visited (waits t waitOrders) t.target (t.leaderOf p)
  rw [findLockCycle_visitedProcs, ← toFinset_card_of_nodup hnd, ← Set.ncard_coe_finset]
  refine Set.ncard_le_ncard (fun y hy => ?_) (Set.toFinite _)
  rw [mem_coe, mem_toFinset] at hy
  have hy' := hreach y hy
  have hboth : Relation.ReflTransGen (WaitsFor t waitOrders) (t.leaderOf p) y ∧ t.leaderOf y = y := by
    clear hy
    induction hy' with
    | refl => exact ⟨.refl, t.leaderOf_leaderOf p⟩
    | tail _ hstep ih =>
      obtain ⟨w, -, rfl⟩ := id hstep
      exact ⟨ih.1.tail ((leads_iff ih.2).mp hstep), t.leaderOf_leaderOf _⟩
  exact hboth.1

/-- A search that finds no cycle visits all of them. -/
theorem findLockCycle_all (p : P) (blockingAutovacuum : Option P)
    (hfound : (findLockCycle t waitOrders p blockingAutovacuum).1 = false) :
    (ReachedNow t waitOrders (t.leaderOf p)).ncard ≤
      (findLockCycle t waitOrders p blockingAutovacuum).2.visitedProcs.length := by
  have hnone : (findCycle (waits t waitOrders) t.target (t.leaderOf p)).1 = none := by
    rw [← Bool.not_eq_true, findLockCycle_true, ← transGen_leads_iff (t.leaderOf_leaderOf p),
      ← findCycle_isSome] at hfound
    exact Option.not_isSome_iff_eq_none.mp hfound
  obtain ⟨hnd, -⟩ := findCycle_visited (waits t waitOrders) t.target (t.leaderOf p)
  rw [findLockCycle_visitedProcs]
  generalize hr : findCycle (waits t waitOrders) t.target (t.leaderOf p) = r at hnone hnd
  obtain ⟨result, visited⟩ := r
  dsimp only at hnone hnd
  subst hnone
  obtain ⟨hstart, hclosed⟩ := findCycle_closed hr
  rw [← toFinset_card_of_nodup hnd, ← Set.ncard_coe_finset]
  refine Set.ncard_le_ncard (fun y hy => ?_) (Set.toFinite _)
  rw [mem_coe, mem_toFinset]
  have hy' : Relation.ReflTransGen (WaitsFor t waitOrders) (t.leaderOf p) y := hy
  clear hy
  induction hy' with
  | refl => exact hstart
  | tail _ hstep ih =>
    obtain ⟨q, l, q', rfl, rfl, -⟩ := id hstep
    obtain ⟨w, hw, htarget⟩ := (leads_iff (t.leaderOf_leaderOf q)).mpr hstep
    rw [← htarget]
    exact (hclosed _ ih w hw).1

omit [DecidableEq P] [Fintype P] in
theorem reachedNow_subset (hof : OfQueues t waitOrders) (g : P) : ReachedNow t waitOrders g ⊆ Reached t g :=
  fun y h => Relation.ReflTransGen.mono (fun _ _ => WaitsFor.mayWaitFor hof) g y h

/-! ### The constraints of a call -/

/-- Two processes of the groups wait in the queue of the edge's lock, and the check has come to both groups. -/
structure Sound (t : LockState P L) (proc : P) (c : Edge P L) : Prop where
  two : ∃ p q, t.leaderOf p = c.waiter ∧ t.leaderOf q = c.blocker ∧ p ≠ q ∧ t.waitLock p = some c.lock ∧
    t.waitLock q = some c.lock
  waiter : c.waiter ∈ Reached t (t.leaderOf proc)
  blocker : c.blocker ∈ Reached t (t.leaderOf proc)

omit [DecidableEq P] [DecidableEq L] [Fintype P] in
theorem startProcs_reached (hsound : ∀ c ∈ constraints, Sound t proc c) :
    ∀ p ∈ startProcs constraints proc, t.leaderOf p ∈ Reached t (t.leaderOf proc) := by
  intro p hp
  rcases mem_append.mp hp with hp | hp
  · obtain ⟨c, hc, hpc⟩ := mem_flatMap.mp hp
    obtain ⟨⟨x, y, hx, hy, -⟩, hw, hb⟩ := hsound c hc
    rcases mem_cons.mp hpc with rfl | hpc
    · rw [← hx, t.leaderOf_leaderOf, hx]
      exact hw
    · rw [mem_singleton.mp hpc, ← hy, t.leaderOf_leaderOf, hy]
      exact hb
  · rw [mem_singleton.mp hp]
    exact .refl

/-- The soft edges of a search are sound constraints. -/
theorem softEdges_sound (hof : OfQueues t waitOrders) (hp : t.leaderOf p ∈ Reached t (t.leaderOf proc))
    (hfound : (findLockCycle t waitOrders p none).1 = true) :
    ∀ e ∈ (findLockCycle t waitOrders p none).2.softEdges, Sound t proc e := by
  intro e he
  obtain ⟨path, hpath⟩ := findLockCycle_reports t waitOrders p none hfound
  rw [hpath.softEdges, LockState.softEdges, mem_reverse] at he
  obtain ⟨w, hw, rfl⟩ := mem_map.mp he
  obtain ⟨hin, hsoft⟩ := mem_filter.mp hw
  obtain ⟨g, hstep, hreach⟩ := hpath.cycle.reaches (fun _ _ => IsWait.mayWaitFor hof) hin
  have hg : g ∈ Reached t (t.leaderOf proc) := Relation.ReflTransGen.trans hp hreach
  have hmember := hstep.member
  have hmay := hstep.mayWaitFor hof
  have hblocks := hstep.blocks
  rw [hsoft, if_pos rfl] at hblocks
  refine ⟨⟨w.waiter, w.blocker, rfl, rfl, fun heq => hblocks.other (by rw [heq]), hblocks.waits,
    hblocks.queued hof⟩, ?_, ?_⟩
  · change t.leaderOf w.waiter ∈ _
    rw [hmember]
    exact hg
  · exact Relation.ReflTransGen.tail hg hmay

/-- What a test gives to try are the soft edges of one of its searches. -/
theorem testConfiguration_edges {blockingAutovacuum : Option P}
    (h : (testConfiguration t maxBackends proc constraints n blockingAutovacuum).1 = some edges) :
    ∃ waitOrders, expandConstraints t constraints = some waitOrders ∧ (edges = [] ∨
      ∃ p ∈ startProcs constraints proc, (findLockCycle t waitOrders p none).1 = true ∧
        (findLockCycle t waitOrders p none).2.softEdges = edges) := by
  unfold testConfiguration at h
  split at h
  · cases h
  · split at h
    · cases h
    · next waitOrders hwo =>
      have hspec := findCycles_spec t waitOrders (startProcs constraints proc) [] blockingAutovacuum
      dsimp only at h
      rw [h] at hspec
      exact ⟨waitOrders, hwo, hspec.imp (fun h => h.1) fun h => h.2⟩

omit [Fintype P] in
theorem expandConstraints_ofQueues (h : expandConstraints t constraints = some waitOrders) : OfQueues t waitOrders := by
  have hnil : OfQueues t [] := fun _ hw => absurd hw not_mem_nil
  exact expandReversed_ofQueues _ hnil h

theorem Tested.sound (h : Tested t maxBackends proc constraints n) : ∀ c ∈ constraints, Sound t proc c := by
  induction h with
  | start => exact nofun
  | @add constraints edges n e _ _ hedges he ih =>
    obtain ⟨waitOrders, hwo, hcase⟩ := testConfiguration_edges hedges
    intro c hc
    rcases mem_append.mp hc with hc | hc
    · exact ih c hc
    · rw [mem_singleton.mp hc]
      rcases hcase with rfl | ⟨p, hp, hfound, rfl⟩
      · cases he
      · exact softEdges_sound (expandConstraints_ofQueues hwo) (startProcs_reached ih p hp) hfound e he

theorem Tested.length_le (h : Tested t maxBackends proc constraints n) : constraints.length ≤ maxBackends := by
  cases h with
  | start => exact Nat.zero_le _
  | add _ hlt =>
    rw [length_append, length_singleton]
    exact hlt

omit [DecidableEq L] in
/-- Queues of different locks have no process in common. -/
theorem queues_le {locks : List L} (hnd : locks.Nodup)
    (htwo : ∀ l ∈ locks, ∃ p q, p ≠ q ∧ t.waitLock p = some l ∧ t.waitLock q = some l) :
    2 * locks.length ≤ (locks.map fun l => (t.waitProcs l).length).sum ∧
      (locks.map fun l => (t.waitProcs l).length).sum ≤ (waiters t).card := by
  constructor
  · clear hnd
    induction locks with
    | nil => exact le_refl _
    | cons l locks ih =>
      have hrest := ih fun l' hl' => htwo l' (mem_cons_of_mem l hl')
      obtain ⟨p, q, hne, hp, hq⟩ := htwo l mem_cons_self
      rw [← t.queued] at hp hq
      have hlen : [p, q].length ≤ (t.waitProcs l).length :=
        (subperm_of_subset (by simp [hne]) (by simp [hp, hq])).length_le
      rw [map_cons, sum_cons, length_cons]
      simp only [length_cons, length_nil] at hlen
      omega
  · have hflat : (locks.flatMap t.waitProcs).Nodup := by
      rw [nodup_flatMap]
      refine ⟨fun l _ => t.nodup l, hnd.imp fun {l l'} hne x hx hx' => hne ?_⟩
      rw [t.queued] at hx hx'
      exact Option.some.inj (hx.symm.trans hx')
    rw [← length_flatMap, ← toFinset_card_of_nodup hflat]
    refine card_le_card fun x hx => ?_
    obtain ⟨l, -, hxl⟩ := mem_flatMap.mp (mem_toFinset.mp hx)
    rw [t.queued] at hxl
    exact Finset.mem_filter.mpr ⟨mem_univ _, by rw [hxl]; rfl⟩

theorem expandFits (hwaiters : (waiters t).card ≤ maxBackends) (left : List (Edge P L))
    (hleft : ∀ c ∈ left, Sound t proc c) (hnd : (waitOrders.map (·.lock)).Nodup)
    (htwo : ∀ l ∈ waitOrders.map (·.lock), ∃ p q, p ≠ q ∧ t.waitLock p = some l ∧ t.waitLock q = some l) :
    ExpandFits t maxBackends left waitOrders ((waitOrders.map (·.lock)).map fun l => (t.waitProcs l).length).sum := by
  induction left generalizing waitOrders with
  | nil => exact trivial
  | cons c left ih =>
    have hrest := fun c' hc' => hleft c' (mem_cons_of_mem c hc')
    rw [ExpandFits]
    split
    · exact ih hrest hnd htwo
    · next hlisted =>
      have hnew : (waitOrders.map (·.lock) ++ [c.lock]).Nodup := by
        refine nodup_snoc hnd fun hin => hlisted ?_
        obtain ⟨w, hw, hlock⟩ := mem_map.mp hin
        exact any_eq_true.mpr ⟨w, hw, decide_eq_true hlock⟩
      have htwo' : ∀ l ∈ waitOrders.map (·.lock) ++ [c.lock],
          ∃ p q, p ≠ q ∧ t.waitLock p = some l ∧ t.waitLock q = some l := by
        intro l hl
        rcases mem_append.mp hl with hl | hl
        · exact htwo l hl
        · rw [mem_singleton.mp hl]
          obtain ⟨p, q, -, -, hne, hp, hq⟩ := (hleft c mem_cons_self).two
          exact ⟨p, q, hne, hp, hq⟩
      obtain ⟨hmany, hsum⟩ := queues_le hnew htwo'
      rw [map_append, map_singleton, sum_append, sum_singleton] at hmany hsum
      rw [length_append, length_singleton, length_map] at hmany
      refine ⟨by omega, by omega, by omega, fun procs _ => ?_⟩
      have hmap : (waitOrders ++ [(⟨c.lock, procs⟩ : WaitOrder P L)]).map (·.lock) = waitOrders.map (·.lock)
        ++ [c.lock] :=
        map_append ..
      have hnext : ExpandFits t maxBackends left (waitOrders ++ [⟨c.lock, procs⟩]) _ :=
        ih hrest (by rw [hmap]; exact hnew) (by rw [hmap]; exact htwo')
      rw [hmap, map_append, map_singleton, sum_append, sum_singleton] at hnext
      exact hnext

/-- `visitedProcs` is large enough for each search. -/
def VisitedFits (t : LockState P L) (maxBackends : Nat) (proc : P) : Prop :=
  ∀ constraints n, Tested t maxBackends proc constraints n →
    ∀ waitOrders, expandConstraints t constraints = some waitOrders →
      ∀ p ∈ startProcs constraints proc, ∀ blockingAutovacuum,
        (findLockCycle t waitOrders p blockingAutovacuum).2.visitedProcs.length ≤ maxBackends

/-- All other arrays are large enough. -/
theorem checkFits_iff_visitedFits (hwaiters : (waiters t).card ≤ maxBackends) :
    CheckFits t maxBackends proc ↔ VisitedFits t maxBackends proc := by
  constructor
  · exact fun h constraints n htested waitOrders hwo p hp av =>
      (h.searches constraints n htested waitOrders hwo p hp av).visitedProcs
  · intro h
    refine ⟨fun constraints n htested waitOrders hwo p hp av => ?_, fun constraints n htested => ?_,
      fun _ _ htested => htested.length_le⟩
    · obtain ⟨hsoft, hdetails⟩ := findLockCycle_writes t waitOrders p av
      have hroom := htested.room
      exact ⟨h constraints n htested waitOrders hwo p hp av, fun i hi => lt_of_lt_of_le (hdetails i hi) hwaiters,
        by omega, by omega⟩
    · exact expandFits hwaiters constraints.reverse (fun c hc => htested.sound c (mem_reverse.mp hc))
        nodup_nil nofun

theorem visitedFits_of_reached (h : (Reached t (t.leaderOf proc)).ncard ≤ maxBackends) :
    VisitedFits t maxBackends proc := by
  intro constraints n htested waitOrders hwo p hp av
  refine le_trans (le_trans (findLockCycle_visited p av) ?_) h
  refine Set.ncard_le_ncard (fun y hy => ?_) (Set.toFinite _)
  exact (startProcs_reached htested.sound p hp).trans (reachedNow_subset (expandConstraints_ofQueues hwo) _ hy)

/-- A process on no cycle makes one search, which visits all that it waits for. -/
theorem visitedFits_iff (hcycle : ¬ Relation.TransGen (WaitsFor t []) (t.leaderOf proc) (t.leaderOf proc)) :
    VisitedFits t maxBackends proc ↔ (ReachedNow t [] (t.leaderOf proc)).ncard ≤ maxBackends := by
  have hfound (av : Option P) : (findLockCycle t [] proc av).1 = false := by
    rw [← Bool.not_eq_true, findLockCycle_true]
    exact hcycle
  constructor
  · intro h
    exact le_trans (findLockCycle_all proc none (hfound none))
      (h [] 0 .start [] rfl proc mem_cons_self none)
  · intro h constraints n htested
    have hnil : constraints = [] := by
      induction htested with
      | start => rfl
      | add _ _ hedges he ih =>
        subst ih
        obtain ⟨waitOrders, hwo, hcase⟩ := testConfiguration_edges hedges
        cases hwo
        rcases hcase with rfl | ⟨p, hp, hp', -⟩
        · cases he
        · rw [mem_singleton.mp hp, hfound] at hp'
          exact nomatch hp'
    subst hnil
    intro waitOrders hwo p hp av
    cases hwo
    rw [mem_singleton.mp hp]
    exact le_trans (findLockCycle_visited proc av) h

/-- **The workspace is large enough** for all but the visited groups. These fit if no more groups can be reached than
there are backends; for a process on no cycle, exactly if it does not wait for more. -/
theorem deadLockCheck_fits (t : LockState P L) (maxBackends : Nat) (proc : P) (prepared : P → Bool)
    (hprepared : ∀ p, prepared p = true → t.waitLock p = none)
    (hordinary : (Finset.univ.filter fun p => prepared p = false).card ≤ maxBackends) :
    (CheckFits t maxBackends proc ↔ VisitedFits t maxBackends proc) ∧
    ((Reached t (t.leaderOf proc)).ncard ≤ maxBackends → CheckFits t maxBackends proc) ∧
    (¬ Relation.TransGen (WaitsFor t []) (t.leaderOf proc) (t.leaderOf proc) →
      (CheckFits t maxBackends proc ↔ (ReachedNow t [] (t.leaderOf proc)).ncard ≤ maxBackends)) := by
  have hwaiters : (waiters t).card ≤ maxBackends := by
    refine le_trans (card_le_card fun p hp => ?_) hordinary
    obtain ⟨-, hwait⟩ := Finset.mem_filter.mp hp
    refine Finset.mem_filter.mpr ⟨mem_univ _, ?_⟩
    by_contra h
    rw [Bool.not_eq_false] at h
    rw [hprepared p h] at hwait
    exact nomatch hwait
  have hiff : CheckFits t maxBackends proc ↔ VisitedFits t maxBackends proc := checkFits_iff_visitedFits hwaiters
  exact ⟨hiff, fun h => hiff.mpr (visitedFits_of_reached h), fun h => hiff.trans (visitedFits_iff h)⟩

end

/-- Process 0 waits for a lock that four prepared transactions hold. -/
def preparedHolders : LockState (Fin 5) Unit where
  numLockModes _ := 8
  conflictTab _ a b := decide (a = 8 ∨ b = 8)
  procLocks _ := [(1, fun m => m == 1), (2, fun m => m == 1), (3, fun m => m == 1), (4, fun m => m == 1)]
  waitProcs _ := [0]
  waitLock p := if p = 0 then some () else none
  waitLockMode _ := 8
  lockGroupLeader _ := none
  lockGroupMembers _ := []
  isAutovacuum _ := false
  myProc := 0
  queued := by decide
  nodup := by decide
  member := by decide
  leads := by decide

/-- Five entries are enough for the five groups. -/
theorem preparedHolders_fits : CheckFits preparedHolders 5 0 := by
  refine (deadLockCheck_fits preparedHolders 5 0 (fun p => decide (p ≠ 0)) (by decide) (by decide)).2.1 ?_
  exact le_trans (Set.ncard_le_ncard (Set.subset_univ _) (Set.toFinite _)) (by rw [Set.ncard_univ]; simp)

/-- Four backends are allowed, but a search from 0 visits five groups. -/
theorem preparedHolders_overflow : (∀ p : Fin 5, p ≠ 0 → preparedHolders.waitLock p = none) ∧
    (Finset.univ.filter fun p : Fin 5 => p = 0).card ≤ 4 ∧ ¬ CheckFits preparedHolders 4 0 := by
  refine ⟨by decide, by decide, fun h => ?_⟩
  have hvisited := (h.searches [] 0 .start [] rfl 0 mem_cons_self none).visitedProcs
  exact absurd hvisited (by decide +kernel)

end PgStorage.Deadlock
