import PgStorage.Deadlock.TopoSortSpec
import PgStorage.Deadlock.WaitsFor

/-! Arrangements of the wait queues, without lock groups.

A process waits for the holders of conflicting locks and for those ahead of it in the queue with conflicting requests.
A configuration is expanded to an arrangement in which its edges are reversed, and in which only their waiters have
moved ahead of others; when it cannot be expanded, no arrangement reverses its edges. -/
namespace PgStorage.Deadlock
open List

section
variable {P L : Type} [DecidableEq P] [DecidableEq L]

/-- No process is in a lock group. -/
def NoGroups (t : LockState P L) : Prop := ∀ p, t.lockGroupLeader p = none

/-- Each queue has the processes it had. -/
def Rearranges (t : LockState P L) (queues : L → List P) : Prop := ∀ l, (queues l).Perm (t.waitProcs l)

/-- One process holds the lock in a mode that conflicts with the other one's request. -/
def HoldsConflicting (t : LockState P L) (p : P) (l : L) (q : P) : Prop :=
  ∃ held, (q, held) ∈ t.procLocks l ∧
    ∃ mode, 1 ≤ mode ∧ mode ≤ t.numLockModes l ∧ held mode = true ∧ t.conflictTab l (t.waitLockMode p) mode = true

/-- The waits-for graph of an arrangement. -/
def WaitsIn (t : LockState P L) (queues : L → List P) (p q : P) : Prop :=
  ∃ l, t.waitLock p = some l ∧ q ≠ p ∧ (HoldsConflicting t p l q ∨
    [q, p].Sublist (queues l) ∧ t.conflictTab l (t.waitLockMode p) (t.waitLockMode q) = true)

variable {t : LockState P L} {queues : L → List P} {waitOrders : List (WaitOrder P L)} {constraints : List (Edge P L)}
  {p q x y : P} {l : L}

variable {α : Type} {a b : α} {as : List α}

theorem pair_sublist :
    [a, b].Sublist as ↔ ∃ front behind, as = front ++ a :: behind ∧ b ∈ behind := by
  constructor
  · intro h
    obtain ⟨r1, r2, rfl, ha, hb⟩ := cons_sublist_iff.mp h
    obtain ⟨front, behind, rfl⟩ := append_of_mem ha
    exact ⟨front, behind ++ r2, by simp, mem_append_right _ (singleton_sublist.mp hb)⟩
  · rintro ⟨front, behind, rfl, hb⟩
    exact (cons_sublist_cons.mpr (singleton_sublist.mpr hb)).trans (sublist_append_right _ _)

/-- Of two elements of a list one is ahead of the other one. -/
theorem pair_total (ha : a ∈ as) (hb : b ∈ as) (hne : a ≠ b) :
    [a, b].Sublist as ∨ [b, a].Sublist as := by
  obtain ⟨front, behind, rfl⟩ := append_of_mem ha
  rcases mem_append.mp hb with h | h
  · obtain ⟨front', behind', rfl⟩ := append_of_mem h
    exact .inr (pair_sublist.mpr ⟨front', behind' ++ a :: behind, by simp,
      mem_append_right _ mem_cons_self⟩)
  · exact .inl (pair_sublist.mpr ⟨front, behind, rfl, (mem_cons.mp h).resolve_left (Ne.symm hne)⟩)

theorem pair_asymm (hnd : as.Nodup) (h : [a, b].Sublist as) :
    ¬ [b, a].Sublist as := by
  intro h'
  induction as with
  | nil => exact absurd (eq_nil_of_sublist_nil h) (cons_ne_nil _ _)
  | cons c as ih =>
    obtain ⟨hc, hnd⟩ := nodup_cons.mp hnd
    cases h with
    | cons _ h =>
      cases h' with
      | cons _ h' => exact ih hnd h h'
      | cons_cons _ h' => exact hc (h.subset (by simp))
    | cons_cons _ h =>
      cases h' with
      | cons _ h' => exact hc (h'.subset (by simp))
      | cons_cons _ h' => exact hc (singleton_sublist.mp h)

omit [DecidableEq P] [DecidableEq L] in
theorem NoGroups.leaderOf (h : NoGroups t) (p : P) : t.leaderOf p = p := by
  unfold LockState.leaderOf
  rw [h p, Option.getD_none]

omit [DecidableEq P] [DecidableEq L] in
theorem mem_queue_iff (hre : Rearranges t queues) : p ∈ queues l ↔ t.waitLock p = some l := by
  rw [(hre l).mem_iff, t.queued]

omit [DecidableEq P] [DecidableEq L] in
theorem Rearranges.nodup (hre : Rearranges t queues) (l : L) : (queues l).Nodup := (hre l).nodup_iff.mpr (t.nodup l)

omit [DecidableEq P] in
theorem ahead_iff (hng : NoGroups t) (hre : Rearranges t (rearranged t waitOrders)) (hwait : t.waitLock p = some l)
    (hne : q ≠ p) : Ahead t waitOrders l q p ↔ [q, p].Sublist (rearranged t waitOrders l) := by
  have hin := (mem_queue_iff hre).mpr hwait
  have hnd := hre.nodup l
  unfold Ahead rearranged
  unfold rearranged at hin hnd
  cases hfind : waitOrders.find? fun w => decide (w.lock = l) with
  | none =>
    simp only [hng.leaderOf, exists_eq_right, pair_sublist]
  | some w =>
    rw [hfind] at hin hnd
    simp only [hng.leaderOf, pair_sublist] at hin hnd ⊢
    constructor
    · rintro ⟨front, behind, heq, hfront⟩
      refine ⟨front, behind, heq, ?_⟩
      rw [heq] at hin
      rcases mem_append.mp hin with h | h
      · exact absurd rfl (hfront p h)
      · exact (mem_cons.mp h).resolve_left (Ne.symm hne)
    · rintro ⟨front, behind, heq, hp⟩
      refine ⟨front, behind, heq, fun m hm hmp => ?_⟩
      rw [heq] at hnd
      rw [hmp] at hm
      exact disjoint_of_nodup_append hnd hm (mem_cons_of_mem q hp)

omit [DecidableEq P] in
theorem waitsFor_iff (hng : NoGroups t) (hre : Rearranges t (rearranged t waitOrders)) :
    WaitsFor t waitOrders p q ↔ WaitsIn t (rearranged t waitOrders) p q := by
  unfold WaitsFor WaitsIn
  simp only [hng.leaderOf]
  constructor
  · rintro ⟨p, l, q, rfl, rfl, ⟨hwait, hne, hholds⟩ | ⟨hwait, hne, hahead, hc⟩⟩
    · rw [hng.leaderOf, hng.leaderOf] at hne
      exact ⟨l, hwait, hne, .inl hholds⟩
    · rw [hng.leaderOf, hng.leaderOf] at hne
      exact ⟨l, hwait, hne, .inr ⟨(ahead_iff hng hre hwait hne).mp hahead, hc⟩⟩
  · rintro ⟨l, hwait, hne, hholds | ⟨hahead, hc⟩⟩
    · exact ⟨p, l, q, rfl, rfl, .inl ⟨hwait, by rwa [hng.leaderOf, hng.leaderOf], hholds⟩⟩
    · exact ⟨p, l, q, rfl, rfl, .inr ⟨hwait, by rwa [hng.leaderOf, hng.leaderOf],
        (ahead_iff hng hre hwait hne).mpr hahead, hc⟩⟩

/-! ### Expanding constraints -/

/-- Both processes of a constraint are in the queue of its lock. -/
structure Constrains (t : LockState P L) (c : Edge P L) : Prop where
  waiter : t.waitLock c.waiter = some c.lock
  blocker : t.waitLock c.blocker = some c.lock

/-- The arrangement has the edges reversed. -/
structure Satisfies (t : LockState P L) (queues : L → List P) (constraints : List (Edge P L)) : Prop where
  rearranges : Rearranges t queues
  order : ∀ c ∈ constraints, [c.waiter, c.blocker].Sublist (queues c.lock)

/-- An order of a queue in which the edges are reversed and only their waiters have moved ahead. -/
structure Sorted (t : LockState P L) (constraints : List (Edge P L)) (w : WaitOrder P L) : Prop where
  perm : w.procs.Perm (t.waitProcs w.lock)
  order : ∀ c ∈ constraints, c.lock = w.lock → [c.waiter, c.blocker].Sublist w.procs
  kept : ∀ x y, (∀ c ∈ constraints, c.waiter ≠ y) → [x, y].Sublist (t.waitProcs w.lock) → [x, y].Sublist w.procs

omit [DecidableEq L] in
theorem topoSort_sorted (lock : L) (hng : NoGroups t) (hcons : ∀ c ∈ constraints, Constrains t c) :
    match topoSort t lock constraints with
    | some procs => Sorted t constraints ⟨lock, procs⟩
    | none => ∀ queues, ¬ Satisfies t queues constraints := by
  have hleaders : OfLeaders t constraints := fun c _ => ⟨hng.leaderOf _, hng.leaderOf _⟩
  have halone (x : P) : Alone t (t.waitProcs lock) x := fun z _ hz => by rwa [hng.leaderOf, hng.leaderOf] at hz
  have hmine (c : Edge P L) (hc : c ∈ constraints) (hrel : Relevant t (t.waitProcs lock) c) : c.lock = lock := by
    obtain ⟨⟨p, hp, hpw⟩, -⟩ := hrel
    rw [t.queued, ← hng.leaderOf p, hpw, (hcons c hc).waiter] at hp
    exact Option.some.inj hp
  have hrun := topoSort_run lock hleaders fun _ _ _ => .inl fun x _ _ => halone x
  cases htopo : topoSort t lock constraints with
  | some procs =>
    rw [htopo] at hrun
    obtain ⟨hlen, topoProcs, beforeConstraints, h⟩ := hrun
    have hperm : procs.Perm (t.waitProcs lock) := by
      have := h.perm
      rwa [filter_eq_self.mpr fun p hp => decide_eq_true (h.complete.mp hlen p hp)] at this
    refine ⟨hperm, fun c hc hlock => ?_, fun x y hfree hxy => ?_⟩
    · dsimp only at hlock
      have hw : c.waiter ∈ t.waitProcs lock := by rw [t.queued, (hcons c hc).waiter, hlock]
      have hb : c.blocker ∈ t.waitProcs lock := by rw [t.queued, (hcons c hc).blocker, hlock]
      exact h.order c hc ⟨⟨_, hw, hng.leaderOf _⟩, ⟨_, hb, hng.leaderOf _⟩⟩ _ (hperm.mem_iff.mpr hw) _ hb
        (hng.leaderOf _) (hng.leaderOf _)
    · refine h.kept x y (halone x) (fun c hc _ => ?_) hxy (hperm.mem_iff.mpr (hxy.subset mem_cons_self))
      rw [hng.leaderOf]
      exact hfree c hc
  | none =>
    rw [htopo] at hrun
    obtain ⟨topoProcs, beforeConstraints, ordering, h, hlen, hnone⟩ := hrun
    refine fun queues hsat => h.no_solution hmine hlen hnone (queues lock)
      ⟨hsat.rearranges lock, fun x z y hs hxy => ?_, fun c hc hlock x _ y _ hxw hyb => ?_⟩
    · rw [hng.leaderOf, hng.leaderOf] at hxy
      subst hxy
      have hpair : [x, x].Sublist (queues lock) :=
        (cons_sublist_cons.mpr (sublist_cons_self z [x])).trans hs
      exact absurd hpair (pair_asymm (hsat.rearranges.nodup lock) hpair)
    · rw [hng.leaderOf] at hxw hyb
      rw [hxw, hyb, ← hlock]
      exact hsat.order c hc

/-- What `ExpandConstraints` has listed: the locks of the constraints it has come to, each with a sorted order. -/
structure Expanded (t : LockState P L) (constraints done : List (Edge P L)) (waitOrders : List (WaitOrder P L)) :
    Prop where
  sorted : ∀ w ∈ waitOrders, Sorted t constraints w
  listed : ∀ c ∈ done, ∃ w ∈ waitOrders, w.lock = c.lock
  locks : (waitOrders.map (·.lock)).Nodup
  needed : ∀ w ∈ waitOrders, ∃ c ∈ constraints, c.lock = w.lock

theorem expandReversed_expanded (hng : NoGroups t) (left done : List (Edge P L))
    (hleft : constraints = left.reverse ++ done)
    (hcons : ∀ c ∈ constraints, Constrains t c) (h : Expanded t constraints done waitOrders) :
    match expandReversed t left waitOrders with
    | some waitOrders => Expanded t constraints constraints waitOrders
    | none => ∀ queues, ¬ Satisfies t queues constraints := by
  induction left generalizing done waitOrders with
  | nil =>
    rw [reverse_nil, nil_append] at hleft
    subst hleft
    exact h
  | cons c left ih =>
    rw [reverse_cons, append_assoc, singleton_append] at hleft
    rw [expandReversed]
    by_cases hlisted : (waitOrders.any fun w => decide (w.lock = c.lock)) = true
    · rw [if_pos hlisted]
      obtain ⟨w, hw, hlock⟩ := any_eq_true.mp hlisted
      exact ih (c :: done) hleft
        ⟨h.sorted, forall_mem_cons.mpr ⟨⟨w, hw, of_decide_eq_true hlock⟩, h.listed⟩, h.locks, h.needed⟩
    · rw [if_neg hlisted]
      have hnone (w : WaitOrder P L) (hw : w ∈ waitOrders) : w.lock ≠ c.lock := fun hlock =>
        hlisted (any_eq_true.mpr ⟨w, hw, decide_eq_true hlock⟩)
      have hsub : left.reverse ++ [c] ⊆ constraints := by
        rw [hleft]
        exact append_subset.mpr ⟨subset_append_left _ _, fun c' hc' =>
          mem_append_right _ (mem_singleton.mp hc' ▸ mem_cons_self)⟩
      have hcin : c ∈ constraints := hsub (mem_append_right _ mem_cons_self)
      have htopo := topoSort_sorted c.lock hng fun c' hc' => hcons c' (hsub hc')
      cases hsort : topoSort t c.lock (left.reverse ++ [c]) with
      | none =>
        rw [hsort] at htopo
        exact fun queues hsat => htopo queues ⟨hsat.rearranges, fun c' hc' => hsat.order c' (hsub hc')⟩
      | some procs =>
        rw [hsort] at htopo
        -- the constraints behind this one are of other locks
        have hsorted : Sorted t constraints ⟨c.lock, procs⟩ := by
          refine ⟨htopo.perm, fun c' hc' hlock => ?_, fun x y hfree => htopo.kept x y fun c' hc' => hfree c' (hsub hc')⟩
          refine htopo.order c' ?_ hlock
          rw [hleft] at hc'
          rcases mem_append.mp hc' with hc' | hc'
          · exact mem_append_left _ hc'
          · rcases mem_cons.mp hc' with rfl | hc'
            · exact mem_append_right _ mem_cons_self
            · obtain ⟨w, hw, hwl⟩ := h.listed c' hc'
              exact absurd (hwl.trans hlock) (hnone w hw)
        refine ih (c :: done) hleft ⟨fun w hw => ?_, fun c' hc' => ?_, ?_, fun w hw => ?_⟩
        · rcases mem_append.mp hw with hw | hw
          · exact h.sorted w hw
          · rw [mem_singleton.mp hw]
            exact hsorted
        · rcases mem_cons.mp hc' with rfl | hc'
          · exact ⟨_, mem_append_right _ mem_cons_self, rfl⟩
          · obtain ⟨w, hw, hwl⟩ := h.listed c' hc'
            exact ⟨w, mem_append_left _ hw, hwl⟩
        · rw [map_append, nodup_append]
          refine ⟨h.locks, nodup_singleton _, fun l hl l' hl' heq => ?_⟩
          obtain ⟨w, hw, rfl⟩ := mem_map.mp hl
          rw [mem_singleton.mp hl'] at heq
          exact hnone w hw heq
        · rcases mem_append.mp hw with hw | hw
          · exact h.needed w hw
          · rw [mem_singleton.mp hw]
            exact ⟨c, hcin, rfl⟩

/-- **`ExpandConstraints`** sorts the queues of the constraints, or there is no arrangement that satisfies them. -/
theorem expandConstraints_expanded (hng : NoGroups t) (hcons : ∀ c ∈ constraints, Constrains t c) :
    match expandConstraints t constraints with
    | some waitOrders => Expanded t constraints constraints waitOrders
    | none => ∀ queues, ¬ Satisfies t queues constraints :=
  expandReversed_expanded hng constraints.reverse [] (by rw [reverse_reverse, append_nil]) hcons
    ⟨nofun, nofun, nodup_nil, nofun⟩

omit [DecidableEq P] in
theorem find_order {w : WaitOrder P L} (h : (waitOrders.find? fun w => decide (w.lock = l)) = some w) :
    w ∈ waitOrders ∧ w.lock = l := by
  refine ⟨mem_of_find?_eq_some h, ?_⟩
  have := find?_some h
  exact of_decide_eq_true this

omit [DecidableEq P] in
theorem Expanded.rearranges (h : Expanded t constraints constraints waitOrders) :
    Rearranges t (rearranged t waitOrders) := by
  intro l
  unfold rearranged
  cases hfind : waitOrders.find? fun w => decide (w.lock = l) with
  | none => exact .refl _
  | some w =>
    obtain ⟨hw, hlock⟩ := find_order hfind
    rw [← hlock]
    exact (h.sorted w hw).perm

omit [DecidableEq P] in
theorem Expanded.satisfies (h : Expanded t constraints constraints waitOrders) :
    Satisfies t (rearranged t waitOrders) constraints := by
  refine ⟨h.rearranges, fun c hc => ?_⟩
  obtain ⟨w, hw, hlock⟩ := h.listed c hc
  unfold rearranged
  cases hfind : waitOrders.find? fun w => decide (w.lock = c.lock) with
  | none => exact absurd (decide_eq_true hlock) (find?_eq_none.mp hfind w hw)
  | some w' =>
    obtain ⟨hw', hlock'⟩ := find_order hfind
    exact (h.sorted w' hw').order c hc hlock'.symm

omit [DecidableEq P] in
/-- Who is not the waiter of a constraint has not moved ahead of anyone. -/
theorem Expanded.kept (h : Expanded t constraints constraints waitOrders) (hfree : ∀ c ∈ constraints, c.waiter ≠ y)
    (hxy : [x, y].Sublist (t.waitProcs l)) : [x, y].Sublist (rearranged t waitOrders l) := by
  unfold rearranged
  cases hfind : waitOrders.find? fun w => decide (w.lock = l) with
  | none => exact hxy
  | some w =>
    obtain ⟨hw, hlock⟩ := find_order hfind
    exact (h.sorted w hw).kept x y hfree (by rwa [hlock])

end

end PgStorage.Deadlock
