import PgStorage.Deadlock.TopoSortProofs

/-! What `TopoSort` is for, and when it does it.

A solution is a rearrangement of the queue in which the members of a group are adjacent and every constraint is met.
Each round puts in front a group none of whose constraints is open, so that what has been put out meets its
constraints; when no group is left that can be put out, the groups that are left wait for each other. -/
namespace PgStorage.Deadlock
open Option
open List (mem_cons_self countP_cons foldl_cons)

section
variable {P L : Type} [DecidableEq P] [DecidableEq L]

/-- An ordering of the queue of a lock that meets the constraints on this lock. -/
structure Solution (t : LockState P L) (lock : L) (constraints : List (Edge P L)) (ordering : List P) : Prop where
  perm : ordering.Perm (t.waitProcs lock)
  adjacent : ∀ x z y, [x, z, y].Sublist ordering → t.leaderOf x = t.leaderOf y → t.leaderOf z = t.leaderOf x
  order : ∀ c ∈ constraints, c.lock = lock → ∀ x ∈ ordering, ∀ y ∈ ordering, t.leaderOf x = c.waiter →
    t.leaderOf y = c.blocker → [x, y].Sublist ordering

variable {t : LockState P L} {queue : List P} {constraints : List (Edge P L)} {x y p g : P} {j : Nat}

/-- A process of the group has been put out. -/
def Emitted (t : LockState P L) (ordering : List P) (g : P) : Prop := ∃ q ∈ ordering, t.leaderOf q = g

instance (ordering : List P) (g : P) : Decidable (Emitted t ordering g) := inferInstanceAs (Decidable (∃ _ ∈ _, _))

/-- No other process of its group is in the queue. -/
def Alone (t : LockState P L) (queue : List P) (x : P) : Prop := ∀ z ∈ queue, t.leaderOf z = t.leaderOf x → z = x

/-- The scan for a waiter's group misses no process: the group has one in the queue, or is a blocker's group too. -/
def WaitersMarked (t : LockState P L) (queue : List P) (constraints : List (Edge P L)) : Prop :=
  ∀ c ∈ constraints, Relevant t queue c →
    (∀ x ∈ queue, t.leaderOf x = c.waiter → Alone t queue x) ∨
      ∃ c' ∈ constraints, Relevant t queue c' ∧ c'.blocker = c.waiter

/-- The state of the output loop. -/
structure Emitting (t : LockState P L) (queue : List P) (constraints : List (Edge P L)) (topoProcs : List (Option P))
    (beforeConstraints : Nat → Int) (ordering : List P) : Prop where
  slots : topoProcs = queue.map fun p => if Emitted t ordering (t.leaderOf p) then none else some p
  perm : ordering.Perm (queue.filter fun p => decide (Emitted t ordering (t.leaderOf p)))
  last : ∀ x j, t.leaderOf x = x → representative t queue x = some j → ¬ Emitted t ordering x →
    beforeConstraints j = constraints.countP fun c =>
      decide (Relevant t queue c ∧ c.waiter = x ∧ ¬ Emitted t ordering c.blocker)
  rest : ∀ j p, queue[j]? = some p → representative t queue (t.leaderOf p) ≠ some j →
    beforeConstraints j = if ∃ c ∈ constraints, Relevant t queue c ∧ c.blocker = t.leaderOf p then -1 else 0
  adjacent : ∀ x z y, [x, z, y].Sublist ordering → t.leaderOf x = t.leaderOf y → t.leaderOf z = t.leaderOf x
  order : ∀ c ∈ constraints, Relevant t queue c → ∀ x ∈ ordering, ∀ y ∈ queue, t.leaderOf x = c.waiter →
    t.leaderOf y = c.blocker → [x, y].Sublist ordering
  kept : ∀ x y, Alone t queue x → (∀ c ∈ constraints, Relevant t queue c → c.waiter ≠ t.leaderOf y) →
    [x, y].Sublist queue → x ∈ ordering → [x, y].Sublist ordering

omit [DecidableEq L] in
theorem emitting_start (hleaders : OfLeaders t constraints) :
    Emitting t queue constraints (queue.map some) (countConstraints t queue constraints).beforeConstraints [] := by
  obtain ⟨hlast, hrest, -⟩ := countConstraints_counted queue hleaders
  have hnone (g : P) : ¬ Emitted t [] g := fun ⟨_, h, _⟩ => nomatch h
  refine ⟨List.map_congr_left fun p _ => (if_neg (hnone _)).symm, ?_, fun x j hx hj _ => ?_, hrest,
    fun x z y h => ?_, fun _ _ _ _ h => (nomatch h), fun _ _ _ _ _ h => (nomatch h)⟩
  · rw [List.filter_eq_nil_iff.mpr fun p _ => by rw [decide_eq_true_iff]; exact hnone _]
  · rw [hlast x j hx hj]
    refine congrArg _ (List.countP_congr fun c _ => ?_)
    rw [decide_eq_true_iff, decide_eq_true_iff]
    exact ⟨fun h => ⟨h.1, h.2, hnone _⟩, fun h => ⟨h.1, h.2.1⟩⟩
  · exact absurd (List.eq_nil_of_sublist_nil h) (List.cons_ne_nil _ _)

/-! ### One round -/

omit [DecidableEq P] in
/-- A candidate is the last process left with no count. -/
theorem nextCandidate_some {topoProcs : List (Option P)}
    (h : nextCandidate topoProcs beforeConstraints = some j) : (∃ p, topoProcs[j]? = some (some p)) ∧
      beforeConstraints j = 0 ∧ ∀ k p, j < k → topoProcs[k]? = some (some p) → beforeConstraints k ≠ 0 := by
  unfold nextCandidate at h
  obtain ⟨hj, htest, hlast⟩ := lastIndex_some.mp h
  rw [Bool.and_eq_true, any_eq_true, decide_eq_true_iff] at htest
  obtain ⟨⟨slot, hslot, hsome⟩, hzero⟩ := htest
  obtain ⟨p, rfl⟩ := isSome_iff_exists.mp hsome
  refine ⟨⟨p, hslot⟩, hzero, fun k q hk hq hz => ?_⟩
  have := hlast k hk (List.getElem?_eq_some_iff.mp hq).1
  rw [hq, any_some, isSome_some, Bool.true_and, decide_eq_false_iff_not] at this
  exact this hz

omit [DecidableEq P] in
theorem nextCandidate_none {topoProcs : List (Option P)}
    (h : nextCandidate topoProcs beforeConstraints = none) {k : Nat} (hk : topoProcs[k]? = some (some p)) :
    beforeConstraints k ≠ 0 := by
  have := lastIndex_none.mp h k (List.getElem?_eq_some_iff.mp hk).1
  rw [hk, any_some, isSome_some, Bool.true_and, decide_eq_false_iff_not] at this
  exact this

variable {topoProcs : List (Option P)} {beforeConstraints : Nat → Int} {ordering : List P}

omit [DecidableEq L] in
theorem Emitting.slot (h : Emitting t queue constraints topoProcs beforeConstraints ordering) :
    topoProcs[j]? = some (some p) ↔ queue[j]? = some p ∧ ¬ Emitted t ordering (t.leaderOf p) := by
  rw [h.slots, List.getElem?_map, map_eq_some_iff]
  constructor
  · rintro ⟨q, hq, hslot⟩
    split at hslot
    · cases hslot
    · next hne =>
      cases hslot
      exact ⟨hq, hne⟩
  · rintro ⟨hq, hne⟩
    exact ⟨p, hq, if_neg hne⟩

omit [DecidableEq L] in
/-- The blockers of a candidate's group have been put out. -/
theorem Emitting.free (hnd : queue.Nodup) (h : Emitting t queue constraints topoProcs beforeConstraints ordering)
    (hmarked : WaitersMarked t queue constraints) (hp : queue[j]? = some p)
    (hout : ¬ Emitted t ordering (t.leaderOf p)) (hzero : beforeConstraints j = 0) :
    ∀ c ∈ constraints, Relevant t queue c → c.waiter = t.leaderOf p → Emitted t ordering c.blocker := by
  intro c hc hrel hw
  by_cases hrep : representative t queue (t.leaderOf p) = some j
  · rw [h.last _ _ (t.leaderOf_leaderOf p) hrep hout, Int.natCast_eq_zero, List.countP_eq_zero] at hzero
    by_contra hne
    exact hzero c hc (decide_eq_true ⟨hrel, hw, hne⟩)
  · exfalso
    rcases hmarked c hc hrel with halone | ⟨c', hc', hrel', hb⟩
    · -- the group has one process, which is its representative
      obtain ⟨i, hi⟩ := (representative_isSome (t.leaderOf_leaderOf p)).mpr ⟨p, List.mem_of_getElem? hp, rfl⟩
      obtain ⟨⟨q, hq, hqg⟩, hbehind⟩ := (representative_some (t.leaderOf_leaderOf p)).mp hi
      have hqp : q = p := halone p (List.mem_of_getElem? hp) hw.symm q (List.mem_of_getElem? hq) hqg
      subst hqp
      have hij : i = j := (List.getElem?_inj (List.getElem?_eq_some_iff.mp hq).1 hnd).mp (hq.trans hp.symm)
      exact hrep (by rw [hi, hij])
    · rw [h.rest j p hp hrep, if_pos ⟨c', hc', hrel', by rw [hb, hw]⟩] at hzero
      exact absurd hzero (by decide)

variable {α : Type}

theorem countP_split {f g h : α → Bool} (as : List α)
    (hsplit : ∀ a ∈ as, f a = (g a || h a) ∧ (g a && h a) = false) : as.countP f = as.countP g + as.countP h := by
  induction as with
  | nil => rfl
  | cons a as ih =>
    obtain ⟨hor, hand⟩ := hsplit a mem_cons_self
    rw [countP_cons, countP_cons, countP_cons, ih fun b hb => hsplit b (List.mem_cons_of_mem a hb), hor]
    cases hg : g a with
    | false =>
      rw [Bool.false_or, if_neg Bool.false_ne_true]
      omega
    | true =>
      rw [hg, Bool.true_and] at hand
      rw [hand, Bool.or_false, if_pos rfl, if_neg Bool.false_ne_true]
      omega

/-- The processes of a group, as they are put out. -/
def groupOut (t : LockState P L) (queue : List P) (g : P) : List P :=
  (queue.filter fun p => decide (t.leaderOf p = g)).reverse

omit [DecidableEq L] in
theorem mem_groupOut : x ∈ groupOut t queue g ↔ x ∈ queue ∧ t.leaderOf x = g := by
  unfold groupOut
  rw [List.mem_reverse, List.mem_filter, decide_eq_true_iff]

omit [DecidableEq L] in
theorem emitted_groupOut (hp : p ∈ queue) : Emitted t (groupOut t queue (t.leaderOf p) ++ ordering) g ↔
    g = t.leaderOf p ∨ Emitted t ordering g := by
  unfold Emitted
  constructor
  · rintro ⟨q, hq, rfl⟩
    rcases List.mem_append.mp hq with hq | hq
    · exact .inl (mem_groupOut.mp hq).2
    · exact .inr ⟨q, hq, rfl⟩
  · rintro (rfl | ⟨q, hq, rfl⟩)
    · exact ⟨p, List.mem_append_left _ (mem_groupOut.mpr ⟨hp, rfl⟩), rfl⟩
    · exact ⟨q, List.mem_append_right _ hq, rfl⟩

omit [DecidableEq L] in
theorem Emitting.output (h : Emitting t queue constraints topoProcs beforeConstraints ordering)
    (hg : t.leaderOf g = g) (hout : ¬ Emitted t ordering g) :
    (topoProcs.filterMap fun slot => slot.filter (inGroup t g)).reverse = groupOut t queue g := by
  rw [h.slots, groupOut, List.filterMap_map, ← List.filterMap_eq_filter]
  refine congrArg _ (List.filterMap_congr fun p _ => ?_)
  rw [Function.comp_apply, guard_apply]
  by_cases hp : t.leaderOf p = g
  · rw [hp, if_neg hout, if_pos (decide_eq_true rfl), filter_some, if_pos ((inGroup_iff hg).mpr hp)]
  · rw [if_neg (c := decide (t.leaderOf p = g) = true) (by rwa [decide_eq_true_iff])]
    split
    · rfl
    · rw [filter_some, if_neg (fun hin => hp ((inGroup_iff hg).mp hin))]

omit [DecidableEq L] in
/-- **One round** puts the group of the candidate in front. -/
theorem Emitting.round (hnd : queue.Nodup) (hleaders : OfLeaders t constraints)
    (hmarked : WaitersMarked t queue constraints)
    (h : Emitting t queue constraints topoProcs beforeConstraints ordering)
    (hj : nextCandidate topoProcs beforeConstraints = some j) (hp : topoProcs[j]? = some (some p)) :
    Emitting t queue constraints
      (topoProcs.map fun slot => if slot.any (inGroup t (t.leaderOf p)) then none else slot)
      (fun k => beforeConstraints k - ((countConstraints t queue constraints).afterConstraints j).count k)
      (groupOut t queue (t.leaderOf p) ++ ordering) := by
  obtain ⟨hq, hout⟩ := h.slot.mp hp
  obtain ⟨-, hzero, hlater⟩ := nextCandidate_some hj
  have hmem : p ∈ queue := List.mem_of_getElem? hq
  have hg := t.leaderOf_leaderOf p
  have hfree := h.free hnd hmarked hq hout hzero
  have hpreds := (countConstraints_counted queue hleaders).preds
  generalize (countConstraints t queue constraints).afterConstraints = afterConstraints at hpreds
  have hblock (c : Edge P L) (hc : c ∈ constraints) (hrel : Relevant t queue c) :
      representative t queue c.blocker = some j ↔ c.blocker = t.leaderOf p := by
    constructor
    · intro hrep
      obtain ⟨⟨q, hqj, hqb⟩, -⟩ := (representative_some (hleaders c hc).2).mp hrep
      rw [hq] at hqj
      cases hqj
      exact hqb.symm
    · intro hb
      by_contra hrep
      rw [hb] at hrep
      rw [h.rest j p hq hrep, if_pos ⟨c, hc, hrel, hb⟩] at hzero
      exact absurd hzero (by decide)
  -- what has been put out before is of other groups
  have hother {x : P} (hx : x ∈ ordering) : t.leaderOf x ≠ t.leaderOf p := fun hxg => hout ⟨x, hx, hxg⟩
  have hin {x : P} (hx : x ∈ ordering) : x ∈ queue := (List.mem_filter.mp (h.perm.subset hx)).1
  have hpair {x y : P} (hx : t.leaderOf x = t.leaderOf p) (hxq : x ∈ queue) (hy : y ∈ ordering) :
      [x, y].Sublist (groupOut t queue (t.leaderOf p) ++ ordering) :=
    (List.singleton_sublist.mpr (mem_groupOut.mpr ⟨hxq, hx⟩)).append (List.singleton_sublist.mpr hy)
  refine ⟨?_, ?_, fun x i hx hi hne => ?_, fun i q hiq hi => ?_, fun x z y hs hxy => ?_,
    fun c hc hrel x hx y hy hw hb => ?_, fun x y halone hfirst hs hx => ?_⟩
  · rw [h.slots, List.map_map]
    refine List.map_congr_left fun q _ => ?_
    rw [Function.comp_apply]
    by_cases hqg : t.leaderOf q = t.leaderOf p
    · rw [if_pos ((emitted_groupOut hmem).mpr (.inl hqg)), hqg, if_neg hout,
        if_pos ((any_inGroup hg).mpr ⟨q, rfl, hqg⟩)]
    · have hiff : Emitted t (groupOut t queue (t.leaderOf p) ++ ordering) (t.leaderOf q) ↔
          Emitted t ordering (t.leaderOf q) := (emitted_groupOut hmem).trans (or_iff_right hqg)
      simp only [hiff]
      split
      · rfl
      · rw [if_neg fun hany => ?_]
        obtain ⟨q', heq, hq'⟩ := (any_inGroup hg).mp hany
        cases heq
        exact hqg hq'
  · have hnd' : ordering.Nodup := h.perm.nodup_iff.mpr (hnd.filter _)
    have happ : (groupOut t queue (t.leaderOf p) ++ ordering).Nodup := by
      rw [List.nodup_append]
      refine ⟨List.nodup_reverse.mpr (hnd.filter _), hnd', fun a ha b hb hab => ?_⟩
      subst hab
      exact hother hb (mem_groupOut.mp ha).2
    rw [List.perm_ext_iff_of_nodup happ (hnd.filter _)]
    intro q
    rw [List.mem_append, mem_groupOut, h.perm.mem_iff, List.mem_filter, List.mem_filter, decide_eq_true_iff,
      decide_eq_true_iff, emitted_groupOut hmem]
    exact and_or_left.symm
  · rw [emitted_groupOut hmem, not_or] at hne
    rw [h.last x i hx hi hne.2, hpreds, countP_split (g := fun c => decide (Relevant t queue c ∧ c.waiter = x ∧
      ¬ Emitted t (groupOut t queue (t.leaderOf p) ++ ordering) c.blocker)) constraints fun c hc => ?_, Int.natCast_add,
      Int.add_sub_cancel]
    obtain ⟨hw, hb⟩ := hleaders c hc
    have hwx : representative t queue c.waiter = some i ↔ c.waiter = x :=
      ⟨fun h => representative_inj hw hx h hi, fun h => by rw [h, hi]⟩
    by_cases hrel : Relevant t queue c
    · have hbg := hblock c hc hrel
      simp only [hrel, hwx, hbg, emitted_groupOut hmem, true_and]
      by_cases hwx' : c.waiter = x
      · by_cases hbg' : c.blocker = t.leaderOf p
        · simp [hwx', hbg', hout]
        · simp [hwx', hbg']
      · simp [hwx']
    · simp [hrel]
  · rw [h.rest i q hiq hi, hpreds, List.countP_eq_zero.mpr, Int.natCast_zero, Int.sub_zero]
    intro c hc hcount
    obtain ⟨-, hrep, -⟩ := of_decide_eq_true hcount
    obtain ⟨⟨q', hq', hqw⟩, -⟩ := (representative_some (hleaders c hc).1).mp hrep
    rw [hiq] at hq'
    cases hq'
    rw [hqw] at hi
    exact hi hrep
  · obtain ⟨l1, l2, heq, h1, h2⟩ := List.sublist_append_iff.mp hs
    have hgroup {z : P} (hz : z ∈ l1) : t.leaderOf z = t.leaderOf p := (mem_groupOut.mp (h1.subset hz)).2
    match l1, heq with
    | [], heq => exact h.adjacent x z y (by rw [heq]; exact h2) hxy
    | [_], heq =>
      cases heq
      exact absurd (hxy.symm.trans (hgroup mem_cons_self)) (hother (h2.subset (by simp)))
    | [_, _], heq =>
      cases heq
      exact absurd (hxy.symm.trans (hgroup mem_cons_self)) (hother (h2.subset (by simp)))
    | [_, _, _], heq =>
      cases heq
      rw [hgroup (z := z) (by simp), hgroup (z := x) (by simp)]
    | _ :: _ :: _ :: _ :: _, heq => simp at heq
  · have hyin (hb' : Emitted t ordering c.blocker) : y ∈ ordering := by
      rw [h.perm.mem_iff, List.mem_filter, decide_eq_true_iff, hb]
      exact ⟨hy, hb'⟩
    rcases List.mem_append.mp hx with hx | hx
    · obtain ⟨hxq, hxg⟩ := mem_groupOut.mp hx
      exact hpair hxg hxq (hyin (hfree c hc hrel (hw.symm.trans hxg)))
    · exact (h.order c hc hrel x hx y hy hw hb).trans (List.sublist_append_right _ _)
  · rcases List.mem_append.mp hx with hx | hx
    · obtain ⟨hxq, hxg⟩ := mem_groupOut.mp hx
      refine hpair hxg hxq ?_
      have hpx : p = x := halone p hmem hxg.symm
      subst hpx
      obtain ⟨r1, r2, heq, hp1, hy2⟩ := List.cons_sublist_iff.mp hs
      obtain ⟨m, hm, hym⟩ := List.mem_iff_getElem.mp (List.singleton_sublist.mp hy2)
      have hjlt : j < r1.length := by
        by_contra hge
        rw [heq, List.getElem?_append_right (by omega)] at hq
        rw [heq] at hnd
        exact List.disjoint_of_nodup_append hnd hp1 (List.mem_of_getElem? hq)
      have hyat : queue[r1.length + m]? = some y := by
        rw [heq, List.getElem?_append_right (by omega), Nat.add_sub_cancel_left, List.getElem?_eq_getElem hm, hym]
      have hyq : y ∈ queue := List.mem_of_getElem? hyat
      -- otherwise the representative of the group behind would have been the candidate
      by_contra hynot
      have hyout : ¬ Emitted t ordering (t.leaderOf y) := fun hem => hynot (by
        rw [h.perm.mem_iff, List.mem_filter, decide_eq_true_iff]
        exact ⟨hyq, hem⟩)
      obtain ⟨i, hi⟩ := (representative_isSome (t.leaderOf_leaderOf y)).mpr ⟨y, hyq, rfl⟩
      obtain ⟨⟨q, hqi, hqg⟩, hlast⟩ := (representative_some (t.leaderOf_leaderOf y)).mp hi
      have hile : r1.length + m ≤ i := by
        by_contra hlt
        exact hlast _ y (by omega) hyat rfl
      refine hlater i q (by omega) (h.slot.mpr ⟨hqi, by rw [hqg]; exact hyout⟩) ?_
      rw [h.last _ i (t.leaderOf_leaderOf y) hi hyout, List.countP_eq_zero.mpr]
      · rfl
      · intro c hc hcount
        obtain ⟨hrel, hw, -⟩ := of_decide_eq_true hcount
        exact hfirst c hc hrel hw
    · exact (h.kept x y halone hfirst hs hx).trans (List.sublist_append_right _ _)

/-! ### All rounds -/

omit [DecidableEq L] in
theorem Emitting.length_le (h : Emitting t queue constraints topoProcs beforeConstraints ordering) :
    topoProcs.length = queue.length ∧ ordering.length ≤ queue.length := by
  refine ⟨by rw [h.slots, List.length_map], ?_⟩
  rw [h.perm.length_eq]
  exact List.length_filter_le _ _

omit [DecidableEq L] in
theorem Emitting.complete (h : Emitting t queue constraints topoProcs beforeConstraints ordering) :
    ordering.length = queue.length ↔ ∀ p ∈ queue, Emitted t ordering (t.leaderOf p) := by
  rw [h.perm.length_eq, List.length_filter_eq_length_iff]
  simp only [decide_eq_true_iff]

omit [DecidableEq L] in
/-- The output loop ends with all processes put out, or with no candidate. -/
theorem emit_run (hnd : queue.Nodup) (hleaders : OfLeaders t constraints) (hmarked : WaitersMarked t queue constraints)
    (rounds : Nat) (h : Emitting t queue constraints topoProcs beforeConstraints ordering)
    (hrounds : queue.length ≤ rounds + ordering.length) :
    match emit t (countConstraints t queue constraints).afterConstraints rounds topoProcs beforeConstraints ordering
    with
    | some l => l.length = queue.length ∧ ∃ topoProcs beforeConstraints,
        Emitting t queue constraints topoProcs beforeConstraints l
    | none => ∃ topoProcs beforeConstraints ordering,
      Emitting t queue constraints topoProcs beforeConstraints ordering ∧
        ordering.length ≠ queue.length ∧ nextCandidate topoProcs beforeConstraints = none := by
  induction rounds generalizing topoProcs beforeConstraints ordering with
  | zero =>
    have := h.length_le.2
    exact ⟨by omega, topoProcs, beforeConstraints, h⟩
  | succ rounds ih =>
    obtain ⟨hslots, hle⟩ := h.length_le
    rw [emit, hslots]
    by_cases hdone : ordering.length = queue.length
    · rw [if_pos hdone]
      exact ⟨hdone, topoProcs, beforeConstraints, h⟩
    · rw [if_neg hdone]
      cases hj : nextCandidate topoProcs beforeConstraints with
      | none => exact ⟨topoProcs, beforeConstraints, ordering, h, hdone, hj⟩
      | some j =>
        obtain ⟨⟨p, hp⟩, -⟩ := nextCandidate_some hj
        obtain ⟨hq, hout⟩ := h.slot.mp hp
        have hpos : 0 < (groupOut t queue (t.leaderOf p)).length :=
          List.length_pos_of_mem (mem_groupOut.mpr ⟨List.mem_of_getElem? hq, rfl⟩)
        dsimp only
        rw [hp, join_some]
        dsimp only
        rw [h.output (t.leaderOf_leaderOf p) hout]
        exact ih (h.round hnd hleaders hmarked hj hp) (by rw [List.length_append]; omega)

theorem pair_sublist_iff {a b : α} {front behind : List α} (hnd : (front ++ a :: behind).Nodup) :
    [a, b].Sublist (front ++ a :: behind) ↔ b ∈ behind := by
  constructor
  · intro h
    obtain ⟨l1, l2, heq, h1, h2⟩ := List.sublist_append_iff.mp h
    cases l1 with
    | nil =>
      rw [List.nil_append] at heq
      subst heq
      exact List.singleton_sublist.mp (List.cons_sublist_cons.mp h2)
    | cons x l1 =>
      obtain ⟨rfl, -⟩ := List.cons.inj heq
      exact absurd mem_cons_self (List.disjoint_of_nodup_append hnd (h1.subset mem_cons_self))
  · intro h
    exact (List.cons_sublist_cons.mpr (List.singleton_sublist.mpr h)).trans (List.sublist_append_right _ _)

/-- The last element of a list with some property. -/
theorem exists_last {f : α → Prop} (as : List α) (h : ∃ a ∈ as, f a) :
    ∃ front a behind, as = front ++ a :: behind ∧ f a ∧ ∀ b ∈ behind, ¬ f b := by
  induction as with
  | nil =>
    obtain ⟨a, ha, -⟩ := h
    cases ha
  | cons a as ih =>
    by_cases hbehind : ∃ b ∈ as, f b
    · obtain ⟨front, b, behind, rfl, hb, hlast⟩ := ih hbehind
      exact ⟨a :: front, b, behind, rfl, hb, hlast⟩
    · obtain ⟨b, hb, hfb⟩ := h
      rcases List.mem_cons.mp hb with rfl | hb
      · exact ⟨[], b, as, rfl, hfb, fun c hc hfc => hbehind ⟨c, hc, hfc⟩⟩
      · exact absurd ⟨b, hb, hfb⟩ hbehind

variable {lock : L}

omit [DecidableEq L] in
/-- With no candidate left, each group that is left has a constraint to be before another one. -/
theorem Emitting.no_solution
    (hmine : ∀ c ∈ constraints, Relevant t (t.waitProcs lock) c → c.lock = lock)
    (h : Emitting t (t.waitProcs lock) constraints topoProcs beforeConstraints ordering)
    (hlen : ordering.length ≠ (t.waitProcs lock).length) (hnone : nextCandidate topoProcs beforeConstraints = none)
    (l : List P) : ¬ Solution t lock constraints l := by
  rintro ⟨hperm, -, horder⟩
  have hleft : ∃ p ∈ l, ¬ Emitted t ordering (t.leaderOf p) := by
    by_contra hall
    refine hlen (h.complete.mpr fun p hp => ?_)
    by_contra hout
    exact hall ⟨p, hperm.mem_iff.mpr hp, hout⟩
  obtain ⟨front, x, behind, rfl, hx, hlast⟩ := exists_last l hleft
  have hxq : x ∈ t.waitProcs lock := hperm.mem_iff.mp (List.mem_append_right _ mem_cons_self)
  obtain ⟨i, hi⟩ := (representative_isSome (t.leaderOf_leaderOf x)).mpr ⟨x, hxq, rfl⟩
  obtain ⟨⟨q, hq, hqg⟩, -⟩ := (representative_some (t.leaderOf_leaderOf x)).mp hi
  have hcount := nextCandidate_none hnone (h.slot.mpr ⟨hq, by rw [hqg]; exact hx⟩)
  rw [h.last _ i (t.leaderOf_leaderOf x) hi hx] at hcount
  obtain ⟨c, hc, hc'⟩ := List.countP_pos_iff.mp (Nat.pos_of_ne_zero fun h0 => hcount (by rw [h0]; rfl))
  obtain ⟨hrel, hw, hb⟩ := of_decide_eq_true hc'
  obtain ⟨y, hy, hyb⟩ := hrel.2
  have hyl := hperm.mem_iff.mpr hy
  have hpair := horder c hc (hmine c hc hrel) x (List.mem_append_right _ mem_cons_self) y hyl hw.symm hyb
  have hnd := hperm.nodup_iff.mpr (t.nodup lock)
  exact hlast y ((pair_sublist_iff hnd).mp hpair) (by rwa [hyb])

/-- What `TopoSort` is said to do. -/
structure MeetsSpec (t : LockState P L) (lock : L) (constraints : List (Edge P L)) : Prop where
  found : ∀ l, topoSort t lock constraints = some l → Solution t lock constraints l
  failed : topoSort t lock constraints = none → ∀ l, ¬ Solution t lock constraints l
  others : topoSort t lock constraints = topoSort t lock (constraints.filter fun c => decide (c.lock = lock))

omit [DecidableEq L] in
theorem topoSort_run (lock : L) (hleaders : OfLeaders t constraints)
    (hmarked : WaitersMarked t (t.waitProcs lock) constraints) :
    match topoSort t lock constraints with
    | some l => l.length = (t.waitProcs lock).length ∧ ∃ topoProcs beforeConstraints,
        Emitting t (t.waitProcs lock) constraints topoProcs beforeConstraints l
    | none => ∃ topoProcs beforeConstraints ordering,
        Emitting t (t.waitProcs lock) constraints topoProcs beforeConstraints ordering ∧
        ordering.length ≠ (t.waitProcs lock).length ∧ nextCandidate topoProcs beforeConstraints = none :=
  emit_run (t.nodup lock) hleaders hmarked _ (emitting_start hleaders) (le_refl _)

/-- **`TopoSort` meets its specification** when each constraint of another lock names a group that is not in the
queue, and no constraint's waiter has mates in the queue, unless its group is the blocker of another constraint. -/
theorem topoSort_meets (t : LockState P L) (lock : L) (constraints : List (Edge P L))
    (hleaders : OfLeaders t constraints) (hothers : ∀ c ∈ constraints, c.lock ≠ lock → ¬ Relevant t (t.waitProcs lock)
      c)
    (hmarked : WaitersMarked t (t.waitProcs lock) constraints) : MeetsSpec t lock constraints := by
  have hmine (c : Edge P L) (hc : c ∈ constraints) (hrel : Relevant t (t.waitProcs lock) c) : c.lock = lock := by
    by_contra hne
    exact hothers c hc hne hrel
  have hrun := topoSort_run lock hleaders hmarked
  refine ⟨fun l hl => ?_, fun hn l => ?_, ?_⟩
  · rw [hl] at hrun
    obtain ⟨hlen, topoProcs, beforeConstraints, h⟩ := hrun
    have hperm : l.Perm (t.waitProcs lock) := by
      have := h.perm
      rwa [List.filter_eq_self.mpr fun p hp => decide_eq_true (h.complete.mp hlen p hp)] at this
    refine ⟨hperm, h.adjacent, fun c hc _ x hx y hy hw hb => ?_⟩
    exact h.order c hc ⟨⟨x, hperm.mem_iff.mp hx, hw⟩, ⟨y, hperm.mem_iff.mp hy, hb⟩⟩ x hx y (hperm.mem_iff.mp hy) hw hb
  · rw [hn] at hrun
    obtain ⟨topoProcs, beforeConstraints, ordering, h, hlen, hnone⟩ := hrun
    exact h.no_solution hmine hlen hnone l
  · unfold topoSort
    have hfold (cs : List (Edge P L)) (hcs : cs ⊆ constraints) (s : Counts) :
        cs.foldl (countConstraint t (t.waitProcs lock)) s =
          (cs.filter fun c => decide (c.lock = lock)).foldl (countConstraint t (t.waitProcs lock)) s := by
      induction cs generalizing s with
      | nil => rfl
      | cons c cs ih =>
        obtain ⟨hc, hcs⟩ := List.cons_subset.mp hcs
        by_cases hlock : c.lock = lock
        · rw [List.filter_cons, if_pos (decide_eq_true hlock), foldl_cons, foldl_cons, ih hcs]
        · rw [List.filter_cons, if_neg fun h => hlock (of_decide_eq_true h), foldl_cons, ih hcs,
            countConstraint_irrelevant (hleaders c hc).1 (hleaders c hc).2 (hothers c hc hlock)]
    simp only [countConstraints, ← hfold constraints (List.Subset.refl _)]

/-- Processes 1 and 2 are a group, and 0 is ahead of both in the queue. -/
def mates : LockState (Fin 3) Unit where
  numLockModes _ := 1
  conflictTab _ _ _ := true
  procLocks _ := []
  waitProcs _ := [0, 1, 2]
  waitLock _ := some ()
  waitLockMode _ := 1
  lockGroupLeader p := if p = 0 then none else some 1
  lockGroupMembers p := if p = 1 then [1, 2] else []
  isAutovacuum _ := false
  myProc := 0
  queued := by decide
  nodup := by decide
  member := by decide
  leads := by decide

/-- The group that is already behind stays there. -/
theorem mates_meets : MeetsSpec mates () [⟨0, 1, ()⟩] := by
  apply topoSort_meets
  · exact List.forall_mem_singleton.mpr ⟨rfl, rfl⟩
  · exact fun _ _ hne => absurd rfl hne
  · refine List.forall_mem_singleton.mpr fun _ => .inl ?_
    intro x hx hxw z hz hzx
    revert x z
    decide

/-- The group is not put in front of 0: the scan for the waiter ends with 2, and 1 is put out as if it were free. -/
theorem mates_misplaced : topoSort mates () [⟨1, 0, ()⟩] = some [0, 2, 1] ∧ ¬ MeetsSpec mates () [⟨1, 0, ()⟩] := by
  have hout : topoSort mates () [⟨1, 0, ()⟩] = some [0, 2, 1] := by decide +kernel
  refine ⟨hout, fun h => ?_⟩
  have := (h.found _ hout).order ⟨1, 0, ()⟩ mem_cons_self rfl 1 (by decide) 0 (by decide) rfl rfl
  exact absurd this (by decide)

end

end PgStorage.Deadlock
