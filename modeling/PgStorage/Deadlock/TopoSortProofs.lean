import PgStorage.Deadlock.Check
import PgStorage.Deadlock.FindLockCycleProofs

/-! The counts of `TopoSort`.

The representative of a group counts the constraints in which the group is the waiter and that are not yet met; the
other members of a blocker's group stay at -1. -/
namespace PgStorage.Deadlock
open List

section
variable {P L : Type} [DecidableEq P] [DecidableEq L] {t : LockState P L} {queue : List P} {x y p : P} {j k : Nat}

theorem lastIndex_some {test : Nat → Bool} {n : Nat} : lastIndex test n = some j ↔
    j < n ∧ test j = true ∧ ∀ k, j < k → k < n → test k = false := by
  induction n with
  | zero => simp [lastIndex]
  | succ n ih =>
    rw [lastIndex]
    split
    · next h =>
      rw [Option.some.injEq]
      constructor
      · rintro rfl
        exact ⟨Nat.lt_succ_self _, h, fun k hlow hhigh => by omega⟩
      · rintro ⟨hj, -, hlast⟩
        by_contra hne
        rw [hlast n (by omega) (Nat.lt_succ_self n)] at h
        exact nomatch h
    · next h =>
      rw [ih]
      constructor
      · rintro ⟨hj, htest, hlast⟩
        refine ⟨by omega, htest, fun k hlow hhigh => ?_⟩
        by_cases hk : k = n
        · rw [hk]
          exact Bool.eq_false_of_not_eq_true h
        · exact hlast k hlow (by omega)
      · rintro ⟨hj, htest, hlast⟩
        refine ⟨?_, htest, fun k hlow hhigh => hlast k hlow (by omega)⟩
        by_contra hge
        rw [show j = n by omega] at htest
        exact h htest

theorem lastIndex_none {test : Nat → Bool} {n : Nat} : lastIndex test n = none ↔ ∀ k < n, test k = false := by
  induction n with
  | zero => simp [lastIndex]
  | succ n ih =>
    rw [lastIndex]
    split
    · next h => exact ⟨nofun, fun hall => by rw [hall n (Nat.lt_succ_self n)] at h; exact nomatch h⟩
    · next h =>
      rw [ih]
      constructor
      · intro hall k hk
        by_cases hkn : k = n
        · rw [hkn]
          exact Bool.eq_false_of_not_eq_true h
        · exact hall k (by omega)
      · exact fun hall k hk => hall k (by omega)

omit [DecidableEq L] in
theorem inGroup_iff (hx : t.leaderOf x = x) : inGroup t x p = true ↔ t.leaderOf p = x := by
  unfold inGroup
  rw [Bool.or_eq_true, decide_eq_true_iff, decide_eq_true_iff]
  constructor
  · rintro (rfl | h)
    · exact hx
    · unfold LockState.leaderOf
      rw [h, Option.getD_some]
  · unfold LockState.leaderOf
    cases t.lockGroupLeader p with
    | none => exact .inl
    | some g =>
      rintro rfl
      exact .inr rfl

omit [DecidableEq L] in
theorem any_inGroup (hx : t.leaderOf x = x) {slot : Option P} :
    slot.any (inGroup t x) = true ↔ ∃ p, slot = some p ∧ t.leaderOf p = x := by
  rw [Option.any_eq_true]
  exact exists_congr fun p => and_congr_right fun _ => inGroup_iff hx

omit [DecidableEq L] in
theorem representative_some (hx : t.leaderOf x = x) : representative t queue x = some j ↔
    (∃ p, queue[j]? = some p ∧ t.leaderOf p = x) ∧ ∀ k p, j < k → queue[k]? = some p → t.leaderOf p ≠ x := by
  unfold representative
  rw [lastIndex_some, any_inGroup hx]
  constructor
  · rintro ⟨-, hp, hlast⟩
    refine ⟨hp, fun k p hk hkp hpx => ?_⟩
    obtain ⟨hlt, -⟩ := List.getElem?_eq_some_iff.mp hkp
    have := hlast k hk hlt
    rw [(any_inGroup hx).mpr ⟨p, hkp, hpx⟩] at this
    exact nomatch this
  · rintro ⟨⟨p, hjp, hpx⟩, hlast⟩
    refine ⟨(List.getElem?_eq_some_iff.mp hjp).1, ⟨p, hjp, hpx⟩, fun k hk _ => ?_⟩
    refine Bool.eq_false_of_not_eq_true fun hany => ?_
    obtain ⟨q, hq, hqx⟩ := (any_inGroup hx).mp hany
    exact hlast k q hk hq hqx

omit [DecidableEq L] in
theorem representative_isSome (hx : t.leaderOf x = x) :
    (∃ j, representative t queue x = some j) ↔ ∃ p ∈ queue, t.leaderOf p = x := by
  constructor
  · rintro ⟨j, hj⟩
    obtain ⟨⟨p, hp, hpx⟩, -⟩ := (representative_some hx).mp hj
    exact ⟨p, mem_of_getElem? hp, hpx⟩
  · rintro ⟨p, hp, hpx⟩
    cases h : representative t queue x with
    | some j => exact ⟨j, rfl⟩
    | none =>
      obtain ⟨i, hi, rfl⟩ := mem_iff_getElem.mp hp
      have := lastIndex_none.mp h i hi
      rw [(any_inGroup hx).mpr ⟨queue[i], getElem?_eq_getElem hi, hpx⟩] at this
      exact nomatch this

omit [DecidableEq L] in
theorem representative_inj (hx : t.leaderOf x = x) (hy : t.leaderOf y = y) (h : representative t queue x = some j)
    (h' : representative t queue y = some j) : x = y := by
  obtain ⟨⟨p, hp, hpx⟩, -⟩ := (representative_some hx).mp h
  obtain ⟨⟨q, hq, hqy⟩, -⟩ := (representative_some hy).mp h'
  rw [hp] at hq
  cases hq
  exact hpx.symm.trans hqy

/-! ### Counting the constraints -/

/-- Both groups of the constraint are in the queue. -/
def Relevant (t : LockState P L) (queue : List P) (c : Edge P L) : Prop :=
  (∃ p ∈ queue, t.leaderOf p = c.waiter) ∧ ∃ p ∈ queue, t.leaderOf p = c.blocker

instance (c : Edge P L) : Decidable (Relevant t queue c) := inferInstanceAs (Decidable (_ ∧ _))

/-- The constraints name leaders of groups. -/
def OfLeaders (t : LockState P L) (constraints : List (Edge P L)) : Prop :=
  ∀ c ∈ constraints, t.leaderOf c.waiter = c.waiter ∧ t.leaderOf c.blocker = c.blocker

omit [DecidableEq L] in
theorem countConstraint_irrelevant {c : Edge P L} (hw : t.leaderOf c.waiter = c.waiter)
    (hb : t.leaderOf c.blocker = c.blocker) (h : ¬ Relevant t queue c) (s : Counts) :
    countConstraint t queue s c = s := by
  unfold countConstraint
  cases hjj : representative t queue c.waiter with
  | none => rfl
  | some jj =>
    cases hkk : representative t queue c.blocker with
    | none => rfl
    | some kk => exact absurd ⟨(representative_isSome hw).mp ⟨jj, hjj⟩, (representative_isSome hb).mp ⟨kk, hkk⟩⟩ h

/-- What has been counted of some constraints. -/
structure Counted (t : LockState P L) (queue : List P) (constraints : List (Edge P L)) (s : Counts) : Prop where
  last : ∀ x j, t.leaderOf x = x → representative t queue x = some j →
    s.beforeConstraints j = constraints.countP fun c => decide (Relevant t queue c ∧ c.waiter = x)
  rest : ∀ j p, queue[j]? = some p → representative t queue (t.leaderOf p) ≠ some j →
    s.beforeConstraints j = if ∃ c ∈ constraints, Relevant t queue c ∧ c.blocker = t.leaderOf p then -1 else 0
  preds : ∀ j k, (s.afterConstraints j).count k = constraints.countP fun c => decide (Relevant t queue c ∧
    representative t queue c.waiter = some k ∧ representative t queue c.blocker = some j)

omit [DecidableEq L] in
theorem countConstraints_counted (queue : List P) {constraints : List (Edge P L)} (hleaders : OfLeaders t constraints) :
    Counted t queue constraints (countConstraints t queue constraints) := by
  induction constraints using reverseRecOn with
  | nil => exact ⟨fun _ _ _ _ => rfl, fun _ _ _ _ => by simp [countConstraints], fun _ _ => rfl⟩
  | append_singleton constraints c ih =>
    obtain ⟨hlast, hrest, hpreds⟩ := ih fun c' hc' => hleaders c' (mem_append_left _ hc')
    obtain ⟨hw, hb⟩ := hleaders c (mem_append_right _ mem_cons_self)
    have hfold : countConstraints t queue (constraints ++ [c]) =
        countConstraint t queue (countConstraints t queue constraints) c := foldl_concat ..
    rw [hfold]
    generalize countConstraints t queue constraints = s at hlast hrest hpreds
    by_cases hc : Relevant t queue c
    · obtain ⟨jj, hjj⟩ := (representative_isSome hw).mpr hc.1
      obtain ⟨kk, hkk⟩ := (representative_isSome hb).mpr hc.2
      have hstep : countConstraint t queue s c =
          {beforeConstraints := fun j => if j = jj
             then (if j ≠ kk ∧ queue[j]?.any (inGroup t c.blocker) = true then -1 else s.beforeConstraints j) + 1
             else if j ≠ kk ∧ queue[j]?.any (inGroup t c.blocker) = true then -1 else s.beforeConstraints j
           afterConstraints := fun k => if k = kk then jj :: s.afterConstraints k else s.afterConstraints k} := by
        unfold countConstraint
        rw [hjj, hkk]
      rw [hstep]
      refine ⟨fun x j hx hj => ?_, fun j p hp hj => ?_, fun j k => ?_⟩
      · obtain ⟨⟨p, hp, hpx⟩, -⟩ := (representative_some hx).mp hj
        have hmark : ¬ (j ≠ kk ∧ queue[j]?.any (inGroup t c.blocker) = true) := by
          rintro ⟨hne, hany⟩
          obtain ⟨q, hq, hqb⟩ := (any_inGroup hb).mp hany
          rw [hp] at hq
          cases hq
          rw [← hqb, hpx, hj] at hkk
          exact hne (Option.some.inj hkk)
        rw [countP_append, countP_singleton]
        dsimp only
        rw [if_neg hmark, hlast x j hx hj]
        by_cases hjx : c.waiter = x
        · rw [if_pos (by rw [hjx, hj] at hjj; exact Option.some.inj hjj), if_pos (decide_eq_true ⟨hc, hjx⟩)]
          rfl
        · rw [if_neg (fun h => hjx (representative_inj hw hx hjj (by rw [← h]; exact hj))),
            if_neg (fun h => hjx (of_decide_eq_true h).2), add_zero]
      · have hjne : j ≠ jj := by
          rintro rfl
          obtain ⟨⟨q, hq, hqw⟩, -⟩ := (representative_some hw).mp hjj
          rw [hp] at hq
          cases hq
          rw [hqw] at hj
          exact hj hjj
        dsimp only
        rw [if_neg hjne]
        by_cases hblock : c.blocker = t.leaderOf p
        · rw [if_pos ⟨fun h => hj (by rw [← hblock, hkk, h]), (any_inGroup hb).mpr ⟨p, hp, hblock.symm⟩⟩,
            if_pos ⟨c, mem_append_right _ mem_cons_self, hc, hblock⟩]
        · rw [if_neg, hrest j p hp hj]
          · refine if_congr ?_ rfl rfl
            simp only [mem_append, mem_singleton, or_and_right, exists_or]
            constructor
            · exact .inl
            · rintro (h | ⟨c', rfl, -, h⟩)
              · exact h
              · exact absurd h hblock
          · rintro ⟨-, hany⟩
            obtain ⟨q, hq, hqb⟩ := (any_inGroup hb).mp hany
            rw [hp] at hq
            cases hq
            exact hblock hqb.symm
      · rw [countP_append, countP_singleton, ← hpreds j k]
        dsimp only
        by_cases hjk : j = kk
        · subst hjk
          rw [if_pos rfl, count_cons]
          refine congrArg _ (if_congr ?_ rfl rfl)
          rw [beq_iff_eq, decide_eq_true_iff, hjj, hkk, Option.some.injEq]
          exact ⟨fun h => ⟨hc, h, rfl⟩, fun h => h.2.1⟩
        · rw [if_neg hjk, if_neg, add_zero]
          rw [decide_eq_true_iff, hkk, Option.some.injEq]
          exact fun h => hjk h.2.2.symm
    · rw [countConstraint_irrelevant hw hb hc]
      refine ⟨fun x j hx hj => ?_, fun j p hp hj => ?_, fun j k => ?_⟩
      · rw [countP_append, countP_singleton, if_neg (fun h => hc (of_decide_eq_true h).1), add_zero]
        exact hlast x j hx hj
      · rw [hrest j p hp hj]
        refine if_congr ?_ rfl rfl
        simp only [mem_append, mem_singleton, or_and_right, exists_or]
        constructor
        · exact .inl
        · rintro (h | ⟨c', rfl, h, -⟩)
          · exact h
          · exact absurd h hc
      · rw [countP_append, countP_singleton, if_neg (fun h => hc (of_decide_eq_true h).1), add_zero]
        exact hpreds j k

end

end PgStorage.Deadlock
