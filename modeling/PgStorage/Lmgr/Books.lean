import PgStorage.Lmgr.Lock

/-! The books of one lock.

`Accounted` is what holds between an element of the lock table, the entries of the
transactions for it and their pending requests. Each routine moves a transaction between
nothing, a request outside the queue, a request in the queue and a granted lock; one lemma
for each of these moves says that the books stay right. -/
namespace PgStorage.Lmgr
open PgStorage.Count
open Function Option BitVec Finset

theorem getLsbD_bitsOn {i j : Nat} (hi : i < 32) : (bitsOn i).getLsbD j = decide (i = j) := by
  rw [bitsOn, getLsbD_shiftLeft, getLsbD_one]
  by_cases h : i = j
  · subst h
    simp [hi]
  · simp only [h, decide_false]
    by_cases hj : j < i
    · simp [hj]
    · have : j - i ≠ 0 := by omega
      simp [this]

theorem getLsbD_bitsOff {i j : Nat} (hi : i < 32) (hj : j < 32) : (bitsOff i).getLsbD j = decide (i ≠ j) := by
  rw [bitsOff, getLsbD_not, getLsbD_bitsOn hi]
  simp [hj]

theorem and_eq_zero_getLsbD {u v : BitVec 32} (h : u &&& v = 0) (j : Nat) (hu : u.getLsbD j = true) :
    v.getLsbD j = false := by
  have hj : (u &&& v).getLsbD j = false := by rw [h]; simp
  rw [getLsbD_and, hu, Bool.true_and] at hj
  exact hj

section Books
variable {X T : Type} [Fintype X] [DecidableEq X] {ctl : Ctl} {l : Lock X T} {ent : X → Option XidEnt}
  {pend : X → Option (Nat × Bool)} {x : X} {e : XidEnt} {t : Nat}

theorem Ctl.lt_of_mem_types (h : t ∈ ctl.types) : t < 32 := by
  have := (mem_Icc.mp h).2
  have := ctl.nLockTypes_lt
  omega

omit [Fintype X] [DecidableEq X] in
theorem getLsbD_othersMask {n j : Nat} (hn : n < 6) (h1 : 1 ≤ j) (hj : j ≤ n) :
    (othersMask l e n).getLsbD j = decide (l.activeHolders j - e.holders j ≠ 0) := by
  induction n with
  | zero => omega
  | succ n ih =>
    have hskip (hlt : n < j) : (othersMask l e n).getLsbD j = false := by
      clear ih hj
      induction n with
      | zero => simp [othersMask]
      | succ n ih =>
        rw [othersMask]
        split_ifs
        · rw [getLsbD_or, ih (by omega) (by omega), getLsbD_bitsOn (by omega)]
          simp; omega
        · exact ih (by omega) (by omega)
    rw [othersMask]
    rcases Nat.lt_or_ge n j with hlt | hge
    · obtain rfl : j = n + 1 := by omega
      split_ifs with h
      · rw [getLsbD_or, getLsbD_bitsOn (by omega)]
        simp [h]
      · rw [hskip hlt]
        simpa using h
    · have hne : ¬ n + 1 = j := by omega
      split_ifs
      · rw [getLsbD_or, getLsbD_bitsOn (by omega), ih (by omega) hge]
        simp [hne]
      · exact ih (by omega) hge

/-- What a transaction holds of a type. -/
def heldBy (ent : X → Option XidEnt) (x : X) (i : Nat) : Int := ((ent x).getD .init).holders i

/-- The number of pending requests of a type. -/
def waitersFor (pend : X → Option (Nat × Bool)) (i : Nat) : Nat :=
  count (fun p : Option (Nat × Bool) => p.map Prod.fst = some i) pend

def waitersAll (pend : X → Option (Nat × Bool)) : Nat :=
  count (fun p : Option (Nat × Bool) => p.isSome = true) pend

/-- The books of a lock are right, and nobody holds a lock that conflicts with another's. A
pending request is a type and whether the process is in the queue. -/
structure Accounted (ctl : Ctl) (l : Lock X T) (ent : X → Option XidEnt) (pend : X → Option (Nat × Bool)) : Prop where
  held_nonneg : ∀ x i, 0 ≤ heldBy ent x i
  entry : ∀ x e, ent x = some e → e.nHolding = ∑ i ∈ ctl.types, e.holders i
  active : ∀ i ∈ ctl.types, l.activeHolders i = ∑ x, heldBy ent x i
  nActive : l.nActive = ∑ i ∈ ctl.types, l.activeHolders i
  mask : ∀ i ∈ ctl.types, l.mask.getLsbD i = true ↔ 0 < l.activeHolders i
  holders : ∀ i ∈ ctl.types, l.holders i = l.activeHolders i + waitersFor pend i
  nHolding : l.nHolding = l.nActive + waitersAll pend
  requests : ∀ x t q, pend x = some (t, q) → t ∈ ctl.types ∧ (ent x).isSome = true
  queue : ∀ x, x ∈ l.waitProcs ↔ ∃ t, pend x = some (t, true)
  nodup : l.waitProcs.Nodup
  exclusive : ∀ x y i j, i ∈ ctl.types → j ∈ ctl.types → x ≠ y → 0 < heldBy ent x i → 0 < heldBy ent y j →
    ¬ ctl.Conflict i j

omit [Fintype X] in
theorem heldBy_self (v : Option XidEnt) (i : Nat) :
    heldBy (update ent x v) x i = (v.getD .init).holders i := by
  rw [heldBy, update_self]

omit [Fintype X] in
theorem heldBy_of_ne {y : X} (h : y ≠ x) (v : Option XidEnt) (i : Nat) :
    heldBy (update ent x v) y i = heldBy ent y i := by
  rw [heldBy, update_of_ne h, heldBy]

omit [Fintype X] [DecidableEq X] in
theorem heldBy_some (h : ent x = some e) (i : Nat) : heldBy ent x i = e.holders i := by
  rw [heldBy, h, getD_some]

/-- The sum over the transactions when the entry of one of them changes. -/
theorem sum_heldBy_update (v : Option XidEnt) (i : Nat) :
    ∑ y, heldBy (update ent x v) y i = ∑ y, heldBy ent y i - heldBy ent x i + (v.getD .init).holders i := by
  have hrest : ∑ y ∈ univ.erase x, heldBy (update ent x v) y i =
      ∑ y ∈ univ.erase x, heldBy ent y i :=
    sum_congr rfl fun y hy => heldBy_of_ne (ne_of_mem_erase hy) v i
  rw [← add_sum_erase _ _ (mem_univ x), ← add_sum_erase _ (heldBy ent · i) (mem_univ x),
    hrest, heldBy_self]
  omega

theorem waitersFor_update (pend : X → Option (Nat × Bool)) (x : X) (v : Option (Nat × Bool)) (i : Nat) :
    waitersFor (update pend x v) i + (if (pend x).map Prod.fst = some i then 1 else 0) =
      waitersFor pend i + (if v.map Prod.fst = some i then 1 else 0) := count_update _ _ x v

theorem waitersAll_update (pend : X → Option (Nat × Bool)) (x : X) (v : Option (Nat × Bool)) :
    waitersAll (update pend x v) + (if (pend x).isSome = true then 1 else 0) =
      waitersAll pend + (if v.isSome = true then 1 else 0) := count_update _ _ x v

omit [Fintype X] in
theorem pend_of_ne {v : Option (Nat × Bool)} {y : X} {p : Nat × Bool} (h : update pend x v y = some p)
    (hv : v ≠ some p) : pend y = some p := by
  by_cases hy : y = x
  · subst hy
    rw [update_self] at h
    exact absurd h hv
  · rwa [update_of_ne hy] at h

theorem sum_update_add {s : Finset Nat} {f : Nat → Int} (ht : t ∈ s) (d : Int) :
    ∑ i ∈ s, update f t (f t + d) i = ∑ i ∈ s, f i + d := by
  rw [sum_update_of_mem ht, ← add_sum_erase s f ht, sdiff_singleton_eq_erase]
  omega

namespace Accounted

omit [DecidableEq X] in
theorem held_le (h : Accounted ctl l ent pend) {i : Nat} (hi : i ∈ ctl.types) (x : X) :
    heldBy ent x i ≤ l.activeHolders i := by
  rw [h.active i hi]
  exact single_le_sum (f := (heldBy ent · i)) (fun y _ => h.held_nonneg y i) (mem_univ x)

/-- Two transactions' locks are both among the active ones. -/
theorem held_add_le (h : Accounted ctl l ent pend) {i : Nat} (hi : i ∈ ctl.types) {x y : X} (hne : y ≠ x) :
    heldBy ent x i + heldBy ent y i ≤ l.activeHolders i := by
  rw [h.active i hi, ← add_sum_erase _ _ (mem_univ x)]
  have hy : y ∈ univ.erase x := mem_erase.mpr ⟨hne, mem_univ y⟩
  have := single_le_sum (f := (heldBy ent · i)) (fun z _ => h.held_nonneg z i) hy
  omega

omit [DecidableEq X] in
theorem nHolding_le (h : Accounted ctl l ent pend) (he : ent x = some e) : e.nHolding ≤ l.nActive := by
  rw [h.entry x e he, h.nActive]
  refine sum_le_sum fun i hi => ?_
  rw [← heldBy_some he i]
  exact h.held_le hi x

omit [DecidableEq X] in
theorem entry_nonneg (h : Accounted ctl l ent pend) (he : ent x = some e) : 0 ≤ e.nHolding := by
  rw [h.entry x e he]
  refine sum_nonneg fun i _ => ?_
  rw [← heldBy_some he i]
  exact h.held_nonneg x i

/-- If the active locks are all mine, nobody else holds any. -/
theorem alone (h : Accounted ctl l ent pend) (he : ent x = some e) (hn : e.nHolding = l.nActive) {y : X} (hne : y ≠ x)
    {j : Nat} (hj : j ∈ ctl.types) : ¬ 0 < heldBy ent y j := by
  have hzero : ∑ i ∈ ctl.types, (l.activeHolders i - e.holders i) = 0 := by
    rw [sum_sub_distrib, ← h.nActive, ← h.entry x e he]
    omega
  have hle (i : Nat) (hi : i ∈ ctl.types) : 0 ≤ l.activeHolders i - e.holders i := by
    have := h.held_le hi x
    rw [heldBy_some he] at this
    omega
  have hj0 := (sum_eq_zero_iff_of_nonneg hle).mp hzero j hj
  have := h.held_add_le hj hne
  rw [heldBy_some he] at this
  omega

/-- A lock that can be had conflicts with nothing that others hold. -/
theorem resolved (h : Accounted ctl l ent pend) (he : ent x = some e) {e' : XidEnt}
    (hr : lockResolveConflicts ctl l e t = some e') :
    e' = e.add t ∧ ∀ y, y ≠ x → ∀ j ∈ ctl.types, 0 < heldBy ent y j → (ctl.conflictTab t).getLsbD j = false := by
  rw [lockResolveConflicts] at hr
  split_ifs at hr with hmask hothers
  · refine ⟨(some.inj hr).symm, fun y _ j hj hy => ?_⟩
    cases hc : (ctl.conflictTab t).getLsbD j with
    | false => rfl
    | true =>
      have hbit := and_eq_zero_getLsbD hmask j hc
      have hpos := (h.mask j hj).mpr (lt_of_lt_of_le hy (h.held_le hj y))
      rw [hbit] at hpos
      cases hpos
  · refine ⟨(some.inj hr).symm, fun y hne j hj hy => ?_⟩
    cases hc : (ctl.conflictTab t).getLsbD j with
    | false => rfl
    | true =>
      have hbit := and_eq_zero_getLsbD hothers j hc
      rw [getLsbD_othersMask ctl.nLockTypes_lt (mem_Icc.mp hj).1 (mem_Icc.mp hj).2] at hbit
      have hle := h.held_add_le hj hne
      rw [heldBy_some he] at hle
      have : l.activeHolders j - e.holders j = 0 := by simpa using hbit
      omega

/-! ### The moves -/

/-- A request is counted. -/
theorem request (h : Accounted ctl l ent pend) (hx : pend x = none) (ht : t ∈ ctl.types)
    (he : (ent x).isSome = true) : Accounted ctl (l.request t) ent (update pend x (some (t, false))) where
  held_nonneg := h.held_nonneg
  entry := h.entry
  active := h.active
  nActive := h.nActive
  mask := h.mask
  holders i hi := by
    have hw := waitersFor_update pend x (some (t, false)) i
    have hold := h.holders i hi
    simp only [hx, map_none, reduceCtorEq, if_false, map_some, some.injEq] at hw
    by_cases hit : i = t
    · subst hit
      simp only [if_true] at hw
      simp only [Lock.request, update_self]
      omega
    · simp only [Ne.symm hit, if_false] at hw
      simp only [Lock.request, update_of_ne hit]
      omega
  nHolding := by
    have hw := waitersAll_update pend x (some (t, false))
    simp only [hx, isSome_none, Bool.false_eq_true, if_false, isSome_some, if_true] at hw
    have := h.nHolding
    simp only [Lock.request]
    omega
  requests y t' q hy := by
    by_cases hyx : y = x
    · subst hyx
      rw [update_self] at hy
      cases hy
      exact ⟨ht, he⟩
    · rw [update_of_ne hyx] at hy
      exact h.requests y t' q hy
  queue y := by
    refine (h.queue y).trans (exists_congr fun t' => ⟨fun hy => ?_, fun hy => pend_of_ne hy nofun⟩)
    have hyx : y ≠ x := by
      intro e
      rw [e, hx] at hy
      cases hy
    rwa [update_of_ne hyx]
  nodup := h.nodup
  exclusive := h.exclusive

/-- A request outside the queue is given up. -/
theorem unrequest (h : Accounted ctl l ent pend) (hx : pend x = some (t, false)) :
    Accounted ctl (l.unrequest t) ent (update pend x none) where
  held_nonneg := h.held_nonneg
  entry := h.entry
  active := h.active
  nActive := h.nActive
  mask := h.mask
  holders i hi := by
    have hw := waitersFor_update pend x none i
    have hold := h.holders i hi
    simp only [hx, map_none, reduceCtorEq, if_false, map_some, some.injEq] at hw
    by_cases hit : i = t
    · subst hit
      simp only [if_true] at hw
      simp only [Lock.unrequest, update_self]
      omega
    · simp only [Ne.symm hit, if_false] at hw
      simp only [Lock.unrequest, update_of_ne hit]
      omega
  nHolding := by
    have hw := waitersAll_update pend x none
    simp only [hx, isSome_none, Bool.false_eq_true, if_false, isSome_some, if_true] at hw
    have := h.nHolding
    simp only [Lock.unrequest]
    omega
  requests y t' q hy := h.requests y t' q (pend_of_ne hy nofun)
  queue y := by
    refine (h.queue y).trans (exists_congr fun t' => ⟨fun hy => ?_, fun hy => pend_of_ne hy nofun⟩)
    have hyx : y ≠ x := by
      intro e
      rw [e, hx] at hy
      cases hy
    rwa [update_of_ne hyx]
  nodup := h.nodup
  exclusive := h.exclusive

/-- A request goes into the queue or out of it. -/
theorem requeue (h : Accounted ctl l ent pend) {q : Bool} (hx : pend x = some (t, q)) (q' : Bool) {procs : List X}
    (hnd : procs.Nodup) (hmem : ∀ y, y ≠ x → (y ∈ procs ↔ y ∈ l.waitProcs)) (hself : x ∈ procs ↔ q' = true) :
    Accounted ctl {l with waitProcs := procs} ent (update pend x (some (t, q'))) where
  held_nonneg := h.held_nonneg
  entry := h.entry
  active := h.active
  nActive := h.nActive
  mask := h.mask
  holders i hi := by
    have hw := waitersFor_update pend x (some (t, q')) i
    rw [hx] at hw
    have hsame : waitersFor (update pend x (some (t, q'))) i = waitersFor pend i := Nat.add_right_cancel hw
    rw [hsame]
    exact h.holders i hi
  nHolding := by
    have hw := waitersAll_update pend x (some (t, q'))
    rw [hx] at hw
    have hsame : waitersAll (update pend x (some (t, q'))) = waitersAll pend := Nat.add_right_cancel hw
    rw [hsame]
    exact h.nHolding
  requests y t' r hy := by
    by_cases hyx : y = x
    · subst hyx
      rw [update_self] at hy
      cases hy
      exact h.requests y t q hx
    · rw [update_of_ne hyx] at hy
      exact h.requests y t' r hy
  queue y := by
    by_cases hyx : y = x
    · subst hyx
      rw [update_self]
      refine hself.trans ⟨fun e => ⟨t, by rw [e]⟩, fun he => ?_⟩
      obtain ⟨t', he⟩ := he
      cases he
      rfl
    · rw [update_of_ne hyx]
      exact (hmem y hyx).trans (h.queue y)
  nodup := hnd
  exclusive := h.exclusive

/-- A request outside the queue is granted. -/
theorem grant (h : Accounted ctl l ent pend) (hx : pend x = some (t, false)) (he : ent x = some e)
    (hfree : ∀ y, y ≠ x → ∀ j ∈ ctl.types, 0 < heldBy ent y j → (ctl.conflictTab t).getLsbD j = false) :
    Accounted ctl (grantLock l t) (update ent x (some (e.add t))) (update pend x none) := by
  obtain ⟨ht, -⟩ := h.requests x t false hx
  have hadd (i : Nat) : (e.add t).holders i = e.holders i + if i = t then 1 else 0 := by
    by_cases hit : i = t
    · subst hit
      simp [XidEnt.add]
    · simp [XidEnt.add, hit]
  have hheld (y : X) (i : Nat) : heldBy (update ent x (some (e.add t))) y i =
      heldBy ent y i + if y = x ∧ i = t then 1 else 0 := by
    by_cases hyx : y = x
    · subst hyx
      rw [heldBy_self, getD_some, hadd, heldBy_some he]
      simp
    · rw [heldBy_of_ne hyx]
      simp [hyx]
  have hact (i : Nat) : (grantLock l t).activeHolders i = l.activeHolders i + if i = t then 1 else 0 := by
    by_cases hit : i = t
    · subst hit
      simp [grantLock]
    · simp [grantLock, hit]
  have hstart : ∀ i ∈ ctl.types, 0 ≤ l.activeHolders i := fun i hi => le_trans (h.held_nonneg x i) (h.held_le hi x)
  refine ⟨fun y i => ?_, fun y f hy => ?_, fun i hi => ?_, ?_, fun i hi => ?_, fun i hi => ?_, ?_,
    fun y t' q hy => ?_, fun y => ?_, h.nodup, fun y z i j hi hj hne hy hz hc => ?_⟩
  · rw [hheld]
    have := h.held_nonneg y i
    split_ifs <;> omega
  · by_cases hyx : y = x
    · subst hyx
      rw [update_self] at hy
      cases hy
      rw [XidEnt.add, sum_update_add ht, ← h.entry y e he]
    · rw [update_of_ne hyx] at hy
      exact h.entry y f hy
  · rw [sum_heldBy_update, hact, ← h.active i hi, getD_some, hadd, heldBy_some he]
    omega
  · rw [grantLock, sum_update_add ht, ← h.nActive]
  · have hbit := h.mask i hi
    have hpos := hstart i hi
    rw [hact, grantLock, getLsbD_or, getLsbD_bitsOn (Ctl.lt_of_mem_types ht)]
    by_cases hit : i = t
    · subst hit
      simp only [decide_true, Bool.or_true, if_true, true_iff]
      omega
    · simp only [Ne.symm hit, decide_false, Bool.or_false, hit, if_false, Int.add_zero]
      exact hbit
  · have hw := waitersFor_update pend x none i
    have hold := h.holders i hi
    simp only [hx, map_none, reduceCtorEq, if_false, map_some, some.injEq] at hw
    rw [hact]
    show l.holders i = _
    by_cases hit : i = t
    · simp only [hit, if_true] at hw hold ⊢
      omega
    · simp only [hit, Ne.symm hit, if_false] at hw hold ⊢
      omega
  · have hw := waitersAll_update pend x none
    simp only [hx, isSome_none, Bool.false_eq_true, if_false, isSome_some, if_true] at hw
    have := h.nHolding
    show l.nHolding = l.nActive + 1 + _
    omega
  · have hy' := pend_of_ne hy nofun
    refine ⟨(h.requests y t' q hy').1, ?_⟩
    by_cases hyx : y = x
    · subst hyx
      rw [update_self, isSome_some]
    · rw [update_of_ne hyx]
      exact (h.requests y t' q hy').2
  · refine (h.queue y).trans (exists_congr fun t' => ⟨fun hy => ?_, fun hy => pend_of_ne hy nofun⟩)
    have hyx : y ≠ x := by
      intro e
      rw [e, hx] at hy
      cases hy
    rwa [update_of_ne hyx]
  · rw [hheld] at hy hz
    by_cases hy' : y = x ∧ i = t
    · obtain ⟨rfl, rfl⟩ := hy'
      rw [if_neg (fun hh => hne hh.1.symm)] at hz
      rw [Ctl.Conflict, hfree z hne.symm j hj (by omega)] at hc
      cases hc.1
    · by_cases hz' : z = x ∧ j = t
      · obtain ⟨rfl, rfl⟩ := hz'
        rw [if_neg hy'] at hy
        rw [Ctl.Conflict, hfree y hne i hi (by omega)] at hc
        cases hc.2
      · rw [if_neg hy'] at hy
        rw [if_neg hz'] at hz
        exact h.exclusive y z i j hi hj hne (by omega) (by omega) hc

/-- An entry with nothing held is entered. -/
theorem enter (h : Accounted ctl l ent pend) (hx : ent x = none) :
    Accounted ctl l (update ent x (some .init)) pend := by
  have hheld : heldBy (update ent x (some .init)) = heldBy ent := by
    funext y i
    by_cases hyx : y = x
    · subst hyx
      rw [heldBy_self, heldBy, hx]
      rfl
    · exact heldBy_of_ne hyx _ i
  refine ⟨?_, fun y f hy => ?_, ?_, h.nActive, h.mask, h.holders, h.nHolding, fun y t q hy => ?_, h.queue, h.nodup, ?_⟩
  · rw [hheld]
    exact h.held_nonneg
  · by_cases hyx : y = x
    · subst hyx
      rw [update_self] at hy
      cases hy
      exact (sum_eq_zero fun _ _ => rfl).symm
    · rw [update_of_ne hyx] at hy
      exact h.entry y f hy
  · rw [hheld]
    exact h.active
  · have hold := h.requests y t q hy
    have hyx : y ≠ x := by
      intro e
      rw [e, hx] at hold
      exact absurd hold.2 (by simp)
    rwa [update_of_ne hyx]
  · rw [hheld]
    exact h.exclusive

/-- A transaction that is not waiting gives back `d i` locks of each type. -/
theorem giveBack (h : Accounted ctl l ent pend) (hx : pend x = none) (he : ent x = some e) {l' : Lock X T}
    {v : Option XidEnt} {d : Nat → Int} (hd : ∀ i ∈ ctl.types, 0 ≤ d i)
    (hv : ∀ i ∈ ctl.types, (v.getD .init).holders i = e.holders i - d i) (hpos : ∀ i, 0 ≤ (v.getD .init).holders i)
    (hsum : ∀ f, v = some f → f.nHolding = e.nHolding - ∑ i ∈ ctl.types, d i)
    (hhold : ∀ i ∈ ctl.types, l'.holders i = l.holders i - d i)
    (hact : ∀ i ∈ ctl.types, l'.activeHolders i = l.activeHolders i - d i)
    (hmask : ∀ i ∈ ctl.types, l'.mask.getLsbD i = true ↔ 0 < l'.activeHolders i)
    (hn : l'.nHolding = l.nHolding - ∑ i ∈ ctl.types, d i) (hna : l'.nActive = l.nActive - ∑ i ∈ ctl.types, d i)
    (hq : l'.waitProcs = l.waitProcs) : Accounted ctl l' (update ent x v) pend := by
  have hle (y : X) (i : Nat) (hi : i ∈ ctl.types) : heldBy (update ent x v) y i ≤ heldBy ent y i := by
    by_cases hyx : y = x
    · subst hyx
      rw [heldBy_self, hv i hi, heldBy_some he]
      have := hd i hi
      omega
    · rw [heldBy_of_ne hyx]
  refine ⟨fun y i => ?_, fun y f hy => ?_, fun i hi => ?_, ?_, hmask, fun i hi => ?_, ?_, fun y t q hy => ?_,
    fun y => ?_, ?_, fun y z i j hi hj hne hy hz => ?_⟩
  · by_cases hyx : y = x
    · subst hyx
      rw [heldBy_self]
      exact hpos i
    · rw [heldBy_of_ne hyx]
      exact h.held_nonneg y i
  · by_cases hyx : y = x
    · subst hyx
      rw [update_self] at hy
      subst hy
      rw [hsum f rfl, h.entry y e he, ← sum_sub_distrib]
      exact sum_congr rfl fun i hi => (hv i hi).symm
    · rw [update_of_ne hyx] at hy
      exact h.entry y f hy
  · rw [sum_heldBy_update, hact i hi, h.active i hi, hv i hi, heldBy_some he]
    omega
  · rw [hna, h.nActive, ← sum_sub_distrib]
    exact sum_congr rfl fun i hi => (hact i hi).symm
  · rw [hhold i hi, hact i hi, h.holders i hi]
    omega
  · rw [hn, hna, h.nHolding]
    omega
  · have hold := h.requests y t q hy
    have hyx : y ≠ x := by
      intro e
      rw [e, hx] at hy
      cases hy
    rwa [update_of_ne hyx]
  · rw [hq]
    exact h.queue y
  · rw [hq]
    exact h.nodup
  · exact h.exclusive y z i j hi hj hne (lt_of_lt_of_le hy (hle y i hi)) (lt_of_lt_of_le hz (hle z j hj))

omit [DecidableEq X] in
/-- A lock that nobody holds or requests has only entries with nothing held. -/
theorem entry_eq_zero (h : Accounted ctl l ent pend) (hn : l.nHolding = 0) (he : ent x = some e) : e.nHolding = 0 := by
  have h1 := h.nHolding_le he
  have h2 := h.entry_nonneg he
  have h3 := h.nHolding
  omega

end Accounted

/-! ### The counters of the routines -/

omit [Fintype X] [DecidableEq X] in
theorem mask_clearMask (hm : ∀ i ∈ ctl.types, i ≠ t → (l.mask.getLsbD i = true ↔ 0 < l.activeHolders i))
    (ht : t ∈ ctl.types) (hbit : 0 < l.activeHolders t → l.mask.getLsbD t = true) (hnn : 0 ≤ l.activeHolders t) :
    ∀ i ∈ ctl.types, (l.clearMask t).mask.getLsbD i = true ↔ 0 < (l.clearMask t).activeHolders i := by
  intro i hi
  rw [Lock.clearMask]
  split_ifs with h0
  · rw [getLsbD_and, getLsbD_bitsOff (Ctl.lt_of_mem_types ht) (Ctl.lt_of_mem_types hi)]
    by_cases hit : t = i
    · subst hit
      simp [h0]
    · simpa [hit] using hm i hi (Ne.symm hit)
  · by_cases hit : i = t
    · subst hit
      have hpos : 0 < l.activeHolders i := by omega
      exact ⟨fun _ => hpos, fun _ => hbit hpos⟩
    · exact hm i hi hit

section Drop
omit [Fintype X] [DecidableEq X]

theorem clearMask_fields : (l.clearMask t).tag = l.tag ∧ (l.clearMask t).waitProcs = l.waitProcs ∧
    (l.clearMask t).holders = l.holders ∧ (l.clearMask t).nHolding = l.nHolding ∧
    (l.clearMask t).activeHolders = l.activeHolders ∧ (l.clearMask t).nActive = l.nActive := by
  rw [Lock.clearMask]
  split_ifs <;> exact ⟨rfl, rfl, rfl, rfl, rfl, rfl⟩

theorem dropTypes_fields (n : Nat) : (l.dropTypes e n).tag = l.tag ∧ (l.dropTypes e n).waitProcs = l.waitProcs ∧
    (l.dropTypes e n).nHolding = l.nHolding ∧ (l.dropTypes e n).nActive = l.nActive := by
  induction n with
  | zero => exact ⟨rfl, rfl, rfl, rfl⟩
  | succ n ih =>
    obtain ⟨htag, hq, -, hn, -, hna⟩ := clearMask_fields (t := n + 1) (l := {l.dropTypes e n with
      holders := update (l.dropTypes e n).holders (n + 1) ((l.dropTypes e n).holders (n + 1) - e.holders (n + 1))
      activeHolders := update (l.dropTypes e n).activeHolders (n + 1)
        ((l.dropTypes e n).activeHolders (n + 1) - e.holders (n + 1))})
    exact ⟨htag.trans ih.1, hq.trans ih.2.1, hn.trans ih.2.2.1, hna.trans ih.2.2.2⟩

theorem dropTypes_counts (n i : Nat) :
    (l.dropTypes e n).holders i = l.holders i - (if 1 ≤ i ∧ i ≤ n then e.holders i else 0) ∧
    (l.dropTypes e n).activeHolders i = l.activeHolders i - if 1 ≤ i ∧ i ≤ n then e.holders i else 0 := by
  induction n with
  | zero =>
    rw [if_neg (by omega), Int.sub_zero, Int.sub_zero]
    exact ⟨rfl, rfl⟩
  | succ n ih =>
    rw [Lock.dropTypes, Lock.dropType, clearMask_fields.2.2.1, clearMask_fields.2.2.2.2.1]
    by_cases hi : i = n + 1
    · subst hi
      have hout : ¬ (1 ≤ n + 1 ∧ n + 1 ≤ n) := by omega
      rw [if_neg hout] at ih
      have hin : 1 ≤ n + 1 ∧ n + 1 ≤ n + 1 := by omega
      simp only [update_self, if_pos hin]
      omega
    · have hiff : (1 ≤ i ∧ i ≤ n + 1) ↔ 1 ≤ i ∧ i ≤ n := by omega
      simp only [update_of_ne hi, hiff]
      exact ih

theorem mask_dropTypes (hm : ∀ i ∈ ctl.types, l.mask.getLsbD i = true ↔ 0 < l.activeHolders i)
    (he : ∀ i ∈ ctl.types, 0 ≤ e.holders i ∧ e.holders i ≤ l.activeHolders i) {n : Nat} (hn : n ≤ ctl.nLockTypes) :
    ∀ i ∈ ctl.types, (l.dropTypes e n).mask.getLsbD i = true ↔ 0 < (l.dropTypes e n).activeHolders i := by
  induction n with
  | zero => exact hm
  | succ n ih =>
    have ht : n + 1 ∈ ctl.types := mem_Icc.mpr ⟨by omega, hn⟩
    have hold := dropTypes_counts (l := l) (e := e) n (n + 1)
    rw [if_neg (by omega), Int.sub_zero] at hold
    have hle := he (n + 1) ht
    refine mask_clearMask (fun i hi hne => ?_) ht (fun hpos => ?_) ?_
    · simp only [update_of_ne hne]
      exact ih (by omega) i hi
    · simp only [update_self] at hpos ⊢
      exact (ih (by omega) (n + 1) ht).mpr (by omega)
    · simp only [update_self]
      omega

end Drop

namespace Accounted

/-- One lock given back, as `LockRelease` does it. -/
theorem release (h : Accounted ctl l ent pend) (hx : pend x = none) (he : ent x = some e) (ht : t ∈ ctl.types)
    (hpos : 0 < e.holders t) : Accounted ctl ((l.ungrant t).clearMask t)
      (update ent x (if (e.sub t).nHolding = 0 then none else some (e.sub t))) pend := by
  have hsum : ∑ i ∈ ctl.types, (if i = t then (1 : Int) else 0) = 1 := by
    rw [sum_ite_eq' ctl.types t fun _ => (1 : Int), if_pos ht]
  have hnn (i : Nat) : 0 ≤ e.holders i := by
    rw [← heldBy_some he i]
    exact h.held_nonneg x i
  have hsub (i : Nat) : (e.sub t).holders i = e.holders i - if i = t then 1 else 0 := by
    by_cases hit : i = t
    · subst hit
      simp [XidEnt.sub]
    · simp [XidEnt.sub, hit]
  have hsub_nn (i : Nat) : 0 ≤ (e.sub t).holders i := by
    rw [hsub]
    have := hnn i
    split_ifs with hit
    · subst hit
      omega
    · omega
  have hzero (hz : (e.sub t).nHolding = 0) (i : Nat) (hi : i ∈ ctl.types) : (e.sub t).holders i = 0 := by
    refine (sum_eq_zero_iff_of_nonneg fun i _ => hsub_nn i).mp ?_ i hi
    simp only [hsub, sum_sub_distrib, hsum, ← h.entry x e he]
    exact hz
  obtain ⟨-, hq, hho, hn, hac, hna⟩ := clearMask_fields (l := l.ungrant t) (t := t)
  have hact (i : Nat) : (l.ungrant t).activeHolders i = l.activeHolders i - if i = t then 1 else 0 := by
    by_cases hit : i = t
    · subst hit
      simp [Lock.ungrant]
    · simp [Lock.ungrant, hit]
  refine h.giveBack hx he (d := fun i => if i = t then 1 else 0) (fun i _ => ?_) (fun i hi => ?_) (fun i => ?_)
    (fun f hf => ?_) (fun i _ => ?_) (fun i _ => ?_) ?_ ?_ ?_ ?_
  · split_ifs <;> omega
  · by_cases hz : (e.sub t).nHolding = 0
    · rw [if_pos hz]
      exact (hzero hz i hi).symm.trans (hsub i)
    · rw [if_neg hz]
      exact hsub i
  · by_cases hz : (e.sub t).nHolding = 0
    · rw [if_pos hz]
      exact le_refl 0
    · rw [if_neg hz]
      exact hsub_nn i
  · split_ifs at hf with hz
    cases hf
    rw [hsum]
    rfl
  · rw [hho]
    by_cases hit : i = t
    · subst hit
      simp [Lock.ungrant, Lock.unrequest]
    · simp [Lock.ungrant, Lock.unrequest, hit]
  · rw [hac]
    exact hact i
  · have hle := h.held_le ht x
    rw [heldBy_some he] at hle
    refine mask_clearMask (fun i hi hne => ?_) ht (fun hp => ?_) ?_
    · rw [hact, if_neg hne, Int.sub_zero]
      exact h.mask i hi
    · rw [hact, if_pos rfl] at hp
      exact (h.mask t ht).mpr (by omega)
    · rw [hact, if_pos rfl]
      omega
  · rw [hn, hsum]
    rfl
  · rw [hna, hsum]
    rfl
  · rw [hq]
    rfl

/-- All locks of a transaction given back, as `LockReleaseAll` does it. -/
theorem releaseAll (h : Accounted ctl l ent pend) (hx : pend x = none) (he : ent x = some e) :
    Accounted ctl (Lock.dropTypes {l with nHolding := l.nHolding - e.nHolding, nActive := l.nActive - e.nHolding} e
      ctl.nLockTypes) (update ent x none) pend := by
  have hnn (i : Nat) : 0 ≤ e.holders i := by
    rw [← heldBy_some he i]
    exact h.held_nonneg x i
  have hle (i : Nat) (hi : i ∈ ctl.types) : e.holders i ≤ l.activeHolders i := by
    rw [← heldBy_some he i]
    exact h.held_le hi x
  obtain ⟨-, hq, hn, hna⟩ := dropTypes_fields (e := e) ctl.nLockTypes
    (l := {l with nHolding := l.nHolding - e.nHolding, nActive := l.nActive - e.nHolding})
  have hcount (i : Nat) (hi : i ∈ ctl.types) := dropTypes_counts (e := e) ctl.nLockTypes i
    (l := {l with nHolding := l.nHolding - e.nHolding, nActive := l.nActive - e.nHolding})
  refine h.giveBack hx he (d := e.holders) (fun i _ => hnn i) (fun i _ => (Int.sub_self _).symm) (fun _ => le_refl 0)
    nofun (fun i hi => ?_) (fun i hi => ?_) ?_ ?_ ?_ hq
  · rw [(hcount i hi).1, if_pos (mem_Icc.mp hi)]
  · rw [(hcount i hi).2, if_pos (mem_Icc.mp hi)]
  · exact mask_dropTypes (l := {l with nHolding := l.nHolding - e.nHolding, nActive := l.nActive - e.nHolding}) h.mask
      (fun i hi => ⟨hnn i, hle i hi⟩) (le_refl _)
  · rw [hn, h.entry x e he]
  · rw [hna, h.entry x e he]

end Accounted

end Books

end PgStorage.Lmgr
