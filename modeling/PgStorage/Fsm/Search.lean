import PgStorage.Fsm.Fsmpage

/-! The search on a page of the free space map.

The first loop stands, on each level, at the node that begins where the slots known to be too small end, or, once it has
wrapped around, at the first node of its level. The second loop finds the first leaf below that is large enough. On a
page whose inner nodes are wrong it may get stuck, and does not after the page has been rebuilt. -/
namespace PgStorage.Fsm
open MaxTree Nat
open List (range')

/-- The number of levels of inner nodes. -/
def height : Nat := 12

theorem nonLeaf_eq : nonLeafNodesPerPage = 2 ^ height - 1 := rfl

def FSMPage.MaxTree (p : FSMPage) : Prop := IsMaxTree p.fpNodes nonLeafNodesPerPage nodesPerPage

section
variable {p : FSMPage} {l j k t minvalue x nodeno : Nat}

/-- Moving right on a level, with wrap around, and up. -/
theorem parentof_rightneighbor (hl : 1 ≤ l) (hj : j < 2 ^ l) :
    parentof (rightneighbor (node l j)) = node (l - 1) ((j + 1) % 2 ^ l / 2) := by
  obtain ⟨k, rfl⟩ : ∃ k, l = k + 1 := ⟨l - 1, by omega⟩
  have hpos := Nat.two_pow_pos k
  have hsucc : 2 ^ (k + 1) = 2 * 2 ^ k := by rw [Nat.pow_succ, Nat.mul_comm]
  have hsucc2 : 2 ^ (k + 1 + 1) = 2 * 2 ^ (k + 1) := by rw [Nat.pow_succ, Nat.mul_comm]
  have hx : node (k + 1) j + 1 = 2 ^ (k + 1) + j := by
    unfold node
    omega
  have hpower : ((2 ^ (k + 1) + j + 1) &&& (2 ^ (k + 1) + j)) = 0 ↔ j + 1 = 2 ^ (k + 1) := by
    have hiff := Nat.and_sub_one_eq_zero_iff_isPowerOfTwo (n := 2 ^ (k + 1) + j + 1) (by omega)
    rw [Nat.add_sub_cancel] at hiff
    rw [hiff]
    constructor
    · rintro ⟨e, he⟩
      have h1 : k + 1 < e := (Nat.pow_lt_pow_iff_right (a := 2) (by decide)).mp (by omega)
      have h2 : e < k + 1 + 2 := (Nat.pow_lt_pow_iff_right (a := 2) (by decide)).mp (by
        rw [show k + 1 + 2 = k + 1 + 1 + 1 from rfl, Nat.pow_succ, hsucc2]
        omega)
      obtain rfl : e = k + 1 + 1 := by omega
      omega
    · intro he
      exact ⟨k + 1 + 1, by omega⟩
  unfold rightneighbor
  dsimp only
  rw [hx, Nat.add_sub_cancel]
  by_cases hlast : j + 1 = 2 ^ (k + 1)
  · rw [if_pos (hpower.mpr hlast), hlast, mod_self]
    unfold parentof node
    omega
  · rw [if_neg fun h => hlast (hpower.mp h), mod_eq_of_lt (by omega)]
    unfold parentof node
    omega

theorem node?_of_lt (h : x < nodesPerPage) : p.node? x = some (p.fpNodes x) := if_pos h

theorem valueAt_of_lt (h : x < nodesPerPage) : valueAt p.fpNodes nodesPerPage x = p.fpNodes x := if_pos h

/-- A slot is large enough. -/
def FSMPage.Suits (p : FSMPage) (minvalue t : Nat) : Prop := t < leafNodesPerPage ∧ minvalue ≤ p.avail t

theorem suits_iff (hmin : 1 ≤ minvalue) : p.Suits minvalue t ↔
    minvalue ≤ valueAt p.fpNodes nodesPerPage (node height t) := by
  have hnode : node height t = nonLeafNodesPerPage + t := rfl
  unfold FSMPage.Suits FSMPage.avail valueAt
  rw [hnode]
  unfold leafNodesPerPage
  split_ifs with h
  · exact ⟨fun hs => hs.2, fun hs => ⟨by omega, hs⟩⟩
  · exact ⟨fun hs => absurd hs.1 (by omega), fun hs => absurd hs (by omega)⟩

/-- No slot below a node suits if the node does not. -/
theorem FSMPage.MaxTree.not_suits (hp : p.MaxTree) (hmin : 1 ≤ minvalue) (hk : l + k = height) (hj : j < 2 ^ l)
    (hsmall : valueAt p.fpNodes nodesPerPage (node l j) < minvalue) (hlow : j * 2 ^ k ≤ t)
    (hhigh : t < (j + 1) * 2 ^ k) : ¬p.Suits minvalue t := by
  rw [suits_iff hmin]
  have := IsMaxTree.leaf_le (h := height) hp (by decide) k hk hj hlow hhigh
  omega

/-- The second loop finds the first slot below a node that is large enough. -/
theorem FSMPage.MaxTree.descend (hp : p.MaxTree) (hmin : 1 ≤ minvalue) (k : Nat) (hk : l + k = height) (hj : j < 2 ^ l)
    (hbig : minvalue ≤ valueAt p.fpNodes nodesPerPage (node l j)) :
    ∃ t, Fsm.descend p minvalue (node l j) = some (nonLeafNodesPerPage + t) ∧ p.Suits minvalue t ∧ j * 2 ^ k ≤ t ∧
      t < (j + 1) * 2 ^ k ∧ ∀ s, j * 2 ^ k ≤ s → s < t → ¬p.Suits minvalue s := by
  induction k generalizing l j with
  | zero =>
    rw [Nat.add_zero] at hk
    subst hk
    refine ⟨j, ?_, (suits_iff hmin).mpr hbig, by omega, by omega, fun s h1 h2 => by omega⟩
    rw [Fsm.descend, dif_neg (show ¬node height j < nonLeafNodesPerPage from by
      rw [nonLeaf_eq]
      exact not_lt.mpr (le_add_right _ _))]
    rfl
  | succ k ih =>
    have hpow : 2 ^ (k + 1) = 2 ^ k + 2 ^ k := by rw [Nat.pow_succ, Nat.mul_two]
    have hjl : 2 ^ (l + 1) = 2 * 2 ^ l := by rw [Nat.pow_succ, Nat.mul_comm]
    have hlow : j * 2 ^ (k + 1) = 2 * j * 2 ^ k := by
      rw [hpow, ← Nat.mul_two, Nat.mul_comm (2 ^ k), ← Nat.mul_assoc, Nat.mul_comm j]
    have hhigh : (j + 1) * 2 ^ (k + 1) = (2 * j + 1 + 1) * 2 ^ k := by
      rw [Nat.add_mul, hlow, Nat.add_assoc, Nat.add_mul, hpow]
      omega
    have hmid : (2 * j + 1) * 2 ^ k = 2 * j * 2 ^ k + 2 ^ k := by rw [Nat.add_mul, Nat.one_mul]
    have hmid2 : (2 * j + 1 + 1) * 2 ^ k = 2 * j * 2 ^ k + 2 ^ k + 2 ^ k := by rw [Nat.add_mul, hmid, Nat.one_mul]
    have hinner : node l j < nonLeafNodesPerPage := node_lt_inner (h := height) (by omega) hj
    have hmax := IsMaxTree.node_eq (h := height) hp (by decide) (by omega) hj
    have hval (x : Nat) :
        (x < nodesPerPage ∧ minvalue ≤ p.fpNodes x) ↔ minvalue ≤ valueAt p.fpNodes nodesPerPage x := by
      unfold valueAt
      split_ifs with h
      · exact ⟨fun hs => hs.2, fun hs => ⟨h, hs⟩⟩
      · exact ⟨fun hs => absurd hs.1 h, fun hs => absurd hs (by omega)⟩
    rw [Fsm.descend, dif_pos hinner]
    dsimp only
    unfold leftchild
    rw [left_node, show node (l + 1) (2 * j) + 1 = node (l + 1) (2 * j + 1) from rfl]
    simp only [hval]
    rw [hlow, hhigh, hmid2]
    by_cases hleft : minvalue ≤ valueAt p.fpNodes nodesPerPage (node (l + 1) (2 * j))
    · rw [if_pos hleft]
      obtain ⟨t, h1, h2, h3, h4, h5⟩ := ih (l := l + 1) (j := 2 * j) (by omega) (by omega) hleft
      rw [hmid] at h4
      exact ⟨t, h1, h2, h3, by omega, h5⟩
    · have hright : minvalue ≤ valueAt p.fpNodes nodesPerPage (node (l + 1) (2 * j + 1)) := by
        rw [hmax] at hbig
        omega
      rw [if_neg hleft, if_pos hright]
      obtain ⟨t, h1, h2, h3, h4, h5⟩ := ih (l := l + 1) (j := 2 * j + 1) (by omega) (by omega) hright
      refine ⟨t, h1, h2, by omega, by omega, fun s hs hst => ?_⟩
      rcases lt_or_ge s ((2 * j + 1) * 2 ^ k) with hlt | hge
      · exact hp.not_suits (l := l + 1) (j := 2 * j) hmin (by omega) (by omega) (by omega) hs hlt
      · exact h5 s hge hst

/-- Node `j` of the level that is `k` above the leaves, with the slots from `start` on before it known to be too small;
or the loop has wrapped. -/
def Climbing (p : FSMPage) (minvalue start j k : Nat) : Prop :=
  (start ≤ j * 2 ^ k ∧ ∀ t, start ≤ t → t < j * 2 ^ k → ¬p.Suits minvalue t) ∨
    (j = 0 ∧ ∀ t, start ≤ t → ¬p.Suits minvalue t)

/-- One step keeps the invariant. -/
theorem Climbing.step {start : Nat} (h : Climbing p minvalue start j k) (hp : p.MaxTree) (hmin : 1 ≤ minvalue)
    (hk : l + 1 + k = height) (hj : j < 2 ^ (l + 1))
    (hsmall : valueAt p.fpNodes nodesPerPage (node (l + 1) j) < minvalue) :
    Climbing p minvalue start ((j + 1) % 2 ^ (l + 1) / 2) (k + 1) := by
  have hbelow := fun t => hp.not_suits (t := t) hmin hk hj hsmall
  have hpos := Nat.two_pow_pos k
  have htwo : 2 ^ (k + 1) = 2 * 2 ^ k := by rw [Nat.pow_succ, Nat.mul_comm]
  rcases h with ⟨hstart, hclear⟩ | ⟨rfl, hclear⟩
  · have hall (t : Nat) (hst : start ≤ t) (htj : t < (j + 1) * 2 ^ k) : ¬p.Suits minvalue t := by
      rcases lt_or_ge t (j * 2 ^ k) with hlt | hge
      · exact hclear t hst hlt
      · exact hbelow t hge htj
    by_cases hlast : j + 1 = 2 ^ (l + 1)
    · refine .inr ⟨by rw [hlast, mod_self], fun t hst => ?_⟩
      by_cases hin : t < leafNodesPerPage
      · refine hall t hst ?_
        have : (j + 1) * 2 ^ k = 2 ^ height := by rw [hlast, ← Nat.pow_add, hk]
        rw [this]
        exact lt_trans hin (by decide)
      · exact fun hs => hin hs.1
    · rw [mod_eq_of_lt (by omega)]
      refine .inl ?_
      rcases Nat.mod_two_eq_zero_or_one j with heven | hodd
      · have hbegin : (j + 1) / 2 * 2 ^ (k + 1) = j * 2 ^ k := by
          rw [htwo, ← Nat.mul_assoc]
          congr 1
          omega
        rw [hbegin]
        exact ⟨hstart, hclear⟩
      · have hbegin : (j + 1) / 2 * 2 ^ (k + 1) = (j + 1) * 2 ^ k := by
          rw [htwo, ← Nat.mul_assoc]
          congr 1
          omega
        rw [hbegin]
        refine ⟨Nat.le_trans hstart (Nat.mul_le_mul_right _ (Nat.le_succ j)), hall⟩
  · refine .inr ⟨?_, hclear⟩
    have := Nat.two_pow_pos l
    rw [Nat.mod_eq_of_lt (by rw [Nat.pow_succ]; omega)]

/-- The first loop reads no node that is absent, and stops at a node of some level with enough space. -/
theorem climb_stops (p : FSMPage) (minvalue : Nat) (hroot : minvalue ≤ p.fpNodes 0) (hl : l ≤ height) (hj : j < 2 ^ l)
    (hin : node l j < nodesPerPage) : ∃ l' j', climb p minvalue (node l j) = some (node l' j') ∧ l' ≤ l ∧ j' < 2 ^ l' ∧
      node l' j' < nodesPerPage ∧ minvalue ≤ p.fpNodes (node l' j') ∧
      (p.MaxTree → 1 ≤ minvalue → ∀ start, Climbing p minvalue start j (height - l) →
        Climbing p minvalue start j' (height - l')) := by
  induction l generalizing j with
  | zero =>
    obtain rfl : j = 0 := by omega
    refine ⟨0, 0, ?_, le_refl _, by decide, hin, hroot, fun _ _ _ h => h⟩
    rw [climb]
    exact dif_neg (by decide)
  | succ l ih =>
    have hpos : 0 < node (l + 1) j := by
      have := Nat.two_pow_pos l
      unfold node
      rw [Nat.pow_succ]
      omega
    rw [climb, dif_pos hpos, node?_of_lt hin]
    dsimp only
    by_cases hbig : minvalue ≤ p.fpNodes (node (l + 1) j)
    · rw [if_pos hbig]
      exact ⟨l + 1, j, rfl, Nat.le_refl _, hj, hin, hbig, fun _ _ _ h => h⟩
    · have hsucc : 2 ^ (l + 1) = 2 * 2 ^ l := by rw [Nat.pow_succ, Nat.mul_comm]
      have hmod := Nat.mod_lt (j + 1) (Nat.two_pow_pos (l + 1))
      have hj' : (j + 1) % 2 ^ (l + 1) / 2 < 2 ^ l := by omega
      have hin' : node l ((j + 1) % 2 ^ (l + 1) / 2) < nodesPerPage :=
        Nat.lt_trans (node_lt_inner (h := height) (by omega) hj') (by decide)
      rw [if_neg hbig, parentof_rightneighbor (show 1 ≤ l + 1 by omega) hj, Nat.add_sub_cancel]
      obtain ⟨l', j', h1, h2, h3, h4, h5, h6⟩ := ih (by omega) hj' hin'
      refine ⟨l', j', h1, by omega, h3, h4, h5, fun hp hmin start hc => h6 hp hmin start ?_⟩
      have hstep := hc.step hp hmin (by omega) hj (by rw [valueAt_of_lt hin]; omega)
      rw [show height - (l + 1) + 1 = height - l by omega] at hstep
      exact hstep

/-- How far a slot is behind the start, with wrap around. -/
def ahead (start t : Nat) : Nat := (t + leafNodesPerPage - start) % leafNodesPerPage

/-- The slot suits, and no one before it does. -/
structure FSMPage.First (p : FSMPage) (minvalue slot : Nat) : Prop where
  suits : p.Suits minvalue slot
  first : ∀ t, p.Suits minvalue t → ahead p.target slot ≤ ahead p.target t

theorem target_lt (p : FSMPage) : p.target < leafNodesPerPage := by
  unfold FSMPage.target
  split_ifs
  · decide
  · omega

theorem ahead_eq {start : Nat} (hs : start < leafNodesPerPage) (ht : t < leafNodesPerPage) :
    ahead start t = if start ≤ t then t - start else t + leafNodesPerPage - start := by
  unfold ahead
  split_ifs
  · rw [show t + leafNodesPerPage - start = t - start + leafNodesPerPage by omega, add_mod_right,
      mod_eq_of_lt (by omega)]
  · exact mod_eq_of_lt (by omega)

/-- The first slot below the node where the first loop stops is the first one of all. -/
theorem Climbing.first {r : Nat} (h : Climbing p minvalue p.target j k) (hr : p.Suits minvalue r)
    (hlow : j * 2 ^ k ≤ r)
    (hclear : ∀ s, j * 2 ^ k ≤ s → s < r → ¬p.Suits minvalue s) : p.First minvalue r := by
  refine ⟨hr, fun t ht => ?_⟩
  have hstart := target_lt p
  have hbefore : j * 2 ^ k ≤ t → r ≤ t := fun hle => Nat.le_of_not_lt fun hlt => hclear t hle hlt ht
  rw [ahead_eq hstart hr.1, ahead_eq hstart ht.1]
  have htl := ht.1
  have hrl := hr.1
  rcases h with ⟨hle, hnone⟩ | ⟨rfl, hnone⟩
  · have hnot : ¬(p.target ≤ t ∧ t < j * 2 ^ k) := fun hc => hnone t hc.1 hc.2 ht
    split_ifs <;> omega
  · have h1 : ¬p.target ≤ r := fun hc => hnone r hc hr
    have h2 : ¬p.target ≤ t := fun hc => hnone t hc ht
    rw [Nat.zero_mul] at hbefore
    split_ifs
    have := hbefore (zero_le t)
    omega

/-- The first loop from the target. -/
theorem climb_target (p : FSMPage) (minvalue : Nat) (hroot : minvalue ≤ p.fpNodes 0) :
    ∃ l j, climb p minvalue (p.target + nonLeafNodesPerPage) = some (node l j) ∧ l ≤ height ∧ j < 2 ^ l ∧
      node l j < nodesPerPage ∧ minvalue ≤ p.fpNodes (node l j) ∧
      (p.MaxTree → 1 ≤ minvalue → Climbing p minvalue p.target j (height - l)) := by
  have hstart := target_lt p
  have hnode : p.target + nonLeafNodesPerPage = node height p.target := Nat.add_comm _ _
  have hpages : nonLeafNodesPerPage + leafNodesPerPage = nodesPerPage := by decide
  obtain ⟨l, j, h1, h2, h3, h4, h5, h6⟩ := climb_stops p minvalue hroot (le_refl height)
    (lt_trans hstart (by decide)) (by rw [← hnode]; omega)
  rw [hnode]
  refine ⟨l, j, h1, h2, h3, h4, h5, fun hp hmin => h6 hp hmin p.target (.inl ⟨?_, fun t hle hlt => ?_⟩)⟩
  · rw [Nat.sub_self, Nat.pow_zero, Nat.mul_one]
  · rw [Nat.sub_self, Nat.pow_zero, Nat.mul_one] at hlt
    omega

/-- What is asked of a search: -1 if no slot suits, otherwise the first one that does. -/
def FSMPage.Answers (p : FSMPage) (minvalue : Nat) (res : Int) : Prop :=
  (res = -1 ↔ ∀ t < leafNodesPerPage, p.avail t < minvalue) ∧
    (res ≠ -1 → ∃ slot : Nat, res = slot ∧ p.First minvalue slot)

theorem answers_slot {slot : Nat} (h : p.First minvalue slot) : p.Answers minvalue slot := by
  refine ⟨⟨fun hc => by omega, fun hall => ?_⟩, fun _ => ⟨slot, rfl, h⟩⟩
  have := hall slot h.suits.1
  exact absurd h.suits.2 (by omega)

/-- A page with a tree of maxima is searched without a restart. -/
theorem search_of_maxTree (hp : p.MaxTree) (hmin : 1 ≤ minvalue) (restarts : Nat) (advancenext : Bool) :
    ∃ res q, fsmSearchAvail restarts p minvalue advancenext = some (res, q) ∧ p.Answers minvalue res := by
  unfold fsmSearchAvail
  by_cases hroot : p.fpNodes 0 < minvalue
  · rw [if_pos hroot]
    refine ⟨-1, p, rfl, ⟨fun _ t ht => ?_, fun _ => rfl⟩, fun h => absurd rfl h⟩
    have hnot := hp.not_suits (l := 0) (j := 0) (k := height) (t := t) hmin (Nat.zero_add _) (by decide)
      (by rw [valueAt_of_lt (by decide)]; exact hroot) (by omega) (Nat.lt_trans ht (by decide))
    exact Nat.lt_of_not_le fun hle => hnot ⟨ht, hle⟩
  · rw [if_neg hroot]
    obtain ⟨l, j, h1, h2, h3, h4, h5, h6⟩ := climb_target p minvalue (Nat.le_of_not_lt hroot)
    obtain ⟨t, hd, hs, hlow, -, hclear⟩ := hp.descend hmin (height - l) (by omega) h3
      (by rw [valueAt_of_lt h4]; exact h5)
    rw [h1]
    dsimp only
    rw [hd]
    dsimp only
    rw [Nat.add_sub_cancel_left]
    exact ⟨_, _, rfl, answers_slot ((h6 hp hmin).first hs hlow hclear)⟩

/-! ### Pages with wrong inner nodes -/

/-- What the second loop arrives at is a leaf with enough space, on any page. -/
theorem descend_suits (p : FSMPage) (minvalue nodeno leaf : Nat) (hin : nodeno < nodesPerPage)
    (hbig : minvalue ≤ p.fpNodes nodeno) (h : descend p minvalue nodeno = some leaf) :
    ∃ slot, leaf = nonLeafNodesPerPage + slot ∧ p.Suits minvalue slot := by
  fun_induction descend p minvalue nodeno with
  | case1 nodeno hlt child hc ih => exact ih hc.1 hc.2 h
  | case2 nodeno hlt child _ hc ih => exact ih hc.1 hc.2 h
  | case3 => cases h
  | case4 nodeno hge =>
    obtain rfl := Option.some_inj.mp h
    have hadd : nonLeafNodesPerPage + (nodeno - nonLeafNodesPerPage) = nodeno := by omega
    refine ⟨nodeno - nonLeafNodesPerPage, hadd.symm, ?_, ?_⟩
    · have hpages : nonLeafNodesPerPage + leafNodesPerPage = nodesPerPage := by decide
      omega
    · rw [FSMPage.avail, hadd]
      exact hbig

/-- Rebuilding from an index on leaves the other nodes alone and makes each node the larger of its children. -/
theorem rebuild_from (nodes : Nat → Nat) (n k : Nat) :
    (∀ x, x < k ∨ k + n ≤ x → (range' k n).foldr rebuildNode nodes x = nodes x) ∧
    ∀ x, k ≤ x → x < k + n → (range' k n).foldr rebuildNode nodes x =
      max (valueAt ((range' k n).foldr rebuildNode nodes) nodesPerPage (2 * x + 1))
        (valueAt ((range' k n).foldr rebuildNode nodes) nodesPerPage (2 * x + 2)) := by
  induction n generalizing k with
  | zero => exact ⟨fun _ _ => rfl, fun x h1 h2 => by omega⟩
  | succ n ih =>
    obtain ⟨hother, hmax⟩ := ih (k + 1)
    rw [List.range'_succ, List.foldr_cons]
    generalize (range' (k + 1) n).foldr rebuildNode nodes = v at hother hmax
    have hne (x : Nat) (hx : x ≠ k) : rebuildNode k v x = v x := Function.update_of_ne hx _ _
    have hval (x : Nat) (hx : k < x) : valueAt (rebuildNode k v) nodesPerPage x = valueAt v nodesPerPage x := by
      unfold valueAt
      rw [hne x (by omega)]
    refine ⟨fun x hx => ?_, fun x h1 h2 => ?_⟩
    · rw [hne x (by omega)]
      exact hother x (by omega)
    · rw [hval _ (by omega), hval _ (by omega)]
      by_cases hxk : x = k
      · rw [hxk]
        unfold rebuildNode valueAt leftchild
        rw [Function.update_self]
        split_ifs <;> first | rfl | exact (Nat.max_zero _).symm
      · rw [hne x hxk]
        exact hmax x (by omega) (by omega)

/-- A page that has been rebuilt has a tree of maxima over the same slots. -/
theorem fsmRebuildPage_maxTree (p : FSMPage) : (fsmRebuildPage p).MaxTree ∧ (fsmRebuildPage p).avail = p.avail := by
  obtain ⟨hother, hmax⟩ := rebuild_from p.fpNodes nonLeafNodesPerPage 0
  have hnodes : (fsmRebuildPage p).fpNodes = (range' 0 nonLeafNodesPerPage).foldr rebuildNode p.fpNodes := by
    unfold fsmRebuildPage
    rw [List.range_eq_range']
  refine ⟨?_, funext fun t => ?_⟩
  · intro x hx
    rw [hnodes]
    exact hmax x (zero_le x) (by omega)
  · rw [FSMPage.avail, hnodes]
    exact hother _ (.inr (by omega))

/-- On any page a search ends after at most one rebuild, at a slot that suits if it finds one. -/
theorem search_of_any (p : FSMPage) (minvalue : Nat) (advancenext : Bool) (hmin : 1 ≤ minvalue) (restarts : Nat) :
    ∃ res q, fsmSearchAvail (restarts + 1) p minvalue advancenext = some (res, q) ∧
      (res = -1 ∨ ∃ slot : Nat, res = slot ∧ p.Suits minvalue slot) := by
  unfold fsmSearchAvail
  by_cases hroot : p.fpNodes 0 < minvalue
  · rw [if_pos hroot]
    exact ⟨-1, p, rfl, .inl rfl⟩
  · rw [if_neg hroot]
    obtain ⟨l, j, h1, -, -, h4, h5, -⟩ := climb_target p minvalue (Nat.le_of_not_lt hroot)
    rw [h1]
    dsimp only
    cases hd : descend p minvalue (node l j) with
    | some leaf =>
      obtain ⟨slot, rfl, hs⟩ := descend_suits p minvalue _ _ h4 h5 hd
      dsimp only
      rw [Nat.add_sub_cancel_left]
      exact ⟨_, _, rfl, .inr ⟨slot, rfl, hs⟩⟩
    | none =>
      obtain ⟨hmax, havail⟩ := fsmRebuildPage_maxTree p
      obtain ⟨res, q, hres, hans⟩ := search_of_maxTree hmax hmin restarts advancenext
      refine ⟨res, q, hres, ?_⟩
      by_cases hneg : res = -1
      · exact .inl hneg
      · obtain ⟨slot, hslot, hfirst⟩ := hans.2 hneg
        refine .inr ⟨slot, hslot, hfirst.suits.1, ?_⟩
        rw [← havail]
        exact hfirst.suits.2

/-- What one round of a search may come to. -/
theorem fsmSearchAvail_cases {restarts : Nat} {p q : FSMPage} {advancenext : Bool} {res : Int}
    (h : fsmSearchAvail restarts p minvalue advancenext = some (res, q)) :
    (res = -1 ∧ q = p) ∨ (∃ slot : Nat, res = slot ∧ p.Suits minvalue slot ∧ q.fpNodes = p.fpNodes) ∨
      ∃ n, restarts = n + 1 ∧ fsmSearchAvail n (fsmRebuildPage p) minvalue advancenext = some (res, q) := by
  unfold fsmSearchAvail at h
  by_cases hroot : p.fpNodes 0 < minvalue
  · rw [if_pos hroot] at h
    cases h
    exact .inl ⟨rfl, rfl⟩
  · rw [if_neg hroot] at h
    obtain ⟨l, j, h1, -, -, h4, h5, -⟩ := climb_target p minvalue (Nat.le_of_not_lt hroot)
    rw [h1] at h
    dsimp only at h
    cases hd : descend p minvalue (node l j) with
    | some leaf =>
      obtain ⟨slot, rfl, hs⟩ := descend_suits p minvalue _ _ h4 h5 hd
      rw [hd] at h
      dsimp only at h
      rw [Nat.add_sub_cancel_left] at h
      cases h
      exact .inr (.inl ⟨slot, rfl, hs, rfl⟩)
    | none =>
      rw [hd] at h
      cases restarts with
      | zero => cases h
      | succ n => exact .inr (.inr ⟨n, rfl, h⟩)

/-- Whatever it has to rebuild, a search leaves the slots alone, and what it finds suits. -/
theorem fsmSearchAvail_keeps (restarts : Nat) (p : FSMPage) {advancenext : Bool} {res : Int} {q : FSMPage}
    (h : fsmSearchAvail restarts p minvalue advancenext = some (res, q)) :
    q.avail = p.avail ∧ (res ≠ -1 → ∃ slot : Nat, res = slot ∧ p.Suits minvalue slot) := by
  induction restarts generalizing p with
  | zero =>
    obtain ⟨rfl, rfl⟩ | ⟨slot, hres, hs, hq⟩ | ⟨n, hn, -⟩ := fsmSearchAvail_cases h
    · exact ⟨rfl, fun hne => absurd rfl hne⟩
    · exact ⟨funext fun t => congrFun hq _, fun _ => ⟨slot, hres, hs⟩⟩
    · cases hn
  | succ restarts ih =>
    obtain ⟨rfl, rfl⟩ | ⟨slot, hres, hs, hq⟩ | ⟨n, hn, hnext⟩ := fsmSearchAvail_cases h
    · exact ⟨rfl, fun hne => absurd rfl hne⟩
    · exact ⟨funext fun t => congrFun hq _, fun _ => ⟨slot, hres, hs⟩⟩
    · obtain rfl := succ_inj.mp hn
      obtain ⟨-, havail⟩ := fsmRebuildPage_maxTree p
      obtain ⟨hq, hslot⟩ := ih _ hnext
      refine ⟨hq.trans havail, fun hne => ?_⟩
      obtain ⟨slot, hres, hs⟩ := hslot hne
      unfold FSMPage.Suits at hs ⊢
      rw [havail] at hs
      exact ⟨slot, hres, hs⟩

end

end PgStorage.Fsm
