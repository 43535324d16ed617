import PgStorage.Fsm.Truncate
import PgStorage.Fsm.Update

/-! Vacuum of the free space map.

A page is stored before those below it, which follow without a gap: what is done below one slot of a page leaves the
pages below its other slots alone. -/
namespace PgStorage.Fsm
open MaxTree
open Function List Nat

variable {addr : FSMAddress} {level no k t lo hi lo' hi' : Nat}

/-- The block of a page. -/
abbrev place (level no : Nat) : Nat := fsmLogicalToPhysical ⟨level, no⟩

/-- The number of pages that a page and those below it take. -/
def subtree : Nat → Nat
  | 0 => 1
  | level + 1 => slotsPerFSMPage * subtree level + 1

theorem place_child (hv : FSMAddress.Valid ⟨level + 1, no⟩) (ht : t < slotsPerFSMPage) :
    place level (no * slotsPerFSMPage + t) = place (level + 1) no + 1 + t * subtree level := by
  have hc := child_valid hv (succ_ne_zero _) ht
  obtain _ | _ | level := level
  · have h1 := physical_middle hv.logpageno_lt
    have h2 := physical_bottom hc.logpageno_lt
    rw [subtree]
    simp only [place, fsmGetChild, slots_eq, Nat.zero_add] at *
    omega
  · have hno : no < 1 := hv.logpageno_lt
    have h1 := physical_root hno
    have h2 := physical_middle hc.logpageno_lt
    rw [subtree, subtree]
    simp only [place, fsmGetChild, slots_eq, reduceAdd] at *
    omega
  · exact absurd hv.level_le (by simp [fsmRootLevel])

/-- The last page below a slot is below the page. -/
theorem subtree_lt (level : Nat) (ht : t < k) (hk : k ≤ slotsPerFSMPage) :
    0 < subtree level ∧ t * subtree level + subtree level ≤ k * subtree level ∧
      k * subtree level < subtree (level + 1) := by
  refine ⟨by cases level <;> exact succ_pos _, ?_, lt_succ_of_le (Nat.mul_le_mul_right _ hk)⟩
  rw [← succ_mul]
  exact Nat.mul_le_mul_right _ ht

namespace FsmFork
variable {f g h : FsmFork} {s : Bool × FsmFork} {r : Nat × Bool × FsmFork} {minCat : Nat}

/-- What a page has at its root, 0 if there is no such page. -/
def rootOf (f : FsmFork) (addr : FSMAddress) : Nat :=
  if fsmLogicalToPhysical addr < f.nblocks then (f.page (fsmLogicalToPhysical addr)).fpNodes 0 else 0

/-- Only the trees of the pages from `lo` up to `hi` may have changed. -/
structure Kept (f : FsmFork) (lo hi : Nat) (g : FsmFork) : Prop where
  nblocks : g.nblocks = f.nblocks
  consistent : g.Consistent
  outside : ∀ i, i < lo ∨ hi ≤ i → (g.page i).fpNodes = (f.page i).fpNodes

theorem Kept.trans (hfg : f.Kept lo hi g) (hgh : g.Kept lo' hi' h) (hlo : lo ≤ lo') (hhi : hi' ≤ hi) :
    f.Kept lo hi h where
  nblocks := hgh.nblocks.trans hfg.nblocks
  consistent := hgh.consistent
  outside i _ := (hgh.outside i (by omega)).trans (hfg.outside i (by omega))

theorem Kept.rootOf (hk : f.Kept lo hi g) (hout : place level no < lo ∨ hi ≤ place level no) :
    g.rootOf ⟨level, no⟩ = f.rootOf ⟨level, no⟩ := by
  rw [FsmFork.rootOf, hk.nblocks, hk.outside _ hout, FsmFork.rootOf]

theorem Kept.slotOf (hk : f.Kept lo hi g) (hout : place level no < lo ∨ hi ≤ place level no) (t : Nat) :
    g.slotOf ⟨level, no⟩ t = f.slotOf ⟨level, no⟩ t := by
  rw [FsmFork.slotOf, FSMPage.avail, hk.nblocks, hk.outside _ hout, FsmFork.slotOf, FSMPage.avail]

/-- From a page on down, each slot has what its page has at the root. -/
def Settled (f : FsmFork) : (level logpageno : Nat) → Prop
  | 0, _ => True
  | level + 1, no => place (level + 1) no < f.nblocks → ∀ t < slotsPerFSMPage,
      f.slotOf ⟨level + 1, no⟩ t = f.rootOf ⟨level, no * slotsPerFSMPage + t⟩ ∧
        f.Settled level (no * slotsPerFSMPage + t)

theorem Settled.kept (h : f.Settled level no) (hk : f.Kept lo hi g) (hv : FSMAddress.Valid ⟨level, no⟩)
    (hout : hi ≤ place level no ∨ place level no + subtree level ≤ lo) : g.Settled level no := by
  induction level generalizing no with
  | zero => trivial
  | succ level ih =>
    intro hin t ht
    have hchild := place_child hv ht
    have hsub := subtree_lt level ht (le_refl _)
    obtain ⟨hslot, hbelow⟩ := h (hk.nblocks ▸ hin) t ht
    refine ⟨?_, ih hbelow (child_valid hv (succ_ne_zero _) ht) (by omega)⟩
    rw [hk.slotOf (by omega), hslot, hk.rootOf (by omega)]

/-- The vacuum of a page, with what it returns. -/
structure Vacuumed (f : FsmFork) (level no : Nat) (r : Nat × Bool × FsmFork) : Prop where
  kept : f.Kept (place level no) (place level no + subtree level) r.2.2
  root : r.1 = r.2.2.rootOf ⟨level, no⟩
  past : r.2.1 = true → f.nblocks ≤ place level no
  settled : r.2.2.Settled level no

/-- A page past the end, to which nothing is done. -/
theorem vacuumed_past (hk : f.Kept 0 0 g) (h : f.nblocks ≤ place level no) : f.Vacuumed level no (0, true, g) where
  kept := ⟨hk.nblocks, hk.consistent, fun i _ => hk.outside i (.inr (zero_le i))⟩
  root := (if_neg (not_lt.mpr (hk.nblocks ▸ h))).symm
  past _ := h
  settled := by
    cases level with
    | zero => trivial
    | succ level => exact fun hin => absurd hin (not_lt.mpr (hk.nblocks ▸ h))

theorem vacuumed_reset (hk : f.Kept (place level no) (place level no + subtree level) g)
    (hv : FSMAddress.Valid ⟨level, no⟩) (hin : place level no < f.nblocks) (hs : g.Settled level no) :
    f.Vacuumed level no (resetNextSlot (place level no) g) := by
  have hreset : g.Kept (place level no) (place level no) (resetNextSlot (place level no) g).2.2 := by
    refine ⟨rfl, hk.consistent.setPage (hk.consistent _ (hk.nblocks ▸ hin)), fun i _ => ?_⟩
    unfold resetNextSlot setPage
    dsimp only
    obtain rfl | hi := eq_or_ne i (place level no)
    · rw [update_self]
    · rw [update_of_ne hi]
  refine ⟨hk.trans hreset (le_refl _) (le_add_right _ _), ?_, by simp [resetNextSlot], hs.kept hreset hv (.inl (le_refl _))⟩
  rw [hreset.rootOf (.inr (le_refl _))]
  exact (if_pos (hk.nblocks ▸ hin)).symm

/-- The loop over the slots, after the first `k` of them. -/
structure Vacuuming (f : FsmFork) (level no k : Nat) (s : Bool × FsmFork) : Prop where
  kept : f.Kept (place (level + 1) no) (place (level + 1) no + subtree (level + 1)) s.2
  past : s.1 = true → f.nblocks ≤ place (level + 1) no + 1 + k * subtree level
  settled : ∀ t < k, s.2.slotOf ⟨level + 1, no⟩ t = s.2.rootOf ⟨level, no * slotsPerFSMPage + t⟩ ∧
    s.2.Settled level (no * slotsPerFSMPage + t)

theorem Vacuuming.step (h : Vacuuming f level no k s) (hv : FSMAddress.Valid ⟨level + 1, no⟩)
    (hin : place (level + 1) no < f.nblocks) (hk : k < slotsPerFSMPage)
    {child : Nat → FsmFork → Nat × Bool × FsmFork}
    (hchild : ∀ g : FsmFork, g.Consistent → g.Vacuumed level (no * slotsPerFSMPage + k) (child k g)) :
    Vacuuming f level no (k + 1) (vacuumSlot child (place (level + 1) no) s k) := by
  have hplace := place_child hv hk
  have hlast := subtree_lt level hk (le_refl _)
  have hread : s.2.Vacuumed level (no * slotsPerFSMPage + k) (if s.1 = true then (0, s.1, s.2) else child k s.2) := by
    split_ifs with hs
    · rw [hs]
      refine vacuumed_past ⟨rfl, h.kept.consistent, fun _ _ => rfl⟩ ?_
      rw [h.kept.nblocks, hplace]
      exact h.past hs
    · exact hchild _ h.kept.consistent
  unfold vacuumSlot
  generalize (if s.1 = true then (0, s.1, s.2) else child k s.2) = r at hread ⊢
  obtain ⟨childAvail, eof, g⟩ := r
  obtain ⟨hkept, hroot, hpast, hbelow⟩ := hread
  dsimp only at hkept hroot hpast hbelow ⊢
  -- after the slot has been set
  suffices ∀ g', g.Kept (place (level + 1) no) (place (level + 1) no + 1) g' →
      (∀ t, g'.slotOf ⟨level + 1, no⟩ t = if t = k then childAvail else g.slotOf ⟨level + 1, no⟩ t) →
      Vacuuming f level no (k + 1) (eof, g') by
    have hin' : place (level + 1) no < g.nblocks := by rwa [hkept.nblocks, h.kept.nblocks]
    have hg := hkept.consistent
    split_ifs with hsame
    · refine this g ⟨rfl, hg, fun _ _ => rfl⟩ fun t => ?_
      split_ifs with ht
      · exact ht ▸ (if_pos hin').trans hsame
      · rfl
    · refine this _ ⟨rfl, hg.setPage (setAvail_maxTree (hg _ hin') _ hk), fun i _ => ?_⟩ fun t => ?_
      · exact congrArg FSMPage.fpNodes (update_of_ne (by omega) _ _)
      · split_ifs with ht
        · rw [ht, setPage_slotOf_self _ _ hin', setAvail_self _ _ hk]
        · exact setPage_slotOf g fun _ => setAvail_avail _ _ hk ht
  intro g' hset hslot
  refine ⟨(h.kept.trans hkept (by omega) (by omega)).trans hset (le_refl _) (by omega), fun he => ?_, fun t ht => ?_⟩
  · have := hpast he
    rw [h.kept.nblocks, hplace] at this
    rw [succ_mul]
    omega
  · have ht' : t < slotsPerFSMPage := by omega
    have hplace' := place_child hv ht'
    have hc := child_valid hv (succ_ne_zero _) ht'
    rw [hslot, hset.rootOf (.inr (by omega))]
    split_ifs with heq
    · obtain rfl := heq
      exact ⟨hroot, hbelow.kept hset hc (.inl (by omega))⟩
    · obtain ⟨hbefore, hsettled⟩ := h.settled t (by omega)
      have hsub := subtree_lt level (show t < k by omega) (le_of_lt hk)
      rw [hkept.slotOf (.inl (by omega)), hkept.rootOf (.inl (by omega))]
      exact ⟨hbefore, (hsettled.kept hkept hc (.inr (by omega))).kept hset hc (.inl (by omega))⟩

theorem kept_read (hf : f.Consistent) (addr : FSMAddress) : f.Kept lo hi (f.fsmReadbuf addr false).2 where
  nblocks := (f.fsmReadbuf_false addr).2.2
  consistent := hf.read addr false
  outside _ _ := by rw [(f.fsmReadbuf_false addr).2.1]

theorem fsmVacuumPage_spec (level no : Nat) (f : FsmFork) (hf : f.Consistent) (hv : FSMAddress.Valid ⟨level, no⟩) :
    f.Vacuumed level no (fsmVacuumPage level no f) := by
  induction level generalizing no f with
  | zero =>
    unfold fsmVacuumPage
    dsimp only
    rw [(f.fsmReadbuf_false ⟨0, no⟩).1]
    split_ifs with hin
    · exact vacuumed_reset (kept_read hf _) hv (of_decide_eq_true hin) trivial
    · exact vacuumed_past (kept_read hf _) (not_lt.mp fun h => hin (decide_eq_true h))
  | succ level ih =>
    unfold fsmVacuumPage
    dsimp only
    rw [(f.fsmReadbuf_false ⟨level + 1, no⟩).1]
    split_ifs with hin
    · have hin := of_decide_eq_true hin
      have hfold (k : Nat) (hk : k ≤ slotsPerFSMPage) : Vacuuming f level no k ((range k).foldl
          (vacuumSlot (fun slot => fsmVacuumPage level (no * slotsPerFSMPage + slot)) (place (level + 1) no))
          (false, (f.fsmReadbuf ⟨level + 1, no⟩ false).2)) := by
        induction k with
        | zero => exact ⟨kept_read hf _, by simp, fun t ht => absurd ht (not_lt_zero t)⟩
        | succ k ihk =>
          rw [range_succ, foldl_append, foldl_cons, foldl_nil]
          refine (ihk (le_of_lt hk)).step hv hin hk fun g hg => ?_
          exact ih _ g hg (child_valid hv (succ_ne_zero _) hk)
      have hall := hfold _ (le_refl _)
      exact vacuumed_reset hall.kept hv hin fun _ => hall.settled
    · exact vacuumed_past (kept_read hf _) (not_lt.mp fun h => hin (decide_eq_true h))

/-- The slot above a page. -/
theorem Settled.above (h : f.Settled fsmRootLevel 0) (hv : addr.Valid) (hlevel : addr.level ≠ fsmRootLevel)
    (hin : fsmLogicalToPhysical (fsmGetParent addr).1 < f.nblocks) :
    f.slotOf (fsmGetParent addr).1 (fsmGetParent addr).2 = f.rootOf addr ∧ f.Settled addr.level addr.logpageno := by
  have hslot := parentslot_lt addr
  have hroot : place fsmRootLevel 0 < f.nblocks := lt_of_le_of_lt (le_of_eq (physical_root (by decide))) (zero_lt_of_lt hin)
  obtain ⟨level, no⟩ := addr
  obtain ⟨hle, hno⟩ := hv
  have hcases : level = 0 ∨ level = 1 := by
    simp only [fsmRootLevel] at hle hlevel
    omega
  obtain rfl | rfl := hcases
  · have hbelow := (h hroot (no / slotsPerFSMPage) (root_slot_lt hno)).2
    rw [Nat.zero_mul, Nat.zero_add] at hbelow
    have := hbelow hin (no % slotsPerFSMPage) hslot
    rwa [div_add_mod'] at this
  · have hno : no < slotsPerFSMPage := lt_of_lt_of_eq hno (Nat.pow_one _)
    unfold fsmGetParent
    dsimp only
    rw [Nat.div_eq_of_lt hno, mod_eq_of_lt hno]
    have := h hroot no hno
    rwa [Nat.zero_mul, Nat.zero_add] at this

section
variable (hf : f.Consistent) (hmin : 1 ≤ minCat)
include hmin

theorem in_fork_of_slot (h : minCat ≤ f.slotOf addr t) : fsmLogicalToPhysical addr < f.nblocks := by
  by_contra hin
  rw [slotOf, if_neg hin] at h
  omega

theorem in_fork_of_root (h : minCat ≤ f.rootOf addr) : fsmLogicalToPhysical addr < f.nblocks := by
  by_contra hin
  rw [rootOf, if_neg hin] at h
  omega

include hf

/-- A page has at its root as much as in a slot. -/
theorem le_rootOf (ht : t < slotsPerFSMPage) (h : minCat ≤ f.slotOf addr t) : minCat ≤ f.rootOf addr := by
  have hin := in_fork_of_slot hmin h
  rw [slotOf, if_pos hin] at h
  rw [rootOf, if_pos hin]
  refine Nat.le_of_not_lt fun hlt => (hf _ hin).not_suits (l := 0) (j := 0) hmin (Nat.zero_add height) (by decide)
    (by rw [valueAt_of_lt (by decide)]; exact hlt) (by omega) ?_ ⟨ht, h⟩
  exact lt_trans ht (by decide)

theorem rootOf_lt (h : ∀ t < slotsPerFSMPage, f.slotOf addr t < minCat) : f.rootOf addr < minCat := by
  by_contra hge
  have hin := in_fork_of_root hmin (not_lt.mp hge)
  rw [rootOf, if_pos hin] at hge
  exact hge (root_lt (hf _ hin) hmin fun t ht => lt_of_eq_of_lt (if_pos hin).symm (h t ht))

/-- What a page has at its root can be reached from it. -/
theorem Settled.live (hs : f.Settled level no) (hv : FSMAddress.Valid ⟨level, no⟩)
    (h : minCat ≤ f.rootOf ⟨level, no⟩) : ¬f.Barren minCat level no := by
  induction level generalizing no with
  | zero => exact fun hb => absurd (rootOf_lt hf hmin hb) (not_lt.mpr h)
  | succ level ih =>
    refine fun hb => absurd (rootOf_lt hf hmin fun t ht => ?_) (not_lt.mpr h)
    obtain ⟨hslot, hbelow⟩ := hs (in_fork_of_root hmin h) t ht
    by_contra hge
    have hle := not_lt.mp hge
    exact ih hbelow (child_valid hv (succ_ne_zero _) ht) (hslot ▸ hle) (hb t ht hle)

/-- The page above a page has as much. -/
theorem Settled.parent (hs : f.Settled fsmRootLevel 0) (hv : addr.Valid) (hlevel : addr.level ≠ fsmRootLevel)
    (h : minCat ≤ f.rootOf addr) : minCat ≤ f.rootOf (fsmGetParent addr).1 := by
  have hslot := parentslot_lt addr
  have hplace := place_child (parent_valid hv hlevel) hslot
  have hchild : place addr.level _ = _ := congrArg fsmLogicalToPhysical (child_parent addr)
  have hin := in_fork_of_root hmin h
  refine le_rootOf hf hmin hslot ?_
  rw [(hs.above hv hlevel (lt_trans ?_ hin)).1]
  · exact h
  · exact lt_of_lt_of_eq (lt_of_lt_of_le (lt_succ_self _) (le_add_right _ _)) (hplace.symm.trans hchild)

/-- A search of a vacuumed map fails only if there is no such block. -/
theorem Settled.search (hs : f.Settled fsmRootLevel 0) (hp : no < bottomPages) (ht : t < slotsPerFSMPage)
    (h : minCat ≤ f.cat no t) : ∃ b, (fsmSearch minCat 0 fsmRootAddress f).1 = some b := by
  have hmiddle := hs.parent hf hmin (bottom_valid hp) (by simp [fsmRootLevel]) (le_rootOf hf hmin ht h)
  have hroot := hs.parent hf hmin (middle_valid hp) (by simp [fsmRootLevel]) hmiddle
  rw [Valid.eq_root (parent_valid (middle_valid hp) (by simp [fsmRootLevel])) rfl] at hroot
  refine fsmSearch_succeeds minCat 0 fsmRootAddress f hmin hf (hs.live hf hmin root_valid hroot) root_valid
    (fun h => absurd rfl h) ⟨0, by decide, [], le_refl _, fun addr haddr => ?_⟩
  obtain ⟨hslot, hbelow⟩ := hs.above haddr.valid haddr.level_ne (in_fork_of_slot hmin haddr.promised)
  exact absurd haddr.barren (hbelow.live hf hmin haddr.valid (hslot ▸ haddr.promised))

end

/-- **The vacuum** keeps what is recorded of the blocks and lets each slot above say what the page below it has, so
that a search finds space if any block has it, and only where a block has it. -/
theorem freeSpaceMapVacuum_exact (f : FsmFork) (hf : f.Consistent) :
    f.freeSpaceMapVacuum.Settled fsmRootLevel 0 ∧ SameSlots f f.freeSpaceMapVacuum ∧
      ∀ spaceNeeded minCat, fsmSpaceNeededToCat spaceNeeded = .ok minCat →
        ∃ r g, f.freeSpaceMapVacuum.getPageWithFreeSpace spaceNeeded = .ok (r, g) ∧
          (r = none ↔ ∀ p < bottomPages, ∀ t < slotsPerFSMPage, f.cat p t < minCat) ∧
          ∀ b, r = some b → ∃ p < bottomPages, ∃ t < slotsPerFSMPage,
            b = (p * slotsPerFSMPage + t) % 2 ^ 32 ∧ minCat ≤ f.cat p t := by
  obtain ⟨hkept, -, -, hsettled⟩ := fsmVacuumPage_spec fsmRootLevel 0 f hf root_valid
  have hsame := fsmVacuumPage_same fsmRootLevel 0 f root_valid
  refine ⟨hsettled, hsame, fun spaceNeeded minCat hneeded => ?_⟩
  have hfound : ∀ b, (fsmSearch minCat 0 fsmRootAddress f.freeSpaceMapVacuum).1 = some b → ∃ p < bottomPages,
      ∃ t < slotsPerFSMPage, b = (p * slotsPerFSMPage + t) % 2 ^ 32 ∧ minCat ≤ f.cat p t := by
    intro b hb
    obtain ⟨p, hp, t, ht, heq, hle⟩ := (fsmSearch_spec minCat 0 fsmRootAddress _ root_valid).2 b hb
    exact ⟨p, hp, t, ht, heq, hsame p hp t ▸ hle⟩
  refine ⟨_, _, by unfold getPageWithFreeSpace; rw [hneeded]; rfl, ⟨fun hnone p hp t ht => ?_, fun hsmall => ?_⟩, hfound⟩
  · by_contra hle
    obtain ⟨b, hb⟩ := hsettled.search hkept.consistent (neededToCat_pos hneeded).2 hp ht (hsame p hp t ▸ not_lt.mp hle)
    cases hnone.symm.trans hb
  · by_contra hne
    obtain ⟨b, hb⟩ := Option.ne_none_iff_exists'.mp hne
    obtain ⟨p, hp, t, ht, -, hle⟩ := hfound b hb
    exact absurd hle (not_le.mpr (hsmall p hp t ht))

theorem smallFork_vacuumed : smallFork.freeSpaceMapVacuum.Settled fsmRootLevel 0 :=
  (freeSpaceMapVacuum_exact smallFork fun _ _ => (fsmRebuildPage_maxTree _).1).1

theorem Consistent.search (hf : f.Consistent) (minCat restarts : Nat) (addr : FSMAddress) :
    (fsmSearch minCat restarts addr f).2.Consistent := by
  have hread {f : FsmFork} (hf : f.Consistent) {addr : FSMAddress} {slot : Option Nat} {maxAvail : Nat} {g : FsmFork}
      (hpage : f.searchPage addr minCat = (slot, maxAvail, g)) : g.Consistent := by
    have hg := hf.searchPage addr minCat
    rwa [hpage] at hg
  fun_induction fsmSearch minCat restarts addr f with
  | case1 _ _ _ _ _ _ hpage | case3 _ _ _ _ _ hpage => exact hread hf hpage
  | case2 _ _ _ _ _ _ hpage _ ih => exact ih (hread hf hpage)
  | case4 _ addr _ maxAvail _ hpage => exact (hread hf hpage).set (parentslot_lt addr) _ maxAvail 0
  | case5 _ addr _ maxAvail _ hpage _ _ _ _ ih => exact ih ((hread hf hpage).set (parentslot_lt addr) _ maxAvail 0)

theorem Consistent.step (hf : f.Consistent) {call : FsmCall} (hcall : call.InRange) : (f.step call).2.Consistent := by
  cases call with
  | getPageWithFreeSpace spaceNeeded =>
    dsimp only [FsmFork.step, getPageWithFreeSpace]
    cases fsmSpaceNeededToCat spaceNeeded with
    | error => exact hf
    | ok minCat => exact hf.search minCat 0 fsmRootAddress
  | recordAndGetPageWithFreeSpace oldPage oldSpaceAvail spaceNeeded =>
    dsimp only [FsmFork.step, recordAndGetPageWithFreeSpace]
    cases fsmSpaceNeededToCat spaceNeeded with
    | error => exact hf
    | ok minCat =>
      have hset := hf.set (location_slot_lt oldPage) (fsmGetLocation oldPage).1 (fsmSpaceAvailToCat oldSpaceAvail) minCat
      dsimp only [fsmGetLocation, bind, Except.bind, pure, Except.pure] at hset ⊢
      generalize f.fsmSetAndSearch _ _ _ _ = s at hset ⊢
      obtain ⟨_ | slot, g⟩ := s
      · exact hset.search minCat 0 fsmRootAddress
      · exact hset
  | recordPageWithFreeSpace heapBlk spaceAvail => exact hf.set (location_slot_lt heapBlk) _ _ 0
  | updateFreeSpaceMap blockNum freespace =>
    exact rounds_consistent _ [_] (by simpa using location_page_lt hcall) hf
  | getRecordedFreeSpace heapBlk =>
    have hread := hf.read (fsmGetLocation heapBlk).1 false
    dsimp only [FsmFork.step, getRecordedFreeSpace]
    split_ifs
    · exact hread
    · exact hread
  | freeSpaceMapTruncateRel nblocks =>
    intro blkno hblkno
    obtain ⟨hle, hpages⟩ := f.truncate_page nblocks
    have hpage := hf blkno (lt_of_lt_of_le hblkno hle)
    obtain heq | ⟨-, -, heq⟩ := hpages blkno
    · exact heq ▸ hpage
    · exact heq ▸ truncateAvail_maxTree hpage _
  | freeSpaceMapVacuum => exact (fsmVacuumPage_spec _ _ f hf root_valid).kept.consistent

/-- **The map is a store** of the categories: after any run a block has what was recorded for it last, or 0 if it has
been cut off since, and each page is consistent. -/
theorem run_records (hf : f.Consistent) (calls : List FsmCall) (hcalls : ∀ call ∈ calls, call.InRange) :
    (f.run calls).Consistent ∧ ∀ b < 2 ^ 32,
      (f.run calls).category b = calls.foldl (fun cat call => call.record b cat) (f.category b) := by
  induction calls generalizing f with
  | nil => exact ⟨hf, fun _ _ => rfl⟩
  | cons call calls ih =>
    have hcall := hcalls call mem_cons_self
    obtain ⟨hg, hcats⟩ := ih (hf.step hcall) fun c hc => hcalls c (mem_cons_of_mem _ hc)
    refine ⟨hg, fun b hb => (hcats b hb).trans ?_⟩
    have hstep : (f.step call).2.category b = _ := f.step_cat hcall (location_page_lt hb) (location_slot_lt b)
    have hblock : b / slotsPerFSMPage * slotsPerFSMPage + (fsmGetLocation b).2 = b := div_add_mod' b slotsPerFSMPage
    rw [hstep, hblock]
    rfl

theorem noFork_records : (noFork.run [.recordPageWithFreeSpace 7 4000, .freeSpaceMapTruncateRel 9]).category 7 =
    fsmSpaceAvailToCat 4000 :=
  (run_records (f := noFork) (fun _ hb => absurd hb (not_lt_zero _))
    [.recordPageWithFreeSpace 7 4000, .freeSpaceMapTruncateRel 9] (by simp [FsmCall.InRange])).2 7 (by decide)

end FsmFork

end PgStorage.Fsm
