import PgStorage.Fsm.Freespace
import PgStorage.Fsm.Search

/-! The slots of the free space map.

No two pages of the tree are stored at one place, so an operation on one page leaves the slots of all others alone. Of a
page's own slots a search changes none, and setting one leaves the others. -/
namespace PgStorage.Fsm
open MaxTree
open Function Nat

/-- An address in the tree below the root. -/
structure FSMAddress.Valid (addr : FSMAddress) : Prop where
  level_le : addr.level ≤ fsmRootLevel
  logpageno_lt : addr.logpageno < slotsPerFSMPage ^ (fsmRootLevel - addr.level)

/-- The number of bottom pages that the tree can reach. -/
def bottomPages : Nat := slotsPerFSMPage ^ fsmRootLevel

theorem slots_eq : slotsPerFSMPage = 4069 := by decide

theorem bottomPages_eq : bottomPages = 4069 * 4069 := by decide

variable {addr : FSMAddress} {p q t slot nblocks heapBlk : Nat}

theorem physical_bottom (hp : p < bottomPages) : fsmLogicalToPhysical ⟨0, p⟩ = p + p / 4069 + 2 := by
  rw [bottomPages_eq] at hp
  simp only [fsmLogicalToPhysical, slots_eq, Nat.pow_zero, Nat.mul_one]
  omega

theorem physical_mono (hpq : p < q) (hq : q < bottomPages) :
    fsmLogicalToPhysical ⟨0, p⟩ < fsmLogicalToPhysical ⟨0, q⟩ := by
  rw [physical_bottom (lt_trans hpq hq), physical_bottom hq]
  omega

theorem physical_mono_le (hpq : p ≤ q) (hq : q < bottomPages) :
    fsmLogicalToPhysical ⟨0, p⟩ ≤ fsmLogicalToPhysical ⟨0, q⟩ := by
  rcases Nat.eq_or_lt_of_le hpq with rfl | hlt
  · exact Nat.le_refl _
  · exact le_of_lt (physical_mono hlt hq)

theorem physical_inj (hp : p < bottomPages) (hq : q < bottomPages)
    (h : fsmLogicalToPhysical ⟨0, p⟩ = fsmLogicalToPhysical ⟨0, q⟩) : p = q := by
  rcases Nat.lt_trichotomy p q with hlt | heq | hgt
  · exact absurd h (Nat.ne_of_lt (physical_mono hlt hq))
  · exact heq
  · exact absurd h.symm (Nat.ne_of_lt (physical_mono hgt hp))

theorem physical_middle (hq : q < slotsPerFSMPage ^ 1) : fsmLogicalToPhysical ⟨1, q⟩ = q * 4069 + q + 1 := by
  rw [slots_eq, Nat.pow_one] at hq
  have hdiv : q * 4069 / 4069 = q := Nat.mul_div_cancel q (by decide)
  simp only [fsmLogicalToPhysical, slots_eq, Nat.pow_one]
  rw [hdiv, Nat.div_eq_of_lt hq]
  omega

theorem physical_root (hq : q < slotsPerFSMPage ^ 0) : fsmLogicalToPhysical ⟨2, q⟩ = 0 := by
  obtain rfl : q = 0 := lt_one_iff.mp hq
  decide

/-- No upper page is where a bottom page is. -/
theorem physical_ne (hv : addr.Valid) (hlevel : addr.level ≠ 0) (hp : p < bottomPages) :
    fsmLogicalToPhysical addr ≠ fsmLogicalToPhysical ⟨0, p⟩ := by
  rw [physical_bottom hp]
  obtain ⟨level, no⟩ := addr
  obtain ⟨hle, hno⟩ := hv
  dsimp only at hle hno hlevel
  unfold fsmRootLevel at hle hno
  obtain rfl | rfl : level = 1 ∨ level = 2 := by omega
  · rw [physical_middle hno]
    omega
  · rw [physical_root hno]
    omega

theorem bottom_valid (hp : p < bottomPages) : FSMAddress.Valid ⟨0, p⟩ := ⟨zero_le _, hp⟩

/-- No two pages are stored at one place. -/
theorem FSMAddress.Valid.eq_of_physical {other : FSMAddress} (hv : addr.Valid) (ho : other.Valid)
    (h : fsmLogicalToPhysical addr = fsmLogicalToPhysical other) : addr = other := by
  by_cases hlevel : addr.level = 0
  · obtain ⟨level, no⟩ := addr
    obtain rfl : level = 0 := hlevel
    by_cases hother : other.level = 0
    · obtain ⟨level', no'⟩ := other
      obtain rfl : level' = 0 := hother
      exact congrArg (FSMAddress.mk 0) (physical_inj hv.logpageno_lt ho.logpageno_lt h)
    · exact absurd h.symm (physical_ne ho hother hv.logpageno_lt)
  · by_cases hother : other.level = 0
    · obtain ⟨level', no'⟩ := other
      obtain rfl : level' = 0 := hother
      exact absurd h (physical_ne hv hlevel ho.logpageno_lt)
    · obtain ⟨level, no⟩ := addr
      obtain ⟨level', no'⟩ := other
      obtain ⟨hle, hno⟩ := hv
      obtain ⟨hle', hno'⟩ := ho
      dsimp only at hle hno hlevel hle' hno' hother
      unfold fsmRootLevel at hle hno hle' hno'
      -- a page of the middle level and the root
      obtain rfl | rfl : level = 1 ∨ level = 2 := by omega
      · obtain rfl | rfl : level' = 1 ∨ level' = 2 := by omega
        · rw [physical_middle hno, physical_middle hno'] at h
          rw [show no = no' by omega]
        · rw [physical_middle hno, physical_root hno'] at h
          omega
      · obtain rfl | rfl : level' = 1 ∨ level' = 2 := by omega
        · rw [physical_root hno, physical_middle hno'] at h
          omega
        · rw [Nat.sub_self, Nat.pow_zero] at hno hno'
          rw [show no = no' by omega]

theorem root_valid : fsmRootAddress.Valid := ⟨le_refl _, by decide⟩

theorem location_valid (h : heapBlk < 2 ^ 32) : (fsmGetLocation heapBlk).1.Valid := by
  refine ⟨zero_le _, ?_⟩
  have hpages : fsmRootLevel - 0 = 2 := rfl
  simp only [fsmGetLocation, hpages, slots_eq]
  omega

theorem location_page_lt (h : heapBlk < 2 ^ 32) : heapBlk / slotsPerFSMPage < bottomPages := by
  rw [slots_eq, bottomPages_eq]
  omega

theorem location_slot_lt (heapBlk : Nat) : (fsmGetLocation heapBlk).2 < slotsPerFSMPage := mod_lt _ (by decide)

theorem child_valid (hv : addr.Valid) (hlevel : addr.level ≠ 0) (hslot : slot < slotsPerFSMPage) :
    (fsmGetChild addr slot).Valid := by
  obtain ⟨level, no⟩ := addr
  obtain ⟨hle, hno⟩ := hv
  dsimp only at hle hno hlevel
  unfold fsmRootLevel at hle hno
  rw [slots_eq] at hno hslot
  obtain rfl | rfl : level = 1 ∨ level = 2 := by omega
  · refine ⟨show 1 - 1 ≤ 2 by decide, ?_⟩
    simp only [fsmGetChild, slots_eq, fsmRootLevel, reduceSub] at hno ⊢
    omega
  · refine ⟨show 2 - 1 ≤ 2 by decide, ?_⟩
    simp only [fsmGetChild, slots_eq, fsmRootLevel, reduceSub] at hno ⊢
    omega

theorem parent_valid (hv : addr.Valid) (hlevel : addr.level ≠ fsmRootLevel) : (fsmGetParent addr).1.Valid := by
  obtain ⟨level, no⟩ := addr
  obtain ⟨hle, hno⟩ := hv
  dsimp only at hle hno hlevel
  unfold fsmRootLevel at hle hno hlevel
  rw [slots_eq] at hno
  obtain rfl | rfl : level = 0 ∨ level = 1 := by omega
  · refine ⟨show 0 + 1 ≤ 2 by decide, ?_⟩
    simp only [fsmGetParent, slots_eq, fsmRootLevel, reduceSub] at hno ⊢
    omega
  · refine ⟨show 1 + 1 ≤ 2 by decide, ?_⟩
    simp only [fsmGetParent, slots_eq, fsmRootLevel, reduceSub] at hno ⊢
    omega

theorem parentslot_lt (addr : FSMAddress) : (fsmGetParent addr).2 < slotsPerFSMPage := mod_lt _ (by decide)

theorem neededToCat_pos {needed cat : Nat} (h : fsmSpaceNeededToCat needed = .ok cat) :
    needed ≤ maxFSMRequestSize ∧ 1 ≤ cat := by
  unfold fsmSpaceNeededToCat at h
  split_ifs at h with hlarge hzero
  · obtain rfl := Except.ok.inj h
    exact ⟨Nat.le_of_not_lt hlarge, Nat.le_refl _⟩
  · obtain rfl := Except.ok.inj h
    refine ⟨Nat.le_of_not_lt hlarge, ?_⟩
    have hstep : fsmCatStep = 32 := rfl
    rw [hstep]
    omega

theorem parent_child (hlevel : addr.level ≠ 0) (hslot : slot < slotsPerFSMPage) :
    fsmGetParent (fsmGetChild addr slot) = (addr, slot) := by
  obtain ⟨level, no⟩ := addr
  have hdiv : (no * slotsPerFSMPage + slot) / slotsPerFSMPage = no := by
    rw [slots_eq] at hslot ⊢
    omega
  unfold fsmGetChild fsmGetParent
  dsimp only
  rw [Nat.sub_add_cancel (Nat.one_le_iff_ne_zero.mpr hlevel), Nat.mul_add_mod_of_lt hslot, hdiv]

/-- The inner nodes are below the leaves. -/
theorem propagate_leaf (nodeno : Nat) (nodes : Nat → Nat) (hin : parentof nodeno < nonLeafNodesPerPage) (x : Nat)
    (hx : nonLeafNodesPerPage ≤ x) : propagate nodeno nodes x = nodes x := by
  fun_induction propagate nodeno nodes with
  | case1 => rfl
  | case2 nodeno nodes parent lchild rchild newvalue hne nodes' hpos ih =>
    have hlt : parent < nonLeafNodesPerPage := hin
    have hle : parentof parent ≤ parent := by
      unfold parentof
      omega
    rw [ih (lt_of_le_of_lt hle hlt)]
    exact update_of_ne (by omega) _ _
  | case3 nodeno nodes parent lchild rchild newvalue hne nodes' hpos =>
    have hlt : parent < nonLeafNodesPerPage := hin
    exact update_of_ne (by omega) _ _

theorem parentof_leaf_lt (hslot : slot < slotsPerFSMPage) :
    parentof (nonLeafNodesPerPage + slot) < nonLeafNodesPerPage := by
  have hleaf : nonLeafNodesPerPage = 4095 := rfl
  rw [slots_eq] at hslot
  unfold parentof
  omega

theorem setAvail_avail (p : FSMPage) (value : Nat) (hslot : slot < slotsPerFSMPage) (hne : t ≠ slot) :
    (fsmSetAvail p slot value).avail t = p.avail t := by
  have hleaf (value' : Nat) : propagate (nonLeafNodesPerPage + slot)
      (update p.fpNodes (nonLeafNodesPerPage + slot) value') (nonLeafNodesPerPage + t) =
        p.fpNodes (nonLeafNodesPerPage + t) := by
    rw [propagate_leaf _ _ (parentof_leaf_lt hslot) _ (le_add_right _ _)]
    exact update_of_ne (by omega) _ _
  unfold fsmSetAvail
  dsimp only
  split_ifs
  · rfl
  · rw [(fsmRebuildPage_maxTree _).2]
    exact hleaf value
  · exact hleaf value

theorem setAvail_self (p : FSMPage) (value : Nat) (hslot : slot < slotsPerFSMPage) :
    (fsmSetAvail p slot value).avail slot = value := by
  have hleaf : propagate (nonLeafNodesPerPage + slot)
      (update p.fpNodes (nonLeafNodesPerPage + slot) value) (nonLeafNodesPerPage + slot) = value := by
    rw [propagate_leaf _ _ (parentof_leaf_lt hslot) _ (le_add_right _ _)]
    exact update_self _ _ _
  unfold fsmSetAvail
  dsimp only
  split_ifs with hsame
  · exact hsame.1
  · rw [(fsmRebuildPage_maxTree _).2]
    exact hleaf
  · exact hleaf

theorem search_avail (p : FSMPage) (minvalue : Nat) (advancenext : Bool) :
    (p.search minvalue advancenext).2.avail = p.avail := by
  unfold FSMPage.search
  split
  case h_1 slot q h => exact (fsmSearchAvail_keeps 1 p h).1
  case h_2 n q h => exact (fsmSearchAvail_keeps 1 p h).1
  case h_3 => rfl

theorem search_suits (p : FSMPage) {minvalue : Nat} {advancenext : Bool}
    (h : (p.search minvalue advancenext).1 = some slot) : p.Suits minvalue slot := by
  unfold FSMPage.search at h
  split at h
  case h_1 slot' q hs =>
    obtain rfl := Option.some_inj.mp h
    obtain ⟨s, heq, hsuits⟩ := (fsmSearchAvail_keeps 1 p hs).2 (by simp)
    obtain rfl : slot' = s := Int.ofNat_inj.mp heq
    exact hsuits
  case h_2 => cases h
  case h_3 => cases h

/-! ### The fork -/

namespace FsmFork
variable {f g h : FsmFork} {other : FSMAddress}

/-- Each page of the fork is a tree of maxima. -/
def Consistent (f : FsmFork) : Prop := ∀ blkno < f.nblocks, (f.page blkno).MaxTree

/-- What a slot has, 0 if there is no such page. -/
def slotOf (f : FsmFork) (addr : FSMAddress) (t : Nat) : Nat :=
  if fsmLogicalToPhysical addr < f.nblocks then (f.page (fsmLogicalToPhysical addr)).avail t else 0

theorem slotOf_of_le (h : f.nblocks ≤ fsmLogicalToPhysical addr) : f.slotOf addr t = 0 := if_neg (not_lt.mpr h)

theorem slotOf_congr (hn : g.nblocks = f.nblocks) (hpage : g.page = f.page) : g.slotOf addr t = f.slotOf addr t := by
  unfold slotOf
  rw [hn, hpage]

theorem cachedNblocks_le_iff (f : FsmFork) (blkno : Nat) : f.cachedNblocks blkno ≤ blkno ↔ f.nblocks ≤ blkno := by
  have hle := f.cachedNblocks_le blkno
  refine ⟨fun h => ?_, fun h => le_trans hle h⟩
  unfold cachedNblocks at h
  split at h
  · exact h
  · split_ifs at h with hn
    · exact h
    · exact absurd h hn

/-- A page is read if it is in the fork. -/
theorem fsmReadbuf_false (f : FsmFork) (addr : FSMAddress) :
    (f.fsmReadbuf addr false).1 = decide (fsmLogicalToPhysical addr < f.nblocks) ∧
      (f.fsmReadbuf addr false).2.page = f.page ∧ (f.fsmReadbuf addr false).2.nblocks = f.nblocks := by
  unfold fsmReadbuf
  dsimp only
  by_cases hle : f.cachedNblocks (fsmLogicalToPhysical addr) ≤ fsmLogicalToPhysical addr
  · rw [if_pos hle]
    exact ⟨(decide_eq_false (not_lt.mpr ((f.cachedNblocks_le_iff _).mp hle))).symm, rfl, rfl⟩
  · rw [if_neg hle]
    exact ⟨(decide_eq_true (not_le.mp fun h => hle ((f.cachedNblocks_le_iff _).mpr h))).symm, rfl, rfl⟩

/-- New pages have no free space. -/
theorem fsmReadbuf_slotOf (f : FsmFork) (addr : FSMAddress) (extend : Bool) :
    (f.fsmReadbuf addr extend).2.slotOf other t = f.slotOf other t := by
  unfold fsmReadbuf
  dsimp only
  split_ifs with hle
  · unfold slotOf fsmExtend nblocks
    dsimp only [Option.getD_some]
    by_cases hin : fsmLogicalToPhysical other < f.smgrnblocks.getD 0
    · rw [if_pos hin, if_pos (lt_of_lt_of_le hin (le_max_left _ _)), if_neg (not_le.mpr hin)]
    · rw [if_neg hin, if_pos (not_lt.mp hin)]
      exact ite_self _
  · exact slotOf_congr rfl rfl
  · exact slotOf_congr rfl rfl

theorem fsmReadbuf_true (f : FsmFork) (addr : FSMAddress) :
    fsmLogicalToPhysical addr < (f.fsmReadbuf addr true).2.nblocks := by
  unfold fsmReadbuf
  dsimp only
  by_cases hle : f.cachedNblocks (fsmLogicalToPhysical addr) ≤ fsmLogicalToPhysical addr
  · rw [if_pos hle, if_pos rfl]
    exact lt_of_lt_of_le (lt_succ_self _) (le_max_right _ _)
  · rw [if_neg hle]
    exact not_le.mp fun h => hle ((f.cachedNblocks_le_iff _).mpr h)

theorem setPage_slotOf (f : FsmFork) {blkno : Nat} {page : FSMPage}
    (hpage : blkno = fsmLogicalToPhysical other → page.avail t = (f.page blkno).avail t) :
    (f.setPage blkno page).slotOf other t = f.slotOf other t := by
  unfold slotOf setPage nblocks
  dsimp only
  by_cases heq : fsmLogicalToPhysical other = blkno
  · rw [heq, update_self, hpage heq.symm]
  · rw [update_of_ne heq]

theorem setPage_slotOf_self (f : FsmFork) (page : FSMPage) (hin : fsmLogicalToPhysical addr < f.nblocks) :
    (f.setPage (fsmLogicalToPhysical addr) page).slotOf addr t = page.avail t := by
  unfold slotOf
  rw [if_pos (show _ < (f.setPage _ page).nblocks from hin)]
  unfold setPage
  dsimp only
  rw [update_self]

/-- Only the slot that is set may change. -/
theorem fsmSetAndSearch_slotOf (f : FsmFork) (hv : addr.Valid) (ho : other.Valid) (hslot : slot < slotsPerFSMPage)
    (newValue minValue : Nat) (hne : other = addr → t ≠ slot) :
    (f.fsmSetAndSearch addr slot newValue minValue).2.slotOf other t = f.slotOf other t := by
  have hslots (heq : fsmLogicalToPhysical addr = fsmLogicalToPhysical other) : t ≠ slot :=
    hne (ho.eq_of_physical hv heq.symm)
  rw [← f.fsmReadbuf_slotOf addr true]
  unfold fsmSetAndSearch
  dsimp only
  split_ifs with hmin
  · exact setPage_slotOf _ fun heq => setAvail_avail _ _ hslot (hslots heq)
  · refine setPage_slotOf _ fun heq => ?_
    rw [search_avail]
    exact setAvail_avail _ _ hslot (hslots heq)

theorem fsmSetAndSearch_self (f : FsmFork) (addr : FSMAddress) (hslot : slot < slotsPerFSMPage)
    (newValue minValue : Nat) : (f.fsmSetAndSearch addr slot newValue minValue).2.slotOf addr slot = newValue := by
  have hin := f.fsmReadbuf_true addr
  unfold fsmSetAndSearch
  dsimp only
  split_ifs with hmin
  · rw [setPage_slotOf_self _ _ hin, setAvail_self _ _ hslot]
  · rw [setPage_slotOf_self _ _ hin, search_avail, setAvail_self _ _ hslot]

/-- The slot that is found has what was asked for. -/
theorem fsmSetAndSearch_found (f : FsmFork) (addr : FSMAddress) (slot newValue minValue found : Nat)
    (h : (f.fsmSetAndSearch addr slot newValue minValue).1 = some found) :
    found < slotsPerFSMPage ∧ minValue ≤ (f.fsmSetAndSearch addr slot newValue minValue).2.slotOf addr found := by
  have hin := f.fsmReadbuf_true addr
  unfold fsmSetAndSearch at h ⊢
  dsimp only at h ⊢
  split_ifs at h ⊢ with hmin
  obtain ⟨hlt, hle⟩ := search_suits _ h
  refine ⟨hlt, ?_⟩
  rw [setPage_slotOf_self _ _ hin, search_avail]
  exact hle

theorem searchPage_slotOf (f : FsmFork) (addr : FSMAddress) (minCat : Nat) :
    (f.searchPage addr minCat).2.2.slotOf other t = f.slotOf other t := by
  rw [← f.fsmReadbuf_slotOf addr false]
  unfold searchPage
  dsimp only
  split_ifs
  · exact setPage_slotOf _ fun _ => congrFun (search_avail _ _ _) t
  · rfl

theorem searchPage_found (f : FsmFork) {minCat found : Nat} (h : (f.searchPage addr minCat).1 = some found) :
    found < slotsPerFSMPage ∧ minCat ≤ f.slotOf addr found := by
  obtain ⟨hvalid, hpage, -⟩ := f.fsmReadbuf_false addr
  unfold searchPage at h
  dsimp only at h
  split_ifs at h with hin
  obtain ⟨hlt, hle⟩ := search_suits _ h
  refine ⟨hlt, ?_⟩
  rw [hvalid] at hin
  unfold slotOf
  rw [if_pos (of_decide_eq_true hin)]
  rw [hpage] at hle
  exact hle

end FsmFork

end PgStorage.Fsm
