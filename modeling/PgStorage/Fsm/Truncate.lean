import PgStorage.Fsm.Slots

/-! Truncation of the free space map.

All that a later search may return is a block whose slot, on a bottom page, is not 0: upper pages only lead there. The
operations on upper pages leave these slots alone, as does a search of a bottom page, and what is truncated is 0. -/
namespace PgStorage.Fsm
open MaxTree
open List Nat

variable {addr : FSMAddress} {p q t slot nblocks heapBlk : Nat}

theorem truncateAvail_avail (p : FSMPage) (nslots : Nat) (ht : t < slotsPerFSMPage) :
    (fsmTruncateAvail p nslots).avail t = if nslots ≤ t then 0 else p.avail t := by
  have hpages : nonLeafNodesPerPage + slotsPerFSMPage = nodesPerPage := by decide
  have hrebuild (changed : Bool) (q : FSMPage) : (if changed then fsmRebuildPage q else q).avail = q.avail := by
    cases changed
    · rfl
    · exact (fsmRebuildPage_maxTree q).2
  unfold fsmTruncateAvail
  dsimp only
  rw [hrebuild]
  unfold FSMPage.avail
  dsimp only
  by_cases hle : nslots ≤ t
  · rw [if_pos hle, if_pos (by simp; omega)]
  · rw [if_neg hle, if_neg (by simp; omega)]

theorem truncateAvail_maxTree {p : FSMPage} (hp : p.MaxTree) (nslots : Nat) : (fsmTruncateAvail p nslots).MaxTree := by
  unfold fsmTruncateAvail
  dsimp only
  split_ifs with hchanged
  · exact (fsmRebuildPage_maxTree _).1
  · have hsame : (fun x => if (nonLeafNodesPerPage + nslots ≤ x && x < nodesPerPage) = true then 0 else p.fpNodes x) =
        p.fpNodes := by
      funext x
      split_ifs with hgone
      · by_contra hx
        refine hchanged (any_eq_true.mpr ⟨x, mem_range.mpr (by simp at hgone; omega), ?_⟩)
        rw [hgone]
        simpa using Ne.symm hx
      · rfl
    rw [hsame]
    exact hp

namespace FsmFork
variable {f g h : FsmFork}

/-! ### The slots of the bottom pages -/

/-- What the slot of a bottom page has. -/
def cat (f : FsmFork) (p t : Nat) : Nat := f.slotOf ⟨0, p⟩ t

/-- The slots of all bottom pages are the same. -/
def SameSlots (f g : FsmFork) : Prop := ∀ p < bottomPages, ∀ t, g.cat p t = f.cat p t

theorem SameSlots.refl (f : FsmFork) : SameSlots f f := fun _ _ _ => rfl

theorem SameSlots.trans (hfg : SameSlots f g) (hgh : SameSlots g h) : SameSlots f h :=
  fun p hp t => (hgh p hp t).trans (hfg p hp t)

theorem fsmReadbuf_same (f : FsmFork) (addr : FSMAddress) (extend : Bool) :
    SameSlots f (f.fsmReadbuf addr extend).2 := fun _ _ _ => f.fsmReadbuf_slotOf addr extend

theorem fsmSetAndSearch_upper (f : FsmFork) (hv : addr.Valid) (hlevel : addr.level ≠ 0)
    (hslot : slot < slotsPerFSMPage) (newValue minValue : Nat) :
    SameSlots f (f.fsmSetAndSearch addr slot newValue minValue).2 :=
  fun _ hp _ => f.fsmSetAndSearch_slotOf hv (bottom_valid hp) hslot newValue minValue
    fun heq => absurd (congrArg FSMAddress.level heq).symm hlevel

theorem searchPage_same (f : FsmFork) (addr : FSMAddress) (minCat : Nat) :
    SameSlots f (f.searchPage addr minCat).2.2 := fun _ _ _ => f.searchPage_slotOf addr minCat

/-- A search leaves all slots as they are, and what it returns has what was asked for. -/
theorem fsmSearch_spec (minCat restarts : Nat) (addr : FSMAddress) (f : FsmFork) (hv : addr.Valid) :
    SameSlots f (fsmSearch minCat restarts addr f).2 ∧ ∀ b, (fsmSearch minCat restarts addr f).1 = some b →
      ∃ p < bottomPages, ∃ t < slotsPerFSMPage, b = (p * slotsPerFSMPage + t) % 2 ^ 32 ∧ minCat ≤ f.cat p t := by
  fun_induction fsmSearch minCat restarts addr f with
  | case1 restarts addr f slot maxAvail g hpage hlevel =>
    have hsame := f.searchPage_same addr minCat
    have hfound : (f.searchPage addr minCat).1 = some slot := by rw [hpage]
    obtain ⟨hslot, hcat⟩ := f.searchPage_found hfound
    rw [hpage] at hsame
    refine ⟨hsame, fun b hb => ?_⟩
    obtain rfl := Option.some_inj.mp hb
    obtain ⟨level, no⟩ := addr
    obtain rfl : level = 0 := hlevel
    exact ⟨no, hv.logpageno_lt, slot, hslot, rfl, hcat⟩
  | case2 restarts addr f slot maxAvail g hpage hlevel ih =>
    have hsame := f.searchPage_same addr minCat
    have hfound : (f.searchPage addr minCat).1 = some slot := by rw [hpage]
    obtain ⟨hslot, -⟩ := f.searchPage_found hfound
    rw [hpage] at hsame
    obtain ⟨hrest, hfound⟩ := ih (child_valid hv hlevel hslot)
    refine ⟨hsame.trans hrest, fun b hb => ?_⟩
    obtain ⟨p, hp, t, ht, hb, hle⟩ := hfound b hb
    exact ⟨p, hp, t, ht, hb, hsame p hp t ▸ hle⟩
  | case3 restarts addr f maxAvail g hpage hlevel =>
    have hsame := f.searchPage_same addr minCat
    rw [hpage] at hsame
    exact ⟨hsame, fun b hb => nomatch hb⟩
  | case4 restarts addr f maxAvail g hpage hlevel parent g' hmany =>
    have hsame := f.searchPage_same addr minCat
    rw [hpage] at hsame
    have hset := g.fsmSetAndSearch_upper (parent_valid hv hlevel) (succ_ne_zero _) (parentslot_lt addr) maxAvail 0
    exact ⟨hsame.trans hset, fun b hb => nomatch hb⟩
  | case5 restarts addr f maxAvail g hpage hlevel parent g' hfew ih =>
    have hsame := f.searchPage_same addr minCat
    rw [hpage] at hsame
    have hset := g.fsmSetAndSearch_upper (parent_valid hv hlevel) (succ_ne_zero _) (parentslot_lt addr) maxAvail 0
    obtain ⟨hrest, hfound⟩ := ih root_valid
    have hall := hsame.trans hset
    refine ⟨hall.trans hrest, fun b hb => ?_⟩
    obtain ⟨p, hp, t, ht, hb, hle⟩ := hfound b hb
    exact ⟨p, hp, t, ht, hb, hall p hp t ▸ hle⟩

theorem fsmUpdateRecursive_same (newCat : Nat) (addr : FSMAddress) (f : FsmFork) (hv : addr.Valid) :
    SameSlots f (fsmUpdateRecursive newCat addr f) := by
  fun_induction fsmUpdateRecursive newCat addr f with
  | case1 => exact SameSlots.refl _
  | case2 addr f hlevel parent ih =>
    have hparent := parent_valid hv (fun h => hlevel (le_of_eq h.symm))
    exact (f.fsmSetAndSearch_upper hparent (succ_ne_zero _) (parentslot_lt addr) newCat 0).trans (ih hparent)

theorem resetNextSlot_same (blkno : Nat) (f : FsmFork) : SameSlots f (resetNextSlot blkno f).2.2 :=
  fun _ _ _ => setPage_slotOf _ fun _ => rfl

theorem vacuumSlot_same {child : Nat → FsmFork → Nat × Bool × FsmFork} (hv : addr.Valid) (hlevel : addr.level ≠ 0)
    (hchild : ∀ f, SameSlots f (child slot f).2.2) (s : Bool × FsmFork) :
    SameSlots s.2 (vacuumSlot child (fsmLogicalToPhysical addr) s slot).2 := by
  have hset (g : FsmFork) (page : FSMPage) : SameSlots g (g.setPage (fsmLogicalToPhysical addr) page) :=
    fun p hp t => setPage_slotOf g fun heq => absurd heq (physical_ne hv hlevel hp)
  have hread : SameSlots s.2 (if s.1 = true then (0, s.1, s.2) else child slot s.2).2.2 := by
    split_ifs
    · exact SameSlots.refl _
    · exact hchild s.2
  unfold vacuumSlot
  generalize (if s.1 = true then (0, s.1, s.2) else child slot s.2) = r at hread ⊢
  obtain ⟨childAvail, eof, f⟩ := r
  dsimp only
  split_ifs
  · exact hread
  · exact hread.trans (hset _ _)

/-- Over all slots of an upper page. -/
theorem foldl_vacuumSlot_same {child : Nat → FsmFork → Nat × Bool × FsmFork} (hv : addr.Valid) (hlevel : addr.level ≠ 0)
    (slots : List Nat) (hslots : ∀ slot ∈ slots, slot < slotsPerFSMPage)
    (hchild : ∀ slot < slotsPerFSMPage, ∀ f, SameSlots f (child slot f).2.2) (s : Bool × FsmFork) :
    SameSlots s.2 (slots.foldl (vacuumSlot child (fsmLogicalToPhysical addr)) s).2 := by
  induction slots generalizing s with
  | nil => exact SameSlots.refl _
  | cons slot slots ih =>
    have hslot := hslots slot mem_cons_self
    exact (vacuumSlot_same hv hlevel (hchild slot hslot) s).trans
      (ih (fun x hx => hslots x (mem_cons_of_mem _ hx)) _)

theorem fsmVacuumPage_same (level no : Nat) (f : FsmFork) (hv : FSMAddress.Valid ⟨level, no⟩) :
    SameSlots f (fsmVacuumPage level no f).2.2 := by
  induction level generalizing no f with
  | zero =>
    unfold fsmVacuumPage
    dsimp only
    split_ifs
    · exact (f.fsmReadbuf_same _ false).trans (resetNextSlot_same _ _)
    · exact f.fsmReadbuf_same _ false
  | succ level ih =>
    unfold fsmVacuumPage
    dsimp only
    split_ifs
    · have hfold := foldl_vacuumSlot_same hv (succ_ne_zero _) (range slotsPerFSMPage)
        (fun slot hslot => mem_range.mp hslot)
        (fun slot hslot g => ih (no * slotsPerFSMPage + slot) g (child_valid hv (succ_ne_zero _) hslot))
        (false, (f.fsmReadbuf ⟨level + 1, no⟩ false).2)
      exact ((f.fsmReadbuf_same _ false).trans hfold).trans (resetNextSlot_same _ _)
    · exact f.fsmReadbuf_same _ false

/-- The calls that other code makes. -/
inductive FsmCall
  | getPageWithFreeSpace (spaceNeeded : Nat)
  | recordAndGetPageWithFreeSpace (oldPage oldSpaceAvail spaceNeeded : Nat)
  | recordPageWithFreeSpace (heapBlk spaceAvail : Nat)
  | updateFreeSpaceMap (blockNum freespace : Nat)
  | getRecordedFreeSpace (heapBlk : Nat)
  | freeSpaceMapTruncateRel (nblocks : Nat)
  | freeSpaceMapVacuum

/-- The block numbers have 32 bits. -/
def FsmCall.InRange : FsmCall → Prop
  | .recordAndGetPageWithFreeSpace blk _ _ | .recordPageWithFreeSpace blk _ | .updateFreeSpaceMap blk _
  | .getRecordedFreeSpace blk | .freeSpaceMapTruncateRel blk => blk < 2 ^ 32
  | .getPageWithFreeSpace _ | .freeSpaceMapVacuum => True

/-- The block whose space a call records. A request that is too large fails before. -/
def FsmCall.recorded : FsmCall → Option Nat
  | .recordAndGetPageWithFreeSpace oldPage _ spaceNeeded =>
    if maxFSMRequestSize < spaceNeeded then none else some oldPage
  | .recordPageWithFreeSpace heapBlk _ => some heapBlk
  | _ => none

/-- The category that a call leaves to a block. -/
def FsmCall.record (b cat : Nat) : FsmCall → Nat
  | .recordAndGetPageWithFreeSpace oldPage oldSpaceAvail spaceNeeded =>
    if b = oldPage ∧ spaceNeeded ≤ maxFSMRequestSize then fsmSpaceAvailToCat oldSpaceAvail else cat
  | .recordPageWithFreeSpace heapBlk spaceAvail => if b = heapBlk then fsmSpaceAvailToCat spaceAvail else cat
  | .freeSpaceMapTruncateRel nblocks => if b < nblocks then cat else 0
  | _ => cat

theorem FsmCall.recorded_of_record {b cat : Nat} {call : FsmCall} (hcall : call.InRange) (h : call.record b cat ≠ 0) :
    cat ≠ 0 ∨ b < 2 ^ 32 ∧ call.recorded = some b := by
  cases call with
  | recordAndGetPageWithFreeSpace oldPage oldSpaceAvail spaceNeeded =>
    dsimp only [record] at h
    split_ifs at h with hb
    · obtain ⟨rfl, hle⟩ := hb
      exact .inr ⟨hcall, if_neg (not_lt.mpr hle)⟩
    · exact .inl h
  | recordPageWithFreeSpace heapBlk spaceAvail =>
    dsimp only [record] at h
    split_ifs at h with hb
    · exact .inr ⟨hb ▸ hcall, congrArg some hb.symm⟩
    · exact .inl h
  | freeSpaceMapTruncateRel nblocks =>
    dsimp only [record] at h
    split_ifs at h
    · exact .inl h
    · exact absurd rfl h
  | _ => exact .inl h

/-- The page that a call returns, if it returns one, and the fork after it. -/
def step (f : FsmFork) : FsmCall → Option Nat × FsmFork
  | .getPageWithFreeSpace spaceNeeded =>
    match f.getPageWithFreeSpace spaceNeeded with
    | .ok r => r
    | .error _ => (none, f)
  | .recordAndGetPageWithFreeSpace oldPage oldSpaceAvail spaceNeeded =>
    match f.recordAndGetPageWithFreeSpace oldPage oldSpaceAvail spaceNeeded with
    | .ok r => r
    | .error _ => (none, f)
  | .recordPageWithFreeSpace heapBlk spaceAvail => (none, f.recordPageWithFreeSpace heapBlk spaceAvail)
  | .updateFreeSpaceMap blockNum freespace => (none, f.updateFreeSpaceMap blockNum freespace)
  | .getRecordedFreeSpace heapBlk => (none, (f.getRecordedFreeSpace heapBlk).2)
  | .freeSpaceMapTruncateRel nblocks => (none, f.freeSpaceMapTruncateRel nblocks)
  | .freeSpaceMapVacuum => (none, f.freeSpaceMapVacuum)

def run (f : FsmFork) (calls : List FsmCall) : FsmFork := calls.foldl (fun f call => (f.step call).2) f

/-- Only blocks of a set have space in the map. -/
def Within (blocks : Nat → Prop) (f : FsmFork) : Prop :=
  ∀ p < bottomPages, ∀ t < slotsPerFSMPage, f.cat p t ≠ 0 →
    p * slotsPerFSMPage + t < 2 ^ 32 ∧ blocks (p * slotsPerFSMPage + t)

variable {blocks : Nat → Prop}

theorem Within.of_same (hf : Within blocks f) (hfg : SameSlots f g) : Within blocks g :=
  fun p hp t ht hne => hf p hp t ht (hfg p hp t ▸ hne)

theorem Within.mono {more : Nat → Prop} (hf : Within blocks f) (hle : ∀ b, blocks b → more b) : Within more f :=
  fun p hp t ht hne => ⟨(hf p hp t ht hne).1, hle _ (hf p hp t ht hne).2⟩

/-- What a search returns is in the set. -/
theorem Within.search (hf : Within blocks f) {minCat : Nat} (hmin : 1 ≤ minCat) {b : Nat}
    (hb : (fsmSearch minCat 0 fsmRootAddress f).1 = some b) : blocks b := by
  obtain ⟨p, hp, t, ht, rfl, hle⟩ := (fsmSearch_spec minCat 0 fsmRootAddress f root_valid).2 b hb
  obtain ⟨hlt, hin⟩ := hf p hp t ht (by omega)
  rw [mod_eq_of_lt hlt]
  exact hin

/-! ### Truncation -/

theorem cat_of_le (h : f.nblocks ≤ fsmLogicalToPhysical ⟨0, p⟩) : f.cat p t = 0 := slotOf_of_le h

theorem setPage_cat (f : FsmFork) {blkno : Nat} {page : FSMPage} (hne : blkno ≠ fsmLogicalToPhysical ⟨0, p⟩) :
    (f.setPage blkno page).cat p t = f.cat p t := f.setPage_slotOf fun heq => absurd heq hne

theorem setPage_cat_self (f : FsmFork) (page : FSMPage) (hin : fsmLogicalToPhysical ⟨0, p⟩ < f.nblocks) :
    (f.setPage (fsmLogicalToPhysical ⟨0, p⟩) page).cat p t = page.avail t := f.setPage_slotOf_self page hin

theorem smgrtruncate_cat (f : FsmFork) {n : Nat} (hn : n ≤ f.nblocks) :
    (f.smgrtruncate n).cat p t = if fsmLogicalToPhysical ⟨0, p⟩ < n then f.cat p t else 0 := by
  unfold cat slotOf
  by_cases hin : fsmLogicalToPhysical ⟨0, p⟩ < n
  · rw [if_pos hin, if_pos (show _ < (f.smgrtruncate n).nblocks from hin), if_pos (lt_of_lt_of_le hin hn)]
    rfl
  · rw [if_neg hin]
    exact if_neg hin

/-- A slot is before a block. -/
theorem before_iff (ht : t < slotsPerFSMPage) : p * slotsPerFSMPage + t < nblocks ↔
    p < nblocks / slotsPerFSMPage ∨ p = nblocks / slotsPerFSMPage ∧ t < nblocks % slotsPerFSMPage := by
  rw [slots_eq] at ht ⊢
  omega

/-- The fork ends before the page where the removed blocks begin. -/
theorem cat_of_short (hp : p < bottomPages) (ht : t < slotsPerFSMPage)
    (hshort : f.nblocks ≤ fsmLogicalToPhysical ⟨0, nblocks / slotsPerFSMPage⟩) :
    f.cat p t = if p * slotsPerFSMPage + t < nblocks then f.cat p t else 0 := by
  split_ifs with hbefore
  · rfl
  · rw [before_iff ht] at hbefore
    refine cat_of_le (le_trans hshort (physical_mono_le ?_ hp))
    omega

/-- What is left of each slot. -/
theorem truncate_cat (f : FsmFork) (hn : nblocks < 2 ^ 32) (hp : p < bottomPages) (ht : t < slotsPerFSMPage) :
    (f.freeSpaceMapTruncateRel nblocks).cat p t = if p * slotsPerFSMPage + t < nblocks then f.cat p t else 0 := by
  have hlast := location_page_lt hn
  unfold freeSpaceMapTruncateRel
  dsimp only [fsmGetLocation]
  by_cases hnone : f.smgrnblocks = none
  · rw [if_pos hnone]
    have hempty : f.nblocks = 0 := by
      show f.smgrnblocks.getD 0 = 0
      rw [hnone]
      rfl
    rw [cat_of_le (by rw [hempty]; exact zero_le _), ite_self]
  rw [if_neg hnone]
  obtain ⟨hvalid, hpage, hblocks⟩ := f.fsmReadbuf_false ⟨0, nblocks / slotsPerFSMPage⟩
  have hsame := f.fsmReadbuf_same ⟨0, nblocks / slotsPerFSMPage⟩ false
  generalize f.fsmReadbuf ⟨0, nblocks / slotsPerFSMPage⟩ false = r at hvalid hpage hblocks hsame ⊢
  obtain ⟨valid, g⟩ := r
  dsimp only at hvalid hpage hblocks hsame ⊢
  by_cases hslot : 0 < nblocks % slotsPerFSMPage
  · rw [if_pos hslot]
    by_cases hin : fsmLogicalToPhysical ⟨0, nblocks / slotsPerFSMPage⟩ < f.nblocks
    · rw [hvalid, decide_eq_true hin, if_neg (by decide), smgrtruncate_cat _ (by exact hblocks ▸ hin)]
      rcases lt_trichotomy p (nblocks / slotsPerFSMPage) with hlt | rfl | hgt
      · have hphys := physical_mono hlt hlast
        rw [if_pos (lt_succ_of_lt hphys), setPage_cat _ (ne_of_gt hphys), hsame p hp t,
          if_pos ((before_iff ht).mpr (.inl hlt))]
      · rw [if_pos (lt_succ_self _), setPage_cat_self _ _ (hblocks ▸ hin), truncateAvail_avail _ _ ht, hpage]
        unfold cat slotOf
        rw [if_pos hin]
        by_cases hkept : t < nblocks % slotsPerFSMPage
        · rw [if_neg (Nat.not_le.mpr hkept), if_pos ((before_iff ht).mpr (.inr ⟨rfl, hkept⟩))]
        · rw [if_pos (Nat.le_of_not_lt hkept), if_neg fun h => by rw [before_iff ht] at h; omega]
      · have hphys := physical_mono hgt hp
        rw [if_neg (by omega), if_neg fun h => by rw [before_iff ht] at h; omega]
    · rw [hvalid, decide_eq_false hin, if_pos (show (!false) = true from rfl), hsame p hp t]
      exact cat_of_short hp ht (Nat.le_of_not_lt hin)
  · rw [if_neg hslot]
    by_cases hshort : f.nblocks ≤ fsmLogicalToPhysical ⟨0, nblocks / slotsPerFSMPage⟩
    · rw [if_pos hshort]
      exact cat_of_short hp ht hshort
    · rw [if_neg hshort, smgrtruncate_cat _ (Nat.le_of_not_le hshort)]
      by_cases hlt : p < nblocks / slotsPerFSMPage
      · rw [if_pos (physical_mono hlt hlast), if_pos ((before_iff ht).mpr (.inl hlt))]
      · rw [if_neg (Nat.not_lt.mpr (physical_mono_le (Nat.le_of_not_lt hlt) hp)),
          if_neg fun h => by rw [before_iff ht] at h; omega]

/-- The fork does not grow, and of its pages only the one where the removed blocks begin may change. -/
theorem truncate_page (f : FsmFork) (nblocks : Nat) : (f.freeSpaceMapTruncateRel nblocks).nblocks ≤ f.nblocks ∧
    ∀ blkno, (f.freeSpaceMapTruncateRel nblocks).page blkno = f.page blkno ∨
      blkno = fsmLogicalToPhysical ⟨0, nblocks / slotsPerFSMPage⟩ ∧ blkno < f.nblocks ∧
        (f.freeSpaceMapTruncateRel nblocks).page blkno =
          fsmTruncateAvail (f.page blkno) (nblocks % slotsPerFSMPage) := by
  unfold freeSpaceMapTruncateRel
  dsimp only [fsmGetLocation]
  obtain ⟨hvalid, hpage, hblocks⟩ := f.fsmReadbuf_false ⟨0, nblocks / slotsPerFSMPage⟩
  generalize f.fsmReadbuf ⟨0, nblocks / slotsPerFSMPage⟩ false = r at hvalid hpage hblocks ⊢
  obtain ⟨valid, g⟩ := r
  dsimp only at hvalid hpage hblocks ⊢
  split_ifs with hnone hslot hin hshort
  · exact ⟨le_refl _, fun _ => .inl rfl⟩
  · exact ⟨le_of_eq hblocks, fun _ => .inl (congrFun hpage _)⟩
  · have hlt : fsmLogicalToPhysical ⟨0, nblocks / slotsPerFSMPage⟩ < f.nblocks := by
      rw [hvalid] at hin
      simpa using hin
    refine ⟨hlt, fun blkno => ?_⟩
    by_cases heq : blkno = fsmLogicalToPhysical ⟨0, nblocks / slotsPerFSMPage⟩
    · refine .inr ⟨heq, heq ▸ hlt, ?_⟩
      subst heq
      unfold smgrtruncate setPage
      dsimp only
      rw [Function.update_self, hpage]
    · refine .inl ?_
      unfold smgrtruncate setPage
      dsimp only
      rw [Function.update_of_ne heq, hpage]
  · exact ⟨Nat.le_refl _, fun _ => .inl rfl⟩
  · exact ⟨Nat.le_of_not_le hshort, fun _ => .inl rfl⟩

theorem getRecordedFreeSpace_eq (f : FsmFork) (heapBlk : Nat) : (f.getRecordedFreeSpace heapBlk).1 =
    fsmSpaceCatToAvail (f.cat (heapBlk / slotsPerFSMPage) (heapBlk % slotsPerFSMPage)) := by
  obtain ⟨hvalid, hpage, -⟩ := f.fsmReadbuf_false ⟨0, heapBlk / slotsPerFSMPage⟩
  unfold getRecordedFreeSpace cat slotOf
  dsimp only [fsmGetLocation]
  rw [hvalid, hpage]
  by_cases hin : fsmLogicalToPhysical ⟨0, heapBlk / slotsPerFSMPage⟩ < f.nblocks
  · rw [if_pos hin, if_pos (decide_eq_true hin)]
  · rw [if_neg hin, if_neg fun h => hin (of_decide_eq_true h)]
    rfl

theorem set_cat (f : FsmFork) (hblk : heapBlk < 2 ^ 32) (hp : p < bottomPages) (ht : t < slotsPerFSMPage)
    (newValue minValue : Nat) :
    (f.fsmSetAndSearch (fsmGetLocation heapBlk).1 (fsmGetLocation heapBlk).2 newValue minValue).2.cat p t =
      if p * slotsPerFSMPage + t = heapBlk then newValue else f.cat p t := by
  split_ifs with heq
  · have hpage : heapBlk / slotsPerFSMPage = p := by
      rw [slots_eq] at heq ht ⊢
      omega
    have hslot : heapBlk % slotsPerFSMPage = t := heq ▸ mul_add_mod_of_lt ht
    unfold fsmGetLocation
    rw [hpage, hslot]
    exact f.fsmSetAndSearch_self _ ht newValue minValue
  · refine f.fsmSetAndSearch_slotOf (location_valid hblk) (bottom_valid hp) (location_slot_lt heapBlk) newValue minValue
      fun hpage hslot => heq ?_
    obtain rfl : p = heapBlk / slotsPerFSMPage := congrArg FSMAddress.logpageno hpage
    rw [hslot]
    exact div_add_mod' heapBlk slotsPerFSMPage

/-- One call, and what it records. -/
theorem step_cat (f : FsmFork) {call : FsmCall} (hcall : call.InRange) (hp : p < bottomPages)
    (ht : t < slotsPerFSMPage) : (f.step call).2.cat p t = call.record (p * slotsPerFSMPage + t) (f.cat p t) := by
  cases call with
  | getPageWithFreeSpace spaceNeeded =>
    dsimp only [FsmFork.step, getPageWithFreeSpace]
    cases fsmSpaceNeededToCat spaceNeeded with
    | error => rfl
    | ok minCat => exact (fsmSearch_spec minCat 0 fsmRootAddress f root_valid).1 p hp t
  | recordAndGetPageWithFreeSpace oldPage oldSpaceAvail spaceNeeded =>
    dsimp only [FsmFork.step, recordAndGetPageWithFreeSpace, FsmCall.record]
    cases hcat : fsmSpaceNeededToCat spaceNeeded with
    | error e =>
      unfold fsmSpaceNeededToCat at hcat
      split_ifs at hcat with hlarge
      exact (if_neg fun h => not_lt.mpr h.2 hlarge).symm
    | ok minCat =>
      rw [if_congr (and_iff_left (neededToCat_pos hcat).1) rfl rfl, ← f.set_cat hcall hp ht _ minCat]
      dsimp only [fsmGetLocation, bind, Except.bind, pure, Except.pure]
      generalize f.fsmSetAndSearch _ _ _ _ = s
      obtain ⟨_ | slot, g⟩ := s
      · exact (fsmSearch_spec minCat 0 fsmRootAddress g root_valid).1 p hp t
      · rfl
  | recordPageWithFreeSpace heapBlk spaceAvail => exact f.set_cat hcall hp ht _ 0
  | updateFreeSpaceMap blockNum freespace => exact fsmUpdateRecursive_same _ _ f (location_valid hcall) p hp t
  | getRecordedFreeSpace heapBlk =>
    have hread := f.fsmReadbuf_same (fsmGetLocation heapBlk).1 false p hp t
    dsimp only [FsmFork.step, getRecordedFreeSpace]
    split_ifs
    · exact hread
    · exact hread
  | freeSpaceMapTruncateRel nblocks => exact f.truncate_cat hcall hp ht
  | freeSpaceMapVacuum => exact fsmVacuumPage_same _ _ f root_valid p hp t

/-- One call. -/
theorem Within.step (hf : Within blocks f) {call : FsmCall} (hcall : call.InRange) :
    Within (fun b => blocks b ∨ call.recorded = some b) (f.step call).2 ∧
      ∀ b, (f.step call).1 = some b → blocks b ∨ call.recorded = some b := by
  have hwithin : Within (fun b => blocks b ∨ call.recorded = some b) (f.step call).2 := by
    intro p hp t ht hne
    rw [f.step_cat hcall hp ht] at hne
    rcases FsmCall.recorded_of_record hcall hne with h | ⟨hlt, h⟩
    · exact (hf p hp t ht h).imp_right .inl
    · exact ⟨hlt, .inr h⟩
  refine ⟨hwithin, fun b hb => ?_⟩
  cases call with
  | getPageWithFreeSpace spaceNeeded =>
    dsimp only [FsmFork.step, getPageWithFreeSpace] at hb
    cases hcat : fsmSpaceNeededToCat spaceNeeded with
    | error e => rw [hcat] at hb; cases hb
    | ok minCat =>
      rw [hcat] at hb
      exact .inl (hf.search (neededToCat_pos hcat).2 hb)
  | recordAndGetPageWithFreeSpace oldPage oldSpaceAvail spaceNeeded =>
    dsimp only [FsmFork.step, recordAndGetPageWithFreeSpace] at hb hwithin
    cases hcat : fsmSpaceNeededToCat spaceNeeded with
    | error e => rw [hcat] at hb; cases hb
    | ok searchCat =>
      obtain ⟨-, hmin⟩ := neededToCat_pos hcat
      have hfound := f.fsmSetAndSearch_found ⟨0, oldPage / slotsPerFSMPage⟩ (oldPage % slotsPerFSMPage)
        (fsmSpaceAvailToCat oldSpaceAvail) searchCat
      rw [hcat] at hb hwithin
      dsimp only [fsmGetLocation, bind, Except.bind, pure, Except.pure] at hb hwithin
      generalize f.fsmSetAndSearch ⟨0, oldPage / slotsPerFSMPage⟩ (oldPage % slotsPerFSMPage)
        (fsmSpaceAvailToCat oldSpaceAvail) searchCat = s at hb hwithin hfound
      obtain ⟨_ | slot, g⟩ := s
      · have hsame := (fsmSearch_spec searchCat 0 fsmRootAddress g root_valid).1
        exact (hwithin.of_same fun p hp t => (hsame p hp t).symm).search hmin hb
      · obtain ⟨hlt, hle⟩ := hfound slot rfl
        obtain ⟨hsmall, hin⟩ := hwithin _ (location_page_lt hcall) slot hlt (one_le_iff_ne_zero.mp (le_trans hmin hle))
        obtain rfl := Option.some_inj.mp hb
        unfold fsmGetHeapBlk
        dsimp only
        rw [mod_eq_of_lt hsmall]
        exact hin
  | _ => cases hb

/-- A run. -/
theorem Within.run (hf : Within blocks f) (calls : List FsmCall) (hcalls : ∀ call ∈ calls, call.InRange) :
    Within (fun b => blocks b ∨ ∃ call ∈ calls, call.recorded = some b) (f.run calls) := by
  induction calls generalizing f blocks with
  | nil => exact hf.mono fun b h => .inl h
  | cons call calls ih =>
    have hstep := (hf.step (hcalls call mem_cons_self)).1
    refine (ih hstep fun c hc => hcalls c (mem_cons_of_mem _ hc)).mono fun b h => ?_
    rcases h with (h | h) | ⟨c, hc, h⟩
    · exact .inl h
    · exact .inr ⟨call, mem_cons_self, h⟩
    · exact .inr ⟨c, mem_cons_of_mem _ hc, h⟩

/-- `g` is what is left of `f` for a relation of `nblocks` blocks. Upper pages that are left still promise what they
did; what a search returns later has been recorded after the truncation if it is past the end. -/
structure Truncated (f : FsmFork) (nblocks : Nat) (g : FsmFork) : Prop where
  recorded : ∀ b < 2 ^ 32, (g.getRecordedFreeSpace b).1 = if b < nblocks then (f.getRecordedFreeSpace b).1 else 0
  consistent : g.Consistent
  upper : ∀ addr : FSMAddress, addr.Valid → addr.level ≠ 0 →
    g.page (fsmLogicalToPhysical addr) = f.page (fsmLogicalToPhysical addr)
  returned : ∀ calls, (∀ call ∈ calls, FsmCall.InRange call) → ∀ call, call.InRange → ∀ b,
    ((g.run calls).step call).1 = some b → nblocks ≤ b → ∃ c ∈ calls ++ [call], c.recorded = some b

/-- **`FreeSpaceMapTruncateRel`** removes all free space from a block on, no other, and keeps each page consistent; no
later search brings a removed block back. -/
theorem freeSpaceMapTruncateRel_exact (f : FsmFork) (hf : f.Consistent) (nblocks : Nat) (hn : nblocks < 2 ^ 32) :
    f.Truncated nblocks (f.freeSpaceMapTruncateRel nblocks) where
  recorded b hb := by
    have hdiv := div_add_mod' b slotsPerFSMPage
    have hslot : b % slotsPerFSMPage < slotsPerFSMPage := location_slot_lt b
    have hcat := truncate_cat f hn (location_page_lt hb) hslot
    rw [getRecordedFreeSpace_eq, getRecordedFreeSpace_eq, hcat, hdiv]
    split_ifs
    · rfl
    · rfl
  consistent blkno hblkno := by
    obtain ⟨hle, hpages⟩ := f.truncate_page nblocks
    have hpage := hf blkno (lt_of_lt_of_le hblkno hle)
    rcases hpages blkno with heq | ⟨-, -, heq⟩
    · rw [heq]
      exact hpage
    · rw [heq]
      exact truncateAvail_maxTree hpage _
  upper addr hv hlevel := by
    rcases (f.truncate_page nblocks).2 (fsmLogicalToPhysical addr) with heq | ⟨hphys, -, -⟩
    · exact heq
    · exact absurd hphys (physical_ne hv hlevel (location_page_lt hn))
  returned calls hcalls call hcall b hb hge := by
    have hcut : Within (fun b => b < nblocks) (f.freeSpaceMapTruncateRel nblocks) := by
      intro p hp t ht hne
      rw [truncate_cat f hn hp ht] at hne
      have hlt : p * slotsPerFSMPage + t < nblocks := by
        by_contra hnot
        exact hne (if_neg hnot)
      exact ⟨lt_trans hlt hn, hlt⟩
    rcases ((hcut.run calls hcalls).step hcall).2 b hb with (hlt | ⟨c, hc, h⟩) | h
    · exact absurd hlt (not_lt.mpr hge)
    · exact ⟨c, mem_append_left _ hc, h⟩
    · exact ⟨call, mem_append_right _ mem_cons_self, h⟩

/-- A fork of three pages, with space on the blocks 3 and 7. -/
def smallFork : FsmFork where
  smgrnblocks := some 3
  page blkno := fsmRebuildPage ⟨0, fun x =>
    if x = nonLeafNodesPerPage + (if blkno = 2 then 7 else 0) ∨ blkno = 2 ∧ x = nonLeafNodesPerPage + 3 then 5 else 0⟩
  smgrFsmNblocks := none
  cached_le _ hn := nomatch hn

theorem smallFork_truncated : smallFork.Truncated 5 (smallFork.freeSpaceMapTruncateRel 5) :=
  freeSpaceMapTruncateRel_exact smallFork (fun _ _ => (fsmRebuildPage_maxTree _).1) 5 (by decide)

end FsmFork

end PgStorage.Fsm
