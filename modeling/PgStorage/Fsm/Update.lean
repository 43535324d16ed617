import PgStorage.Fsm.Slots

/-! The update of the upper levels of the free space map.

The new category is written into the slots above each page of the range, whatever else is below them; so the new space
becomes visible, and larger space below the same slots is hidden. A search goes where upper slots promise space. If
there is none it corrects the promise, and gives up when it has done so too often. -/
namespace PgStorage.Fsm
open MaxTree
open Function List Nat
open Nat (div_le_div_right)

variable {addr : FSMAddress} {p t slot minvalue : Nat}

theorem valueAt_update_of_ne (nodes : Nat → Nat) {x y value : Nat} (hne : x ≠ y) :
    valueAt (update nodes y value) nodesPerPage x = valueAt nodes nodesPerPage x := by
  unfold valueAt
  rw [update_of_ne hne]

/-- Going up, all nodes but the parent of the current one are right. -/
theorem propagate_maxTree (nodeno : Nat) (nodes : Nat → Nat) (hpos : 0 < nodeno) (hin : nodeno < nodesPerPage)
    (hright : ∀ x < nonLeafNodesPerPage, x ≠ parentof nodeno →
      nodes x = max (valueAt nodes nodesPerPage (2 * x + 1)) (valueAt nodes nodesPerPage (2 * x + 2))) :
    IsMaxTree (propagate nodeno nodes) nonLeafNodesPerPage nodesPerPage := by
  have hnew (nodeno : Nat) (nodes : Nat → Nat) (hpos : 0 < nodeno) (hin : nodeno < nodesPerPage) :
      (if leftchild (parentof nodeno) + 1 < nodesPerPage then
        max (nodes (leftchild (parentof nodeno))) (nodes (leftchild (parentof nodeno) + 1))
      else nodes (leftchild (parentof nodeno))) =
        max (valueAt nodes nodesPerPage (2 * parentof nodeno + 1))
          (valueAt nodes nodesPerPage (2 * parentof nodeno + 2)) := by
    have hleft : 2 * parentof nodeno + 1 < nodesPerPage := by
      unfold parentof
      omega
    unfold leftchild valueAt
    rw [if_pos hleft]
    split_ifs
    · rfl
    · exact (Nat.max_zero _).symm
  -- the node above the one that has just been made right is the only one that may be wrong
  have hstep (nodeno : Nat) (nodes : Nat → Nat) (value : Nat)
      (hvalue : value = max (valueAt nodes nodesPerPage (2 * parentof nodeno + 1))
        (valueAt nodes nodesPerPage (2 * parentof nodeno + 2)))
      (hright : ∀ x < nonLeafNodesPerPage, x ≠ parentof nodeno →
        nodes x = max (valueAt nodes nodesPerPage (2 * x + 1)) (valueAt nodes nodesPerPage (2 * x + 2)))
      (x : Nat) (hx : x < nonLeafNodesPerPage) (habove : 2 * x + 1 ≠ parentof nodeno ∧ 2 * x + 2 ≠ parentof nodeno) :
      update nodes (parentof nodeno) value x =
        max (valueAt (update nodes (parentof nodeno) value) nodesPerPage (2 * x + 1))
          (valueAt (update nodes (parentof nodeno) value) nodesPerPage (2 * x + 2)) := by
    rw [valueAt_update_of_ne _ habove.1, valueAt_update_of_ne _ habove.2]
    by_cases hparent : x = parentof nodeno
    · rw [hparent, update_self, hvalue]
    · rw [update_of_ne hparent]
      exact hright x hx hparent
  fun_induction propagate nodeno nodes with
  | case1 nodeno nodes parent lchild rchild newvalue heq =>
    intro x hx
    by_cases hparent : x = parentof nodeno
    · rw [hparent]
      exact heq.trans (hnew nodeno nodes hpos hin)
    · exact hright x hx hparent
  | case2 nodeno nodes parent lchild rchild newvalue hne nodes' hparent ih =>
    have hlt : parent < nodeno := by
      show parentof nodeno < nodeno
      unfold parentof
      omega
    refine ih hparent (lt_trans hlt hin) fun x hx habove => ?_
    have hne : 2 * x + 1 ≠ parent ∧ 2 * x + 2 ≠ parent := by
      unfold parentof at habove
      omega
    exact hstep nodeno nodes newvalue (hnew nodeno nodes hpos hin) hright x hx hne
  | case3 nodeno nodes parent lchild rchild newvalue hne nodes' hroot =>
    intro x hx
    have hne : 2 * x + 1 ≠ parent ∧ 2 * x + 2 ≠ parent := by omega
    exact hstep nodeno nodes newvalue (hnew nodeno nodes hpos hin) hright x hx hne

theorem setAvail_maxTree {p : FSMPage} (hp : p.MaxTree) (value : Nat) (hslot : slot < slotsPerFSMPage) :
    (fsmSetAvail p slot value).MaxTree := by
  have hleaf : nonLeafNodesPerPage + slot < nodesPerPage := by
    have hpages : nonLeafNodesPerPage + slotsPerFSMPage = nodesPerPage := by decide
    omega
  have hinner : 0 < nonLeafNodesPerPage := by decide
  have hset : IsMaxTree (propagate (nonLeafNodesPerPage + slot)
      (update p.fpNodes (nonLeafNodesPerPage + slot) value)) nonLeafNodesPerPage nodesPerPage := by
    refine propagate_maxTree _ _ (by omega) hleaf fun x hx hparent => ?_
    unfold parentof at hparent
    rw [update_of_ne (by omega), valueAt_update_of_ne _ (by omega), valueAt_update_of_ne _ (by omega)]
    exact hp x hx
  unfold fsmSetAvail
  dsimp only
  split_ifs
  · exact hp
  · exact (fsmRebuildPage_maxTree _).1
  · exact hset

theorem search_none {p : FSMPage} (hp : p.MaxTree) (hmin : 1 ≤ minvalue) {advancenext : Bool}
    (h : (p.search minvalue advancenext).1 = none) : ∀ t < slotsPerFSMPage, p.avail t < minvalue := by
  obtain ⟨res, q, heq, hans⟩ := search_of_maxTree hp hmin 1 advancenext
  refine hans.1.mp ?_
  unfold FSMPage.search at h
  rw [heq] at h
  by_contra hres
  obtain ⟨slot, rfl, -⟩ := hans.2 hres
  cases h

/-- A page whose slots are all too small has too little at its root. -/
theorem root_lt {p : FSMPage} (hp : p.MaxTree) (hmin : 1 ≤ minvalue) (h : ∀ t < slotsPerFSMPage, p.avail t < minvalue) :
    p.fpNodes 0 < minvalue := by
  by_contra hge
  obtain ⟨t, -, hs, -⟩ := hp.descend (l := 0) (j := 0) hmin height (Nat.zero_add _) (by decide)
    (by rw [valueAt_of_lt (by decide)]; exact Nat.le_of_not_lt hge)
  exact absurd hs.2 (Nat.not_le.mpr (h t hs.1))

theorem fsmSearchAvail_maxTree (restarts : Nat) {p q : FSMPage} (hp : p.MaxTree) {advancenext : Bool} {res : Int}
    (h : fsmSearchAvail restarts p minvalue advancenext = some (res, q)) : q.MaxTree := by
  induction restarts generalizing p with
  | zero =>
    obtain ⟨-, rfl⟩ | ⟨slot, -, -, hq⟩ | ⟨n, hn, -⟩ := fsmSearchAvail_cases h
    · exact hp
    · unfold FSMPage.MaxTree
      rw [hq]
      exact hp
    · cases hn
  | succ restarts ih =>
    obtain ⟨-, rfl⟩ | ⟨slot, -, -, hq⟩ | ⟨n, hn, hnext⟩ := fsmSearchAvail_cases h
    · exact hp
    · unfold FSMPage.MaxTree
      rw [hq]
      exact hp
    · obtain rfl := succ_inj.mp hn
      exact ih (fsmRebuildPage_maxTree p).1 hnext

theorem search_maxTree {p : FSMPage} (hp : p.MaxTree) (minvalue : Nat) (advancenext : Bool) :
    (p.search minvalue advancenext).2.MaxTree := by
  unfold FSMPage.search
  split
  case h_1 slot q h => exact fsmSearchAvail_maxTree 1 hp h
  case h_2 n q h => exact fsmSearchAvail_maxTree 1 hp h
  case h_3 => exact hp

namespace FsmFork
variable {f g h : FsmFork} {other : FSMAddress}

theorem Consistent.read (hf : f.Consistent) (addr : FSMAddress) (extend : Bool) :
    (f.fsmReadbuf addr extend).2.Consistent := by
  unfold fsmReadbuf
  dsimp only
  split_ifs
  · intro blkno _
    unfold fsmExtend nblocks
    dsimp only
    split_ifs with hnew
    · -- a page without space
      intro x _
      unfold valueAt
      rw [ite_self, ite_self]
      rfl
    · exact hf blkno (not_le.mp hnew)
  · exact hf
  · exact hf

theorem Consistent.setPage (hf : f.Consistent) {blkno : Nat} {page : FSMPage} (hpage : page.MaxTree) :
    (f.setPage blkno page).Consistent := by
  intro i hi
  unfold FsmFork.setPage
  dsimp only
  by_cases heq : i = blkno
  · rw [heq, update_self]
    exact hpage
  · rw [update_of_ne heq]
    exact hf i hi

theorem Consistent.set (hf : f.Consistent) (hslot : slot < slotsPerFSMPage) (addr : FSMAddress)
    (newValue minValue : Nat) : (f.fsmSetAndSearch addr slot newValue minValue).2.Consistent := by
  have hread := hf.read addr true
  have hset := setAvail_maxTree (hread _ (f.fsmReadbuf_true addr)) newValue hslot
  unfold fsmSetAndSearch
  dsimp only
  split_ifs
  · exact hread.setPage hset
  · exact hread.setPage (search_maxTree hset _ _)

theorem Consistent.searchPage (hf : f.Consistent) (addr : FSMAddress) (minCat : Nat) :
    (f.searchPage addr minCat).2.2.Consistent := by
  have hread := hf.read addr false
  obtain ⟨hvalid, hpage, -⟩ := f.fsmReadbuf_false addr
  unfold FsmFork.searchPage
  dsimp only
  split_ifs with hin
  · rw [hvalid] at hin
    refine hread.setPage (search_maxTree ?_ _ _)
    rw [hpage]
    exact hf _ (of_decide_eq_true hin)
  · exact hread

variable {minCat : Nat}

/-- Where nothing is found, all slots are too small, and so is what is told to the page above. -/
theorem searchPage_none (hf : f.Consistent) (hmin : 1 ≤ minCat) (h : (f.searchPage addr minCat).1 = none) :
    (∀ t < slotsPerFSMPage, f.slotOf addr t < minCat) ∧ (f.searchPage addr minCat).2.1 < minCat := by
  obtain ⟨hvalid, hpage, -⟩ := f.fsmReadbuf_false addr
  unfold FsmFork.searchPage at h ⊢
  unfold slotOf
  dsimp only at h ⊢
  rw [hvalid, hpage] at h ⊢
  by_cases hin : fsmLogicalToPhysical addr < f.nblocks
  · rw [if_pos (decide_eq_true hin)] at h ⊢
    have hmax := hf _ hin
    have hsmall := search_none hmax hmin h
    refine ⟨fun t ht => ?_, ?_⟩
    · rw [if_pos hin]
      exact hsmall t ht
    · refine root_lt (search_maxTree hmax _ _) hmin fun t ht => ?_
      rw [search_avail]
      exact hsmall t ht
  · rw [if_neg fun h => hin (of_decide_eq_true h)]
    refine ⟨fun t _ => ?_, hmin⟩
    rw [if_neg hin]
    exact hmin

/-! ### A search that succeeds -/

/-- No slot of a bottom page that has enough can be reached from a page through slots that promise it. -/
def Barren (f : FsmFork) (minCat : Nat) : (level logpageno : Nat) → Prop
  | 0, no => ∀ t < slotsPerFSMPage, f.slotOf ⟨0, no⟩ t < minCat
  | level + 1, no => ∀ t < slotsPerFSMPage, minCat ≤ f.slotOf ⟨level + 1, no⟩ t →
      f.Barren minCat level (no * slotsPerFSMPage + t)

/-- The slot above a page promises what is not below it. -/
structure Hollow (f : FsmFork) (minCat : Nat) (addr : FSMAddress) : Prop where
  valid : addr.Valid
  level_ne : addr.level ≠ fsmRootLevel
  promised : minCat ≤ f.slotOf (fsmGetParent addr).1 (fsmGetParent addr).2
  barren : f.Barren minCat addr.level addr.logpageno

/-- At most `n` slots promise what is not below them. -/
def HollowAtMost (f : FsmFork) (minCat n : Nat) : Prop :=
  ∃ places : List FSMAddress, places.length ≤ n ∧ ∀ addr, f.Hollow minCat addr → addr ∈ places

theorem barren_of_small (h : ∀ t < slotsPerFSMPage, f.slotOf addr t < minCat) :
    f.Barren minCat addr.level addr.logpageno := by
  obtain ⟨level, no⟩ := addr
  cases level with
  | zero => exact h
  | succ level => exact fun t ht hle => absurd hle (not_le.mpr (h t ht))

theorem barren_congr (hsame : ∀ other t, g.slotOf other t = f.slotOf other t) (level no : Nat) :
    g.Barren minCat level no ↔ f.Barren minCat level no := by
  induction level generalizing no with
  | zero =>
    unfold Barren
    simp only [hsame]
  | succ level ih =>
    unfold Barren
    simp only [hsame, ih]

theorem hollow_congr (hsame : ∀ other t, g.slotOf other t = f.slotOf other t) :
    g.Hollow minCat addr ↔ f.Hollow minCat addr := by
  constructor
  · rintro ⟨hv, hne, hpromised, hbarren⟩
    exact ⟨hv, hne, hsame _ _ ▸ hpromised, (barren_congr hsame _ _).mp hbarren⟩
  · rintro ⟨hv, hne, hpromised, hbarren⟩
    exact ⟨hv, hne, (hsame _ _).symm ▸ hpromised, (barren_congr hsame _ _).mpr hbarren⟩

/-- Slots of `g` that are not those of `f` promise nothing, or something that is not there in `f`. -/
theorem Barren.of_less (level no : Nat) (hv : FSMAddress.Valid ⟨level, no⟩)
    (hbottom : ∀ p < bottomPages, ∀ t < slotsPerFSMPage, g.slotOf ⟨0, p⟩ t = f.slotOf ⟨0, p⟩ t)
    (hupper : ∀ level no, FSMAddress.Valid ⟨level + 1, no⟩ → ∀ t < slotsPerFSMPage,
      g.slotOf ⟨level + 1, no⟩ t = f.slotOf ⟨level + 1, no⟩ t ∨
        f.Barren minCat level (no * slotsPerFSMPage + t))
    (h : g.Barren minCat level no) : f.Barren minCat level no := by
  induction level generalizing no with
  | zero =>
    intro t ht
    rw [← hbottom no hv.logpageno_lt t ht]
    exact h t ht
  | succ level ih =>
    intro t ht hle
    rcases hupper level no hv t ht with heq | hbarren
    · exact ih _ (child_valid hv (succ_ne_zero _) ht) (h t ht (heq ▸ hle))
    · exact hbarren

/-- Slots of `g` that are not those of `f` have enough. -/
theorem Barren.of_more (level no : Nat) (hv : FSMAddress.Valid ⟨level, no⟩)
    (hmore : ∀ addr, FSMAddress.Valid addr → ∀ t < slotsPerFSMPage, g.slotOf addr t = f.slotOf addr t ∨
      minCat ≤ g.slotOf addr t)
    (h : g.Barren minCat level no) : f.Barren minCat level no := by
  induction level generalizing no with
  | zero =>
    intro t ht
    rcases hmore _ hv t ht with heq | hle
    · exact heq ▸ h t ht
    · exact absurd hle (not_le.mpr (h t ht))
  | succ level ih =>
    intro t ht hle
    refine ih _ (child_valid hv (succ_ne_zero _) ht) (h t ht ?_)
    rcases hmore _ hv t ht with heq | hge
    · exact heq ▸ hle
    · exact hge

theorem child_parent (addr : FSMAddress) :
    fsmGetChild (fsmGetParent addr).1 (fsmGetParent addr).2 = addr := by
  unfold fsmGetChild fsmGetParent
  dsimp only
  rw [Nat.add_sub_cancel, Nat.div_add_mod']

/-- After a promise that was not kept has been corrected, the page above it is no longer hollow, and no page has become
so. -/
theorem hollow_corrected {maxAvail : Nat} (haddr : f.Hollow minCat addr) (hmax : maxAvail < minCat)
    (g : FsmFork) (hg : g = (f.fsmSetAndSearch (fsmGetParent addr).1 (fsmGetParent addr).2 maxAvail 0).2) :
    (∀ other, g.Hollow minCat other → other ≠ addr ∧ f.Hollow minCat other) ∧
      (g.Barren minCat fsmRootLevel 0 → f.Barren minCat fsmRootLevel 0) := by
  have hparent := parent_valid haddr.valid haddr.level_ne
  have hslot := parentslot_lt addr
  have hother (other : FSMAddress) (ho : other.Valid) (t : Nat)
      (hne : other = (fsmGetParent addr).1 → t ≠ (fsmGetParent addr).2) : g.slotOf other t = f.slotOf other t := by
    rw [hg]
    exact f.fsmSetAndSearch_slotOf hparent ho hslot maxAvail 0 hne
  have hself : g.slotOf (fsmGetParent addr).1 (fsmGetParent addr).2 = maxAvail := by
    rw [hg]
    exact f.fsmSetAndSearch_self _ hslot maxAvail 0
  have hbarren (level no : Nat) (hv : FSMAddress.Valid ⟨level, no⟩) (h : g.Barren minCat level no) :
      f.Barren minCat level no := by
    refine Barren.of_less level no hv (fun p hp t ht => hother _ (bottom_valid hp) t fun heq => ?_)
      (fun level no hv t ht => ?_) h
    · exact absurd (congrArg FSMAddress.level heq) (succ_ne_zero addr.level).symm
    · by_cases hthis : (⟨level + 1, no⟩ : FSMAddress) = (fsmGetParent addr).1 ∧ t = (fsmGetParent addr).2
      · obtain ⟨hpage, rfl⟩ := hthis
        have hchild := child_parent addr
        rw [← hpage] at hchild
        refine .inr ?_
        have hb := haddr.barren
        rw [← hchild] at hb
        exact hb
      · exact .inl (hother _ hv t fun h1 h2 => hthis ⟨h1, h2⟩)
  refine ⟨fun other ho => ?_, hbarren _ _ root_valid⟩
  have hne : other ≠ addr := by
    rintro rfl
    exact absurd ho.promised (by rw [hself]; exact not_le.mpr hmax)
  refine ⟨hne, ho.valid, ho.level_ne, ?_, hbarren _ _ ho.valid ho.barren⟩
  rw [← hother _ (parent_valid ho.valid ho.level_ne)]
  · exact ho.promised
  · intro h1 h2
    refine hne ?_
    rw [← child_parent other, ← child_parent addr, h1, h2]

/-- A search ends at a block if one can be reached from the root and not too many promises are hollow. -/
theorem fsmSearch_succeeds (minCat restarts : Nat) (addr : FSMAddress) (f : FsmFork) (hmin : 1 ≤ minCat)
    (hf : f.Consistent) (hroot : ¬f.Barren minCat fsmRootLevel 0) (hv : addr.Valid)
    (hpath : addr.level ≠ fsmRootLevel → minCat ≤ f.slotOf (fsmGetParent addr).1 (fsmGetParent addr).2)
    (hhollow : ∃ n, n + restarts ≤ 10001 ∧ f.HollowAtMost minCat n) :
    ∃ b, (fsmSearch minCat restarts addr f).1 = some b := by
  have hread (f : FsmFork) (addr : FSMAddress) {slot : Option Nat} {maxAvail : Nat} {g : FsmFork}
      (hpage : f.searchPage addr minCat = (slot, maxAvail, g)) (hf : f.Consistent) :
      g.Consistent ∧ ∀ other t, g.slotOf other t = f.slotOf other t := by
    have hcons := hf.searchPage addr minCat
    have hslots (other : FSMAddress) (t : Nat) := (f.searchPage_slotOf addr minCat : _ = f.slotOf other t)
    rw [hpage] at hcons hslots
    exact ⟨hcons, hslots⟩
  have hfails (f : FsmFork) (addr : FSMAddress) {maxAvail : Nat} {g : FsmFork}
      (hpage : f.searchPage addr minCat = (none, maxAvail, g)) (hf : f.Consistent) :
      f.Barren minCat addr.level addr.logpageno ∧ maxAvail < minCat := by
    have hnone : (f.searchPage addr minCat).1 = none := by rw [hpage]
    obtain ⟨hsmall, hmax⟩ := searchPage_none hf hmin hnone
    rw [hpage] at hmax
    exact ⟨barren_of_small hsmall, hmax⟩
  fun_induction fsmSearch minCat restarts addr f with
  | case1 restarts addr f slot maxAvail g hpage hlevel => exact ⟨_, rfl⟩
  | case2 restarts addr f slot maxAvail g hpage hlevel ih =>
    obtain ⟨hg, hslots⟩ := hread f addr hpage hf
    have hfound : (f.searchPage addr minCat).1 = some slot := by rw [hpage]
    obtain ⟨hslot, hpromised⟩ := f.searchPage_found hfound
    obtain ⟨n, hn, places, hlen, hplaces⟩ := hhollow
    refine ih hg (fun h => hroot ((barren_congr hslots _ _).mp h)) (child_valid hv hlevel hslot) (fun _ => ?_)
      ⟨n, hn, places, hlen, fun a ha => hplaces a ((hollow_congr hslots).mp ha)⟩
    rw [parent_child hlevel hslot, hslots]
    exact hpromised
  | case3 restarts addr f maxAvail g hpage hlevel =>
    obtain ⟨hbarren, -⟩ := hfails f addr hpage hf
    have hno := hv.logpageno_lt
    rw [hlevel, Nat.sub_self, Nat.pow_zero, Nat.lt_one_iff] at hno
    rw [hlevel, hno] at hbarren
    exact absurd hbarren hroot
  | case4 restarts addr f maxAvail g hpage hlevel parent g' hmany =>
    obtain ⟨hbarren, -⟩ := hfails f addr hpage hf
    obtain ⟨n, hn, places, hlen, hplaces⟩ := hhollow
    have hmem := length_pos_of_mem (hplaces addr ⟨hv, hlevel, hpath hlevel, hbarren⟩)
    omega
  | case5 restarts addr f maxAvail g hpage hlevel parent g' hfew ih =>
    obtain ⟨hg, hslots⟩ := hread f addr hpage hf
    obtain ⟨hbarren, hmax⟩ := hfails f addr hpage hf
    have haddr : f.Hollow minCat addr := ⟨hv, hlevel, hpath hlevel, hbarren⟩
    obtain ⟨hless, hkept⟩ := hollow_corrected ((hollow_congr hslots).mpr haddr) hmax g' rfl
    obtain ⟨n, hn, places, hlen, hplaces⟩ := hhollow
    have hmem := hplaces addr haddr
    have hpos := length_pos_of_mem hmem
    refine ih (hg.set (parentslot_lt addr) _ maxAvail 0)
      (fun h => hroot ((barren_congr hslots _ _).mp (hkept h))) root_valid (fun h => absurd rfl h)
      ⟨n - 1, by omega, places.erase addr, ?_, fun a ha => ?_⟩
    · rw [length_erase_of_mem hmem]
      omega
    · obtain ⟨hne, ha⟩ := hless a ha
      exact (mem_erase_of_ne hne).mpr (hplaces a ((hollow_congr hslots).mp ha))

/-! ### The slots above a range of pages -/

/-- A slot above one of the bottom pages. -/
def Above (pages : List Nat) (addr : FSMAddress) (t : Nat) : Prop :=
  addr.level = 1 ∧ addr.logpageno * slotsPerFSMPage + t ∈ pages ∨
    addr.level = 2 ∧ ∃ p ∈ pages, p / slotsPerFSMPage = t

/-- The rounds for some bottom pages. -/
def rounds (newCat : Nat) (pages : List Nat) (f : FsmFork) : FsmFork :=
  pages.foldl (fun f p => fsmUpdateRecursive newCat ⟨0, p⟩ f) f

/-- `RecordPageWithFreeSpace` for some blocks. -/
def recordAll (freespace : Nat) (blocks : List Nat) (f : FsmFork) : FsmFork :=
  blocks.foldl (fun f b => f.recordPageWithFreeSpace b freespace) f

theorem fsmUpdateRecursive_eq (newCat : Nat) (hp : p < bottomPages) (f : FsmFork) :
    fsmUpdateRecursive newCat ⟨0, p⟩ f =
      ((f.fsmSetAndSearch ⟨1, p / slotsPerFSMPage⟩ (p % slotsPerFSMPage) newCat 0).2.fsmSetAndSearch fsmRootAddress
        (p / slotsPerFSMPage) newCat 0).2 := by
  have hroot : p / slotsPerFSMPage / slotsPerFSMPage = 0 := by
    rw [bottomPages_eq] at hp
    rw [slots_eq]
    omega
  have hmod : p / slotsPerFSMPage % slotsPerFSMPage = p / slotsPerFSMPage := by
    rw [bottomPages_eq] at hp
    rw [slots_eq]
    omega
  rw [fsmUpdateRecursive, dif_neg (show ¬fsmRootLevel ≤ 0 by decide)]
  dsimp only [fsmGetParent]
  rw [fsmUpdateRecursive, dif_neg (show ¬fsmRootLevel ≤ 0 + 1 by decide)]
  dsimp only [fsmGetParent]
  rw [fsmUpdateRecursive, dif_pos (show fsmRootLevel ≤ 0 + 1 + 1 by decide), hroot, hmod]
  rfl

theorem middle_valid (hp : p < bottomPages) : FSMAddress.Valid ⟨1, p / slotsPerFSMPage⟩ := by
  refine ⟨show 1 ≤ 2 by decide, ?_⟩
  rw [bottomPages_eq] at hp
  simp only [slots_eq, fsmRootLevel]
  omega

theorem root_slot_lt (hp : p < bottomPages) : p / slotsPerFSMPage < slotsPerFSMPage := by
  rw [bottomPages_eq] at hp
  rw [slots_eq]
  omega

theorem Valid.eq_root (hv : addr.Valid) (hlevel : addr.level = 2) : addr = fsmRootAddress := by
  obtain ⟨level, no⟩ := addr
  obtain rfl : level = 2 := hlevel
  have hno : no < slotsPerFSMPage ^ 0 := hv.logpageno_lt
  exact congrArg (FSMAddress.mk 2) (lt_one_iff.mp hno)

/-- One round. -/
theorem fsmUpdateRecursive_slotOf (newCat : Nat) (hp : p < bottomPages) (f : FsmFork) (hv : addr.Valid)
    (ht : t < slotsPerFSMPage) :
    (Above [p] addr t → (fsmUpdateRecursive newCat ⟨0, p⟩ f).slotOf addr t = newCat) ∧
      (¬Above [p] addr t → (fsmUpdateRecursive newCat ⟨0, p⟩ f).slotOf addr t = f.slotOf addr t) := by
  have hmod : p % slotsPerFSMPage < slotsPerFSMPage := mod_lt _ (by decide)
  have hdiv := div_add_mod' p slotsPerFSMPage
  rw [fsmUpdateRecursive_eq newCat hp]
  constructor
  · rintro (⟨hlevel, hmem⟩ | ⟨hlevel, p', hmem, hslot⟩)
    · obtain ⟨level, no⟩ := addr
      obtain rfl : level = 1 := hlevel
      obtain rfl := mem_singleton.mp hmem
      rw [fsmSetAndSearch_slotOf _ root_valid hv (root_slot_lt hp) newCat 0
        fun heq => absurd (congrArg FSMAddress.level heq) (show ¬1 = 2 by decide)]
      have hpage : (no * slotsPerFSMPage + t) / slotsPerFSMPage = no := by
        rw [slots_eq] at ht ⊢
        omega
      rw [hpage, mul_add_mod_of_lt ht]
      exact f.fsmSetAndSearch_self _ ht newCat 0
    · obtain rfl := mem_singleton.mp hmem
      rw [Valid.eq_root hv hlevel, ← hslot]
      exact fsmSetAndSearch_self _ _ (root_slot_lt hp) newCat 0
  · intro hnot
    rw [fsmSetAndSearch_slotOf _ root_valid hv (root_slot_lt hp) newCat 0,
      fsmSetAndSearch_slotOf _ (middle_valid hp) hv hmod newCat 0]
    · rintro rfl rfl
      exact hnot (.inl ⟨rfl, mem_singleton.mpr hdiv⟩)
    · rintro rfl rfl
      exact hnot (.inr ⟨rfl, p, mem_singleton_self p, rfl⟩)

theorem above_cons (p : Nat) (pages : List Nat) :
    Above (p :: pages) addr t ↔ Above [p] addr t ∨ Above pages addr t := by
  unfold Above
  simp only [mem_cons, not_mem_nil, or_false, exists_eq_or_imp]
  constructor
  · rintro (⟨h1, h2 | h2⟩ | ⟨h1, h2 | h2⟩)
    · exact .inl (.inl ⟨h1, h2⟩)
    · exact .inr (.inl ⟨h1, h2⟩)
    · exact .inl (.inr ⟨h1, p, rfl, h2⟩)
    · exact .inr (.inr ⟨h1, h2⟩)
  · rintro ((⟨h1, h2⟩ | ⟨h1, p', rfl, h2⟩) | (⟨h1, h2⟩ | ⟨h1, h2⟩))
    · exact .inl ⟨h1, .inl h2⟩
    · exact .inr ⟨h1, .inl h2⟩
    · exact .inl ⟨h1, .inr h2⟩
    · exact .inr ⟨h1, .inr h2⟩

/-- All rounds: the slots above the pages have the new category, and no other slot has changed. -/
theorem rounds_slotOf (newCat : Nat) (pages : List Nat) (hpages : ∀ p ∈ pages, p < bottomPages) (f : FsmFork)
    (hv : addr.Valid) (ht : t < slotsPerFSMPage) :
    (Above pages addr t → (rounds newCat pages f).slotOf addr t = newCat) ∧
      (¬Above pages addr t → (rounds newCat pages f).slotOf addr t = f.slotOf addr t) := by
  induction pages generalizing f with
  | nil =>
    refine ⟨?_, fun _ => rfl⟩
    rintro (⟨-, h⟩ | ⟨-, p, h, -⟩)
    · cases h
    · cases h
  | cons p pages ih =>
    obtain ⟨hyes, hno⟩ := fsmUpdateRecursive_slotOf newCat (hpages p mem_cons_self) f hv ht
    obtain ⟨ihyes, ihno⟩ := ih (fun x hx => hpages x (mem_cons_of_mem _ hx)) (fsmUpdateRecursive newCat ⟨0, p⟩ f)
    constructor
    · intro habove
      by_cases hrest : Above pages addr t
      · exact ihyes hrest
      · exact (ihno hrest).trans (hyes (((above_cons p pages).mp habove).resolve_right hrest))
    · intro hnot
      have hnone := fun h => hnot ((above_cons p pages).mpr h)
      exact (ihno fun h => hnone (.inr h)).trans (hno fun h => hnone (.inl h))

theorem rounds_consistent (newCat : Nat) (pages : List Nat) (hpages : ∀ p ∈ pages, p < bottomPages)
    (hf : f.Consistent) : (rounds newCat pages f).Consistent := by
  induction pages generalizing f with
  | nil => exact hf
  | cons p pages ih =>
    have hp := hpages p mem_cons_self
    refine ih (fun x hx => hpages x (mem_cons_of_mem _ hx)) ?_
    show (fsmUpdateRecursive newCat ⟨0, p⟩ f).Consistent
    rw [fsmUpdateRecursive_eq newCat hp]
    exact (hf.set (mod_lt _ (by decide)) _ newCat 0).set (root_slot_lt hp) _ newCat 0

/-- The slot of one of the blocks. -/
def SlotIn (blocks : List Nat) (addr : FSMAddress) (t : Nat) : Prop :=
  addr.level = 0 ∧ addr.logpageno * slotsPerFSMPage + t ∈ blocks

theorem recordAll_slotOf (freespace : Nat) (blocks : List Nat) (hblocks : ∀ b ∈ blocks, b < 2 ^ 32) (f : FsmFork)
    (hv : addr.Valid) (ht : t < slotsPerFSMPage) :
    (SlotIn blocks addr t → (recordAll freespace blocks f).slotOf addr t = fsmSpaceAvailToCat freespace) ∧
      (¬SlotIn blocks addr t → (recordAll freespace blocks f).slotOf addr t = f.slotOf addr t) := by
  induction blocks generalizing f with
  | nil => exact ⟨fun h => absurd h.2 not_mem_nil, fun _ => rfl⟩
  | cons b blocks ih =>
    have hb := hblocks b mem_cons_self
    obtain ⟨ihyes, ihno⟩ := ih (fun x hx => hblocks x (mem_cons_of_mem _ hx))
      (f.recordPageWithFreeSpace b freespace)
    constructor
    · rintro ⟨hlevel, hmem⟩
      by_cases hrest : SlotIn blocks addr t
      · exact ihyes hrest
      · refine (ihno hrest).trans ?_
        obtain ⟨level, no⟩ := addr
        obtain rfl : level = 0 := hlevel
        rcases mem_cons.mp hmem with heq | htail
        · have hpage : b / slotsPerFSMPage = no := by
            rw [slots_eq] at heq ht ⊢
            dsimp only at heq
            omega
          have hslot : b % slotsPerFSMPage = t := by
            rw [← heq]
            exact mul_add_mod_of_lt ht
          unfold recordPageWithFreeSpace
          dsimp only [fsmGetLocation]
          rw [hpage, hslot]
          exact f.fsmSetAndSearch_self _ ht _ 0
        · exact absurd ⟨rfl, htail⟩ hrest
    · intro hnot
      refine (ihno fun h => hnot ⟨h.1, mem_cons_of_mem _ h.2⟩).trans ?_
      refine f.fsmSetAndSearch_slotOf (location_valid hb) hv (location_slot_lt b) _ 0 ?_
      rintro rfl rfl
      refine hnot ⟨rfl, ?_⟩
      dsimp only [fsmGetLocation]
      rw [div_add_mod']
      exact mem_cons_self

theorem recordAll_consistent (freespace : Nat) (blocks : List Nat) (hf : f.Consistent) :
    (recordAll freespace blocks f).Consistent := by
  induction blocks generalizing f with
  | nil => exact hf
  | cons b blocks ih => exact ih (hf.set (location_slot_lt b) _ _ 0)

/-- The bottom pages of a range of blocks. -/
def pagesOf (startBlkNum endBlkNum : Nat) : List Nat :=
  List.range' (startBlkNum / slotsPerFSMPage) (endBlkNum / slotsPerFSMPage + 1 - startBlkNum / slotsPerFSMPage)

def blocksOf (startBlkNum endBlkNum : Nat) : List Nat := List.range' startBlkNum (endBlkNum + 1 - startBlkNum)

variable {startBlkNum endBlkNum : Nat}

theorem mem_pagesOf (hle : startBlkNum ≤ endBlkNum) : p ∈ pagesOf startBlkNum endBlkNum ↔
    startBlkNum / slotsPerFSMPage ≤ p ∧ p ≤ endBlkNum / slotsPerFSMPage := by
  have hdiv := div_le_div_right (c := slotsPerFSMPage) hle
  unfold pagesOf
  rw [mem_range'_1]
  omega

theorem mem_blocksOf (hle : startBlkNum ≤ endBlkNum) {b : Nat} :
    b ∈ blocksOf startBlkNum endBlkNum ↔ startBlkNum ≤ b ∧ b ≤ endBlkNum := by
  unfold blocksOf
  rw [mem_range'_1]
  omega

/-- The last page of the 32-bit block numbers is not full: the number of the last block on it wraps. -/
def lastPage : Nat := 2 ^ 32 / slotsPerFSMPage

theorem lastPage_eq : lastPage = 1055533 := by decide

theorem lastblckno_eq (p : Nat) : fsmGetLastblckno ⟨0, p⟩ = (p * 4069 + 4068) % 2 ^ 32 := by
  unfold fsmGetLastblckno fsmGetHeapBlk
  rw [slots_eq]

/-- What the loop has done if it ends. -/
theorem updateFreeSpaceMapLoop_eq (freespace fuel : Nat) (f : FsmFork) {pages : List Nat}
    (h : updateFreeSpaceMapLoop endBlkNum freespace fuel startBlkNum f = some (pages, g)) :
    g = rounds (fsmSpaceAvailToCat freespace) pages f := by
  induction fuel generalizing startBlkNum f pages g with
  | zero => cases h
  | succ fuel ih =>
    unfold updateFreeSpaceMapLoop at h
    dsimp only at h
    split_ifs at h
    · cases h
      rfl
    · obtain ⟨⟨rest, g'⟩, hrest, heq⟩ := Option.map_eq_some_iff.mp h
      have hg := ih _ hrest
      cases heq
      exact hg
    · cases h
      rfl

/-- Away from the last page the loop visits each page once. -/
theorem updateFreeSpaceMapLoop_ends (freespace n : Nat) (f : FsmFork)
    (hn : endBlkNum / slotsPerFSMPage = startBlkNum / slotsPerFSMPage + n) (hle : startBlkNum ≤ endBlkNum)
    (hlast : endBlkNum / slotsPerFSMPage < lastPage) :
    ∃ g, updateFreeSpaceMapLoop endBlkNum freespace (n + 1) startBlkNum f =
      some (range' (startBlkNum / slotsPerFSMPage) (n + 1), g) := by
  rw [slots_eq, lastPage_eq] at *
  have hblk : (startBlkNum / 4069 * 4069 + 4068) % 2 ^ 32 = startBlkNum / 4069 * 4069 + 4068 := by
    refine mod_eq_of_lt ?_
    omega
  induction n generalizing startBlkNum f with
  | zero =>
    unfold updateFreeSpaceMapLoop
    rw [if_pos hle]
    dsimp only [fsmGetLocation]
    rw [lastblckno_eq, slots_eq, hblk, if_pos (by omega)]
    exact ⟨_, rfl⟩
  | succ n ih =>
    have hnext : (startBlkNum / 4069 * 4069 + 4068 + 1) % 2 ^ 32 = (startBlkNum / 4069 + 1) * 4069 := by
      rw [Nat.mod_eq_of_lt (by omega)]
      omega
    have hdiv : (startBlkNum / 4069 + 1) * 4069 / 4069 = startBlkNum / 4069 + 1 := Nat.mul_div_cancel _ (by decide)
    have hrest : ∃ g, updateFreeSpaceMapLoop endBlkNum freespace (n + 1) ((startBlkNum / 4069 + 1) * 4069)
        (f.updateFreeSpaceMap startBlkNum freespace) =
          some (range' ((startBlkNum / 4069 + 1) * 4069 / 4069) (n + 1), g) :=
      ih _ (by rw [hdiv]; omega) (by omega) (by rw [hdiv]; exact mod_eq_of_lt (by omega))
    obtain ⟨g, hg⟩ := hrest
    unfold updateFreeSpaceMapLoop
    rw [if_pos hle]
    dsimp only [fsmGetLocation]
    rw [lastblckno_eq, slots_eq, hblk, if_neg (by omega), hnext, hg, hdiv]
    exact ⟨g, rfl⟩

/-- A range that ends on the last page is never done. -/
theorem updateFreeSpaceMapLoop_never (freespace fuel : Nat) (f : FsmFork) (hle : startBlkNum ≤ endBlkNum)
    (hend : endBlkNum < 2 ^ 32) (hlast : endBlkNum / slotsPerFSMPage = lastPage) :
    updateFreeSpaceMapLoop endBlkNum freespace fuel startBlkNum f = none := by
  rw [slots_eq, lastPage_eq] at hlast
  induction fuel generalizing startBlkNum f with
  | zero => rfl
  | succ fuel ih =>
    have hpage : startBlkNum / 4069 ≤ 1055533 := hlast ▸ div_le_div_right hle
    have hnext : (startBlkNum / 4069 * 4069 + 4068) % 2 ^ 32 < endBlkNum ∧
        ((startBlkNum / 4069 * 4069 + 4068) % 2 ^ 32 + 1) % 2 ^ 32 ≤ endBlkNum := by
      rcases lt_or_eq_of_le hpage with hbefore | hthis
      · rw [mod_eq_of_lt (show startBlkNum / 4069 * 4069 + 4068 < 2 ^ 32 by omega), mod_eq_of_lt (by omega)]
        omega
      · -- the number of the last block is 549
        rw [hthis]
        omega
    unfold updateFreeSpaceMapLoop
    rw [if_pos hle]
    dsimp only [fsmGetLocation]
    rw [lastblckno_eq, slots_eq, if_neg (not_le.mpr hnext.1), ih _ hnext.2]
    rfl

/-! ### What the update is for -/

/-- The category of a block. -/
def category (f : FsmFork) (b : Nat) : Nat := f.slotOf (fsmGetLocation b).1 (fsmGetLocation b).2

/-- The slots above a block promise at least its category. -/
def Findable (f : FsmFork) (b : Nat) : Prop :=
  f.category b ≤ f.slotOf ⟨1, b / slotsPerFSMPage / slotsPerFSMPage⟩ (b / slotsPerFSMPage % slotsPerFSMPage) ∧
    f.category b ≤ f.slotOf fsmRootAddress (b / slotsPerFSMPage / slotsPerFSMPage)

/-- After the blocks have been recorded with some space, the loop ends, having visited each of their pages once. Then a
search for as much succeeds, and what was findable with more still is. -/
def MakesVisible (f : FsmFork) (startBlkNum endBlkNum freespace : Nat) : Prop :=
  ∃ fuel h, updateFreeSpaceMapLoop endBlkNum freespace fuel startBlkNum
      (recordAll freespace (blocksOf startBlkNum endBlkNum) f) = some (pagesOf startBlkNum endBlkNum, h) ∧
    (∀ spaceNeeded minCat, fsmSpaceNeededToCat spaceNeeded = .ok minCat → minCat ≤ fsmSpaceAvailToCat freespace →
      ∃ b h', h.getPageWithFreeSpace spaceNeeded = .ok (some b, h')) ∧
    ∀ b < 2 ^ 32, (recordAll freespace (blocksOf startBlkNum endBlkNum) f).Findable b →
      fsmSpaceAvailToCat freespace < (recordAll freespace (blocksOf startBlkNum endBlkNum) f).category b → h.Findable b

/-- No larger space can be found below the middle pages that are above the range. -/
def NothingHidden (f : FsmFork) (startBlkNum endBlkNum freespace : Nat) : Prop :=
  ∀ b < 2 ^ 32, ¬(startBlkNum ≤ b ∧ b ≤ endBlkNum) → f.Findable b → fsmSpaceAvailToCat freespace < f.category b →
    b / slotsPerFSMPage / slotsPerFSMPage < startBlkNum / slotsPerFSMPage / slotsPerFSMPage ∨
      endBlkNum / slotsPerFSMPage / slotsPerFSMPage < b / slotsPerFSMPage / slotsPerFSMPage

/-- The fork after the blocks have been recorded and their pages visited. -/
def filled (f : FsmFork) (startBlkNum endBlkNum freespace : Nat) : FsmFork :=
  rounds (fsmSpaceAvailToCat freespace) (pagesOf startBlkNum endBlkNum)
    (recordAll freespace (blocksOf startBlkNum endBlkNum) f)

section
variable {freespace minCat : Nat} (hle : startBlkNum ≤ endBlkNum) (hend : endBlkNum < 2 ^ 32)
include hle hend

theorem pagesOf_lt : ∀ p ∈ pagesOf startBlkNum endBlkNum, p < bottomPages :=
  fun _ hp => lt_of_le_of_lt ((mem_pagesOf hle).mp hp).2 (location_page_lt hend)

theorem blocksOf_lt : ∀ b ∈ blocksOf startBlkNum endBlkNum, b < 2 ^ 32 :=
  fun _ hb => lt_of_le_of_lt ((mem_blocksOf hle).mp hb).2 hend

theorem filled_slotOf (f : FsmFork) (freespace : Nat) (hv : addr.Valid) (ht : t < slotsPerFSMPage) :
    (SlotIn (blocksOf startBlkNum endBlkNum) addr t ∨ Above (pagesOf startBlkNum endBlkNum) addr t →
      (f.filled startBlkNum endBlkNum freespace).slotOf addr t = fsmSpaceAvailToCat freespace) ∧
    (¬SlotIn (blocksOf startBlkNum endBlkNum) addr t → ¬Above (pagesOf startBlkNum endBlkNum) addr t →
      (f.filled startBlkNum endBlkNum freespace).slotOf addr t = f.slotOf addr t) := by
  obtain ⟨hyes, hno⟩ := rounds_slotOf (fsmSpaceAvailToCat freespace) _ (pagesOf_lt hle hend)
    (recordAll freespace (blocksOf startBlkNum endBlkNum) f) hv ht
  obtain ⟨hin, hout⟩ := recordAll_slotOf freespace _ (blocksOf_lt hle hend) f hv ht
  refine ⟨fun h => ?_, fun h1 h2 => (hno h2).trans (hout h1)⟩
  by_cases habove : Above (pagesOf startBlkNum endBlkNum) addr t
  · exact hyes habove
  · exact (hno habove).trans (hin (h.resolve_right habove))

/-- From the root to the blocks, each slot has their category. -/
theorem filled_not_barren (f : FsmFork) (hmin : minCat ≤ fsmSpaceAvailToCat freespace)
    (hp : p ∈ pagesOf startBlkNum endBlkNum) :
    ¬(f.filled startBlkNum endBlkNum freespace).Barren minCat 0 p ∧
      ¬(f.filled startBlkNum endBlkNum freespace).Barren minCat 1 (p / slotsPerFSMPage) ∧
      ¬(f.filled startBlkNum endBlkNum freespace).Barren minCat 2 0 := by
  have hlt := pagesOf_lt hle hend p hp
  have hmod : p % slotsPerFSMPage < slotsPerFSMPage := mod_lt _ (by decide)
  have hbottom : ¬(f.filled startBlkNum endBlkNum freespace).Barren minCat 0 p := by
    intro hbarren
    obtain ⟨b, hb, hpage⟩ : ∃ b, (startBlkNum ≤ b ∧ b ≤ endBlkNum) ∧ b / slotsPerFSMPage = p := by
      have hbetween := (mem_pagesOf hle).mp hp
      refine ⟨max startBlkNum (p * slotsPerFSMPage), ?_⟩
      rw [slots_eq] at hbetween ⊢
      omega
    have hslot : b % slotsPerFSMPage < slotsPerFSMPage := location_slot_lt b
    have hfilled := (filled_slotOf hle hend f freespace (bottom_valid hlt) hslot).1
      (.inl ⟨rfl, by rw [← hpage, div_add_mod']; exact (mem_blocksOf hle).mpr hb⟩)
    exact absurd (hbarren _ hslot) (not_lt.mpr (hfilled ▸ hmin))
  have hmiddle : ¬(f.filled startBlkNum endBlkNum freespace).Barren minCat 1 (p / slotsPerFSMPage) := by
    intro hbarren
    have hfilled := (filled_slotOf hle hend f freespace (middle_valid hlt) hmod).1
      (.inr (.inl ⟨rfl, by rw [div_add_mod']; exact hp⟩))
    have hbelow := hbarren _ hmod (hfilled ▸ hmin)
    rw [div_add_mod'] at hbelow
    exact hbottom hbelow
  refine ⟨hbottom, hmiddle, fun hbarren => ?_⟩
  have hfilled := (filled_slotOf hle hend f freespace root_valid (root_slot_lt hlt)).1 (.inr (.inr ⟨rfl, p, hp, rfl⟩))
  have hbelow := hbarren _ (root_slot_lt hlt) (hfilled ▸ hmin)
  rw [Nat.zero_mul, Nat.zero_add] at hbelow
  exact hmiddle hbelow

/-- What is hollow then was so before. -/
theorem filled_hollow (f : FsmFork) (hmin : minCat ≤ fsmSpaceAvailToCat freespace)
    (h : (f.filled startBlkNum endBlkNum freespace).Hollow minCat addr) : f.Hollow minCat addr := by
  have hslot := parentslot_lt addr
  have hparent := parent_valid h.valid h.level_ne
  have hchild := child_parent addr
  refine ⟨h.valid, h.level_ne, ?_, Barren.of_more _ _ h.valid (fun other ho t ht => ?_) h.barren⟩
  · refine (filled_slotOf hle hend f freespace hparent hslot).2 (fun hin => ?_) (fun habove => ?_) ▸ h.promised
    · exact absurd hin.1 (succ_ne_zero addr.level)
    · obtain ⟨level, no⟩ := addr
      have hbarren := h.barren
      dsimp only [fsmGetParent] at habove hslot hbarren
      rcases habove with ⟨hlevel, hp⟩ | ⟨hlevel, p, hp, hslotp⟩
      · obtain rfl : level = 0 := succ_inj.mp hlevel
        dsimp only at hp
        rw [div_add_mod'] at hp
        exact (filled_not_barren hle hend f hmin hp).1 hbarren
      · obtain rfl : level = 1 := Nat.succ_inj.mp hlevel
        have hno : no < slotsPerFSMPage ^ 1 := h.valid.logpageno_lt
        rw [Nat.mod_eq_of_lt (by rwa [Nat.pow_one] at hno)] at hslotp
        rw [← hslotp] at hbarren
        exact (filled_not_barren hle hend f hmin hp).2.1 hbarren
  · obtain ⟨hyes, hno⟩ := filled_slotOf hle hend f freespace ho ht
    by_cases hchanged : SlotIn (blocksOf startBlkNum endBlkNum) other t ∨ Above (pagesOf startBlkNum endBlkNum) other t
    · exact .inr (hyes hchanged ▸ hmin)
    · exact .inl (hno (fun h => hchanged (.inl h)) (fun h => hchanged (.inr h)))

/-- The search for the new space. -/
theorem filled_search (f : FsmFork) (hf : f.Consistent) (hmin : 1 ≤ minCat)
    (hcat : minCat ≤ fsmSpaceAvailToCat freespace) (hhollow : f.HollowAtMost minCat 10001) :
    ∃ b, (fsmSearch minCat 0 fsmRootAddress (f.filled startBlkNum endBlkNum freespace)).1 = some b := by
  have hstart : startBlkNum / slotsPerFSMPage ∈ pagesOf startBlkNum endBlkNum :=
    (mem_pagesOf hle).mpr ⟨Nat.le_refl _, div_le_div_right hle⟩
  obtain ⟨places, hlen, hplaces⟩ := hhollow
  refine fsmSearch_succeeds minCat 0 fsmRootAddress _ hmin ?_ (filled_not_barren hle hend f hcat hstart).2.2 root_valid
    (fun h => absurd rfl h)
    ⟨10001, le_refl _, places, hlen, fun a ha => hplaces a (filled_hollow hle hend f hcat ha)⟩
  exact rounds_consistent _ _ (pagesOf_lt hle hend) (recordAll_consistent freespace _ hf)

/-- Larger space stays visible unless it is below a slot of the root that has been written. -/
theorem filled_findable (f : FsmFork) {b : Nat} (hb : b < 2 ^ 32)
    (hfind : (recordAll freespace (blocksOf startBlkNum endBlkNum) f).Findable b)
    (hmore : fsmSpaceAvailToCat freespace < (recordAll freespace (blocksOf startBlkNum endBlkNum) f).category b) :
    (f.filled startBlkNum endBlkNum freespace).Findable b ↔
      b / slotsPerFSMPage / slotsPerFSMPage < startBlkNum / slotsPerFSMPage / slotsPerFSMPage ∨
        endBlkNum / slotsPerFSMPage / slotsPerFSMPage < b / slotsPerFSMPage / slotsPerFSMPage := by
  have hpage := location_page_lt hb
  have hslot : b % slotsPerFSMPage < slotsPerFSMPage := location_slot_lt b
  have hmod : b / slotsPerFSMPage % slotsPerFSMPage < slotsPerFSMPage := mod_lt _ (by decide)
  have hrounds {addr : FSMAddress} {t : Nat} (hv : addr.Valid) (ht : t < slotsPerFSMPage) :=
    rounds_slotOf (fsmSpaceAvailToCat freespace) _ (pagesOf_lt hle hend)
      (recordAll freespace (blocksOf startBlkNum endBlkNum) f) hv ht
  have hcategory : (f.filled startBlkNum endBlkNum freespace).category b =
      (recordAll freespace (blocksOf startBlkNum endBlkNum) f).category b := by
    refine (hrounds (bottom_valid hpage) hslot).2 ?_
    rintro (⟨hlevel, -⟩ | ⟨hlevel, -⟩)
    · exact absurd hlevel (show ¬0 = 1 by decide)
    · exact absurd hlevel (show ¬0 = 2 by decide)
  constructor
  · rintro ⟨-, hroot⟩
    by_contra hinside
    obtain ⟨p, hp, hpb⟩ : ∃ p ∈ pagesOf startBlkNum endBlkNum,
        p / slotsPerFSMPage = b / slotsPerFSMPage / slotsPerFSMPage := by
      refine ⟨max (startBlkNum / slotsPerFSMPage) (b / slotsPerFSMPage / slotsPerFSMPage * slotsPerFSMPage), ?_, ?_⟩
      · rw [mem_pagesOf hle]
        rw [slots_eq] at hinside ⊢
        omega
      · rw [slots_eq] at hinside ⊢
        omega
    have hwritten := (hrounds root_valid (root_slot_lt hpage)).1 (.inr ⟨rfl, p, hp, hpb⟩)
    rw [hcategory] at hroot
    exact absurd (le_trans hroot (le_of_eq hwritten)) (not_le.mpr hmore)
  · intro hout
    refine ⟨?_, ?_⟩
    · rw [hcategory]
      refine (hrounds (middle_valid hpage) hmod).2 ?_ ▸ hfind.1
      rintro (⟨-, hp⟩ | ⟨hlevel, -⟩)
      · dsimp only at hp
        rw [Nat.div_add_mod', mem_pagesOf hle] at hp
        have h1 := div_le_div_right (c := slotsPerFSMPage) hp.1
        have h2 := div_le_div_right (c := slotsPerFSMPage) hp.2
        omega
      · exact absurd hlevel (show ¬1 = 2 by decide)
    · rw [hcategory]
      refine (hrounds root_valid (root_slot_lt hpage)).2 ?_ ▸ hfind.2
      rintro (⟨hlevel, -⟩ | ⟨-, p, hp, hpb⟩)
      · exact absurd hlevel (show ¬2 = 1 by decide)
      · rw [mem_pagesOf hle] at hp
        have h1 := div_le_div_right (c := slotsPerFSMPage) hp.1
        have h2 := div_le_div_right (c := slotsPerFSMPage) hp.2
        omega

/-- A block outside the range is not touched by the recording, and one inside has its category. -/
theorem recordAll_findable (f : FsmFork) {b : Nat} (hb : b < 2 ^ 32) :
    ((recordAll freespace (blocksOf startBlkNum endBlkNum) f).Findable b ∧
      fsmSpaceAvailToCat freespace < (recordAll freespace (blocksOf startBlkNum endBlkNum) f).category b) ↔
    ¬(startBlkNum ≤ b ∧ b ≤ endBlkNum) ∧ f.Findable b ∧ fsmSpaceAvailToCat freespace < f.category b := by
  have hpage := location_page_lt hb
  have hslot : b % slotsPerFSMPage < slotsPerFSMPage := location_slot_lt b
  have hmod : b / slotsPerFSMPage % slotsPerFSMPage < slotsPerFSMPage := mod_lt _ (by decide)
  have hrecord {addr : FSMAddress} {t : Nat} (hv : addr.Valid) (ht : t < slotsPerFSMPage) :=
    recordAll_slotOf freespace _ (blocksOf_lt hle hend) f hv ht
  have hmiddle := (hrecord (middle_valid hpage) hmod).2 fun h => absurd h.1 (show ¬1 = 0 by decide)
  have hroot := (hrecord root_valid (root_slot_lt hpage)).2 fun h => absurd h.1 (show ¬2 = 0 by decide)
  have hin (h : startBlkNum ≤ b ∧ b ≤ endBlkNum) : SlotIn (blocksOf startBlkNum endBlkNum)
      ⟨0, b / slotsPerFSMPage⟩ (b % slotsPerFSMPage) := by
    refine ⟨rfl, ?_⟩
    dsimp only
    rw [div_add_mod']
    exact (mem_blocksOf hle).mpr h
  have hout (h : ¬(startBlkNum ≤ b ∧ b ≤ endBlkNum)) : ¬SlotIn (blocksOf startBlkNum endBlkNum)
      ⟨0, b / slotsPerFSMPage⟩ (b % slotsPerFSMPage) := by
    rintro ⟨-, hmem⟩
    dsimp only at hmem
    rw [div_add_mod'] at hmem
    exact h ((mem_blocksOf hle).mp hmem)
  by_cases hrange : startBlkNum ≤ b ∧ b ≤ endBlkNum
  · have hcategory : (recordAll freespace (blocksOf startBlkNum endBlkNum) f).category b =
        fsmSpaceAvailToCat freespace := (hrecord (bottom_valid hpage) hslot).1 (hin hrange)
    rw [hcategory]
    exact ⟨fun h => absurd h.2 (lt_irrefl _), fun h => absurd hrange h.1⟩
  · have hcategory : (recordAll freespace (blocksOf startBlkNum endBlkNum) f).category b = f.category b :=
      (hrecord (bottom_valid hpage) hslot).2 (hout hrange)
    unfold Findable
    rw [hcategory, hmiddle, hroot]
    exact ⟨fun h => ⟨hrange, h⟩, fun h => h.2⟩

end

/-- **`UpdateFreeSpaceMap`** fails for a range that reaches the last page, and where larger space is below a slot of the
root that it writes. Otherwise it does what it is for, on a map whose pages are consistent and that promises what is
not there at no more than 10001 slots. -/
theorem makesVisible_exact (f : FsmFork) (startBlkNum endBlkNum freespace : Nat) (hle : startBlkNum ≤ endBlkNum)
    (hend : endBlkNum < 2 ^ 32) :
    (f.MakesVisible startBlkNum endBlkNum freespace →
      endBlkNum / slotsPerFSMPage < lastPage ∧ f.NothingHidden startBlkNum endBlkNum freespace) ∧
    (f.Consistent →
      (∀ minCat, 1 ≤ minCat → minCat ≤ fsmSpaceAvailToCat freespace → f.HollowAtMost minCat 10001) →
      endBlkNum / slotsPerFSMPage < lastPage → f.NothingHidden startBlkNum endBlkNum freespace →
      f.MakesVisible startBlkNum endBlkNum freespace) := by
  constructor
  · rintro ⟨fuel, h, hloop, -, hfind⟩
    have heq : h = f.filled startBlkNum endBlkNum freespace := updateFreeSpaceMapLoop_eq freespace fuel _ hloop
    refine ⟨?_, fun b hb hout hfindable hmore => ?_⟩
    · by_contra hlast
      have hpage : endBlkNum / slotsPerFSMPage ≤ lastPage := div_le_div_right (Nat.le_of_lt hend)
      rw [updateFreeSpaceMapLoop_never freespace fuel _ hle hend (by omega)] at hloop
      cases hloop
    · obtain ⟨h1, h2⟩ := (recordAll_findable hle hend f hb).mpr ⟨hout, hfindable, hmore⟩
      have hstill := hfind b hb h1 h2
      rw [heq] at hstill
      exact (filled_findable hle hend f hb h1 h2).mp hstill
  · intro hf hhollow hlast hhidden
    have hdiv := div_le_div_right (c := slotsPerFSMPage) hle
    obtain ⟨h, hloop⟩ := updateFreeSpaceMapLoop_ends freespace
      (endBlkNum / slotsPerFSMPage - startBlkNum / slotsPerFSMPage)
      (recordAll freespace (blocksOf startBlkNum endBlkNum) f) (by omega) hle hlast
    have hpages : range' (startBlkNum / slotsPerFSMPage)
        (endBlkNum / slotsPerFSMPage - startBlkNum / slotsPerFSMPage + 1) = pagesOf startBlkNum endBlkNum := by
      unfold pagesOf
      congr 1
      omega
    rw [hpages] at hloop
    obtain rfl : h = f.filled startBlkNum endBlkNum freespace := updateFreeSpaceMapLoop_eq freespace _ _ hloop
    refine ⟨_, _, hloop, fun spaceNeeded minCat hneeded hcat => ?_, fun b hb h1 h2 => ?_⟩
    · obtain ⟨-, hmin⟩ := neededToCat_pos hneeded
      obtain ⟨b, hb⟩ := filled_search hle hend f hf hmin hcat (hhollow minCat hmin hcat)
      refine ⟨b, (fsmSearch minCat 0 fsmRootAddress (f.filled startBlkNum endBlkNum freespace)).2, ?_⟩
      unfold getPageWithFreeSpace
      rw [hneeded, ← hb]
      rfl
    · obtain ⟨hout, hfindable, hmore⟩ := (recordAll_findable hle hend f hb).mp ⟨h1, h2⟩
      exact (filled_findable hle hend f hb h1 h2).mpr (hhidden b hb hout hfindable hmore)

/-- A relation without a free space map. -/
def noFork : FsmFork := ⟨none, fun _ => ⟨0, fun _ => 0⟩, none, fun _ hn => nomatch hn⟩

theorem noFork_hollow (minCat n : Nat) (hmin : 1 ≤ minCat) : noFork.HollowAtMost minCat n :=
  ⟨[], zero_le n, fun _ h => absurd (le_trans hmin h.promised) (not_succ_le_zero 0)⟩

theorem noFork_makesVisible : noFork.MakesVisible 5 9000 100 :=
  (makesVisible_exact noFork 5 9000 100 (by decide) (by decide)).2 (fun _ h => absurd h (not_lt_zero _))
    (fun minCat hmin _ => noFork_hollow minCat 10001 hmin) (by decide) fun _ _ _ _ h => absurd h (not_lt_zero _)

/-- Space on the last block that there can be is never made visible. -/
theorem lastBlock_not_visible : ¬∀ (f : FsmFork) (startBlkNum endBlkNum freespace : Nat), startBlkNum ≤ endBlkNum →
    endBlkNum ≤ 4294967294 → f.MakesVisible startBlkNum endBlkNum freespace := by
  intro h
  obtain ⟨fuel, g, hloop, -⟩ := h noFork 4294967294 4294967294 100 (le_refl _) (le_refl _)
  rw [updateFreeSpaceMapLoop_never 100 fuel _ (le_refl _) (by decide) (by decide)] at hloop
  cases hloop

end FsmFork

end PgStorage.Fsm
