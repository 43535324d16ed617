import PgStorage.Fsm.Fsmpage

/-! The free space map of a relation.

Its pages form a tree of three levels: a slot of a bottom page holds the category of a heap block, a slot of a page
above holds what the page below it has at its root. The pages of all levels are stored depth first in one fork. The map
is a hint: what an upper page promises may not be there. -/
namespace PgStorage.Fsm

def slotsPerFSMPage : Nat := leafNodesPerPage

/-- `MaxHeapTupleSize` -/
def maxFSMRequestSize : Nat := blcksz - 32

def fsmCatStep : Nat := blcksz / 256

/-- `FSM_TREE_DEPTH - 1` -/
def fsmRootLevel : Nat := 2

def fsmSpaceAvailToCat (avail : Nat) : Nat :=
  if maxFSMRequestSize ≤ avail then 255 else min (avail / fsmCatStep) 254

def fsmSpaceCatToAvail (cat : Nat) : Nat := if cat = 255 then maxFSMRequestSize else cat * fsmCatStep

def fsmSpaceNeededToCat (needed : Nat) : Except String Nat :=
  if maxFSMRequestSize < needed then .error s!"invalid FSM request size {needed}"
  else if needed = 0 then .ok 1
  else .ok (min ((needed + fsmCatStep - 1) / fsmCatStep) 255)

structure FSMAddress where
  level : Nat
  logpageno : Nat
  deriving DecidableEq

def fsmRootAddress : FSMAddress := ⟨fsmRootLevel, 0⟩

/-- The pages of each level that come before the first leaf page below the given one, which is itself above that. -/
def fsmLogicalToPhysical (addr : FSMAddress) : Nat :=
  let leafno := addr.logpageno * slotsPerFSMPage ^ addr.level
  let pages := leafno + 1 + (leafno / slotsPerFSMPage + 1) + (leafno / slotsPerFSMPage / slotsPerFSMPage + 1)
  pages - addr.level - 1

/-- The page and the slot of a heap block. -/
def fsmGetLocation (heapblk : Nat) : FSMAddress × Nat :=
  (⟨0, heapblk / slotsPerFSMPage⟩, heapblk % slotsPerFSMPage)

/-- The block number is computed in 32 bits. -/
def fsmGetHeapBlk (addr : FSMAddress) (slot : Nat) : Nat := (addr.logpageno * slotsPerFSMPage + slot) % 2 ^ 32

/-- `fsm_get_lastblckno` -/
def fsmGetLastblckno (addr : FSMAddress) : Nat := fsmGetHeapBlk addr (slotsPerFSMPage - 1)

def fsmGetParent (child : FSMAddress) : FSMAddress × Nat :=
  (⟨child.level + 1, child.logpageno / slotsPerFSMPage⟩, child.logpageno % slotsPerFSMPage)

def fsmGetChild (parent : FSMAddress) (slot : Nat) : FSMAddress :=
  ⟨parent.level - 1, parent.logpageno * slotsPerFSMPage + slot⟩

/-- The loop of `fsm_set_avail`: up from a node, until one does not change. -/
def propagate (nodeno : Nat) (nodes : Nat → Nat) : Nat → Nat :=
  let parent := parentof nodeno
  let lchild := leftchild parent
  let rchild := lchild + 1
  let newvalue := if rchild < nodesPerPage then max (nodes lchild) (nodes rchild) else nodes lchild
  if nodes parent = newvalue then nodes
  else
    let nodes := Function.update nodes parent newvalue
    if _h : 0 < parent then propagate parent nodes else nodes
termination_by nodeno
decreasing_by
  unfold parent parentof at *
  omega

/-- A value above the one at the root means that the page is corrupt. -/
def fsmSetAvail (p : FSMPage) (slot value : Nat) : FSMPage :=
  let nodeno := nonLeafNodesPerPage + slot
  if p.fpNodes nodeno = value ∧ value ≤ p.fpNodes 0 then p
  else
    let p := {p with fpNodes := propagate nodeno (Function.update p.fpNodes nodeno value)}
    if p.fpNodes 0 < value then fsmRebuildPage p else p

/-- All slots from `nslots` on are cleared. -/
def fsmTruncateAvail (p : FSMPage) (nslots : Nat) : FSMPage :=
  let gone (x : Nat) : Bool := nonLeafNodesPerPage + nslots ≤ x && x < nodesPerPage
  let changed := (List.range nodesPerPage).any fun x => gone x && p.fpNodes x != 0
  let p := {p with fpNodes := fun x => if gone x then 0 else p.fpNodes x}
  if changed then fsmRebuildPage p else p

/-- `fsm_search_avail`, for which one rebuild is always enough. -/
def FSMPage.search (p : FSMPage) (minvalue : Nat) (advancenext : Bool) : Option Nat × FSMPage :=
  match fsmSearchAvail 1 p minvalue advancenext with
  | some (.ofNat slot, q) => (some slot, q)
  | some (.negSucc _, q) => (none, q)
  | none => (none, p)

/-! ### The fork -/

/-- The fork, if it exists, its pages, and the length that is cached with the open relation. -/
structure FsmFork where
  smgrnblocks : Option Nat
  page : Nat → FSMPage
  smgrFsmNblocks : Option Nat
  cached_le : ∀ n ∈ smgrFsmNblocks, n ≤ smgrnblocks.getD 0

namespace FsmFork

def nblocks (f : FsmFork) : Nat := f.smgrnblocks.getD 0

def setPage (f : FsmFork) (blkno : Nat) (p : FSMPage) : FsmFork := {f with page := Function.update f.page blkno p}

/-- The length as `fsm_readbuf` sees it, which asks again if the block seems to be past the end. -/
def cachedNblocks (f : FsmFork) (blkno : Nat) : Nat :=
  match f.smgrFsmNblocks with
  | none => f.nblocks
  | some n => if n ≤ blkno then f.nblocks else n

theorem cachedNblocks_le (f : FsmFork) (blkno : Nat) : f.cachedNblocks blkno ≤ f.nblocks := by
  unfold cachedNblocks
  split
  · exact le_refl _
  case h_2 n hn =>
    split
    · exact le_refl _
    · exact f.cached_le n hn

/-- `fsm_extend`: the new pages have no free space. -/
def fsmExtend (f : FsmFork) (fsmNblocks : Nat) : FsmFork where
  smgrnblocks := some (max f.nblocks fsmNblocks)
  page i := if f.nblocks ≤ i then ⟨0, fun _ => 0⟩ else f.page i
  smgrFsmNblocks := some (max f.nblocks fsmNblocks)
  cached_le _ hn := le_of_eq (Option.some_inj.mp hn).symm

/-- Whether there is a page at the address, which is made if `extend` says so. -/
def fsmReadbuf (f : FsmFork) (addr : FSMAddress) (extend : Bool) : Bool × FsmFork :=
  let blkno := fsmLogicalToPhysical addr
  let n := f.cachedNblocks blkno
  let g := {f with
    smgrFsmNblocks := some n
    cached_le := fun m hm => by
      obtain rfl := Option.some_inj.mp hm
      exact f.cachedNblocks_le blkno}
  if n ≤ blkno then if extend then (true, g.fsmExtend (blkno + 1)) else (false, g)
  else (true, g)

/-- `smgrtruncate`, with what the caller does to the cached length. -/
def smgrtruncate (f : FsmFork) (n : Nat) : FsmFork where
  smgrnblocks := some n
  page := f.page
  smgrFsmNblocks := some n
  cached_le _ hm := le_of_eq (Option.some_inj.mp hm).symm

/-- The new value is set in the slot; with a `minValue` the page is searched, too. -/
def fsmSetAndSearch (f : FsmFork) (addr : FSMAddress) (slot newValue minValue : Nat) : Option Nat × FsmFork :=
  let blkno := fsmLogicalToPhysical addr
  let f := (f.fsmReadbuf addr true).2
  let page := fsmSetAvail (f.page blkno) slot newValue
  if minValue = 0 then (none, f.setPage blkno page)
  else
    let (newslot, page) := page.search minValue (addr.level = 0)
    (newslot, f.setPage blkno page)

/-- The search within one page: the slot, or else the most that the page has. -/
def searchPage (f : FsmFork) (addr : FSMAddress) (minCat : Nat) : Option Nat × Nat × FsmFork :=
  let blkno := fsmLogicalToPhysical addr
  let (valid, f) := f.fsmReadbuf addr false
  if valid then
    let (slot, page) := (f.page blkno).search minCat (addr.level = 0)
    (slot, page.fpNodes 0, f.setPage blkno page)
  else (none, 0, f)

/-- `fsm_search` from a page on: down to a heap block, or up to correct the promise that was not kept and begin again,
but not more than 10001 times. -/
def fsmSearch (minCat restarts : Nat) (addr : FSMAddress) (f : FsmFork) : Option Nat × FsmFork :=
  match f.searchPage addr minCat with
  | (some slot, _, f) =>
    if _h : addr.level = 0 then (some (fsmGetHeapBlk addr slot), f)
    else fsmSearch minCat restarts (fsmGetChild addr slot) f
  | (none, maxAvail, f) =>
    if addr.level = fsmRootLevel then (none, f)
    else
      let parent := fsmGetParent addr
      let f := (f.fsmSetAndSearch parent.1 parent.2 maxAvail 0).2
      if _h : 10000 < restarts then (none, f)
      else fsmSearch minCat (restarts + 1) fsmRootAddress f
termination_by (10001 - restarts, addr.level)
decreasing_by
  · exact Prod.Lex.right _ (Nat.sub_lt (Nat.pos_of_ne_zero _h) Nat.one_pos)
  · exact Prod.Lex.left _ _ (by omega)

/-- `fsm_update_recursive` -/
def fsmUpdateRecursive (newCat : Nat) (addr : FSMAddress) (f : FsmFork) : FsmFork :=
  if _h : fsmRootLevel ≤ addr.level then f
  else
    let parent := fsmGetParent addr
    fsmUpdateRecursive newCat parent.1 (f.fsmSetAndSearch parent.1 parent.2 newCat 0).2
termination_by fsmRootLevel - addr.level
decreasing_by
  exact Nat.sub_lt_sub_left (Nat.lt_of_not_le _h) (Nat.lt_succ_self _)

/-- The loop over the slots of a page in `fsm_vacuum_page`: once a child is past the end, so are the ones after it. -/
def vacuumSlot (child : Nat → FsmFork → Nat × Bool × FsmFork) (blkno : Nat) (s : Bool × FsmFork) (slot : Nat) :
    Bool × FsmFork :=
  let (childAvail, eof, f) := if s.1 then (0, s.1, s.2) else child slot s.2
  if (f.page blkno).avail slot = childAvail then (eof, f)
  else (eof, f.setPage blkno (fsmSetAvail (f.page blkno) slot childAvail))

/-- The end of `fsm_vacuum_page`: the next slot is reset. -/
def resetNextSlot (blkno : Nat) (f : FsmFork) : Nat × Bool × FsmFork :=
  ((f.page blkno).fpNodes 0, false, f.setPage blkno {f.page blkno with fpNextSlot := 0})

/-- The most that a page has, whether it is past the end, and the fork with the slots of the upper pages set anew. -/
def fsmVacuumPage : (level logpageno : Nat) → FsmFork → Nat × Bool × FsmFork
  | 0, logpageno, f =>
    let (valid, f) := f.fsmReadbuf ⟨0, logpageno⟩ false
    if valid then resetNextSlot (fsmLogicalToPhysical ⟨0, logpageno⟩) f else (0, true, f)
  | level + 1, logpageno, f =>
    let blkno := fsmLogicalToPhysical ⟨level + 1, logpageno⟩
    let (valid, f) := f.fsmReadbuf ⟨level + 1, logpageno⟩ false
    if valid then
      let child (slot : Nat) := fsmVacuumPage level (logpageno * slotsPerFSMPage + slot)
      resetNextSlot blkno ((List.range slotsPerFSMPage).foldl (vacuumSlot child blkno) (false, f)).2
    else (0, true, f)

def getPageWithFreeSpace (f : FsmFork) (spaceNeeded : Nat) : Except String (Option Nat × FsmFork) := do
  let minCat ← fsmSpaceNeededToCat spaceNeeded
  return fsmSearch minCat 0 fsmRootAddress f

def recordAndGetPageWithFreeSpace (f : FsmFork) (oldPage oldSpaceAvail spaceNeeded : Nat) :
    Except String (Option Nat × FsmFork) := do
  let oldCat := fsmSpaceAvailToCat oldSpaceAvail
  let searchCat ← fsmSpaceNeededToCat spaceNeeded
  let (addr, slot) := fsmGetLocation oldPage
  match f.fsmSetAndSearch addr slot oldCat searchCat with
  | (some searchSlot, f) => return (some (fsmGetHeapBlk addr searchSlot), f)
  | (none, f) => return fsmSearch searchCat 0 fsmRootAddress f

def recordPageWithFreeSpace (f : FsmFork) (heapBlk spaceAvail : Nat) : FsmFork :=
  let (addr, slot) := fsmGetLocation heapBlk
  (f.fsmSetAndSearch addr slot (fsmSpaceAvailToCat spaceAvail) 0).2

/-- One round of the loop of `UpdateFreeSpaceMap`. -/
def updateFreeSpaceMap (f : FsmFork) (blockNum freespace : Nat) : FsmFork :=
  fsmUpdateRecursive (fsmSpaceAvailToCat freespace) (fsmGetLocation blockNum).1 f

/-- The whole loop, with the bottom pages that it visits; nothing if it has not ended after `fuel` rounds. -/
def updateFreeSpaceMapLoop (endBlkNum freespace : Nat) :
    (fuel : Nat) → (blockNum : Nat) → FsmFork → Option (List Nat × FsmFork)
  | 0, _, _ => none
  | fuel + 1, blockNum, f =>
    if blockNum ≤ endBlkNum then
      let addr := (fsmGetLocation blockNum).1
      let f := f.updateFreeSpaceMap blockNum freespace
      let lastBlkOnPage := fsmGetLastblckno addr
      if endBlkNum ≤ lastBlkOnPage then some ([addr.logpageno], f)
      else
        (updateFreeSpaceMapLoop endBlkNum freespace fuel ((lastBlkOnPage + 1) % 2 ^ 32) f).map fun (pages, f) =>
          (addr.logpageno :: pages, f)
    else some ([], f)

def getRecordedFreeSpace (f : FsmFork) (heapBlk : Nat) : Nat × FsmFork :=
  let (addr, slot) := fsmGetLocation heapBlk
  let (valid, f) := f.fsmReadbuf addr false
  if valid then (fsmSpaceCatToAvail ((f.page (fsmLogicalToPhysical addr)).avail slot), f) else (0, f)

/-- If the first removed block is the first one of its page, the page is removed, too. -/
def freeSpaceMapTruncateRel (f : FsmFork) (nblocks : Nat) : FsmFork :=
  if f.smgrnblocks = none then f
  else
    let (addr, slot) := fsmGetLocation nblocks
    let blkno := fsmLogicalToPhysical addr
    if 0 < slot then
      let (valid, f) := f.fsmReadbuf addr false
      if !valid then f
      else (f.setPage blkno (fsmTruncateAvail (f.page blkno) slot)).smgrtruncate (blkno + 1)
    else if f.nblocks ≤ blkno then f
    else f.smgrtruncate blkno

def freeSpaceMapVacuum (f : FsmFork) : FsmFork := (fsmVacuumPage fsmRootLevel 0 f).2.2

end FsmFork

end PgStorage.Fsm
