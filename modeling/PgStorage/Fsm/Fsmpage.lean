import PgStorage.Lib.MaxTree

/-! The tree on a page of the free space map.

The array of nodes has its inner nodes first, then the leaves, one for each slot. A node whose index is not in the array
cannot be read. -/
namespace PgStorage.Fsm
open MaxTree

def blcksz : Nat := 8192

/-- Less the page header and the field `fp_next_slot`. -/
def nodesPerPage : Nat := blcksz - 24 - 4

def nonLeafNodesPerPage : Nat := blcksz / 2 - 1

def leafNodesPerPage : Nat := nodesPerPage - nonLeafNodesPerPage

/-- `FSMPageData` -/
structure FSMPage where
  fpNextSlot : Int
  fpNodes : Nat → Nat

def leftchild (x : Nat) : Nat := 2 * x + 1

def parentof (x : Nat) : Nat := (x - 1) / 2

def rightneighbor (x : Nat) : Nat :=
  let x := x + 1
  if (x + 1) &&& x = 0 then parentof x else x

theorem parentof_rightneighbor_lt {x : Nat} (h : 0 < x) : parentof (rightneighbor x) < x := by
  unfold rightneighbor parentof
  dsimp only
  split <;> omega

/-- The node at an index, if the index is in the array. -/
def FSMPage.node? (p : FSMPage) (x : Nat) : Option Nat := if x < nodesPerPage then some (p.fpNodes x) else none

/-- `fsm_get_avail` -/
def FSMPage.avail (p : FSMPage) (slot : Nat) : Nat := p.fpNodes (nonLeafNodesPerPage + slot)

/-- The first loop of the search: to the right and up, to a node with enough space. -/
def climb (p : FSMPage) (minvalue nodeno : Nat) : Option Nat :=
  if _h : 0 < nodeno then
    match p.node? nodeno with
    | none => none
    | some v =>
      if minvalue ≤ v then some nodeno else climb p minvalue (parentof (rightneighbor nodeno))
  else some nodeno
termination_by nodeno
decreasing_by exact parentof_rightneighbor_lt _h

/-- The second loop: down to a leaf, to the left if there is a choice; nothing if neither child has enough space. -/
def descend (p : FSMPage) (minvalue nodeno : Nat) : Option Nat :=
  if h : nodeno < nonLeafNodesPerPage then
    let childnodeno := leftchild nodeno
    if childnodeno < nodesPerPage ∧ minvalue ≤ p.fpNodes childnodeno then descend p minvalue childnodeno
    else if childnodeno + 1 < nodesPerPage ∧ minvalue ≤ p.fpNodes (childnodeno + 1) then
      descend p minvalue (childnodeno + 1)
    else none
  else some nodeno
termination_by nonLeafNodesPerPage - nodeno
decreasing_by all_goals unfold leftchild; omega

/-- One step of `fsm_rebuild_page`. -/
def rebuildNode (nodeno : Nat) (nodes : Nat → Nat) : Nat → Nat :=
  let lchild := leftchild nodeno
  let rchild := lchild + 1
  let newvalue := if lchild < nodesPerPage then nodes lchild else 0
  let newvalue := if rchild < nodesPerPage then max newvalue (nodes rchild) else newvalue
  Function.update nodes nodeno newvalue

/-- The inner nodes are made anew, the last one first. -/
def fsmRebuildPage (p : FSMPage) : FSMPage :=
  {p with fpNodes := (List.range nonLeafNodesPerPage).foldr rebuildNode p.fpNodes}

/-- Where the search begins: `fp_next_slot`, if it is sane. -/
def FSMPage.target (p : FSMPage) : Nat :=
  if p.fpNextSlot < 0 ∨ (leafNodesPerPage : Int) ≤ p.fpNextSlot then 0 else p.fpNextSlot.toNat

/-- `fsm_search_avail`, which may rebuild the page and start again `restarts` times. There is no result if it would have
to do so once more, or if it reads outside the array. -/
def fsmSearchAvail : (restarts : Nat) → (p : FSMPage) → (minvalue : Nat) → (advancenext : Bool) → Option (Int × FSMPage)
  | restarts, p, minvalue, advancenext =>
    if p.fpNodes 0 < minvalue then some (-1, p)
    else
      match climb p minvalue (p.target + nonLeafNodesPerPage) with
      | none => none
      | some nodeno =>
        match descend p minvalue nodeno with
        | some leaf =>
          let slot := leaf - nonLeafNodesPerPage
          some (slot, {p with fpNextSlot := (slot + if advancenext = true then 1 else 0 : Nat)})
        | none =>
          match restarts with
          | 0 => none
          | restarts + 1 => fsmSearchAvail restarts (fsmRebuildPage p) minvalue advancenext

end PgStorage.Fsm
