import PgStorage.Fsm.Slots

/-! The order of the pages of the free space map in its fork.

The pages that lead to some heap block are stored depth first, a page before those below it, without a gap. -/
namespace PgStorage.Fsm
open FSMAddress

variable {addr a b : FSMAddress} {p q s blk : Nat}

def maxBlockNumber : Nat := 0xFFFFFFFE

/-- The page that is `k` levels above. -/
def FSMAddress.ancestor (addr : FSMAddress) : Nat → FSMAddress
  | 0 => addr
  | k + 1 => (fsmGetParent (addr.ancestor k)).1

/-- A page is the other one or below it. -/
def FSMAddress.Below (addr other : FSMAddress) : Prop :=
  ∃ k, addr.level + k = other.level ∧ addr.ancestor k = other

/-- A page that leads to a heap block. -/
def FSMAddress.InMap (addr : FSMAddress) : Prop :=
  addr.level ≤ fsmRootLevel ∧ ∃ blk ≤ maxBlockNumber, (fsmGetLocation blk).1.Below addr

/-- A value of the type `int`. -/
def asInt (x : Nat) : Option Nat := if x < 2 ^ 31 then some x else none

/-- A round of the second loop of `fsm_logical_to_physical`, on `pages` and `leafno`. -/
def physicalRound (s : Nat × Nat) : Option (Nat × Nat) := do
  let next ← asInt (s.2 + 1)
  let leafno ← asInt (s.2 / slotsPerFSMPage)
  return ((s.1 + next) % 2 ^ 32, leafno)

/-- `fsm_logical_to_physical` with all values it stores in variables of the types `int` and `BlockNumber`. -/
def fsmLogicalToPhysicalInt (addr : FSMAddress) : Option Nat := do
  let leafno ← asInt addr.logpageno
  let leafno ← (List.range addr.level).foldlM (fun leafno _ => asInt (leafno * slotsPerFSMPage)) leafno
  let s ← (List.range (fsmRootLevel + 1)).foldlM (fun s _ => physicalRound s) (0, leafno)
  return (s.1 + 2 ^ 32 - addr.level + 2 ^ 32 - 1) % 2 ^ 32

/-- `fsm_get_location` -/
def fsmGetLocationInt (heapblk : Nat) : Option (FSMAddress × Nat) := do
  let logpageno ← asInt (heapblk / slotsPerFSMPage)
  return (⟨0, logpageno⟩, heapblk % slotsPerFSMPage)

/-- `fsm_get_parent` -/
def fsmGetParentInt (child : FSMAddress) : Option (FSMAddress × Nat) := do
  let level ← asInt (child.level + 1)
  let logpageno ← asInt (child.logpageno / slotsPerFSMPage)
  return (⟨level, logpageno⟩, child.logpageno % slotsPerFSMPage)

/-- `fsm_get_child` -/
def fsmGetChildInt (parent : FSMAddress) (slot : Nat) : Option FSMAddress := do
  let logpageno ← asInt (parent.logpageno * slotsPerFSMPage)
  let logpageno ← asInt (logpageno + slot)
  return ⟨parent.level - 1, logpageno⟩

/-- The last page of a level. -/
def lastLogpageno (level : Nat) : Nat := maxBlockNumber / slotsPerFSMPage ^ (level + 1)

theorem ancestor_eq (addr : FSMAddress) (k : Nat) :
    addr.ancestor k = ⟨addr.level + k, addr.logpageno / slotsPerFSMPage ^ k⟩ := by
  induction k with
  | zero =>
    rw [pow_zero, Nat.div_one]
    rfl
  | succ k ih =>
    rw [ancestor, ih]
    unfold fsmGetParent
    dsimp only
    rw [Nat.div_div_eq_div_mul, ← pow_succ, add_assoc]

theorem inMap_iff : addr.InMap ↔ addr.level ≤ fsmRootLevel ∧ addr.logpageno ≤ lastLogpageno addr.level := by
  have hpos := Nat.pow_pos (n := addr.level + 1) (show 0 < slotsPerFSMPage by decide)
  constructor
  · rintro ⟨hlevel, blk, hblk, k, hk, heq⟩
    refine ⟨hlevel, ?_⟩
    rw [ancestor_eq] at heq
    obtain rfl : k = addr.level := by
      rw [← hk]
      exact (zero_add k).symm
    rw [← congrArg logpageno heq]
    dsimp only [fsmGetLocation]
    rw [Nat.div_div_eq_div_mul, mul_comm, ← pow_succ]
    exact Nat.div_le_div_right hblk
  · rintro ⟨hlevel, hle⟩
    refine ⟨hlevel, addr.logpageno * slotsPerFSMPage ^ (addr.level + 1), ?_, addr.level, zero_add _, ?_⟩
    · exact le_trans (Nat.mul_le_mul_right _ hle) (Nat.div_mul_le_self _ _)
    · rw [ancestor_eq]
      dsimp only [fsmGetLocation]
      rw [Nat.div_div_eq_div_mul, mul_comm slotsPerFSMPage, ← pow_succ, Nat.mul_div_cancel _ hpos, zero_add]

theorem lastLogpageno_zero : lastLogpageno 0 = 1055533 := by decide

theorem lastLogpageno_one : lastLogpageno 1 = 259 := by decide

theorem lastLogpageno_two : lastLogpageno 2 = 0 := by decide

/-- The three kinds of pages, and where they are. -/
theorem inMap_cases (h : addr.InMap) :
    (∃ p ≤ 1055533, addr = ⟨0, p⟩ ∧ fsmLogicalToPhysical addr = p + p / 4069 + 2) ∨
      (∃ q ≤ 259, addr = ⟨1, q⟩ ∧ fsmLogicalToPhysical addr = q * 4069 + q + 1) ∨
      addr = fsmRootAddress ∧ fsmLogicalToPhysical addr = 0 := by
  rw [inMap_iff] at h
  obtain ⟨level, no⟩ := addr
  obtain ⟨hlevel, hno⟩ := h
  dsimp only at hlevel hno
  unfold fsmRootLevel at hlevel
  obtain rfl | rfl | rfl : level = 0 ∨ level = 1 ∨ level = 2 := by omega
  · rw [lastLogpageno_zero] at hno
    exact .inl ⟨no, hno, rfl, physical_bottom (by rw [bottomPages_eq]; omega)⟩
  · rw [lastLogpageno_one] at hno
    exact .inr (.inl ⟨no, hno, rfl, physical_middle (by rw [slots_eq]; omega)⟩)
  · rw [lastLogpageno_two] at hno
    obtain rfl := Nat.le_zero.mp hno
    exact .inr (.inr ⟨rfl, by decide⟩)

theorem inMap_bottom (h : p ≤ 1055533) : FSMAddress.InMap ⟨0, p⟩ := inMap_iff.mpr ⟨show 0 ≤ 2 by decide, by
  rw [lastLogpageno_zero]
  exact h⟩

theorem inMap_middle (h : q ≤ 259) : FSMAddress.InMap ⟨1, q⟩ := inMap_iff.mpr ⟨show 1 ≤ 2 by decide, by
  rw [lastLogpageno_one]
  exact h⟩

theorem inMap_root : fsmRootAddress.InMap := inMap_iff.mpr ⟨le_refl _, by decide⟩

theorem inMap_valid (h : addr.InMap) : addr.Valid := by
  rcases inMap_cases h with ⟨p, hp, rfl, -⟩ | ⟨q, hq, rfl, -⟩ | ⟨rfl, -⟩
  · exact bottom_valid (by rw [bottomPages_eq]; omega)
  · refine ⟨show 1 ≤ 2 by decide, ?_⟩
    simp only [slots_eq, fsmRootLevel]
    omega
  · exact root_valid

/-- The number of pages. -/
def pagesInMap : Nat := 1055795

theorem physical_surjective (n : Nat) : (∃ addr : FSMAddress, addr.InMap ∧ fsmLogicalToPhysical addr = n) ↔
    n < pagesInMap := by
  unfold pagesInMap
  constructor
  · rintro ⟨addr, h, rfl⟩
    rcases inMap_cases h with ⟨p, hp, -, heq⟩ | ⟨q, hq, -, heq⟩ | ⟨-, heq⟩
    · omega
    · omega
    · omega
  · intro hn
    rcases Nat.eq_zero_or_pos n with rfl | hpos
    · exact ⟨fsmRootAddress, inMap_root, by decide⟩
    rcases Nat.eq_zero_or_pos ((n - 1) % 4070) with hfirst | hlater
    · refine ⟨⟨1, (n - 1) / 4070⟩, inMap_middle (by omega), ?_⟩
      rw [physical_middle (by rw [slots_eq]; omega)]
      omega
    · refine ⟨⟨0, (n - 1) / 4070 * 4069 + ((n - 1) % 4070 - 1)⟩, inMap_bottom (by omega), ?_⟩
      rw [physical_bottom (by rw [bottomPages_eq]; omega)]
      have hdiv : ((n - 1) / 4070 * 4069 + ((n - 1) % 4070 - 1)) / 4069 = (n - 1) / 4070 := by omega
      rw [hdiv]
      omega

theorem physical_parent_lt (h : addr.InMap) (hlevel : addr.level ≠ fsmRootLevel) :
    fsmLogicalToPhysical (fsmGetParent addr).1 < fsmLogicalToPhysical addr := by
  rcases inMap_cases h with ⟨p, hp, rfl, heq⟩ | ⟨q, hq, rfl, heq⟩ | ⟨rfl, -⟩
  · dsimp only [fsmGetParent]
    rw [heq, slots_eq, physical_middle (by rw [slots_eq]; omega)]
    omega
  · dsimp only [fsmGetParent]
    have hroot : q / slotsPerFSMPage = 0 := by
      rw [slots_eq]
      omega
    rw [heq, hroot, show fsmLogicalToPhysical ⟨1 + 1, 0⟩ = 0 by decide]
    omega
  · exact absurd rfl hlevel

/-- Where the pages below a child are. -/
theorem below_child (ha : addr.InMap) (hlevel : addr.level ≠ 0) (hb : b.InMap)
    (h : b.Below (fsmGetChild addr s)) :
    fsmLogicalToPhysical (fsmGetChild addr s) ≤ fsmLogicalToPhysical b ∧
      fsmLogicalToPhysical b < fsmLogicalToPhysical (fsmGetChild addr (s + 1)) := by
  obtain ⟨k, hk, heq⟩ := h
  rw [ancestor_eq] at heq
  rcases inMap_cases ha with ⟨p, -, rfl, -⟩ | ⟨q, hq, rfl, -⟩ | ⟨rfl, -⟩
  · exact absurd rfl hlevel
  · -- the children are bottom pages
    obtain rfl : k = 0 := Nat.eq_zero_of_add_eq_zero_left hk
    rw [pow_zero, Nat.div_one] at heq
    obtain rfl : b = fsmGetChild ⟨1, q⟩ s := heq
    refine ⟨le_refl _, ?_⟩
    rcases inMap_cases hb with ⟨p, hp, hpage, -⟩ | ⟨q', -, hpage, -⟩ | ⟨hpage, -⟩
    · have hno : q * slotsPerFSMPage + s = p := congrArg logpageno hpage
      show fsmLogicalToPhysical ⟨0, q * slotsPerFSMPage + s⟩ < fsmLogicalToPhysical ⟨0, q * slotsPerFSMPage + (s + 1)⟩
      refine physical_mono (by omega) ?_
      rw [bottomPages_eq]
      omega
    · exact absurd (congrArg level hpage) (show ¬0 = 1 by decide)
    · exact absurd (congrArg level hpage) (show ¬0 = 2 by decide)
  · -- the children are middle pages
    have hchild (s : Nat) : fsmGetChild fsmRootAddress s = ⟨1, s⟩ := by
      unfold fsmGetChild fsmRootAddress
      rw [Nat.zero_mul, zero_add]
      rfl
    rw [hchild] at heq hk
    rw [hchild, hchild]
    have hno := congrArg logpageno heq
    dsimp only at hno hk
    rcases inMap_cases hb with ⟨p, hp, rfl, hphys⟩ | ⟨q, hq, rfl, hphys⟩ | ⟨rfl, -⟩
    · dsimp only at hk
      obtain rfl : k = 1 := by omega
      rw [slots_eq, Nat.pow_one] at hno
      dsimp only at hno
      have hs : s < slotsPerFSMPage ^ 1 ∧ s + 1 < slotsPerFSMPage ^ 1 := by
        rw [slots_eq]
        omega
      rw [hphys, physical_middle hs.1, physical_middle hs.2]
      omega
    · dsimp only at hk
      obtain rfl : k = 0 := by omega
      rw [pow_zero, Nat.div_one] at hno
      dsimp only at hno
      have hs : s < slotsPerFSMPage ^ 1 ∧ s + 1 < slotsPerFSMPage ^ 1 := by
        rw [slots_eq]
        omega
      rw [hphys, physical_middle hs.1, physical_middle hs.2]
      omega
    · exact absurd hk (show ¬2 + k = 1 by omega)

/-! ### No overflow -/

theorem asInt_of_lt {x : Nat} (h : x < 2 ^ 31) : asInt x = some x := if_pos h

theorem location_int (h : blk ≤ maxBlockNumber) : fsmGetLocationInt blk = some (fsmGetLocation blk) := by
  unfold maxBlockNumber at h
  unfold fsmGetLocationInt
  rw [asInt_of_lt (by rw [slots_eq]; omega)]
  rfl

theorem parent_int (h : addr.InMap) : fsmGetParentInt addr = some (fsmGetParent addr) := by
  have hbound : addr.level + 1 < 2 ^ 31 ∧ addr.logpageno / slotsPerFSMPage < 2 ^ 31 := by
    rw [slots_eq]
    rcases inMap_cases h with ⟨p, hp, rfl, -⟩ | ⟨q, hq, rfl, -⟩ | ⟨rfl, -⟩
    · dsimp only
      omega
    · dsimp only
      omega
    · decide
  unfold fsmGetParentInt
  rw [asInt_of_lt hbound.1, asInt_of_lt hbound.2]
  rfl

theorem child_int (h : addr.InMap) (hlevel : addr.level ≠ 0) (hs : s < slotsPerFSMPage) :
    fsmGetChildInt addr s = some (fsmGetChild addr s) := by
  have hbound : addr.logpageno * slotsPerFSMPage < 2 ^ 31 ∧ addr.logpageno * slotsPerFSMPage + s < 2 ^ 31 := by
    rw [slots_eq] at hs ⊢
    rcases inMap_cases h with ⟨p, -, rfl, -⟩ | ⟨q, hq, rfl, -⟩ | ⟨rfl, -⟩
    · exact absurd rfl hlevel
    · dsimp only
      omega
    · dsimp only [fsmRootAddress]
      omega
  unfold fsmGetChildInt
  rw [asInt_of_lt hbound.1]
  dsimp only [bind, Option.bind]
  rw [asInt_of_lt hbound.2]
  rfl

theorem physicalRound_eq {pages leafno : Nat} (h : leafno < 2 ^ 30) (hpages : pages < 2 ^ 31) :
    physicalRound (pages, leafno) = some (pages + (leafno + 1), leafno / 4069) := by
  unfold physicalRound
  dsimp only
  rw [slots_eq, asInt_of_lt (by omega), asInt_of_lt (by omega)]
  dsimp only [bind, Option.bind, pure]
  rw [Nat.mod_eq_of_lt (by omega)]

/-- The second loop, from the number of a leaf page. -/
theorem physicalRounds_eq {leafno : Nat} (h : leafno < 2 ^ 30) :
    (List.range (fsmRootLevel + 1)).foldlM (fun s _ => physicalRound s) (0, leafno) =
      some (leafno + 1 + (leafno / 4069 + 1) + (leafno / 4069 / 4069 + 1), leafno / 4069 / 4069 / 4069) := by
  have hfirst := physicalRound_eq h (show 0 < 2 ^ 31 by decide)
  have hsecond : physicalRound (0 + (leafno + 1), leafno / 4069) =
      some (0 + (leafno + 1) + (leafno / 4069 + 1), leafno / 4069 / 4069) := physicalRound_eq (by omega) (by omega)
  have hthird : physicalRound (0 + (leafno + 1) + (leafno / 4069 + 1), leafno / 4069 / 4069) =
      some (0 + (leafno + 1) + (leafno / 4069 + 1) + (leafno / 4069 / 4069 + 1), leafno / 4069 / 4069 / 4069) :=
    physicalRound_eq (by omega) (by omega)
  show ((physicalRound (0, leafno)).bind fun s => (physicalRound s).bind fun s => (physicalRound s).bind some) = _
  rw [hfirst, Option.bind_some, hsecond, Option.bind_some, hthird, Option.bind_some, zero_add]

theorem physical_int (h : addr.InMap) : fsmLogicalToPhysicalInt addr = some (fsmLogicalToPhysical addr) := by
  obtain ⟨leafno, hleaf, hlt, hphys⟩ : ∃ leafno, (asInt addr.logpageno >>= fun leafno =>
      (List.range addr.level).foldlM (fun leafno _ => asInt (leafno * slotsPerFSMPage)) leafno) = some leafno ∧
      leafno < 2 ^ 30 ∧ fsmLogicalToPhysical addr + addr.level + 1 =
        leafno + 1 + (leafno / 4069 + 1) + (leafno / 4069 / 4069 + 1) := by
    rcases inMap_cases h with ⟨p, hp, rfl, hphys⟩ | ⟨q, hq, rfl, hphys⟩ | ⟨rfl, -⟩
    · dsimp only at hphys ⊢
      refine ⟨p, ?_, by omega, ?_⟩
      · rw [asInt_of_lt (by omega)]
        rfl
      · rw [hphys]
        omega
    · dsimp only at hphys ⊢
      refine ⟨q * 4069, ?_, by omega, ?_⟩
      · rw [asInt_of_lt (by omega)]
        show ((asInt (q * slotsPerFSMPage)).bind fun leafno => some leafno) = _
        rw [slots_eq, asInt_of_lt (by omega)]
        rfl
      · rw [hphys, Nat.mul_div_cancel q (by decide), Nat.div_eq_of_lt (show q < 4069 by omega)]
        omega
    · exact ⟨0, by decide, by decide, by decide⟩
  have hlast : (leafno + 1 + (leafno / 4069 + 1) + (leafno / 4069 / 4069 + 1) + 2 ^ 32 - addr.level + 2 ^ 32 - 1) %
      2 ^ 32 = fsmLogicalToPhysical addr := by
    rw [← hphys]
    omega
  unfold fsmLogicalToPhysicalInt
  rw [← bind_assoc, hleaf, Option.bind_eq_bind, Option.bind_some, physicalRounds_eq hlt]
  exact congrArg some hlast

/-- **The pages of the map** are stored depth first without a gap, the functions that go from a page to another or to a
block undo each other, and no `int` overflows. -/
theorem fsm_addressing :
    (∀ a b : FSMAddress, a.InMap → b.InMap → fsmLogicalToPhysical a = fsmLogicalToPhysical b → a = b) ∧
    (∃ n, ∀ m, (∃ a : FSMAddress, a.InMap ∧ fsmLogicalToPhysical a = m) ↔ m < n) ∧
    (∀ a : FSMAddress, a.InMap → a.level ≠ fsmRootLevel →
      fsmLogicalToPhysical (fsmGetParent a).1 < fsmLogicalToPhysical a) ∧
    (∀ a b c : FSMAddress, a.InMap → b.InMap → c.InMap → a.level ≠ 0 → ∀ s, b.Below (fsmGetChild a s) →
      c.Below (fsmGetChild a (s + 1)) → fsmLogicalToPhysical b < fsmLogicalToPhysical c) ∧
    (∀ (a : FSMAddress) (s : Nat), a.InMap → a.level ≠ 0 → s < slotsPerFSMPage →
      fsmGetParent (fsmGetChild a s) = (a, s)) ∧
    (∀ blk ≤ maxBlockNumber, fsmGetHeapBlk (fsmGetLocation blk).1 (fsmGetLocation blk).2 = blk) ∧
    (∀ a : FSMAddress, a.InMap → fsmLogicalToPhysicalInt a = some (fsmLogicalToPhysical a) ∧
      fsmGetParentInt a = some (fsmGetParent a) ∧
      (a.level ≠ 0 → ∀ s < slotsPerFSMPage, fsmGetChildInt a s = some (fsmGetChild a s))) ∧
    (∀ blk ≤ maxBlockNumber, fsmGetLocationInt blk = some (fsmGetLocation blk)) := by
  refine ⟨fun a b ha hb h => (inMap_valid ha).eq_of_physical (inMap_valid hb) h, ⟨pagesInMap, physical_surjective⟩,
    fun a ha hlevel => physical_parent_lt ha hlevel, ?_, fun a s _ hlevel hs => parent_child hlevel hs, ?_, ?_,
    fun blk h => location_int h⟩
  · intro a b c ha hb hc hlevel s hbelow habove
    exact lt_of_lt_of_le (below_child ha hlevel hb hbelow).2 (below_child ha hlevel hc habove).1
  · intro blk h
    unfold maxBlockNumber at h
    unfold fsmGetHeapBlk fsmGetLocation
    dsimp only
    rw [Nat.div_add_mod']
    exact Nat.mod_eq_of_lt (by omega)
  · exact fun a ha => ⟨physical_int ha, parent_int ha, fun hlevel s hs => child_int ha hlevel hs⟩

end PgStorage.Fsm
