import PgStorage.Slotted.AddItem
import PgStorage.Slotted.Repair

/-! What `PageIndexTupleDelete` does, and the two routines that compact a page together.

The line pointer is taken out, what lies between the start of the tuples and the item moves up over it, and the line
pointers that lead there are adjusted. -/
namespace PgStorage.Slotted
open Memory Extent
open List

section Delete
variable {p q : Page} {m : Mem} {i j t : Nat}

/-- The line pointer that place `j` had before place `t` was taken out. -/
def placeBefore (t j : Nat) : Nat := if j < t then j else j + 1

/-- The line pointers behind one that is taken out move down. -/
theorem getItemId_memmove_down {cnt : Nat} (ht : 1 ≤ t) (hj : 1 ≤ j) (hle : j < t ∨ 4 * (j + 1) ≤ 4 * t + cnt) :
    getItemId (memmove m (linpAddr t) (linpAddr (t + 1)) cnt) j = getItemId m (placeBefore t j) := by
  have h1 := linpAddr_eq ht
  have h2 := linpAddr_succ t
  have h3 := linpAddr_eq hj
  have h4 := linpAddr_succ j
  unfold placeBefore
  split_ifs with hlt
  · exact getItemId_congr fun k hk => memmove_of_not_mem (by omega)
  · refine getItemId_congr fun k hk => ?_
    rw [memmove_of_mem (by omega)]
    exact congrArg m (by omega)

/-- The page after the line pointer has been taken out and the tuples have been moved, before line pointers are
adjusted. -/
def Page.closedAt (p : Page) (t offset size : Nat) : Page :=
  { mem := memmove (memmove p.mem (linpAddr t) (linpAddr (t + 1)) (p.pdLower - linpAddr (t + 1)))
      (p.pdUpper + size) p.pdUpper (offset - p.pdUpper)
    pdLower := p.pdLower - 4
    pdUpper := p.pdUpper + size
    pdSpecial := p.pdSpecial }

theorem Page.closedAt_header (p : Page) (t offset size : Nat) : (p.closedAt t offset size).pdLower = p.pdLower - 4 ∧
    (p.closedAt t offset size).pdUpper = p.pdUpper + size ∧ (p.closedAt t offset size).pdSpecial = p.pdSpecial :=
  ⟨rfl, rfl, rfl⟩

def Page.closed (p : Page) (t : Nat) : Page := p.closedAt t (p.off t) (doubleAlign (p.len t))

theorem Page.closed_header (p : Page) (t : Nat) : (p.closed t).pdLower = p.pdLower - 4 ∧
    (p.closed t).pdUpper = p.pdUpper + doubleAlign (p.len t) ∧ (p.closed t).pdSpecial = p.pdSpecial :=
  p.closedAt_header t (p.off t) (doubleAlign (p.len t))

/-- The bounds of the page and of the item that is taken out. -/
theorem Page.Formed.target (hp : p.Formed) (ha : p.Aligned) (ht : p.Used t) : 1 ≤ t ∧ t ≤ p.maxOffsetNumber ∧
    p.pdUpper ≤ p.off t ∧ p.len t ≤ doubleAlign (p.len t) ∧ p.off t + doubleAlign (p.len t) ≤ p.pdSpecial := by
  have hin : p.pdUpper ≤ p.off t ∧ p.off t + p.len t ≤ p.pdSpecial := hp.used ht
  have hend := doubleAlign_le (p.len t) (p.pdSpecial - p.off t) (Nat.dvd_sub ha.special (ha.items t ht)) (by omega)
  exact ⟨ht.1, ht.2.1, hin.1, le_doubleAlign _, by omega⟩

theorem pageIndexTupleDelete_eq (hp : p.Formed) (ha : p.Aligned) (ht : p.Used t) : pageIndexTupleDelete p t =
    some (pageIndexTupleDeleteAdjustLinePointers (p.closed t) (p.off t) (doubleAlign (p.len t))) := by
  have hb := hp.bounds
  obtain ⟨ht1, htn, hup, -, hend⟩ := hp.target ha ht
  have hsucc := linpAddr_succ t
  have hclosed : (if p.off t ≠ p.pdUpper then
      memmove (memmove p.mem (linpAddr t) (linpAddr (t + 1)) (p.pdLower - linpAddr (t + 1)))
        (p.pdUpper + doubleAlign (p.len t)) p.pdUpper (p.off t - p.pdUpper)
      else memmove p.mem (linpAddr t) (linpAddr (t + 1)) (p.pdLower - linpAddr (t + 1))) = (p.closed t).mem := by
    split_ifs with hne
    · rfl
    · unfold Page.closed Page.closedAt
      rw [not_not.mp hne, Nat.sub_self]
      exact memmove_zero.symm
  have hupper : toUInt16 ((p.pdUpper : Int) + doubleAlign (p.len t)) = p.pdUpper + doubleAlign (p.len t) := by
    unfold toUInt16
    omega
  have hlower : toUInt16 ((p.pdLower : Int) - sizeOfItemIdData) = p.pdLower - 4 := by
    unfold toUInt16 sizeOfItemIdData
    omega
  unfold pageIndexTupleDelete
  dsimp only
  rw [show (getItemId p.mem t).lpOff = p.off t from rfl, show (getItemId p.mem t).lpLen = p.len t from rfl,
    if_neg (show ¬(p.pdLower < linpAddr (t + 1) ∨ p.off t < p.pdUpper) by omega)]
  rw [hclosed, hupper, hlower]
  split_ifs with hempty
  · -- no line pointer is left to adjust
    have hzero : p.pdLower - 4 = 8 := by
      have := of_decide_eq_true hempty
      exact this
    have hmax : (p.closed t).maxOffsetNumber = 0 := by
      have := Page.maxOffsetNumber_eq (p := p.closed t) (show 8 ≤ p.pdLower - 4 by omega)
        (show p.pdLower - 4 < 2 ^ 16 by omega)
      rw [this]
      show (p.pdLower - 4 - 8) / 4 = 0
      omega
    unfold pageIndexTupleDeleteAdjustLinePointers
    rw [hmax]
    rfl
  · rfl

/-- What the routine leaves of a page. -/
structure Deleted (p : Page) (t : Nat) (q : Page) : Prop where
  items : q.items = p.items.eraseIdx (t - 1)
  lower : q.pdLower + sizeOfItemIdData = p.pdLower
  upper : q.pdUpper = p.pdUpper + doubleAlign (p.len t)
  special : q.pdSpecial = p.pdSpecial

theorem closed_maxOffsetNumber (hp : p.Formed) (htn : 1 ≤ p.maxOffsetNumber) :
    (p.closed t).maxOffsetNumber = p.maxOffsetNumber - 1 := by
  have hb := hp.bounds
  rw [Page.maxOffsetNumber_eq (p := p.closed t) (show 8 ≤ p.pdLower - 4 by omega)
    (show p.pdLower - 4 < 2 ^ 16 by omega)]
  show (p.pdLower - 4 - 8) / 4 = _
  omega

theorem closed_line (hp : p.Formed) (ha : p.Aligned) (ht : p.Used t) (hj : 1 ≤ j) (hle : j + 1 ≤ p.maxOffsetNumber) :
    (p.closed t).line j = p.line (placeBefore t j) := by
  have hb := hp.bounds
  obtain ⟨ht1, htn, hup, -, hend⟩ := hp.target ha ht
  have hsucc := linpAddr_succ t
  have hlow : getItemId (p.closed t).mem j =
      getItemId (memmove p.mem (linpAddr t) (linpAddr (t + 1)) (p.pdLower - linpAddr (t + 1))) j :=
    getItemId_frame (a := p.pdLower) (fun b hb => memmove_of_not_mem (by omega)) hj (by omega)
  exact hlow.trans (getItemId_memmove_down ht1 hj (by omega))

/-- Bytes in front of the item have moved up by its length, those behind it are where they were. -/
theorem closed_mem (hp : p.Formed) (ha : p.Aligned) (ht : p.Used t) {a : Nat} (hup : p.pdUpper ≤ a) :
    (a < p.off t → (p.closed t).mem (a + doubleAlign (p.len t)) = p.mem a) ∧
    (p.off t + doubleAlign (p.len t) ≤ a → (p.closed t).mem a = p.mem a) := by
  have hb := hp.bounds
  obtain ⟨ht1, htn, htup, -, hend⟩ := hp.target ha ht
  have hsucc := linpAddr_succ t
  have heq := linpAddr_eq ht1
  have hlines (b : Nat) (hb : p.pdUpper ≤ b) :
      memmove p.mem (linpAddr t) (linpAddr (t + 1)) (p.pdLower - linpAddr (t + 1)) b = p.mem b :=
    memmove_of_not_mem (by omega)
  constructor
  · intro hlt
    refine (memmove_of_mem (by omega)).trans ?_
    rw [show p.pdUpper + (a + doubleAlign (p.len t) - (p.pdUpper + doubleAlign (p.len t))) = a by omega]
    exact hlines a hup
  · intro hge
    exact (memmove_of_not_mem (by omega)).trans (hlines a hup)

/-- An item that is left stands for the same after its line pointer has been adjusted. -/
theorem closed_content (hp : p.Formed) (ha : p.Aligned) (ht : p.Used t) (hi : p.Used i) (hit : i ≠ t) {lp : ItemId}
    (hflags : lp.lpFlags = (p.line i).lpFlags) (hlen : lp.lpLen = p.len i)
    (hoff : lp.lpOff = if p.off i ≤ p.off t then (p.off i + doubleAlign (p.len t)) % 2 ^ 13 else p.off i) {m' : Mem}
    (hm : ∀ a, p.pdUpper ≤ a → m' a = (p.closed t).mem a) : content m' lp = content p.mem (p.line i) := by
  have hb := hp.bounds
  obtain ⟨ht1, htn, htup, -, hend⟩ := hp.target ha ht
  have hin : p.pdUpper ≤ p.off i ∧ p.off i + p.len i ≤ p.pdSpecial := hp.used hi
  have hal := le_doubleAlign (p.len i)
  refine content_congr (by rw [ItemId.isUsed, ItemId.isUsed, hflags]) (fun _ => hlen) fun _ => ?_
  change bytes m' lp.lpOff (p.len i) = bytes p.mem (p.off i) (p.len i)
  rcases Nat.eq_zero_or_pos (p.len i) with h0 | hpos
  · rw [h0]
    rfl
  rcases hp.apart.before doubleAlign doubleAlign_le hi ht hit (ha.items i hi) (ha.items t ht) with hd | hd
  · -- in front of the item
    rw [if_pos (by omega), Nat.mod_eq_of_lt (by omega)] at hoff
    rw [hoff]
    refine bytes_congr fun k hk => ?_
    rw [hm _ (by omega), add_right_comm]
    exact (closed_mem hp ha ht (by omega)).1 (by omega)
  · -- behind it, or nothing has moved
    have hsame : lp.lpOff = p.off i := by
      rw [hoff]
      split_ifs with hle
      · have h0 : doubleAlign (p.len t) = 0 := by omega
        rw [h0, add_zero, Nat.mod_eq_of_lt (by omega)]
      · rfl
    rw [hsame]
    refine bytes_congr fun k hk => ?_
    rw [hm _ (by omega)]
    exact (closed_mem hp ha ht (by omega)).2 (by omega)

/-- The adjustment leaves the header alone. -/
theorem adjust_header (p : Page) (location size : Nat) :
    let q := pageIndexTupleDeleteAdjustLinePointers p location size
    q.pdLower = p.pdLower ∧ q.pdUpper = p.pdUpper ∧ q.pdSpecial = p.pdSpecial :=
  ⟨p.setMem_pdLower _, p.setMem_pdUpper _, p.setMem_pdSpecial _⟩

/-- What the adjustment leaves of the line pointers. -/
theorem adjust_spec (p : Page) (location size : Nat) :
    let q := pageIndexTupleDeleteAdjustLinePointers p location size
    (∀ j, 1 ≤ j → j ≤ p.maxOffsetNumber → (q.line j).lpFlags = (p.line j).lpFlags ∧ q.len j = p.len j ∧
      q.off j = if p.off j ≤ location then (p.off j + size) % 2 ^ 13 else p.off j) ∧
    ∀ a, 8 + 4 * p.maxOffsetNumber ≤ a → q.mem a = p.mem a := by
  obtain ⟨hline, hmem⟩ := forLines_spec (n := p.maxOffsetNumber) (l := (range' 1 p.maxOffsetNumber).reverse)
    (fun lp => decide (lp.lpOff ≤ location)) (fun lp => {lp with lpOff := lp.lpOff + size}) p.mem
    (fun i hi => by have := mem_range'_1.mp (mem_reverse.mp hi); omega)
    (nodup_reverse.mpr nodup_range')
  refine ⟨fun j hj hle => ?_, hmem⟩
  have hlp := hline j hj
  have hmemb : j ∈ (range' 1 p.maxOffsetNumber).reverse :=
    mem_reverse.mpr (mem_range'_1.mpr ⟨hj, by omega⟩)
  by_cases hloc : (getItemId p.mem j).lpOff ≤ location
  · rw [if_pos ⟨hmemb, decide_eq_true hloc⟩] at hlp
    exact ⟨(congrArg ItemId.lpFlags hlp).trans (Nat.mod_eq_of_lt getItemId_flags_lt),
      (congrArg ItemId.lpLen hlp).trans (Nat.mod_eq_of_lt getItemId_len_lt),
      (congrArg ItemId.lpOff hlp).trans (if_pos hloc).symm⟩
  · rw [if_neg fun h => hloc (of_decide_eq_true h.2)] at hlp
    exact ⟨congrArg ItemId.lpFlags hlp, congrArg ItemId.lpLen hlp, (congrArg ItemId.lpOff hlp).trans (if_neg hloc).symm⟩

theorem pageIndexTupleDelete_deleted (hp : p.Formed) (ha : p.Aligned) (ht : p.Used t) :
    ∃ q, pageIndexTupleDelete p t = some q ∧ Deleted p t q := by
  have hb := hp.bounds
  obtain ⟨ht1, htn, htup, -, hend⟩ := hp.target ha ht
  have hmax := closed_maxOffsetNumber (t := t) hp (le_trans ht1 htn)
  obtain ⟨hlower, hupper, hspecial⟩ := p.closed_header t
  have hadjust := pageIndexTupleDelete_eq hp ha ht
  obtain ⟨hql, hqu, hqs⟩ := adjust_header (p.closed t) (p.off t) (doubleAlign (p.len t))
  obtain ⟨hline, hmem⟩ := adjust_spec (p.closed t) (p.off t) (doubleAlign (p.len t))
  generalize pageIndexTupleDeleteAdjustLinePointers (p.closed t) (p.off t) (doubleAlign (p.len t)) = q at *
  have hqmax : q.maxOffsetNumber = p.maxOffsetNumber - 1 := (Page.maxOffsetNumber_congr hql).trans hmax
  refine ⟨q, hadjust, ⟨?_, ?_, hqu.trans hupper, hqs.trans hspecial⟩⟩
  rotate_left
  · rw [hql, hlower, sizeOfItemIdData]
    omega
  rw [hmax] at hline hmem
  have hlen : (p.items.eraseIdx (t - 1)).length = p.maxOffsetNumber - 1 := by
    rw [length_eraseIdx, Page.length_items, if_pos (by omega)]
  refine Page.items_eq (hqmax.trans hlen.symm) fun j hj => ?_
  rw [hqmax] at hj
  have hplace : 1 ≤ placeBefore t (j + 1) ∧ placeBefore t (j + 1) ≤ p.maxOffsetNumber ∧ placeBefore t (j + 1) ≠ t := by
    unfold placeBefore
    split_ifs <;> omega
  have hget : (p.items.eraseIdx (t - 1))[j]? = some (content p.mem (p.line (placeBefore t (j + 1)))) := by
    have hone : placeBefore t (j + 1) = (if j < t - 1 then j else j + 1) + 1 := by
      unfold placeBefore
      split_ifs <;> omega
    rw [getElem?_eraseIdx, hone]
    split_ifs
    · exact Page.getElem?_items (by omega)
    · exact Page.getElem?_items (by omega)
  obtain ⟨hf, hl, ho⟩ := hline (j + 1) (by omega) (by omega)
  unfold Page.len at hl
  unfold Page.off at ho
  rw [closed_line hp ha ht (by omega) (by omega)] at hf hl ho
  rw [hget]
  refine congrArg some ?_
  generalize placeBefore t (j + 1) = k at hplace hf hl ho
  have hused : (q.line (j + 1)).isUsed = (p.line k).isUsed := by rw [ItemId.isUsed, ItemId.isUsed, hf]
  cases hu : (p.line k).isUsed with
  | false => rw [content_of_unused hu, content_of_unused (hused.trans hu)]
  | true =>
    have hm : ∀ a, p.pdUpper ≤ a → q.mem a = (p.closed t).mem a := fun a hua => hmem a (by omega)
    exact (closed_content hp ha ht ⟨hplace.1, hplace.2.1, hu⟩ hplace.2.2 hf hl ho hm).symm

end Delete

/-- **Both routines keep every item** that they do not take out. -/
theorem compaction_keeps (p : Page) (pgQsort : List ItemIdSort → List ItemIdSort) (hp : p.Formed) (ha : p.Aligned)
    (hq : Sorts pgQsort) : Repaired pgQsort p (pageRepairFragmentation pgQsort p) ∧
      ∀ t, p.Used t → ∃ q, pageIndexTupleDelete p t = some q ∧ Deleted p t q :=
  ⟨pageRepairFragmentation_repaired hp ha hq, fun _ ht => pageIndexTupleDelete_deleted hp ha ht⟩

theorem sorts_insertionSort : Sorts fun l => l.insertionSort fun a b => itemidcompare a b ≤ 0 := by
  intro l
  have ht : Std.Total fun a b : ItemIdSort => itemidcompare a b ≤ 0 := ⟨fun a b => by
    rw [itemidcompare_le_zero, itemidcompare_le_zero]
    exact Nat.le_total _ _⟩
  have htr : IsTrans ItemIdSort fun a b => itemidcompare a b ≤ 0 := ⟨fun a b c h1 h2 => by
    rw [itemidcompare_le_zero] at *
    exact le_trans h2 h1⟩
  exact ⟨perm_insertionSort _ l, pairwise_insertionSort _ l⟩

theorem crowded_aligned : crowded.Aligned := by
  refine ⟨by decide, by decide, fun i hi => ?_⟩
  have hmax : crowded.maxOffsetNumber = 2 := rfl
  obtain ⟨hi1, hi2, -⟩ := hi
  obtain rfl | rfl : i = 1 ∨ i = 2 := by omega
  · decide
  · decide

theorem crowded_keeps :
    Repaired (fun l => l.insertionSort fun a b => itemidcompare a b ≤ 0) crowded
        (pageRepairFragmentation (fun l => l.insertionSort fun a b => itemidcompare a b ≤ 0) crowded) ∧
      ∀ t, crowded.Used t → ∃ q, pageIndexTupleDelete crowded t = some q ∧ Deleted crowded t q :=
  compaction_keeps crowded _ crowded_formed crowded_aligned sorts_insertionSort

end PgStorage.Slotted
