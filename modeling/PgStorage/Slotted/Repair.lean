import PgStorage.Slotted.Compact

/-! What `PageRepairFragmentation` does.

Every used item keeps its number and its bytes, line pointers that are unused stay so, and the items lie against the
special space without gaps but for their alignment. -/
namespace PgStorage.Slotted
open Memory Extent
open List

section Repair
variable {p : Page} {i : Nat} {it : ItemIdSort} {pgQsort : List ItemIdSort → List ItemIdSort}

theorem Page.Formed.nline (h : p.Formed) : p.nline = p.maxOffsetNumber := by
  have hb := h.bounds
  exact if_pos (by omega)

/-! ### Unused line pointers -/

/-- After the first loop a used line pointer is as it was, and an unused one is unused. -/
theorem deallocUnused_spec (m : Mem) (n : Nat) :
    (∀ i, 1 ≤ i → (getItemId m i).isUsed = true → getItemId (deallocUnused m n) i = getItemId m i) ∧
    (∀ i, 1 ≤ i → (getItemId (deallocUnused m n) i).isUsed = (getItemId m i).isUsed) ∧
    ∀ a, 8 + 4 * n ≤ a → deallocUnused m n a = m a := by
  obtain ⟨hline, hmem⟩ := forLines_spec (n := n) (l := range' 1 n) (fun lp => !lp.isUsed && decide (0 < lp.lpLen))
    (fun lp => {lp with lpLen := 0}) m (fun i hi => by have := mem_range'_1.mp hi; omega) nodup_range'
  refine ⟨fun i hi hu => ?_, fun i hi => ?_, hmem⟩
  · refine (hline i hi).trans (if_neg fun h => ?_)
    rw [hu] at h
    cases h.2
  · unfold deallocUnused
    rw [hline i hi]
    split_ifs
    · rw [ItemId.cut_isUsed]
      rfl
    · rfl

theorem usedItems_offset (h : it ∈ usedItems p.mem p.maxOffsetNumber) : p.Used (it.offsetindex + 1) ∧
    it.itemiddata = p.line (it.offsetindex + 1) := by
  obtain ⟨h1, h2, h3⟩ := mem_usedItems.mp h
  exact ⟨⟨by omega, by omega, h2⟩, h3⟩

/-- A sorted array of the used items can be compacted. -/
theorem ready (hp : p.Formed) (ha : p.Aligned) (hq : Sorts pgQsort) :
    Ready (deallocUnused p.mem p.maxOffsetNumber) p.maxOffsetNumber (pgQsort (usedItems p.mem p.maxOffsetNumber))
      (deallocUnused p.mem p.maxOffsetNumber) p.pdSpecial := by
  have hb := hp.bounds
  obtain ⟨hperm, hsorted⟩ := hq (usedItems p.mem p.maxOffsetNumber)
  have hmem (x : ItemIdSort) (hx : x ∈ pgQsort (usedItems p.mem p.maxOffsetNumber)) :=
    usedItems_offset (hperm.mem_iff.mp hx)
  have hdistinct : ((pgQsort (usedItems p.mem p.maxOffsetNumber)).map ItemIdSort.offsetindex).Nodup :=
    (hperm.map ItemIdSort.offsetindex).nodup_iff.mpr nodup_usedItems
  refine ⟨fun x hx => ?_, fun _ _ _ => rfl, ?_, hdistinct, by omega⟩
  · obtain ⟨hu, he⟩ := hmem x hx
    have hin := hp.used hu
    have hal := ha.items _ hu
    have hsp := ha.special
    have hend := doubleAlign_le (p.line (x.offsetindex + 1)).lpLen (p.pdSpecial - (p.line (x.offsetindex + 1)).lpOff)
      (Nat.dvd_sub hsp hal) (by omega)
    have hle := hu.2.1
    refine ⟨by omega, ?_, ?_, ?_⟩
    · rw [(deallocUnused_spec _ _).1 _ hu.1 hu.2.2]
      exact he.symm
    · rw [he]
      omega
    · rw [he]
      omega
  · unfold List.Nodup at hdistinct
    rw [pairwise_map] at hdistinct
    refine (hsorted.and hdistinct).imp_of_mem fun {a b} ha' hb' hab hpos => ?_
    obtain ⟨hua, hea⟩ := hmem a ha'
    obtain ⟨hub, heb⟩ := hmem b hb'
    have hle := (itemidcompare_le_zero a b).mp hab.1
    have hne : b.offsetindex + 1 ≠ a.offsetindex + 1 := fun e => hab.2 (Nat.succ.inj e).symm
    have hbefore := hp.apart.before doubleAlign doubleAlign_le hub hua hne (ha.items _ hub) (ha.items _ hua)
    have hal := le_doubleAlign (p.line (a.offsetindex + 1)).lpLen
    rw [hea] at hle hpos ⊢
    rw [heb] at hle ⊢
    rcases hbefore with hd | hd
    · exact hd
    · have hd' : (p.line (a.offsetindex + 1)).lpOff + doubleAlign (p.line (a.offsetindex + 1)).lpLen ≤
          (p.line (b.offsetindex + 1)).lpOff := hd
      omega

/-- What the routine leaves of a page. -/
structure Repaired (pgQsort : List ItemIdSort → List ItemIdSort) (p q : Page) : Prop where
  items : q.items = p.items
  header : q.pdLower = p.pdLower ∧ q.pdSpecial = p.pdSpecial
  packed : ∃ order : List Nat, order.Nodup ∧ (∀ i, i ∈ order ↔ p.Used i) ∧
    Packed q.off q.len p.pdSpecial order q.pdUpper
  /-- While the items are moved, those that have not been are intact. -/
  inPlace : ∀ pre rest, pgQsort (usedItems p.mem p.nline) = pre ++ rest → ∀ it ∈ rest,
    let m := (pre.foldl compactItem (deallocUnused p.mem p.nline, p.pdSpecial)).1
    getItemId m (it.offsetindex + 1) = p.line (it.offsetindex + 1) ∧
      bytes m (p.off (it.offsetindex + 1)) (p.len (it.offsetindex + 1)) =
        bytes p.mem (p.off (it.offsetindex + 1)) (p.len (it.offsetindex + 1))

theorem inPlace (hp : p.Formed) (ha : p.Aligned) (hq : Sorts pgQsort) {pre rest : List ItemIdSort}
    (hsplit : pgQsort (usedItems p.mem p.maxOffsetNumber) = pre ++ rest) (hit : it ∈ rest) :
    let m := (pre.foldl compactItem (deallocUnused p.mem p.maxOffsetNumber, p.pdSpecial)).1
    getItemId m (it.offsetindex + 1) = p.line (it.offsetindex + 1) ∧
      bytes m (p.off (it.offsetindex + 1)) (p.len (it.offsetindex + 1)) =
        bytes p.mem (p.off (it.offsetindex + 1)) (p.len (it.offsetindex + 1)) := by
  have hb := hp.bounds
  have hready := ready hp ha hq
  rw [hsplit] at hready
  have hrun := hready.run
  have hin := (hq (usedItems p.mem p.maxOffsetNumber)).1.mem_iff.mp (hsplit ▸ mem_append_right pre hit)
  obtain ⟨hu, he⟩ := usedItems_offset hin
  have hline := (hrun.entry it hit).2.1
  have hbytes := hrun.intact it hit
  have hup := (hp.used hu).1
  rw [he] at hline hbytes
  refine ⟨hline, hbytes.trans (bytes_congr fun k hk => ?_)⟩
  exact (deallocUnused_spec p.mem p.maxOffsetNumber).2.2 _ (by omega)

/-- Line pointers stand for what they did, if the used ones lead to their bytes and the others are unused. -/
theorem items_of_lines {m : Mem} {upper : Nat}
    (hused : ∀ i, p.Used i → content m (getItemId m i) = content p.mem (p.line i))
    (hunused : ∀ i, 1 ≤ i → i ≤ p.maxOffsetNumber → (p.line i).isUsed = false → (getItemId m i).isUsed = false) :
    ({p with mem := m, pdUpper := upper} : Page).items = p.items := by
  refine Page.items_eq (show p.maxOffsetNumber = _ from Page.length_items.symm) fun i hi => ?_
  have hi' : i < p.maxOffsetNumber := hi
  rw [Page.getElem?_items hi']
  refine congrArg some ?_
  cases hu : (p.line (i + 1)).isUsed with
  | true => exact (hused (i + 1) ⟨by omega, by omega, hu⟩).symm
  | false =>
    rw [content_of_unused hu]
    exact (content_of_unused (hunused (i + 1) (by omega) (by omega) hu)).symm

/-- **`PageRepairFragmentation`** moves the items and changes nothing else. -/
theorem pageRepairFragmentation_repaired (hp : p.Formed) (ha : p.Aligned) (hq : Sorts pgQsort) :
    Repaired pgQsort p (pageRepairFragmentation pgQsort p) := by
  have hb := hp.bounds
  have hin (pre rest : List ItemIdSort) (hsplit : pgQsort (usedItems p.mem p.nline) = pre ++ rest) (it : ItemIdSort)
      (hit : it ∈ rest) :
      let m := (pre.foldl compactItem (deallocUnused p.mem p.nline, p.pdSpecial)).1
      getItemId m (it.offsetindex + 1) = p.line (it.offsetindex + 1) ∧
        bytes m (p.off (it.offsetindex + 1)) (p.len (it.offsetindex + 1)) =
          bytes p.mem (p.off (it.offsetindex + 1)) (p.len (it.offsetindex + 1)) := by
    rw [hp.nline] at hsplit ⊢
    exact inPlace hp ha hq hsplit hit
  unfold pageRepairFragmentation
  dsimp only
  rw [hp.nline] at hin ⊢
  split_ifs with hnone
  · -- no item is used
    have hno (i : Nat) (hi : 1 ≤ i) (hle : i ≤ p.maxOffsetNumber) : (p.line i).isUsed = false := by
      have := countP_eq_zero.mp hnone i (mem_range'_1.mpr ⟨hi, by omega⟩)
      exact Bool.eq_false_iff.mpr this
    have hnot (i : Nat) : ¬p.Used i := fun hu => Bool.noConfusion ((hno i hu.1 hu.2.1).symm.trans hu.2.2)
    obtain ⟨hline, -⟩ := forLines_spec (n := p.maxOffsetNumber) (l := range' 1 p.maxOffsetNumber)
      (fun lp => decide (0 < lp.lpLen)) (fun lp => {lp with lpLen := 0}) p.mem
      (fun i hi => by have := mem_range'_1.mp hi; omega) nodup_range'
    refine ⟨items_of_lines (fun i hu => absurd hu (hnot i)) fun i hi hle hu => ?_, ⟨rfl, rfl⟩,
      ⟨[], nodup_nil, fun i => ⟨fun h => absurd h not_mem_nil, fun h => absurd h (hnot i)⟩, rfl⟩, ?_⟩
    · rw [hline i hi]
      split_ifs
      · rw [ItemId.cut_isUsed]
        exact hu
      · exact hu
    · rw [hp.nline]
      exact hin
  · have hperm := (hq (usedItems p.mem p.maxOffsetNumber)).1
    have hcomp := (ready hp ha hq).compacted
    obtain ⟨hsame, hflags, hmem⟩ := deallocUnused_spec p.mem p.maxOffsetNumber
    generalize (pgQsort (usedItems p.mem p.maxOffsetNumber)).foldl compactItem _ = s at hcomp
    have hofUsed (i : Nat) (hu : p.Used i) : ∃ x ∈ pgQsort (usedItems p.mem p.maxOffsetNumber),
        x.offsetindex + 1 = i ∧ x.itemiddata = p.line i := by
      have he : i - 1 + 1 = i := Nat.sub_add_cancel hu.1
      refine ⟨⟨i - 1, p.line i⟩, hperm.mem_iff.mpr (mem_usedItems.mpr ⟨?_, ?_, ?_⟩), he, rfl⟩
      · have := hu.2.1
        have := hu.1
        show i - 1 < _
        omega
      · rw [he]
        exact hu.2.2
      · rw [he]
        rfl
    refine ⟨items_of_lines (fun i hu => ?_) (fun i hi hle hu => ?_), ⟨rfl, rfl⟩,
      ⟨(pgQsort (usedItems p.mem p.maxOffsetNumber)).map fun x : ItemIdSort => x.offsetindex + 1, ?_, fun i => ?_,
        hcomp.packed⟩, ?_⟩
    · -- a used item has been moved with its bytes
      obtain ⟨x, hx, rfl, hdata⟩ := hofUsed i hu
      obtain ⟨hf, hl, hbytes⟩ := hcomp.item x hx
      have hup := (hp.used hu).1
      rw [hdata] at hf hl hbytes
      refine content_congr (by rw [ItemId.isUsed, ItemId.isUsed, hf]) (fun _ => hl) fun _ => hbytes.trans ?_
      exact bytes_congr fun k hk => hmem _ (by omega)
    · -- an unused one has not been touched again
      rw [hcomp.other i hi hle fun x hx hxi => ?_, hflags i hi]
      · exact hu
      · have hxu := (usedItems_offset (hperm.mem_iff.mp hx)).1.2.2
        rw [hxi, hu] at hxu
        cases hxu
    · have hnodup := (hperm.map ItemIdSort.offsetindex).nodup_iff.mpr nodup_usedItems
      have := hnodup.map Nat.succ_injective
      rw [map_map] at this
      exact this
    · refine ⟨fun hi => ?_, fun hu => ?_⟩
      · obtain ⟨x, hx, rfl⟩ := mem_map.mp hi
        exact (usedItems_offset (hperm.mem_iff.mp hx)).1
      · obtain ⟨x, hx, hxi, -⟩ := hofUsed i hu
        exact mem_map.mpr ⟨x, hx, hxi⟩
    · rw [hp.nline]
      exact hin

end Repair
end PgStorage.Slotted
