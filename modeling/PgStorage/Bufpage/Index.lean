import PgStorage.Bufpage.Relocate

/-! The routines for index pages.

Each takes or replaces one item and moves the tuples in front of it. On a well formed page they
keep the page well formed and do to the array of items what their names say. -/
namespace PgStorage.Bufpage
open Memory
open List Page

section Index
variable {p q : Page} {m m' : Mem} {t : Nat}

/-- A valid offset number of an item with storage. -/
def Page.HasItem (p : Page) (t : Nat) : Prop := 1 ≤ t ∧ t ≤ p.maxOffsetNumber ∧ (p.line t).hasStorage = true

structure Page.WellFormed (p : Page) : Prop where
  formed : p.Formed
  aligned : p.Aligned

theorem Page.items_eq {l : List (Option (List UInt8))} (hlen : l.length = p.maxOffsetNumber)
    (h : ∀ i < p.maxOffsetNumber, l[i]? = some (content p.mem (p.line (i + 1)))) : p.items = l := by
  refine ext_getElem? fun i => ?_
  rcases Nat.lt_or_ge i p.maxOffsetNumber with hi | hi
  · rw [getElem?_items hi, h i hi]
  · rw [getElem?_eq_none (by simpa using hi), getElem?_eq_none (by omega)]

theorem Page.WellFormed.targetOk (h : p.WellFormed) (ht : p.HasItem t) : p.targetOk t = true := by
  have hal := h.formed.layout.aligned t ht.1 ht.2.1 ht.2.2
  have hin := h.formed.layout.inside t ht.1 ht.2.1 ht.2.2
  have h1 : p.pdSpecial = maxAlign p.pdSpecial := eq_maxAlign_iff.mpr h.aligned.special
  have h2 : (p.line t).lpOff = maxAlign (p.line t).lpOff := eq_maxAlign_iff.mpr hal
  have h3 : 0 < t ∧ t ≤ p.maxOffsetNumber := ⟨ht.1, ht.2.1⟩
  unfold Page.targetOk
  rw [h.formed.pointersOk, decide_eq_true h1, decide_eq_true h3, Bool.true_and, Bool.true_and, Bool.true_and,
    decide_eq_true_iff]
  exact ⟨hin.1, hin.2, h2⟩

theorem Page.WellFormed.movable (h : p.WellFormed) (ht : p.HasItem t) {d : Int} (hd : (8 : Int) ∣ d)
    (hlow : 0 ≤ (p.pdUpper : Int) + d) (hhigh : d ≤ maxAlign (p.line t).lpLen) :
    Movable p.line p.maxOffsetNumber p.pdUpper p.pdSpecial t d :=
  ⟨h.formed.layout, h.aligned.upper, h.aligned.special, ⟨ht.1, ht.2.1⟩, ht.2.2, hd, hlow, hhigh⟩

theorem Page.WellFormed.numbers (h : p.WellFormed) (ht : p.HasItem t) :
    24 + 4 * p.maxOffsetNumber ≤ p.pdLower ∧ p.pdLower ≤ p.pdUpper ∧ p.pdUpper ≤ (p.line t).lpOff ∧
      (p.line t).lpOff + maxAlign (p.line t).lpLen ≤ p.pdSpecial ∧ p.pdSpecial ≤ 8192 ∧
      p.pdLower < 28 + 4 * p.maxOffsetNumber := by
  have hin := h.formed.layout.inside t ht.1 ht.2.1 ht.2.2
  have hend := h.formed.layout.end_le h.aligned.special ⟨ht.1, ht.2.1⟩ ht.2.2
  have hmax := maxOffsetNumber_eq h.formed.header
  have hheader := h.formed.header
  have hsp := h.formed.special_le
  unfold sizeOfPageHeaderData at hheader
  unfold blcksz at hsp
  exact ⟨p.lines_le h.formed.header, h.formed.lower_le, hin.1, hend, hsp, by omega⟩

/-- Moving blocks of two memories that agree from an address on. -/
theorem memmove_agree {b dst src n : Nat} (h : ∀ a, b ≤ a → m' a = m a) (hsrc : b ≤ src) :
    ∀ a, b ≤ a → memmove m' dst src n a = memmove m dst src n a := by
  intro a ha
  unfold memmove
  split_ifs
  · exact h _ (by omega)
  · exact h a ha

/-- The line pointers that are adjusted, where the distance does not lead out of the field. -/
theorem adjusted_off {lp : ItemId} {d : Int} {off : Nat} (h0 : 0 ≤ (lp.lpOff : Int) + d)
    (h1 : (lp.lpOff : Int) + d < 2 ^ 15) (hoff : (off : Int) = lp.lpOff + d) :
    ((lp.lpOff + d) % 2 ^ 15).toNat = off := by
  omega

/-- The loop moves a line pointer whose item is in front of the target. -/
theorem adjustLines_placed (h : p.WellFormed) (ht : p.HasItem t) {d : Int} (hd : (8 : Int) ∣ d)
    (hlow : 0 ≤ (p.pdUpper : Int) + d) (hhigh : d ≤ maxAlign (p.line t).lpLen) (nline : Nat) {j i : Nat}
    (moved : ItemId → Bool) (hmoved : ∀ lp : ItemId, lp.hasStorage = true →
      (moved lp = true ↔ lp.lpOff ≤ (p.line t).lpOff))
    (hj : 1 ≤ j ∧ j ≤ nline) (hi : 1 ≤ i ∧ i ≤ p.maxOffsetNumber) (hline : getItemId m j = p.line i) :
    (getItemId (adjustLines m nline moved d) j).lpFlags = (p.line i).lpFlags ∧
      (getItemId (adjustLines m nline moved d) j).lpLen = (p.line i).lpLen ∧
      ((p.line i).hasStorage = true → i ≠ t →
        (getItemId (adjustLines m nline moved d) j).lpOff = movedOff p.line t d i) := by
  have hmov := h.movable ht hd hlow hhigh
  obtain ⟨hspec, -⟩ := adjustLines_spec m nline moved d
  rw [hspec j hj.1, hline]
  refine ⟨by split_ifs <;> rfl, by split_ifs <;> rfl, fun hs hit => ?_⟩
  have hiff := hmoved (p.line i) hs
  have hin := h.formed.layout.inside i hi.1 hi.2 hs
  have hnum := h.numbers ht
  by_cases hle : (p.line i).lpOff ≤ (p.line t).lpOff
  · rw [if_pos ⟨hj.2, hiff.mpr hle⟩]
    rcases hmov.cases hi hit hs with ⟨hoff, -⟩ | ⟨-, hend⟩
    · exact adjusted_off (by omega) (by omega) hoff
    · have hpos := hasStorage_iff.mp ht.2.2
      have hma := le_maxAlign (p.line t).lpLen
      omega
  · rw [if_neg fun hc => hle (hiff.mp hc.2), movedOff, if_neg hle]

/-- The pointers when an item goes away are in range. -/
theorem Page.WellFormed.freed (h : p.WellFormed) (ht : p.HasItem t) :
    toUInt16 (p.pdUpper + maxAlign (p.line t).lpLen : Int) = p.pdUpper + maxAlign (p.line t).lpLen ∧
      toUInt16 ((p.pdLower : Int) - sizeOfItemIdData) = p.pdLower - 4 := by
  obtain ⟨hlines, hlu, hut, hts, hsp, hfloor⟩ := h.numbers ht
  have ht1 := ht.1
  have htn := ht.2.1
  have hupper := toUInt16_of_lt (n := (p.pdUpper + maxAlign (p.line t).lpLen : Int)) (by omega) (by omega)
  have hlower := toUInt16_of_lt (n := ((p.pdLower : Int) - 4)) (by omega) (by omega)
  unfold sizeOfItemIdData
  push_cast
  omega

/-- The move of the tuples is skipped when there is nothing to move. -/
theorem memmove_skip {lo hi dst : Nat} (h : lo ≤ hi) :
    (if lo < hi then memmove m dst lo (hi - lo) else m) = memmove m dst lo (hi - lo) := by
  split_ifs with h0
  · rfl
  · have hz : hi - lo = 0 := by omega
    rw [hz, memmove_zero]

/-! ### `PageIndexTupleDelete` -/

/-- The line pointers behind the one that goes away move down. -/
theorem getItemId_memmove_down {n nbytes : Nat} (ht : 1 ≤ t) (hn : 4 * (n - t) ≤ nbytes) {j : Nat} (hj : 1 ≤ j)
    (hjn : j < n) :
    getItemId (memmove m (linpAddr t) (linpAddr (t + 1)) nbytes) j = getItemId m (if j < t then j else j + 1) := by
  have h1 := linpAddr_eq ht
  have h2 := linpAddr_succ t
  have h3 := linpAddr_eq hj
  split_ifs with hlt
  · exact getItemId_congr fun k hk => memmove_of_not_mem (by omega)
  · have h4 := linpAddr_succ j
    refine getItemId_congr fun k hk => ?_
    rw [memmove_of_mem (by omega)]
    exact congrArg m (by omega)

/-- **Removing an item removes it from the array.** -/
theorem delete_spec (h : p.WellFormed) (ht : p.HasItem t) : ∃ q, pageIndexTupleDelete p t = some q ∧
    q.WellFormed ∧ q.items = p.items.eraseIdx (t - 1) := by
  obtain ⟨hlines, hlu, hut, hts, hsp, hfloor⟩ := h.numbers ht
  have hd := dvd_maxAlign (p.line t).lpLen
  have hd' : (8 : Int) ∣ (maxAlign (p.line t).lpLen : Int) := by omega
  have hmov := h.movable ht hd' (by omega) le_rfl
  have hmax := maxOffsetNumber_eq h.formed.header
  have hheader := h.formed.header
  unfold sizeOfPageHeaderData at hheader
  have ht1 := ht.1
  have htn := ht.2.1
  have haddr := linpAddr_eq ht1
  have haddr' := linpAddr_succ t
  let m1 := memmove p.mem (linpAddr t) (linpAddr (t + 1)) (p.pdLower - linpAddr (t + 1))
  let m2 := memmove m1 (p.pdUpper + maxAlign (p.line t).lpLen) p.pdUpper ((p.line t).lpOff - p.pdUpper)
  let m3 := adjustLines m2 (p.maxOffsetNumber - 1) (fun lp => decide (lp.lpOff ≤ (p.line t).lpOff))
    (maxAlign (p.line t).lpLen)
  obtain ⟨hupper, hlower⟩ := h.freed ht
  have hres : pageIndexTupleDelete p t = some {p with
      mem := m3, pdUpper := p.pdUpper + maxAlign (p.line t).lpLen, pdLower := p.pdLower - 4} := by
    have e1 : (if 0 < p.pdLower - linpAddr (t + 1) then
        memmove p.mem (linpAddr t) (linpAddr (t + 1)) (p.pdLower - linpAddr (t + 1)) else p.mem) = m1 := by
      split_ifs with h0
      · rfl
      · have hz : p.pdLower - linpAddr (t + 1) = 0 := by omega
        show p.mem = memmove p.mem _ _ _
        rw [hz, memmove_zero]
    have e2 : (if p.pdUpper < (p.line t).lpOff then
        memmove m1 (p.pdUpper + maxAlign (p.line t).lpLen) p.pdUpper ((p.line t).lpOff - p.pdUpper)
        else m1) = m2 := memmove_skip hut
    unfold pageIndexTupleDelete
    rw [if_pos (h.targetOk ht)]
    have hline : getItemId p.mem t = p.line t := rfl
    simp only [hline]
    rw [hupper, hlower, e1, e2]
    split_ifs with hempty
    · -- no line pointer is left, so there is nothing to adjust
      have hone : p.maxOffsetNumber - 1 = 0 := by
        have := of_decide_eq_true hempty
        unfold sizeOfPageHeaderData at this
        dsimp only at this
        omega
      show some _ = some _
      simp only [m3, hone]
      rfl
    · rfl
  have hm1 : ∀ a, p.pdLower ≤ a → m1 a = p.mem a := fun a ha => memmove_of_not_mem (by omega)
  have hm3 : ∀ a, p.pdUpper ≤ a → m3 a =
      memmove p.mem (p.pdUpper + maxAlign (p.line t).lpLen) p.pdUpper ((p.line t).lpOff - p.pdUpper) a := by
    intro a ha
    have h1 : m3 a = m2 a := (adjustLines_spec m2 _ _ _).2 a (by omega)
    rw [h1]
    exact memmove_agree hm1 hlu a (by omega)
  have hm2 : ∀ b < p.pdUpper, m2 b = m1 b := fun b hb => memmove_of_not_mem (by omega)
  have hsource : ∀ j, 1 ≤ j → j < p.maxOffsetNumber →
      getItemId m2 j = p.line (if j < t then j else j + 1) := by
    intro j hj hjn
    rw [getItemId_frame hm2 hj (by omega)]
    exact getItemId_memmove_down ht1 (by omega) hj hjn
  have hplaced : ∀ j, 1 ≤ j → j ≤ p.maxOffsetNumber - 1 →
      Placed p.line (getItemId m3) p.maxOffsetNumber t (maxAlign (p.line t).lpLen)
        (fun j => if j < t then j else j + 1) j := by
    intro j hj hjn
    have hi : 1 ≤ (if j < t then j else j + 1) ∧ (if j < t then j else j + 1) ≤ p.maxOffsetNumber ∧
        (if j < t then j else j + 1) ≠ t := by
      split_ifs <;> omega
    obtain ⟨hf, hl, ho⟩ := adjustLines_placed h ht hd' (by omega) le_rfl _
      (fun lp => decide (lp.lpOff ≤ (p.line t).lpOff)) (fun lp _ => decide_eq_true_iff)
      ⟨hj, hjn⟩ ⟨hi.1, hi.2.1⟩ (hsource j hj (by omega))
    exact .inl ⟨hi.1, hi.2.1, hi.2.2, hf, hl, fun hs => ho hs hi.2.2⟩
  have hcount : ({p with
      mem := m3, pdUpper := p.pdUpper + maxAlign (p.line t).lpLen, pdLower := p.pdLower - 4} : Page).maxOffsetNumber =
      p.maxOffsetNumber - 1 := by
    rw [maxOffsetNumber_eq (by unfold sizeOfPageHeaderData; dsimp only; omega)]
    dsimp only
    omega
  refine ⟨_, hres, ⟨⟨?_, ?_, ?_, h.formed.special_le, ?_⟩, ⟨?_, h.aligned.special⟩⟩, items_eq ?_ ?_⟩
  · unfold sizeOfPageHeaderData; dsimp only; omega
  · dsimp only; omega
  · dsimp only; omega
  · rw [hcount]
    have hlay := hmov.layout' hplaced fun j k _ _ _ _ e => by split_ifs at e <;> omega
    have hnat : (p.pdUpper + maxAlign (p.line t).lpLen : Int).toNat = p.pdUpper + maxAlign (p.line t).lpLen := by omega
    rw [hnat] at hlay
    exact hlay
  · have hu := h.aligned.upper
    dsimp only; omega
  · rw [hcount, length_eraseIdx, length_items, if_pos (by omega)]
  · rw [hcount]
    intro i hi
    rw [getElem?_eraseIdx]
    have hi' := hplaced (i + 1) (by omega) (by omega)
    rcases hi' with ⟨h1, h2, hne, hf, hl, ho⟩ | ⟨he, -⟩
    · have hc := hmov.content (m := p.mem) (j := i + 1) m3 (getItemId m3) (fun j => if j < t then j else j + 1)
        (fun a ha => ?_) ⟨h1, h2, hne⟩ hf hl ho
      · have hcases : (if i < t - 1 then p.items[i]? else p.items[i + 1]?) =
            some (content p.mem (p.line (if i + 1 < t then i + 1 else i + 1 + 1))) := by
          split_ifs with ha hb hb
          · exact getElem?_items (by omega)
          · omega
          · omega
          · exact getElem?_items (by omega)
        rw [hcases]
        exact congrArg some hc.symm
      · rw [hm3 a (by omega)]
        congr 1
    · dsimp only at he
      split_ifs at he <;> omega

/-! ### `PageIndexTupleDeleteNoCompact` -/

/-- An item is taken out of the array where it is; the last one leaves no trace. -/
def clearAt (items : List (Option (List UInt8))) (i : Nat) : List (Option (List UInt8)) :=
  if i + 1 < items.length then items.set i none else items.eraseIdx i

/-- **Removing an item without its line pointer clears it in the array.** -/
theorem deleteNoCompact_spec (h : p.WellFormed) (ht : p.HasItem t) :
    ∃ q, pageIndexTupleDeleteNoCompact p t = some q ∧ q.WellFormed ∧ q.items = clearAt p.items (t - 1) := by
  obtain ⟨hlines, hlu, hut, hts, hsp, hfloor⟩ := h.numbers ht
  have hd := dvd_maxAlign (p.line t).lpLen
  have hd' : (8 : Int) ∣ (maxAlign (p.line t).lpLen : Int) := by omega
  have hmov := h.movable ht hd' (by omega) le_rfl
  have hmax := maxOffsetNumber_eq h.formed.header
  have hheader := h.formed.header
  unfold sizeOfPageHeaderData at hheader
  have ht1 := ht.1
  have htn := ht.2.1
  obtain ⟨hupper, hfewer⟩ := h.freed ht
  obtain ⟨nline, m0, lower, hres, hlower, hm0, hline0⟩ : ∃ nline m0 lower,
      pageIndexTupleDeleteNoCompact p t = some {p with
        mem := adjustLines (memmove m0 (p.pdUpper + maxAlign (p.line t).lpLen) p.pdUpper ((p.line t).lpOff - p.pdUpper))
          nline (fun lp => lp.hasStorage && decide (lp.lpOff ≤ (p.line t).lpOff)) (maxAlign (p.line t).lpLen)
        pdUpper := p.pdUpper + maxAlign (p.line t).lpLen
        pdLower := lower} ∧
      (lower = p.pdLower ∧ nline = p.maxOffsetNumber ∧ t < p.maxOffsetNumber ∨
        lower = p.pdLower - 4 ∧ nline = p.maxOffsetNumber - 1 ∧ t = p.maxOffsetNumber) ∧
      (∀ a, p.pdLower ≤ a → m0 a = p.mem a) ∧
      ∀ j, 1 ≤ j → j ≤ nline → getItemId m0 j = if j = t then ⟨0, lpUnused, 0⟩ else p.line j := by
    unfold pageIndexTupleDeleteNoCompact
    rw [if_pos (h.targetOk ht)]
    have hline : getItemId p.mem t = p.line t := rfl
    simp only [hline]
    rw [hupper]
    by_cases hlast : p.maxOffsetNumber ≤ t
    · have hte : t = p.maxOffsetNumber := le_antisymm htn hlast
      refine ⟨p.maxOffsetNumber - 1, p.mem, p.pdLower - 4, ?_, .inr ⟨rfl, rfl, hte⟩, fun _ _ => rfl,
        fun j hj hjn => by rw [if_neg (by omega)]; rfl⟩
      simp only [decide_eq_true hlast, if_true]
      rw [hfewer, memmove_skip hut]
      split_ifs with hempty
      · -- no line pointer is left
        have hone : p.maxOffsetNumber - 1 = 0 := by
          have := of_decide_eq_true hempty
          unfold sizeOfPageHeaderData at this
          dsimp only at this
          omega
        rw [hone]
        rfl
      · rfl
    · have hlower : toUInt16 (p.pdLower : Int) = p.pdLower := by
        have := toUInt16_of_lt (n := (p.pdLower : Int)) (by omega) (by omega)
        omega
      refine ⟨p.maxOffsetNumber, setItemId p.mem t ⟨0, lpUnused, 0⟩, p.pdLower, ?_,
        .inl ⟨rfl, rfl, Nat.lt_of_not_le hlast⟩, fun a ha => setItemId_of_le ht1 (by omega), fun j hj hjn => ?_⟩
      · simp only [decide_eq_false hlast, Bool.false_eq_true, if_false]
        rw [hlower, memmove_skip hut]
        split_ifs with hempty
        · have := of_decide_eq_true hempty
          unfold sizeOfPageHeaderData at this
          dsimp only at this
          omega
        · rfl
      · split_ifs with hjt
        · rw [hjt, getItemId_setItemId_self]; rfl
        · exact getItemId_setItemId_of_ne ht1 hj hjt
  generalize hM1 : memmove m0 (p.pdUpper + maxAlign (p.line t).lpLen) p.pdUpper ((p.line t).lpOff - p.pdUpper) = m1 at hres
  have hm1 : ∀ b < p.pdUpper, m1 b = m0 b := fun b hb => hM1 ▸ memmove_of_not_mem (by omega)
  have hline1 : ∀ j, 1 ≤ j → j ≤ nline → getItemId m1 j = if j = t then ⟨0, lpUnused, 0⟩ else p.line j := by
    intro j hj hjn
    rw [getItemId_frame hm1 hj (by omega)]
    exact hline0 j hj hjn
  generalize hM2 : adjustLines m1 nline (fun lp => lp.hasStorage && decide (lp.lpOff ≤ (p.line t).lpOff))
    (maxAlign (p.line t).lpLen) = m2 at hres
  obtain ⟨hspec, hmem⟩ := adjustLines_spec m1 nline (fun lp => lp.hasStorage && decide (lp.lpOff ≤ (p.line t).lpOff))
    (maxAlign (p.line t).lpLen)
  rw [hM2] at hspec hmem
  have hm2 : ∀ a, p.pdUpper ≤ a → m2 a =
      memmove p.mem (p.pdUpper + maxAlign (p.line t).lpLen) p.pdUpper ((p.line t).lpOff - p.pdUpper) a := by
    intro a ha
    rw [hmem a (by omega), ← hM1]
    exact memmove_agree hm0 hlu a (by omega)
  have htarget : t ≤ nline → getItemId m2 t = ⟨0, lpUnused, 0⟩ := by
    intro hle
    rw [hspec t ht1, hline1 t ht1 hle, if_pos rfl, if_neg (by simp [ItemId.hasStorage])]
  have hother : ∀ j, 1 ≤ j → j ≤ nline → j ≠ t → (getItemId m2 j).lpFlags = (p.line j).lpFlags ∧
      (getItemId m2 j).lpLen = (p.line j).lpLen ∧
      ((p.line j).hasStorage = true → (getItemId m2 j).lpOff = movedOff p.line t (maxAlign (p.line t).lpLen) j) := by
    intro j hj hjn hjt
    have := adjustLines_placed (m := m1) (j := j) (i := j) h ht hd' (by omega) le_rfl nline
      (fun lp => lp.hasStorage && decide (lp.lpOff ≤ (p.line t).lpOff))
      (fun lp hs => by simp [hs]) ⟨hj, hjn⟩ ⟨hj, by omega⟩ (by rw [hline1 j hj hjn, if_neg hjt])
    rw [hM2] at this
    exact ⟨this.1, this.2.1, fun hs => this.2.2 hs hjt⟩
  have hplaced : ∀ j, 1 ≤ j → j ≤ nline →
      Placed p.line (getItemId m2) p.maxOffsetNumber t (maxAlign (p.line t).lpLen) id j := by
    intro j hj hjn
    rcases eq_or_ne j t with rfl | hjt
    · refine .inr ⟨rfl, fun hs => ?_⟩
      rw [htarget hjn] at hs
      cases hs
    · obtain ⟨h1, h2, h3⟩ := hother j hj hjn hjt
      exact .inl ⟨hj, by dsimp only [id]; omega, hjt, h1, h2, h3⟩
  have hcount : ({p with
      mem := m2, pdUpper := p.pdUpper + maxAlign (p.line t).lpLen, pdLower := lower} : Page).maxOffsetNumber = nline := by
    rw [maxOffsetNumber_eq (by unfold sizeOfPageHeaderData; dsimp only; omega)]
    dsimp only
    omega
  refine ⟨_, hres, ⟨⟨?_, ?_, ?_, h.formed.special_le, ?_⟩, ⟨?_, h.aligned.special⟩⟩, items_eq ?_ ?_⟩
  · unfold sizeOfPageHeaderData; dsimp only; omega
  · dsimp only; omega
  · dsimp only; omega
  · rw [hcount]
    have hlay := hmov.layout' hplaced fun _ _ _ _ _ _ e => e
    have hnat : (p.pdUpper + maxAlign (p.line t).lpLen : Int).toNat = p.pdUpper + maxAlign (p.line t).lpLen := by omega
    rw [hnat] at hlay
    exact hlay
  · have hu := h.aligned.upper
    dsimp only; omega
  · rw [hcount, clearAt, length_items]
    split_ifs with hlt
    · rw [length_set, length_items]; omega
    · rw [length_eraseIdx, length_items, if_pos (by omega)]; omega
  · rw [hcount]
    intro i hi
    dsimp only [line]
    by_cases hit : i + 1 = t
    · -- the pointer that was cleared is still there
      have hlt : t - 1 + 1 < p.items.length := by rw [length_items]; omega
      rw [clearAt, if_pos hlt, hit, htarget (by omega), getElem?_set, if_pos (by omega), if_pos (by omega)]
      rfl
    · have hitem : (clearAt p.items (t - 1))[i]? = p.items[i]? := by
        unfold clearAt
        split_ifs with hlt
        · rw [getElem?_set, if_neg (by omega)]
        · rw [length_items] at hlt
          rw [getElem?_eraseIdx, if_pos (by omega)]
      rw [hitem, getElem?_items (by omega)]
      obtain ⟨h1, h2, h3⟩ := hother (i + 1) (by omega) (by omega) hit
      have hc := hmov.content (m := p.mem) (j := i + 1) m2 (getItemId m2) id
        (fun a ha => ?_) ⟨by dsimp only [id]; omega, by dsimp only [id]; omega, hit⟩ h1 h2 h3
      · exact congrArg some hc.symm
      · rw [hm2 a (by omega)]
        congr 1

/-! ### `PageIndexTupleOverwrite` -/

theorem memmove_self {a n : Nat} : memmove m a a n = m := by
  funext b
  unfold memmove
  split_ifs with hb
  · exact congrArg m (by omega)
  · rfl

/-- The page once the tuples in front of the target have moved, whether or not they had to. -/
theorem overwrite_moved (h : p.WellFormed) (ht : p.HasItem t) {d : Int} (hd : (8 : Int) ∣ d)
    (hlow : (p.pdLower : Int) ≤ p.pdUpper + d) (hhigh : d ≤ maxAlign (p.line t).lpLen) :
    ∃ m, (if d ≠ 0 then
        {p with
          mem := adjustLines (memmove p.mem (p.pdUpper + d).toNat p.pdUpper ((p.line t).lpOff - p.pdUpper))
            p.maxOffsetNumber (fun lp => lp.hasStorage && decide (lp.lpOff ≤ (p.line t).lpOff)) d
          pdUpper := toUInt16 (p.pdUpper + d)}
        else p) = {p with mem := m, pdUpper := (p.pdUpper + d).toNat} ∧
      (∀ a, p.pdLower ≤ a →
        m a = memmove p.mem (p.pdUpper + d).toNat p.pdUpper ((p.line t).lpOff - p.pdUpper) a) ∧
      ∀ j, 1 ≤ j → j ≤ p.maxOffsetNumber → (getItemId m j).lpFlags = (p.line j).lpFlags ∧
        (getItemId m j).lpLen = (p.line j).lpLen ∧
        ((p.line j).hasStorage = true → j ≠ t → (getItemId m j).lpOff = movedOff p.line t d j) := by
  obtain ⟨hlines, hlu, hut, hts, hsp, hfloor⟩ := h.numbers ht
  by_cases h0 : d = 0
  · refine ⟨p.mem, ?_, fun a _ => ?_, fun j _ _ => ⟨rfl, rfl, fun hs _ => ?_⟩⟩
    · have hnat : (p.pdUpper + d).toNat = p.pdUpper := by omega
      rw [if_neg (by simpa using h0), hnat]
    · have hnat : (p.pdUpper + d).toNat = p.pdUpper := by omega
      rw [hnat, memmove_self]
    · unfold movedOff
      have hself : ((p.line j).lpOff + d).toNat = (p.line j).lpOff := by omega
      rw [hself, ite_self]
      rfl
  · have hupper : toUInt16 (p.pdUpper + d) = (p.pdUpper + d).toNat := by
      have := toUInt16_of_lt (n := (p.pdUpper + d)) (by omega) (by omega)
      omega
    obtain ⟨-, hmem⟩ := adjustLines_spec
      (memmove p.mem (p.pdUpper + d).toNat p.pdUpper ((p.line t).lpOff - p.pdUpper)) p.maxOffsetNumber
      (fun lp => lp.hasStorage && decide (lp.lpOff ≤ (p.line t).lpOff)) d
    refine ⟨_, ?_, fun a ha => hmem a (by omega), fun j hj hjn => ?_⟩
    · rw [if_pos h0, hupper]
    · have hline : getItemId (memmove p.mem (p.pdUpper + d).toNat p.pdUpper ((p.line t).lpOff - p.pdUpper)) j =
          p.line j := by
        refine getItemId_frame (m := p.mem) (a := p.pdLower) (fun b hb => memmove_of_not_mem (by omega)) hj (by omega)
      exact adjustLines_placed h ht hd (by omega) hhigh _ _ (fun lp hs => by simp [hs]) ⟨hj, hjn⟩ ⟨hj, hjn⟩ hline

/-- **Replacing an item replaces it in the array, or there is no space and nothing changes.** -/
theorem overwrite_spec (h : p.WellFormed) (ht : p.HasItem t) (newtup : List UInt8) :
    pageIndexTupleOverwrite p t newtup = some (p, false) ∨
    ∃ q, pageIndexTupleOverwrite p t newtup = some (q, true) ∧ q.WellFormed ∧
      q.items = p.items.set (t - 1) (some newtup) := by
  obtain ⟨hlines, hlu, hut, hts, hsp, hfloor⟩ := h.numbers ht
  have ht1 := ht.1
  have htn := ht.2.1
  have hline : getItemId p.mem t = p.line t := rfl
  unfold pageIndexTupleOverwrite
  rw [if_pos (h.targetOk ht)]
  simp only [hline]
  by_cases hspace : maxAlign (p.line t).lpLen + (p.pdUpper - p.pdLower) < maxAlign newtup.length
  · exact .inl (if_pos hspace)
  rw [if_neg hspace]
  refine .inr ?_
  have hnew := le_maxAlign newtup.length
  have hnewd := dvd_maxAlign newtup.length
  have holdd := dvd_maxAlign (p.line t).lpLen
  have h32 : toInt32 (maxAlign newtup.length) = maxAlign newtup.length := toInt32_of_lt (by omega)
  rw [h32]
  generalize hdef : (maxAlign (p.line t).lpLen : Int) - maxAlign newtup.length = d
  have hd : (8 : Int) ∣ d := by omega
  obtain ⟨m, hpage, hmem, hlines'⟩ := overwrite_moved h ht hd (by omega) (by omega)
  rw [hpage]
  have hmov := h.movable ht hd (by omega) (by omega)
  have hoff : (getItemId (setItemId m t ⟨((p.line t).lpOff + d).toNat, lpNormal, newtup.length⟩) t) =
      ⟨((p.line t).lpOff + d).toNat, lpNormal, newtup.length⟩ := by
    rw [getItemId_setItemId_self]
    exact ItemId.cut_eq (by dsimp only; omega) (show lpNormal < 2 ^ 2 by decide) (by dsimp only; omega)
  dsimp only
  rw [hoff]
  generalize hM2 : setItemId m t ⟨((p.line t).lpOff + d).toNat, lpNormal, newtup.length⟩ = m2 at hoff
  generalize hM3 : memcpy m2 ((p.line t).lpOff + d).toNat newtup = m3
  have hm3low : ∀ b < p.pdLower, m3 b = m2 b := fun b hb => hM3 ▸ memcpy_of_not_mem (by omega)
  have hframe : ∀ j, 1 ≤ j → j ≤ p.maxOffsetNumber → getItemId m3 j = getItemId m2 j := fun j hj hjn =>
    getItemId_frame hm3low hj (by omega)
  have htarget : getItemId m3 t = ⟨((p.line t).lpOff + d).toNat, lpNormal, newtup.length⟩ := by
    rw [hframe t ht1 htn, hoff]
  have hother : ∀ j, 1 ≤ j → j ≤ p.maxOffsetNumber → j ≠ t → getItemId m3 j = getItemId m j := by
    intro j hj hjn hjt
    rw [hframe j hj hjn, ← hM2]
    exact getItemId_setItemId_of_ne ht1 hj hjt
  have hplaced : ∀ j, 1 ≤ j → j ≤ p.maxOffsetNumber →
      Placed p.line (getItemId m3) p.maxOffsetNumber t d id j := by
    intro j hj hjn
    rcases eq_or_ne j t with rfl | hjt
    · refine .inr ⟨rfl, fun _ => ?_⟩
      rw [htarget]
      dsimp only
      omega
    · obtain ⟨h1, h2, h3⟩ := hlines' j hj hjn
      refine .inl ⟨hj, hjn, hjt, ?_, ?_, fun hs => ?_⟩
      · rw [hother j hj hjn hjt]; exact h1
      · rw [hother j hj hjn hjt]; exact h2
      · rw [hother j hj hjn hjt]; exact h3 hs hjt
  have hlay := hmov.layout' hplaced fun _ _ _ _ _ _ e => e
  have hcount : ({p with mem := m3, pdUpper := (p.pdUpper + d).toNat} : Page).maxOffsetNumber = p.maxOffsetNumber := rfl
  refine ⟨_, rfl, ⟨⟨h.formed.header, ?_, ?_, h.formed.special_le, ?_⟩, ⟨?_, h.aligned.special⟩⟩, items_eq ?_ ?_⟩
  · dsimp only; omega
  · dsimp only; omega
  · exact hlay
  · have hu := h.aligned.upper
    dsimp only; omega
  · rw [hcount, length_set, length_items]
  · rw [hcount]
    intro i hi
    rw [getElem?_set, length_items]
    dsimp only [line]
    split_ifs with hit
    · have hi1 : i + 1 = t := by omega
      rw [hi1, htarget]
      have hbytes : bytes m3 ((p.line t).lpOff + d).toNat newtup.length = newtup := by
        rw [← hM3]; exact bytes_memcpy
      show some (some newtup) = some (some (bytes m3 _ newtup.length))
      rw [hbytes]
    · omega
    · -- another item: moved, and not touched by the new bytes
      have hjt : i + 1 ≠ t := by omega
      have hj : 1 ≤ i + 1 ∧ i + 1 ≤ p.maxOffsetNumber := by omega
      obtain ⟨h1, h2, h3⟩ := hlines' (i + 1) hj.1 hj.2
      have hc := hmov.content (m := p.mem) (j := i + 1) m (getItemId m) id
        (fun a ha => hmem a (by omega)) ⟨hj.1, hj.2, hjt⟩ h1 h2 fun hs => h3 hs hjt
      have hkeep : content m3 (getItemId m3 (i + 1)) = content m (getItemId m (i + 1)) := by
        rw [hother _ hj.1 hj.2 hjt]
        refine content_of_len rfl rfl fun hs => bytes_congr fun k hk => ?_
        have hs' : (getItemId m3 (i + 1)).hasStorage = true := by rw [hother _ hj.1 hj.2 hjt]; exact hs
        have hin := hlay.inside _ hj.1 hj.2 hs'
        rw [hother _ hj.1 hj.2 hjt] at hin
        have hm2 : ∀ a, p.pdLower ≤ a → m2 a = m a := fun a ha => hM2 ▸ setItemId_of_le ht1 (by omega)
        rw [← hM3]
        by_cases hempty : newtup.length = 0
        · rw [memcpy_of_not_mem (by omega)]
          exact hm2 _ (by omega)
        · have hst : (getItemId m3 t).hasStorage = true := by rw [htarget]; exact hasStorage_iff.mpr (by dsimp only; omega)
          have hdis := hlay.disjoint _ _ hj.1 hj.2 ht1 htn hjt hs' hst
          rw [htarget, hother _ hj.1 hj.2 hjt] at hdis
          dsimp only at hdis
          rw [memcpy_of_not_mem (by omega)]
          exact hm2 _ (by omega)
      rw [hkeep, hc]
      exact getElem?_items hi

end Index
end PgStorage.Bufpage
