import PgStorage.Slotted.Items

/-! Moving all items to the end of a page.

The items are taken in decreasing order of their offsets, so each moves up into space that is free or its own, and what
has not been moved yet is untouched. Nothing is asked of the sort but that it sorts: items with one offset, of which all
but one are empty, may come in any order. -/
namespace PgStorage.Slotted
open Memory Extent
open List

section Compact
variable {p : Page} {m m0 : Mem} {n i u : Nat} {it : ItemIdSort} {rest : List ItemIdSort}

theorem mem_usedItems : it ∈ usedItems m n ↔ it.offsetindex < n ∧ (getItemId m (it.offsetindex + 1)).isUsed = true ∧
    it.itemiddata = getItemId m (it.offsetindex + 1) := by
  unfold usedItems
  rw [mem_filterMap]
  constructor
  · rintro ⟨i, hi, he⟩
    split_ifs at he with hu
    obtain rfl := Option.some_inj.mp he
    exact ⟨mem_range.mp hi, hu, rfl⟩
  · rintro ⟨hi, hu, he⟩
    refine ⟨it.offsetindex, mem_range.mpr hi, ?_⟩
    rw [if_pos hu, ← he]

theorem nodup_usedItems : ((usedItems m n).map ItemIdSort.offsetindex).Nodup := by
  unfold usedItems List.Nodup
  rw [pairwise_map, pairwise_filterMap]
  refine List.Pairwise.imp ?_ nodup_range
  intro i j hij a ha b hb
  split_ifs at ha hb
  rw [← Option.some_inj.mp ha, ← Option.some_inj.mp hb]
  exact hij

/-- What is asked of the sort: the same items, none before one that belongs in front of it. -/
def Sorts (pgQsort : List ItemIdSort → List ItemIdSort) : Prop :=
  ∀ l, (pgQsort l).Perm l ∧ (pgQsort l).Pairwise fun a b => itemidcompare a b ≤ 0

theorem itemidcompare_le_zero (a b : ItemIdSort) : itemidcompare a b ≤ 0 ↔ b.itemiddata.lpOff ≤ a.itemiddata.lpOff := by
  unfold itemidcompare
  split_ifs <;> omega

/-- What a move leaves: the item ends where the free space did, and all else below and above is as it was. -/
structure Moved (n : Nat) (it : ItemIdSort) (m : Mem) (u : Nat) (s : Mem × Nat) : Prop where
  upper : s.2 = u - doubleAlign it.itemiddata.lpLen
  line : getItemId s.1 (it.offsetindex + 1) = {it.itemiddata with
    lpOff := (u - doubleAlign it.itemiddata.lpLen) % 2 ^ 13}
  other : ∀ i, 1 ≤ i → i ≤ n → i ≠ it.offsetindex + 1 → getItemId s.1 i = getItemId m i
  mem : ∀ a, 8 + 4 * n ≤ a → a < s.2 ∨ u ≤ a → s.1 a = m a
  bytes : bytes s.1 s.2 it.itemiddata.lpLen = bytes m it.itemiddata.lpOff it.itemiddata.lpLen

theorem moved (hidx : it.offsetindex < n) (hline : getItemId m (it.offsetindex + 1) = it.itemiddata)
    (hlow : 8 + 4 * n ≤ it.itemiddata.lpOff)
    (hend : it.itemiddata.lpOff + doubleAlign it.itemiddata.lpLen ≤ u) (hu : u ≤ 8192) :
    Moved n it m u (compactItem (m, u) it) := by
  have hle := le_doubleAlign it.itemiddata.lpLen
  have hnat : ((u : Int) - doubleAlign it.itemiddata.lpLen).toNat = u - doubleAlign it.itemiddata.lpLen := by omega
  have hmod : (((u : Int) - doubleAlign it.itemiddata.lpLen) % 2 ^ 13).toNat =
      (u - doubleAlign it.itemiddata.lpLen) % 2 ^ 13 := by omega
  have h16 : toUInt16 ((u : Int) - doubleAlign it.itemiddata.lpLen) = u - doubleAlign it.itemiddata.lpLen := by
    unfold toUInt16
    omega
  unfold compactItem
  dsimp only
  rw [hline, hnat, hmod, h16]
  generalize hM : memmove m (u - doubleAlign it.itemiddata.lpLen) it.itemiddata.lpOff it.itemiddata.lpLen = m1
  have hm1 : ∀ a, a < u - doubleAlign it.itemiddata.lpLen ∨ u ≤ a → m1 a = m a :=
    fun a ha => hM ▸ memmove_of_not_mem (by omega)
  have hline1 : ∀ i, 1 ≤ i → i ≤ n → getItemId m1 i = getItemId m i :=
    fun i hi hin => getItemId_frame (a := 8 + 4 * n) (fun b hb => hm1 b (by omega)) hi (by omega)
  have hset : ∀ lp a, 8 + 4 * n ≤ a → setItemId m1 (it.offsetindex + 1) lp a = m1 a :=
    fun lp a ha => setItemId_of_le (by omega) (by omega)
  refine ⟨rfl, ?_, fun i hi hin hne => ?_, fun a ha hau => ?_, ?_⟩
  · rw [getItemId_setItemId_self, hline1 _ (by omega) (by omega), hline, ItemId.cut, ← hline,
      Nat.mod_eq_of_lt getItemId_flags_lt, Nat.mod_eq_of_lt getItemId_len_lt, hline]
    dsimp only
    rw [Nat.mod_mod]
  · rw [getItemId_setItemId_of_ne (by omega) hi hne, hline1 i hi hin]
  · exact (hset _ a ha).trans (hm1 a hau)
  · calc bytes (setItemId m1 _ _) (u - doubleAlign it.itemiddata.lpLen) it.itemiddata.lpLen
        = bytes m1 (u - doubleAlign it.itemiddata.lpLen) it.itemiddata.lpLen :=
          bytes_congr fun k hk => hset _ _ (by omega)
      _ = bytes m it.itemiddata.lpOff it.itemiddata.lpLen := by
          rw [← hM]
          exact bytes_memmove (k := 0) (by omega)

/-! ### The loop -/

/-- The items of `rest` are still where they were, each behind a place that is free or its own. -/
structure Ready (m0 : Mem) (n : Nat) (rest : List ItemIdSort) (m : Mem) (u : Nat) : Prop where
  entry : ∀ x ∈ rest, x.offsetindex < n ∧ getItemId m (x.offsetindex + 1) = x.itemiddata ∧
    8 + 4 * n ≤ x.itemiddata.lpOff ∧ x.itemiddata.lpOff + doubleAlign x.itemiddata.lpLen ≤ u
  mem : ∀ a, 8 + 4 * n ≤ a → a < u → m a = m0 a
  stacked : rest.Pairwise fun a b => 0 < a.itemiddata.lpLen →
    b.itemiddata.lpOff + doubleAlign b.itemiddata.lpLen ≤ a.itemiddata.lpOff
  distinct : (rest.map ItemIdSort.offsetindex).Nodup
  le : u ≤ 8192

theorem Ready.moved (h : Ready m0 n (it :: rest) m u) : Moved n it m u (compactItem (m, u) it) := by
  obtain ⟨hidx, hline, hlow, hend⟩ := h.entry it mem_cons_self
  exact Slotted.moved hidx hline hlow hend h.le

theorem Ready.step (h : Ready m0 n (it :: rest) m u) :
    Ready m0 n rest (compactItem (m, u) it).1 (compactItem (m, u) it).2 := by
  have hmoved := h.moved
  obtain ⟨hidx, hline, hlow, hend⟩ := h.entry it mem_cons_self
  obtain ⟨hst, hstrest⟩ := pairwise_cons.mp h.stacked
  obtain ⟨hdi, hdirest⟩ := nodup_cons.mp h.distinct
  have hupper := hmoved.upper
  have hle := h.le
  refine ⟨fun x hx => ?_, fun a ha hau => ?_, hstrest, hdirest, by omega⟩
  · obtain ⟨h1, h2, h3, h4⟩ := h.entry x (mem_cons_of_mem it hx)
    have hne : x.offsetindex + 1 ≠ it.offsetindex + 1 := by
      intro e
      exact hdi (mem_map.mpr ⟨x, hx, Nat.succ.inj e⟩)
    refine ⟨h1, by rw [hmoved.other _ (by omega) (by omega) hne, h2], h3, ?_⟩
    rcases Nat.eq_zero_or_pos it.itemiddata.lpLen with h0 | hpos
    · -- an empty item takes no space
      have hz : doubleAlign it.itemiddata.lpLen = 0 := by rw [h0]; rfl
      omega
    · have := hst x hx hpos
      omega
  · rw [hmoved.mem a ha (.inl hau)]
    exact h.mem a ha (by omega)

/-- After any part of the loop, the items not yet moved are intact. -/
theorem Ready.run {pre : List ItemIdSort} (h : Ready m0 n (pre ++ rest) m u) :
    Ready m0 n rest (pre.foldl compactItem (m, u)).1 (pre.foldl compactItem (m, u)).2 := by
  induction pre generalizing m u with
  | nil => exact h
  | cons it pre ih => exact ih h.step

theorem Ready.intact (h : Ready m0 n rest m u) : ∀ x ∈ rest,
    bytes m x.itemiddata.lpOff x.itemiddata.lpLen = bytes m0 x.itemiddata.lpOff x.itemiddata.lpLen := by
  intro x hx
  obtain ⟨-, -, h3, h4⟩ := h.entry x hx
  have hle := le_doubleAlign x.itemiddata.lpLen
  exact bytes_congr fun k hk => h.mem _ (by omega) (by omega)

/-- The items of a list lie one below the other, from one address down to another, each aligned. An empty item is
nowhere. -/
def Packed (off len : Nat → Nat) : Nat → List Nat → Nat → Prop
  | top, [], low => low = top
  | top, i :: order, low => doubleAlign (len i) ≤ top ∧ (0 < len i → off i = top - doubleAlign (len i)) ∧
    Packed off len (top - doubleAlign (len i)) order low

/-- What the whole loop leaves. -/
structure Compacted (n : Nat) (rest : List ItemIdSort) (m : Mem) (u : Nat) (s : Mem × Nat) : Prop where
  other : ∀ i, 1 ≤ i → i ≤ n → (∀ x ∈ rest, x.offsetindex + 1 ≠ i) → getItemId s.1 i = getItemId m i
  mem : ∀ a, 8 + 4 * n ≤ a → u ≤ a → s.1 a = m a
  item : ∀ x ∈ rest, (getItemId s.1 (x.offsetindex + 1)).lpFlags = x.itemiddata.lpFlags ∧
    (getItemId s.1 (x.offsetindex + 1)).lpLen = x.itemiddata.lpLen ∧
    bytes s.1 (getItemId s.1 (x.offsetindex + 1)).lpOff x.itemiddata.lpLen =
      bytes m x.itemiddata.lpOff x.itemiddata.lpLen
  packed : Packed (fun i => (getItemId s.1 i).lpOff) (fun i => (getItemId s.1 i).lpLen) u
    (rest.map fun x => x.offsetindex + 1) s.2

theorem Ready.compacted (h : Ready m0 n rest m u) : Compacted n rest m u (rest.foldl compactItem (m, u)) := by
  induction rest generalizing m u with
  | nil => exact ⟨fun _ _ _ _ => rfl, fun _ _ _ => rfl, nofun, rfl⟩
  | cons it rest ih =>
    have hmoved := h.moved
    have hstep := h.step
    have hrest := ih hstep
    obtain ⟨hidx, hline, hlow, hend⟩ := h.entry it mem_cons_self
    have hdi := (nodup_cons.mp h.distinct).1
    have hupper := hmoved.upper
    have hle := h.le
    have hld := le_doubleAlign it.itemiddata.lpLen
    rw [foldl_cons]
    generalize compactItem (m, u) it = t at *
    generalize rest.foldl compactItem t = s at *
    have hnot : ∀ x ∈ rest, x.offsetindex + 1 ≠ it.offsetindex + 1 := by
      intro x hx e
      exact hdi (mem_map.mpr ⟨x, hx, Nat.succ.inj e⟩)
    have hself : getItemId s.1 (it.offsetindex + 1) = {it.itemiddata with
        lpOff := (u - doubleAlign it.itemiddata.lpLen) % 2 ^ 13} :=
      (hrest.other _ (by omega) (by omega) hnot).trans hmoved.line
    have hplace (hpos : 0 < it.itemiddata.lpLen) : (u - doubleAlign it.itemiddata.lpLen) % 2 ^ 13 = t.2 := by
      rw [hupper]
      exact Nat.mod_eq_of_lt (by omega)
    have hbytes : bytes s.1 t.2 it.itemiddata.lpLen = bytes m it.itemiddata.lpOff it.itemiddata.lpLen := by
      rw [← hmoved.bytes]
      exact bytes_congr fun k hk => hrest.mem _ (by omega) (by omega)
    refine ⟨fun i hi hin hother => ?_, fun a ha hau => ?_, fun x hx => ?_, ?_⟩
    · rw [hrest.other i hi hin fun x hx => hother x (mem_cons_of_mem it hx)]
      exact hmoved.other i hi hin (Ne.symm (hother it mem_cons_self))
    · rw [hrest.mem a ha (by omega)]
      exact hmoved.mem a ha (.inr hau)
    · rcases mem_cons.mp hx with rfl | hx
      · rw [hself]
        refine ⟨rfl, rfl, ?_⟩
        rcases Nat.eq_zero_or_pos x.itemiddata.lpLen with h0 | hpos
        · rw [h0]
          rfl
        · rw [hplace hpos]
          exact hbytes
      · obtain ⟨h1, h2, h3⟩ := hrest.item x hx
        refine ⟨h1, h2, h3.trans ?_⟩
        have h4 := (hstep.intact x hx).trans (h.intact x (mem_cons_of_mem it hx)).symm
        exact h4
    · have hlen : (getItemId s.1 (it.offsetindex + 1)).lpLen = it.itemiddata.lpLen := by rw [hself]
      refine ⟨?_, fun hpos => ?_, ?_⟩
      · show doubleAlign (getItemId s.1 (it.offsetindex + 1)).lpLen ≤ u
        rw [hlen]
        omega
      · change 0 < (getItemId s.1 (it.offsetindex + 1)).lpLen at hpos
        show (getItemId s.1 (it.offsetindex + 1)).lpOff = u - doubleAlign (getItemId s.1 (it.offsetindex + 1)).lpLen
        rw [hlen] at hpos ⊢
        exact (congrArg ItemId.lpOff hself).trans ((hplace hpos).trans hupper)
      · show Packed _ _ (u - doubleAlign (getItemId s.1 (it.offsetindex + 1)).lpLen) _ _
        rw [hlen, ← hupper]
        exact hrest.packed

end Compact
end PgStorage.Slotted
