import PgStorage.Bufpage.Index

/-! Moving all tuples to the end of a page.

The tuples are taken in decreasing order of their offsets, so each moves up into space that is
free or its own, and what has not been moved yet is untouched. -/
namespace PgStorage.Bufpage
open Memory
open List ItemIdSort

section Repair
variable {p : Page} {m m0 : Mem} {line : Nat → ItemId} {n u upper special : Nat} {rest : List ItemIdSort}
  {it : ItemIdSort}

/-- The array entry of a line pointer. -/
def sortEntry (line : Nat → ItemId) (i : Nat) : ItemIdSort := ⟨i, (line (i + 1)).lpOff, maxAlign (line (i + 1)).lpLen⟩

theorem mem_storageItems : it ∈ storageItems m n ↔
    it.offsetindex < n ∧ (getItemId m (it.offsetindex + 1)).hasStorage = true ∧
      it = sortEntry (getItemId m) it.offsetindex := by
  unfold storageItems
  rw [mem_filterMap]
  constructor
  · rintro ⟨i, hi, he⟩
    dsimp only at he
    split_ifs at he with hs
    obtain rfl := Option.some_inj.mp he
    exact ⟨mem_range.mp hi, hs, rfl⟩
  · rintro ⟨hi, hs, he⟩
    refine ⟨it.offsetindex, mem_range.mpr hi, ?_⟩
    dsimp only
    rw [if_pos hs]
    exact congrArg some he.symm

theorem nodup_storageItems : (storageItems m n).Pairwise fun a b => a.offsetindex ≠ b.offsetindex := by
  unfold storageItems
  rw [pairwise_filterMap]
  refine List.Pairwise.imp ?_ nodup_range
  intro i j hij a ha b hb
  dsimp only at ha hb
  split_ifs at ha with hs
  split_ifs at hb with hs'
  rw [← Option.some_inj.mp ha, ← Option.some_inj.mp hb]
  exact hij

/-- In the sorted array, every item ends before those in front of it in the array begin. -/
def Stacked (l : List ItemIdSort) : Prop := l.Pairwise fun a b => b.itemoff + b.alignedlen ≤ a.itemoff

theorem sortItems_perm (l : List ItemIdSort) : (sortItems l).Perm l := perm_insertionSort _ l

theorem sortItems_sorted (l : List ItemIdSort) : (sortItems l).Pairwise fun a b => b.itemoff ≤ a.itemoff := by
  have ht : Std.Total fun a b : ItemIdSort => b.itemoff ≤ a.itemoff := ⟨fun a b => Nat.le_total _ _⟩
  have htr : IsTrans ItemIdSort fun a b => b.itemoff ≤ a.itemoff := ⟨fun a b c h1 h2 => le_trans h2 h1⟩
  exact pairwise_insertionSort _ l

theorem stacked_sortItems (h : Layout (getItemId m) n upper special) : Stacked (sortItems (storageItems m n)) := by
  have hnd : (sortItems (storageItems m n)).Pairwise fun a b => a.offsetindex ≠ b.offsetindex :=
    ((sortItems_perm _).pairwise_iff fun hab => Ne.symm hab).mpr nodup_storageItems
  refine (List.Pairwise.and (sortItems_sorted (storageItems m n)) hnd).imp_of_mem ?_
  rintro a b ha hb ⟨hle, hne⟩
  obtain ⟨ha1, ha2, ha3⟩ := mem_storageItems.mp ((sortItems_perm _).mem_iff.mp ha)
  obtain ⟨hb1, hb2, hb3⟩ := mem_storageItems.mp ((sortItems_perm _).mem_iff.mp hb)
  have hoff : ∀ x : ItemIdSort, x = sortEntry (getItemId m) x.offsetindex →
      x.itemoff = (getItemId m (x.offsetindex + 1)).lpOff ∧
        x.alignedlen = maxAlign (getItemId m (x.offsetindex + 1)).lpLen := by
    intro x hx
    exact ⟨congrArg itemoff hx, congrArg alignedlen hx⟩
  obtain ⟨ha4, ha5⟩ := hoff a ha3
  obtain ⟨hb4, hb5⟩ := hoff b hb3
  have hpos := hasStorage_iff.mp ha2
  have hal := le_maxAlign (getItemId m (a.offsetindex + 1)).lpLen
  rcases h.before (i := b.offsetindex + 1) (t := a.offsetindex + 1) ⟨by omega, by omega⟩ ⟨by omega, by omega⟩
    (by omega) hb2 ha2 with ⟨-, hd⟩ | hd
  · omega
  · omega

/-- Items stacked in a space are together no longer than it. -/
theorem stacked_sum {l : List ItemIdSort} (low top : Nat) (h : Stacked l)
    (hin : ∀ x ∈ l, low ≤ x.itemoff ∧ x.itemoff + x.alignedlen ≤ top) (hlt : low ≤ top) :
    (l.map alignedlen).sum + low ≤ top := by
  induction l generalizing top with
  | nil => simpa using hlt
  | cons x l ih =>
    obtain ⟨hx, hl⟩ := pairwise_cons.mp h
    obtain ⟨h1, h2⟩ := hin x mem_cons_self
    have := ih x.itemoff hl (fun y hy => ⟨(hin y (mem_cons_of_mem x hy)).1, hx y hy⟩) h1
    rw [map_cons, sum_cons]
    omega

/-- The tuples of `rest` have not been moved; the others are at `u` or above it, with their bytes. -/
structure Compacting (m0 : Mem) (n special : Nat) (rest : List ItemIdSort) (m : Mem) (u : Nat) : Prop where
  flags : ∀ i, 1 ≤ i → i ≤ n → (getItemId m i).lpFlags = (getItemId m0 i).lpFlags
  len : ∀ i, 1 ≤ i → i ≤ n → (getItemId m i).lpLen = (getItemId m0 i).lpLen
  mem : ∀ a, 24 + 4 * n ≤ a → a < u → m a = m0 a
  entry : ∀ x ∈ rest, x.offsetindex < n ∧ x = sortEntry (getItemId m0) x.offsetindex ∧ x.itemoff + x.alignedlen ≤ u ∧
    24 + 4 * n ≤ x.itemoff
  stacked : Stacked rest
  distinct : rest.Pairwise fun a b => a.offsetindex ≠ b.offsetindex
  dvd : 8 ∣ u
  le : u ≤ special
  moved : ∀ i, 1 ≤ i → i ≤ n → (getItemId m0 i).hasStorage = true → (∀ x ∈ rest, x.offsetindex + 1 ≠ i) →
    8 ∣ (getItemId m i).lpOff ∧ u ≤ (getItemId m i).lpOff ∧
      (getItemId m i).lpOff + maxAlign (getItemId m0 i).lpLen ≤ special ∧
      bytes m (getItemId m i).lpOff (getItemId m0 i).lpLen = bytes m0 (getItemId m0 i).lpOff (getItemId m0 i).lpLen
  disjoint : ∀ i j, 1 ≤ i → i ≤ n → 1 ≤ j → j ≤ n → i ≠ j → (getItemId m0 i).hasStorage = true →
    (getItemId m0 j).hasStorage = true → (∀ x ∈ rest, x.offsetindex + 1 ≠ i) → (∀ x ∈ rest, x.offsetindex + 1 ≠ j) →
    (getItemId m i).lpOff + maxAlign (getItemId m0 i).lpLen ≤ (getItemId m j).lpOff ∨
      (getItemId m j).lpOff + maxAlign (getItemId m0 j).lpLen ≤ (getItemId m i).lpOff

theorem Compacting.step (h : Compacting m0 n special (it :: rest) m u) (hsp : special ≤ 8192) :
    Compacting m0 n special rest (compactifyTuple (m, u) it).1 (compactifyTuple (m, u) it).2 := by
  obtain ⟨hidx, hit, hend, hlow⟩ := h.entry it mem_cons_self
  have hoff : it.itemoff = (getItemId m0 (it.offsetindex + 1)).lpOff := congrArg itemoff hit
  have hal : it.alignedlen = maxAlign (getItemId m0 (it.offsetindex + 1)).lpLen := congrArg alignedlen hit
  have hle := h.le
  have hdvd := h.dvd
  have hld := dvd_maxAlign (getItemId m0 (it.offsetindex + 1)).lpLen
  have hll := le_maxAlign (getItemId m0 (it.offsetindex + 1)).lpLen
  obtain ⟨hst, hstrest⟩ := pairwise_cons.mp h.stacked
  obtain ⟨hdi, hdirest⟩ := pairwise_cons.mp h.distinct
  unfold compactifyTuple
  dsimp only
  generalize hM1 : memmove m (u - it.alignedlen) it.itemoff it.alignedlen = m1
  have hm1 : ∀ a, a < u - it.alignedlen ∨ u ≤ a → m1 a = m a := fun a ha => hM1 ▸ memmove_of_not_mem (by omega)
  have hline1 : ∀ i, 1 ≤ i → i ≤ n → getItemId m1 i = getItemId m i := by
    intro i hi hin
    exact getItemId_frame (a := 24 + 4 * n) (fun b hb => hm1 b (by omega)) hi (by omega)
  generalize hM2 : setItemId m1 (it.offsetindex + 1) {getItemId m1 (it.offsetindex + 1) with
    lpOff := u - it.alignedlen} = m2
  have hm2 : ∀ a, 24 + 4 * n ≤ a → m2 a = m1 a := fun a ha => hM2 ▸ setItemId_of_le (by omega) (by omega)
  have hself : getItemId m2 (it.offsetindex + 1) = {getItemId m (it.offsetindex + 1) with
      lpOff := u - it.alignedlen} := by
    rw [← hM2, getItemId_setItemId_self, hline1 _ (by omega) (by omega)]
    exact ItemId.cut_eq (by dsimp only; omega) getItemId_flags_lt getItemId_len_lt
  have hother : ∀ i, 1 ≤ i → i ≤ n → i ≠ it.offsetindex + 1 → getItemId m2 i = getItemId m i := by
    intro i hi hin hne
    rw [← hM2, getItemId_setItemId_of_ne (by omega) hi hne, hline1 i hi hin]
  have hcase : ∀ i, (∀ x ∈ rest, x.offsetindex + 1 ≠ i) → i ≠ it.offsetindex + 1 →
      ∀ x ∈ it :: rest, x.offsetindex + 1 ≠ i := by
    intro i hi hne x hx
    rcases mem_cons.mp hx with rfl | hx
    · exact hne.symm
    · exact hi x hx
  have hselfoff : (getItemId m2 (it.offsetindex + 1)).lpOff = u - it.alignedlen := by rw [hself]
  refine ⟨fun i hi hin => ?_, fun i hi hin => ?_, fun a ha hau => ?_, fun x hx => ?_, hstrest, hdirest, by omega,
    by omega, fun i hi hin hs hnot => ?_, fun i j hi hin hj hjn hij hsi hsj hnoti hnotj => ?_⟩
  · rcases eq_or_ne i (it.offsetindex + 1) with rfl | hne
    · rw [hself]; exact h.flags _ hi hin
    · rw [hother i hi hin hne]; exact h.flags i hi hin
  · rcases eq_or_ne i (it.offsetindex + 1) with rfl | hne
    · rw [hself]; exact h.len _ hi hin
    · rw [hother i hi hin hne]; exact h.len i hi hin
  · rw [hm2 a ha, hm1 a (by omega)]
    exact h.mem a ha (by omega)
  · obtain ⟨h1, h2, -, h4⟩ := h.entry x (mem_cons_of_mem it hx)
    have := hst x hx
    exact ⟨h1, h2, by omega, h4⟩
  · rcases eq_or_ne i (it.offsetindex + 1) with rfl | hne
    · rw [hselfoff]
      refine ⟨by omega, by omega, by omega, ?_⟩
      have hmoved : bytes m1 (u - it.alignedlen) (getItemId m0 (it.offsetindex + 1)).lpLen =
          bytes m it.itemoff (getItemId m0 (it.offsetindex + 1)).lpLen := by
        rw [← hM1]
        exact bytes_memmove (k := 0) (by omega)
      calc bytes m2 (u - it.alignedlen) (getItemId m0 (it.offsetindex + 1)).lpLen
          = bytes m1 (u - it.alignedlen) (getItemId m0 (it.offsetindex + 1)).lpLen :=
            bytes_congr fun k hk => hm2 _ (by omega)
        _ = bytes m it.itemoff (getItemId m0 (it.offsetindex + 1)).lpLen := hmoved
        _ = bytes m0 it.itemoff (getItemId m0 (it.offsetindex + 1)).lpLen :=
            bytes_congr fun k hk => h.mem _ (by omega) (by omega)
        _ = _ := by rw [hoff]
    · obtain ⟨h1, h2, h3, h4⟩ := h.moved i hi hin hs (hcase i hnot hne)
      rw [hother i hi hin hne]
      refine ⟨h1, by omega, h3, ?_⟩
      rw [← h4]
      refine bytes_congr fun k hk => ?_
      rw [hm2 _ (by omega), hm1 _ (by omega)]
  · by_cases hie : i = it.offsetindex + 1
    · have hje : j ≠ it.offsetindex + 1 := fun e => hij (hie.trans e.symm)
      obtain ⟨-, h2, -, -⟩ := h.moved j hj hjn hsj (hcase j hnotj hje)
      rw [hother j hj hjn hje, hie, hselfoff]
      omega
    · obtain ⟨-, h2, -, -⟩ := h.moved i hi hin hsi (hcase i hnoti hie)
      rw [hother i hi hin hie]
      by_cases hje : j = it.offsetindex + 1
      · rw [hje, hselfoff]
        omega
      · rw [hother j hj hjn hje]
        exact h.disjoint i j hi hin hj hjn hij hsi hsj (hcase i hnoti hie) (hcase j hnotj hje)

theorem Compacting.run (h : Compacting m0 n special rest m u) (hsp : special ≤ 8192) :
    Compacting m0 n special [] (rest.foldl compactifyTuple (m, u)).1 (rest.foldl compactifyTuple (m, u)).2 := by
  induction rest generalizing m u with
  | nil => exact h
  | cons it rest ih => exact ih (h.step hsp)

theorem compactify_upper (l : List ItemIdSort) (m : Mem) (u : Nat) :
    (l.foldl compactifyTuple (m, u)).2 = u - (l.map alignedlen).sum := by
  induction l generalizing m u with
  | nil => rfl
  | cons it l ih =>
    rw [foldl_cons, map_cons, sum_cons, ← Nat.sub_sub]
    exact ih _ _

/-! ### The page -/

/-- The number of items that have a place in the array of the routine. -/
def Page.nstorage (p : Page) : Nat :=
  (List.range' 1 p.maxOffsetNumber).countP fun n => (getItemId p.mem n).isUsed && (getItemId p.mem n).hasStorage

/-- Line pointers that are not used stand for nothing before and after they are cleared. -/
structure Cleared (p : Page) (m : Mem) : Prop where
  line : ∀ i, 1 ≤ i → i ≤ p.maxOffsetNumber → getItemId m i =
    if (p.line i).isUsed = true then p.line i else ⟨0, lpUnused, 0⟩
  mem : ∀ a, 24 + 4 * p.maxOffsetNumber ≤ a → m a = p.mem a

theorem cleared (p : Page) : Cleared p (clearUnused p.mem p.maxOffsetNumber) := by
  obtain ⟨hline, hmem⟩ := clearUnused_spec p.mem p.maxOffsetNumber
  refine ⟨fun i hi hin => ?_, hmem⟩
  rw [hline i hi]
  by_cases hu : (p.line i).isUsed = true
  · rw [if_neg fun h => Bool.noConfusion (hu.symm.trans h.2), if_pos hu]
    rfl
  · rw [if_pos ⟨hin, Bool.eq_false_of_not_eq_true hu⟩, if_neg hu]

section
variable (h : Cleared p m)
include h

theorem Cleared.stored {i : Nat} (hi : 1 ≤ i) (hin : i ≤ p.maxOffsetNumber) :
    (getItemId m i).hasStorage = ((p.line i).isUsed && (p.line i).hasStorage) := by
  rw [h.line i hi hin]
  split_ifs with hu
  · rw [hu, Bool.true_and]
  · rw [Bool.eq_false_of_not_eq_true hu, Bool.false_and]
    rfl

theorem Cleared.same {i : Nat} (hi : 1 ≤ i) (hin : i ≤ p.maxOffsetNumber)
    (hs : (getItemId m i).hasStorage = true) : getItemId m i = p.line i ∧ (p.line i).hasStorage = true := by
  rw [h.stored hi hin, Bool.and_eq_true] at hs
  rw [h.line i hi hin, if_pos hs.1]
  exact ⟨rfl, hs.2⟩

theorem Cleared.layout (hl : Layout p.line p.maxOffsetNumber upper special) :
    Layout (getItemId m) p.maxOffsetNumber upper special := by
  constructor
  · intro i hi hin hs
    obtain ⟨he, hs'⟩ := h.same hi hin hs
    rw [he]
    exact hl.aligned i hi hin hs'
  · intro i hi hin hs
    obtain ⟨he, hs'⟩ := h.same hi hin hs
    rw [he]
    exact hl.inside i hi hin hs'
  · intro i j hi hin hj hjn hij hsi hsj
    obtain ⟨hei, hsi'⟩ := h.same hi hin hsi
    obtain ⟨hej, hsj'⟩ := h.same hj hjn hsj
    rw [hei, hej]
    exact hl.disjoint i j hi hin hj hjn hij hsi' hsj'

theorem Cleared.content (hp : p.WellFormed) {i : Nat} (hi : 1 ≤ i) (hin : i ≤ p.maxOffsetNumber) :
    content m (getItemId m i) = content p.mem (p.line i) := by
  rw [h.line i hi hin]
  split_ifs with hu
  · refine content_of_len rfl rfl fun hs => bytes_congr fun k hk => h.mem _ ?_
    have := (hp.formed.layout.inside i hi hin hs).1
    have := p.lines_le hp.formed.header
    have := hp.formed.lower_le
    omega
  · rw [Bufpage.content, Bufpage.content, if_neg hu]
    rfl

theorem Cleared.length_storageItems : (storageItems m p.maxOffsetNumber).length = p.nstorage := by
  unfold storageItems Page.nstorage
  rw [length_filterMap_eq_countP, range'_eq_map_range, countP_map]
  refine countP_congr fun i hi => ?_
  have hin := mem_range.mp hi
  have hst := h.stored (i := i + 1) (by omega) (by omega)
  rw [Page.line] at hst
  simp only [Function.comp, add_comm 1 i]
  rw [← hst]
  cases (getItemId m (i + 1)).hasStorage <;> simp

/-- The array is filled with all stored items, none of which has been moved. -/
theorem Cleared.compacting (hp : p.WellFormed) :
    Compacting m p.maxOffsetNumber p.pdSpecial (sortItems (storageItems m p.maxOffsetNumber)) m p.pdSpecial := by
  have hlay := h.layout hp.formed.layout
  have hlines := p.lines_le hp.formed.header
  have hlu := hp.formed.lower_le
  have hall : ∀ i, 1 ≤ i → i ≤ p.maxOffsetNumber → (getItemId m i).hasStorage = true →
      ¬ ∀ x ∈ sortItems (storageItems m p.maxOffsetNumber), x.offsetindex + 1 ≠ i := by
    intro i hi hin hs hnot
    have he : i - 1 + 1 = i := by omega
    refine hnot (sortEntry (getItemId m) (i - 1)) ((sortItems_perm _).mem_iff.mpr (mem_storageItems.mpr ?_)) he
    exact ⟨by show i - 1 < _; omega, by show (getItemId m (i - 1 + 1)).hasStorage = true; rw [he]; exact hs, rfl⟩
  refine ⟨fun _ _ _ => rfl, fun _ _ _ => rfl, fun _ _ _ => rfl, fun x hx => ?_, stacked_sortItems hlay,
    ((sortItems_perm _).pairwise_iff fun hab => Ne.symm hab).mpr nodup_storageItems, hp.aligned.special, le_rfl,
    fun i hi hin hs hnot => absurd hnot (hall i hi hin hs),
    fun i j hi hin _ _ _ hs _ hnot => absurd hnot (hall i hi hin hs)⟩
  obtain ⟨h1, h2, h3⟩ := mem_storageItems.mp ((sortItems_perm _).mem_iff.mp hx)
  have hend := hlay.end_le hp.aligned.special (i := x.offsetindex + 1) ⟨by omega, by omega⟩ h2
  have hin := hlay.inside (x.offsetindex + 1) (by omega) (by omega) h2
  have ho : x.itemoff = (getItemId m (x.offsetindex + 1)).lpOff := congrArg itemoff h3
  have hl : x.alignedlen = maxAlign (getItemId m (x.offsetindex + 1)).lpLen := congrArg alignedlen h3
  exact ⟨h1, h3, by omega, by omega⟩

/-- The items pass the checks of the routines. -/
theorem Cleared.bound (hp : p.WellFormed) {x : ItemIdSort}
    (hx : x ∈ storageItems m p.maxOffsetNumber) :
    p.pdUpper ≤ x.itemoff ∧ x.itemoff < p.pdSpecial ∧ x.itemoff + x.alignedlen ≤ p.pdSpecial := by
  obtain ⟨h1, h2, h3⟩ := mem_storageItems.mp hx
  obtain ⟨-, -, hend, -⟩ := (h.compacting hp).entry x ((sortItems_perm _).mem_iff.mpr hx)
  have hin := (h.layout hp.formed.layout).inside (x.offsetindex + 1) (by omega) (by omega) h2
  have hpos := hasStorage_iff.mp h2
  have ho : x.itemoff = (getItemId m (x.offsetindex + 1)).lpOff := congrArg itemoff h3
  exact ⟨by omega, by omega, hend⟩

/-- Together they fit into the space for tuples. -/
theorem Cleared.totallen_le (hp : p.WellFormed) :
    ((storageItems m p.maxOffsetNumber).map alignedlen).sum ≤ p.pdSpecial - p.pdUpper := by
  have hperm := sortItems_perm (storageItems m p.maxOffsetNumber)
  rw [← (hperm.map alignedlen).sum_nat]
  have hbound := fun x hx => h.bound hp (x := x) (hperm.mem_iff.mp hx)
  have hsum := stacked_sum p.pdUpper p.pdSpecial (h.compacting hp).stacked
    (fun x hx => ⟨(hbound x hx).1, (hbound x hx).2.2⟩) hp.formed.upper_le
  omega

/-- Compacting a page puts its tuples behind each other and keeps its items. -/
theorem Cleared.compacted (hp : p.WellFormed) {q : Page} (hmem : q.mem = m)
    (hlower : q.pdLower = p.pdLower) (hspecial : q.pdSpecial = p.pdSpecial) :
    (compactifyTuples q (storageItems m p.maxOffsetNumber)).WellFormed ∧
      (compactifyTuples q (storageItems m p.maxOffsetNumber)).items = p.items ∧
      (compactifyTuples q (storageItems m p.maxOffsetNumber)).pdUpper =
        p.pdSpecial - ((storageItems m p.maxOffsetNumber).map alignedlen).sum := by
  have hlu := hp.formed.lower_le
  have hus := hp.formed.upper_le
  have hsp := hp.formed.special_le
  unfold blcksz at hsp
  have hperm := sortItems_perm (storageItems m p.maxOffsetNumber)
  have htotal := h.totallen_le hp
  have hrun := (h.compacting hp).run hp.formed.special_le
  have hupper := compactify_upper (sortItems (storageItems m p.maxOffsetNumber)) m p.pdSpecial
  rw [(hperm.map alignedlen).sum_nat] at hupper
  unfold compactifyTuples
  dsimp only
  rw [hmem, hspecial]
  generalize (sortItems (storageItems m p.maxOffsetNumber)).foldl compactifyTuple (m, p.pdSpecial) = s at hrun hupper
  obtain ⟨m', u⟩ := s
  dsimp only at hrun hupper ⊢
  have hu : p.pdUpper ≤ u ∧ u ≤ p.pdSpecial := by omega
  have hu16 : toUInt16 (u : Int) = u := by
    have := toUInt16_of_lt (n := (u : Int)) (by omega) (by omega)
    omega
  rw [hu16]
  have hsame : ∀ i, 1 ≤ i → i ≤ p.maxOffsetNumber →
      (getItemId m' i).hasStorage = true → (getItemId m i).hasStorage = true := by
    intro i hi hin hs
    rw [ItemId.hasStorage, hrun.len i hi hin] at hs
    exact hs
  have hnil : ∀ i, ∀ x ∈ ([] : List ItemIdSort), x.offsetindex + 1 ≠ i := fun _ _ hx => absurd hx not_mem_nil
  have hmax : Page.maxOffsetNumber {q with mem := m', pdUpper := u, pdSpecial := p.pdSpecial} =
      p.maxOffsetNumber := by
    unfold Page.maxOffsetNumber
    rw [hlower]
  refine ⟨⟨⟨?_, ?_, ?_, ?_, ?_⟩, ⟨hrun.dvd, ?_⟩⟩, ?_, hupper⟩
  · exact hlower ▸ hp.formed.header
  · exact hlower ▸ le_trans hlu hu.1
  · exact hu.2
  · exact hp.formed.special_le
  · rw [hmax]
    refine ⟨fun i hi hin hs => ?_, fun i hi hin hs => ?_, fun i j hi hin hj hjn hij hsi hsj => ?_⟩
    · exact (hrun.moved i hi hin (hsame i hi hin hs) (hnil i)).1
    · obtain ⟨-, h2, h3, -⟩ := hrun.moved i hi hin (hsame i hi hin hs) (hnil i)
      have hl := hrun.len i hi hin
      have hal := le_maxAlign (getItemId m i).lpLen
      show u ≤ (getItemId m' i).lpOff ∧ (getItemId m' i).lpOff + (getItemId m' i).lpLen ≤ p.pdSpecial
      omega
    · have hd := hrun.disjoint i j hi hin hj hjn hij (hsame i hi hin hsi) (hsame j hj hjn hsj) (hnil i) (hnil j)
      have hli := hrun.len i hi hin
      have hlj := hrun.len j hj hjn
      have hai := le_maxAlign (getItemId m i).lpLen
      have haj := le_maxAlign (getItemId m j).lpLen
      show (getItemId m' i).lpOff + (getItemId m' i).lpLen ≤ (getItemId m' j).lpOff ∨
        (getItemId m' j).lpOff + (getItemId m' j).lpLen ≤ (getItemId m' i).lpOff
      omega
  · exact hp.aligned.special
  · refine Page.items_eq (by rw [Page.length_items, hmax]) fun i hi => ?_
    rw [hmax] at hi
    have hi1 : 1 ≤ i + 1 := Nat.succ_pos i
    have hcont : Bufpage.content m' (getItemId m' (i + 1)) = Bufpage.content m (getItemId m (i + 1)) :=
      content_of_len (hrun.flags _ hi1 hi) (hrun.len _ hi1 hi) fun hs => (hrun.moved _ hi1 hi hs (hnil _)).2.2.2
    rw [Page.getElem?_items (p := p) hi]
    exact congrArg some ((h.content hp hi1 hi).symm.trans hcont.symm)

end

/-- **Removing the fragmentation changes nothing but places.** -/
theorem repair_spec (h : p.WellFormed) (hn : p.nstorage ≤ maxHeapTuplesPerPage) :
    ∃ q, pageRepairFragmentation p = some q ∧ q.WellFormed ∧ q.items = p.items := by
  have hc := cleared p
  have hlu := h.formed.lower_le
  have hus := h.formed.upper_le
  unfold pageRepairFragmentation
  rw [if_pos ⟨h.formed.pointersOk, eq_maxAlign_iff.mpr h.aligned.special⟩]
  dsimp only
  generalize hm : clearUnused p.mem p.maxOffsetNumber = m at hc
  generalize decide (0 < (range' 1 p.maxOffsetNumber).countP fun n => !(getItemId p.mem n).isUsed) = hint
  by_cases h0 : ((range' 1 p.maxOffsetNumber).countP fun n =>
      (getItemId p.mem n).isUsed && (getItemId p.mem n).hasStorage) = 0
  · -- no item has storage
    rw [if_pos h0]
    have hno : ∀ i, 1 ≤ i → i ≤ p.maxOffsetNumber → (getItemId m i).hasStorage ≠ true := by
      intro i hi hin
      rw [hc.stored hi hin]
      exact countP_eq_zero.mp h0 i (mem_range'_1.mpr ⟨hi, by omega⟩)
    refine ⟨_, rfl, ⟨⟨h.formed.header, le_trans hlu hus, le_rfl, h.formed.special_le, ?_⟩,
      ⟨h.aligned.special, h.aligned.special⟩⟩, Page.items_eq Page.length_items fun i hi => ?_⟩
    · exact ⟨fun i hi hin hs => absurd hs (hno i hi hin), fun i hi hin hs => absurd hs (hno i hi hin),
        fun i j hi hin _ _ _ hs => absurd hs (hno i hi hin)⟩
    · rw [Page.getElem?_items (p := p) hi]
      exact congrArg some (hc.content h (by omega) hi).symm
  · rw [if_neg h0]
    have htotal := hc.totallen_le h
    rw [if_neg (by rw [hc.length_storageItems]; exact Nat.not_lt.mpr hn), if_neg, if_neg (by omega)]
    · obtain ⟨hform, hitems, -⟩ := hc.compacted h (q := {p with mem := m, hasFreeLines := hint}) rfl rfl rfl
      exact ⟨_, rfl, hform, hitems⟩
    · intro hany
      obtain ⟨x, hx, hbad⟩ := any_eq_true.mp hany
      have hb := hc.bound h hx
      have := of_decide_eq_true hbad
      omega

end Repair
end PgStorage.Bufpage
