import PgStorage.Bufpage.Repair

/-! Removing many items of an index page at once.

Short lists are removed one by one from the end. For longer ones the line pointers that are kept are collected, written
back next to each other, and their tuples compacted. Both leave the same items; the second one also closes the gaps that
there may have been between tuples. -/
namespace PgStorage.Bufpage
open Memory
open List Page

/-- An index tuple has a header of eight bytes and at least one byte more. -/
def maxIndexTuplesPerPage : Nat := (blcksz - sizeOfPageHeaderData) / (maxAlign 9 + sizeOfItemIdData)

/-- The loop over the line pointers: those that are kept, and the offset numbers that were not met. -/
def scanItems (page : Page) : List Nat → List Nat → Option (List ItemId × List Nat)
  | [], itemnos => some ([], itemnos)
  | offnum :: rest, itemnos =>
    let lp := getItemId page.mem offnum
    if lp.lpOff < page.pdUpper ∨ page.pdSpecial < lp.lpOff + lp.lpLen ∨ lp.lpOff ≠ maxAlign lp.lpOff then none
    else if itemnos.head? = some offnum then scanItems page rest itemnos.tail
    else (scanItems page rest itemnos).map fun r => (lp :: r.1, r.2)

/-- The line pointers that are kept are copied to the start of the array. -/
def writeLines (m : Mem) (newitemids : List ItemId) : Mem :=
  newitemids.zipIdx.foldl (fun m e => setItemId m (e.2 + 1) e.1) m

/-- The arrays have room for `MaxIndexTuplesPerPage` items. -/
def pageIndexMultiDelete (page : Page) (itemnos : List Nat) : Option Page :=
  if itemnos.length ≤ 2 then itemnos.reverse.foldlM pageIndexTupleDelete page
  else if page.pointersOk = true ∧ page.pdSpecial = maxAlign page.pdSpecial then
    match scanItems page (List.range' 1 page.maxOffsetNumber) itemnos with
    | none => none
    | some (newitemids, rest) =>
      let items := newitemids.zipIdx.map fun e => (⟨e.2, e.1.lpOff, maxAlign e.1.lpLen⟩ : ItemIdSort)
      if maxIndexTuplesPerPage < newitemids.length then none
      else if rest ≠ [] then none
      else if page.pdSpecial - page.pdLower < (items.map ItemIdSort.alignedlen).sum then none
      else
        some (compactifyTuples {page with
          mem := writeLines page.mem newitemids
          pdLower := sizeOfPageHeaderData + sizeOfItemIdData * newitemids.length} items)
  else none

/-- The space that the tuples of items take. -/
def weight (items : List (Option (List UInt8))) : Nat := (items.map fun x => maxAlign (x.getD []).length).sum

/-- All line pointers have tuples, not more of them than an index page has room for. -/
structure Page.IndexFormed (p : Page) : Prop where
  formed : p.WellFormed
  lower : p.pdLower = 24 + 4 * p.maxOffsetNumber
  stored : ∀ x ∈ p.items, ∃ b, x = some b ∧ b ≠ []
  few : p.maxOffsetNumber ≤ maxIndexTuplesPerPage

/-- There are no gaps between the tuples. -/
def Page.Packed (p : Page) : Prop := p.pdUpper + weight p.items = p.pdSpecial

section MultiDelete
variable {p q : Page} {m : Mem} {t n : Nat} {items : List (Option (List UInt8))}

theorem weight_eraseIdx {i : Nat} {x : Option (List UInt8)} (h : items[i]? = some x) :
    weight (items.eraseIdx i) + maxAlign (x.getD []).length = weight items := by
  induction items generalizing i with
  | nil => simp at h
  | cons y items ih =>
    cases i with
    | zero =>
      cases h
      simp only [weight, eraseIdx_zero, tail_cons, map_cons, sum_cons]
      omega
    | succ i =>
      have := ih (i := i) (by simpa using h)
      simp only [weight, eraseIdx_cons_succ, map_cons, sum_cons] at this ⊢
      omega

theorem Page.IndexFormed.line (h : p.IndexFormed) (ht : 1 ≤ t) (htn : t ≤ p.maxOffsetNumber) :
    (p.line t).isUsed = true ∧ (p.line t).hasStorage = true ∧
      p.items[t - 1]? = some (some (bytes p.mem (p.line t).lpOff (p.line t).lpLen)) := by
  have hget := getElem?_items (p := p) (i := t - 1) (by omega)
  rw [Nat.sub_add_cancel ht] at hget
  obtain ⟨b, hb, hne⟩ := h.stored _ (mem_of_getElem? hget)
  have hused : (p.line t).isUsed = true := by
    by_contra hnot
    rw [content, if_neg hnot] at hb
    cases hb
  rw [content, if_pos hused] at hget hb
  refine ⟨hused, ?_, hget⟩
  rw [hasStorage_iff, Nat.pos_iff_ne_zero]
  intro h0
  rw [h0, bytes_zero] at hb
  exact hne (Option.some.inj hb).symm

theorem Page.IndexFormed.hasItem (h : p.IndexFormed) (ht : 1 ≤ t) (htn : t ≤ p.maxOffsetNumber) : p.HasItem t :=
  ⟨ht, htn, (h.line ht htn).2.1⟩

/-- The pointers after an item was removed. -/
theorem delete_pointers (h : p.WellFormed) (ht : p.HasItem t) (hq : pageIndexTupleDelete p t = some q) :
    q.pdLower = p.pdLower - 4 ∧ q.pdUpper = p.pdUpper + maxAlign (p.line t).lpLen ∧ q.pdSpecial = p.pdSpecial := by
  obtain ⟨hupper, hlower⟩ := h.freed ht
  unfold pageIndexTupleDelete at hq
  rw [if_pos (h.targetOk ht)] at hq
  dsimp only at hq
  split_ifs at hq <;> cases hq <;> exact ⟨hlower, hupper, rfl⟩

theorem length_bytes_line : (bytes m t n).length = n := by simp [bytes]

/-- Removing one item keeps the page one of an index, and what the tuples and the space in front of them take. -/
theorem delete_indexFormed (h : p.IndexFormed) (ht : 1 ≤ t) (htn : t ≤ p.maxOffsetNumber) :
    ∃ q, pageIndexTupleDelete p t = some q ∧ q.IndexFormed ∧ q.items = p.items.eraseIdx (t - 1) ∧
      q.pdUpper + weight q.items = p.pdUpper + weight p.items ∧ q.pdSpecial = p.pdSpecial := by
  have hitem := h.hasItem ht htn
  obtain ⟨q, hq, hform, hitems⟩ := delete_spec h.formed hitem
  obtain ⟨hlower, hupper, hspecial⟩ := delete_pointers h.formed hitem hq
  have hlen : q.maxOffsetNumber = p.maxOffsetNumber - 1 := by
    rw [← length_items (p := q), hitems, length_eraseIdx_of_lt (by rw [length_items]; omega),
      length_items]
  have hl := h.lower
  refine ⟨q, hq, ⟨hform, by omega, fun x hx => ?_, by have := h.few; omega⟩, hitems, ?_, hspecial⟩
  · rw [hitems] at hx
    exact h.stored x (mem_of_mem_eraseIdx hx)
  · have := weight_eraseIdx (h.line ht htn).2.2
    rw [Option.getD_some, length_bytes_line] at this
    rw [hitems, hupper]
    omega

/-- The items at the places that are not listed. -/
def without (itemnos : List Nat) (items : List (Option (List UInt8))) : List (Option (List UInt8)) :=
  itemnos.foldr (fun t items => items.eraseIdx (t - 1)) items

/-- Offset numbers in increasing order are few enough behind the first one. -/
theorem length_le_of_increasing {l : List Nat} (hl : l.Pairwise (· < ·)) (h : ∀ x ∈ l, t < x ∧ x ≤ n) (ht : t ≤ n) :
    t + l.length ≤ n := by
  induction l generalizing t with
  | nil => exact ht
  | cons x l ih =>
    obtain ⟨hx, hrest⟩ := pairwise_cons.mp hl
    have hhead := h x mem_cons_self
    have := ih hrest (fun y hy => ⟨hx y hy, (h y (mem_cons_of_mem x hy)).2⟩) hhead.2
    rw [length_cons]
    omega

/-- Removing items one by one from the end. -/
theorem retail_spec (h : p.IndexFormed) {l : List Nat} (hl : l.Pairwise (· < ·))
    (hr : ∀ t ∈ l, 1 ≤ t ∧ t ≤ p.maxOffsetNumber) :
    ∃ q, l.reverse.foldlM pageIndexTupleDelete p = some q ∧ q.IndexFormed ∧ q.items = without l p.items ∧
      q.pdUpper + weight q.items = p.pdUpper + weight p.items ∧ q.pdSpecial = p.pdSpecial ∧
      q.maxOffsetNumber + l.length = p.maxOffsetNumber := by
  induction l with
  | nil => exact ⟨p, rfl, h, rfl, rfl, rfl, rfl⟩
  | cons t l ih =>
    obtain ⟨hlt, hrest⟩ := pairwise_cons.mp hl
    obtain ⟨q, hq, hform, hitems, hweight, hspecial, hlen⟩ := ih hrest fun x hx => hr x (mem_cons_of_mem t hx)
    have ht := hr t mem_cons_self
    have hfew := length_le_of_increasing hrest
      (fun x hx => ⟨hlt x hx, (hr x (mem_cons_of_mem t hx)).2⟩) ht.2
    obtain ⟨r, hrun, hform', hitems', hweight', hspecial'⟩ := delete_indexFormed hform ht.1 (by omega)
    have hlen' : r.maxOffsetNumber + 1 = q.maxOffsetNumber := by
      rw [← length_items (p := r), hitems', length_eraseIdx_of_lt (by rw [length_items]; omega),
        length_items]
      omega
    refine ⟨r, ?_, hform', ?_, hweight'.trans hweight, hspecial'.trans hspecial, by rw [length_cons]; omega⟩
    · rw [reverse_cons, foldlM_append, hq]
      simp only [Option.bind_eq_bind, Option.bind_some, foldlM_cons, foldlM_nil, hrun]
      rfl
    · rw [hitems', hitems]
      rfl

/-! ### The items that are kept -/

/-- The offset numbers that are not listed. -/
def keptNumbers (n : Nat) (itemnos : List Nat) : List Nat := (List.range' 1 n).filter fun t => decide (t ∉ itemnos)

theorem filter_notMem_self {a k : Nat} {l : List Nat} (h : ∀ x ∈ l, x < a ∨ a + k ≤ x) :
    ((range' a k).filter fun t => decide (t ∉ l)) = range' a k := by
  refine filter_eq_self.mpr fun x hx => decide_eq_true fun hmem => ?_
  have := mem_range'_1.mp hx
  have := h x hmem
  omega

theorem filter_notMem_cons {a k t : Nat} {l : List Nat} (h : t < a) :
    ((range' a k).filter fun x => decide (x ∉ t :: l)) = (range' a k).filter fun x => decide (x ∉ l) := by
  refine filter_congr fun x hx => decide_eq_decide.mpr ?_
  have hne : x ≠ t := by
    have := mem_range'_1.mp hx
    omega
  rw [mem_cons, not_or]
  exact ⟨fun hx => hx.2, fun hx => ⟨hne, hx⟩⟩

theorem range'_split (ht : 1 ≤ t) (htn : t ≤ n) :
    range' 1 n = range' 1 (t - 1) ++ t :: range' (t + 1) (n - t) := by
  have hone : range' t (n - t + 1) = t :: range' (t + 1) (n - t) := range'_succ
  rw [← hone]
  have := range'_append_1 (s := 1) (m := t - 1) (n := n - t + 1)
  rw [show 1 + (t - 1) = t by omega, show t - 1 + (n - t + 1) = n by omega] at this
  exact this.symm

/-- Erasing the listed places leaves the others. -/
theorem without_map (g : Nat → Option (List UInt8)) {l : List Nat} (hl : l.Pairwise (· < ·))
    (hr : ∀ t ∈ l, 1 ≤ t ∧ t ≤ n) : without l ((range' 1 n).map g) = (keptNumbers n l).map g := by
  induction l with
  | nil =>
    unfold keptNumbers
    rw [filter_notMem_self fun _ h => absurd h not_mem_nil]
    rfl
  | cons t l ih =>
    obtain ⟨hlt, hrest⟩ := pairwise_cons.mp hl
    obtain ⟨ht, htn⟩ := hr t mem_cons_self
    have ih := ih hrest fun x hx => hr x (mem_cons_of_mem t hx)
    have hnot : t ∉ l := fun hmem => lt_irrefl t (hlt t hmem)
    have hlow : ((range' 1 (t - 1)).filter fun x => decide (x ∉ t :: l)) = range' 1 (t - 1) :=
      filter_notMem_self fun x hx => by
        rcases mem_cons.mp hx with rfl | hx
        · omega
        · have := hlt x hx
          omega
    have hlow' : ((range' 1 (t - 1)).filter fun x => decide (x ∉ l)) = range' 1 (t - 1) :=
      filter_notMem_self fun x hx => by
        have := hlt x hx
        omega
    have hkept : keptNumbers n (t :: l) = (keptNumbers n l).eraseIdx (t - 1) := by
      unfold keptNumbers
      rw [range'_split ht htn, filter_append, filter_append, filter_cons_of_neg (by simp),
        filter_cons_of_pos (by simpa using hnot), hlow, hlow', filter_notMem_cons (Nat.lt_succ_self t),
        eraseIdx_append_of_length_le (by rw [length_range'])]
      rw [length_range', Nat.sub_self, eraseIdx_zero, tail_cons]
    show (without l ((range' 1 n).map g)).eraseIdx (t - 1) = _
    rw [ih, hkept, eraseIdx_map]

theorem scanItems_spec {page : Page} {a k : Nat} {itemnos : List Nat} (hok : ∀ t, a ≤ t → t < a + k →
      page.pdUpper ≤ (page.line t).lpOff ∧ (page.line t).lpOff + (page.line t).lpLen ≤ page.pdSpecial ∧
        (page.line t).lpOff = maxAlign (page.line t).lpOff)
    (hl : itemnos.Pairwise (· < ·)) (hr : ∀ t ∈ itemnos, a ≤ t ∧ t < a + k) :
    scanItems page (range' a k) itemnos =
      some (((range' a k).filter fun t => decide (t ∉ itemnos)).map page.line, []) := by
  induction k generalizing a itemnos with
  | zero =>
    have hnil : itemnos = [] := eq_nil_iff_forall_not_mem.mpr fun t ht => by
      have := hr t ht
      omega
    rw [hnil]
    rfl
  | succ k ih =>
    have hgood := hok a (le_refl a) (by omega)
    have hok' : ∀ t, a + 1 ≤ t → t < a + 1 + k → page.pdUpper ≤ (page.line t).lpOff ∧
        (page.line t).lpOff + (page.line t).lpLen ≤ page.pdSpecial ∧
        (page.line t).lpOff = maxAlign (page.line t).lpOff := fun t h1 h2 => hok t (by omega) (by omega)
    unfold line at hgood
    rw [range'_succ, scanItems]
    rw [if_neg (by omega)]
    split_ifs with hhead
    · obtain ⟨more, rfl⟩ := head?_eq_some_iff.mp hhead
      obtain ⟨hlt, hrest⟩ := pairwise_cons.mp hl
      rw [tail_cons, ih hok' hrest fun t ht => ⟨hlt t ht, by have := hr t (mem_cons_of_mem a ht); omega⟩,
        filter_cons_of_neg (by simp), filter_notMem_cons (Nat.lt_succ_self a)]
    · have hnot : a ∉ itemnos := by
        intro hmem
        cases itemnos with
        | nil => cases hmem
        | cons x l =>
          rcases mem_cons.mp hmem with rfl | hmem
          · exact hhead rfl
          · have := (pairwise_cons.mp hl).1 a hmem
            have := hr x mem_cons_self
            omega
      rw [ih hok' hl fun t ht => ?_, filter_cons_of_pos (by simpa using hnot)]
      · rfl
      · have := hr t ht
        have hne : t ≠ a := fun he => hnot (he ▸ ht)
        omega

theorem writeFrom_spec (m : Mem) (s : Nat) (ks : List ItemId) :
    let r := (ks.zipIdx s).foldl (fun m e => setItemId m (e.2 + 1) e.1) m
    (∀ i, getItemId r (i + 1) =
      if s ≤ i then ((ks[i - s]?).map ItemId.cut).getD (getItemId m (i + 1)) else getItemId m (i + 1)) ∧
    ∀ a, 24 + 4 * (s + ks.length) ≤ a → r a = m a := by
  induction ks generalizing m s with
  | nil =>
    refine ⟨fun i => ?_, fun _ _ => rfl⟩
    rw [getElem?_nil]
    split_ifs <;> rfl
  | cons k ks ih =>
    obtain ⟨hline, hmem⟩ := ih (setItemId m (s + 1) k) (s + 1)
    rw [zipIdx_cons, foldl_cons]
    refine ⟨fun i => ?_, fun a ha => ?_⟩
    · refine (hline i).trans ?_
      rcases lt_trichotomy i s with hlt | rfl | hgt
      · rw [if_neg (by omega), if_neg (by omega), getItemId_setItemId_of_ne (by omega) (by omega) (by omega)]
      · rw [if_neg (by omega), if_pos (le_refl i), getItemId_setItemId_self, Nat.sub_self]
        rfl
      · rw [if_pos (by omega), if_pos (by omega), getItemId_setItemId_of_ne (by omega) (by omega) (by omega),
          show i - s = i - (s + 1) + 1 by omega, getElem?_cons_succ]
    · rw [length_cons] at ha
      rw [hmem a (by omega), setItemId_of_le (by omega) (by omega)]

/-- The page with the line pointers that are kept, its tuples where they were. -/
def Page.keep (p : Page) (itemnos : List Nat) : Page :=
  {p with
    mem := writeLines p.mem ((keptNumbers p.maxOffsetNumber itemnos).map p.line)
    pdLower := sizeOfPageHeaderData + sizeOfItemIdData * ((keptNumbers p.maxOffsetNumber itemnos).map p.line).length}

variable {l : List Nat}

theorem mem_keptNumbers : t ∈ keptNumbers n l ↔ (1 ≤ t ∧ t ≤ n) ∧ t ∉ l := by
  rw [keptNumbers, mem_filter, mem_range'_1, decide_eq_true_iff]
  exact and_congr_left fun _ => ⟨fun h => ⟨h.1, by omega⟩, fun h => ⟨h.1, by omega⟩⟩

theorem length_keptNumbers_le : (keptNumbers n l).length ≤ n :=
  le_trans (length_filter_le _ _) (le_of_eq length_range')

theorem pairwise_keptNumbers : (keptNumbers n l).Pairwise (· < ·) := List.Pairwise.filter _ pairwise_lt_range'

theorem Page.maxOffsetNumber_keep : (p.keep l).maxOffsetNumber = (keptNumbers p.maxOffsetNumber l).length := by
  unfold keep maxOffsetNumber sizeOfPageHeaderData sizeOfItemIdData
  dsimp only
  rw [length_map]
  split_ifs <;> omega

/-- The kept numbers give the line pointers, and everything behind the array is as before. -/
theorem Page.keep_line {i : Nat} (hi : 1 ≤ i) (hin : i ≤ (keptNumbers p.maxOffsetNumber l).length) :
    ∃ t, (keptNumbers p.maxOffsetNumber l)[i - 1]? = some t ∧ t ∈ keptNumbers p.maxOffsetNumber l ∧
      (p.keep l).line i = p.line t := by
  have hlt : i - 1 < (keptNumbers p.maxOffsetNumber l).length := by omega
  have hget := getElem?_eq_getElem hlt
  refine ⟨_, hget, getElem_mem hlt, ?_⟩
  obtain ⟨hline, -⟩ := writeFrom_spec p.mem 0 ((keptNumbers p.maxOffsetNumber l).map p.line)
  have h := hline (i - 1)
  rw [if_pos (Nat.zero_le _), Nat.sub_zero, getElem?_map, hget, Nat.sub_add_cancel hi] at h
  exact h.trans (ItemId.cut_eq getItemId_off_lt getItemId_flags_lt getItemId_len_lt)

theorem Page.keep_mem {a : Nat} (ha : 24 + 4 * p.maxOffsetNumber ≤ a) : (p.keep l).mem a = p.mem a := by
  obtain ⟨-, hmem⟩ := writeFrom_spec p.mem 0 ((keptNumbers p.maxOffsetNumber l).map p.line)
  refine hmem a ?_
  have := length_keptNumbers_le (n := p.maxOffsetNumber) (l := l)
  rw [length_map]
  omega

section
variable (h : p.IndexFormed)
include h

theorem Page.IndexFormed.keep_content (ht : 1 ≤ t) (htn : t ≤ p.maxOffsetNumber) :
    content (p.keep l).mem (p.line t) = content p.mem (p.line t) := by
  obtain ⟨hlines, hlu, hut, -⟩ := h.formed.numbers (h.hasItem ht htn)
  exact content_of_len rfl rfl fun _ => bytes_congr fun k _ => keep_mem (by omega)

theorem Page.IndexFormed.keep_wellFormed : (p.keep l).WellFormed := by
  have hlay := h.formed.formed.layout
  have hlower := h.lower
  have hlen := length_keptNumbers_le (n := p.maxOffsetNumber) (l := l)
  have hle : (p.keep l).pdLower ≤ p.pdLower := by
    unfold keep sizeOfPageHeaderData sizeOfItemIdData
    dsimp only
    rw [length_map]
    omega
  refine ⟨⟨Nat.le_add_right _ _, le_trans hle h.formed.formed.lower_le, h.formed.formed.upper_le,
    h.formed.formed.special_le, ?_⟩, ⟨h.formed.aligned.upper, h.formed.aligned.special⟩⟩
  rw [maxOffsetNumber_keep]
  refine ⟨fun i hi hin hs => ?_, fun i hi hin hs => ?_, fun i j hi hin hj hjn hij hsi hsj => ?_⟩
  · obtain ⟨t, -, hmem, he⟩ := keep_line hi hin
    obtain ⟨⟨ht, htn⟩, -⟩ := mem_keptNumbers.mp hmem
    rw [he] at hs ⊢
    exact hlay.aligned t ht htn hs
  · obtain ⟨t, -, hmem, he⟩ := keep_line hi hin
    obtain ⟨⟨ht, htn⟩, -⟩ := mem_keptNumbers.mp hmem
    rw [he] at hs ⊢
    exact hlay.inside t ht htn hs
  · obtain ⟨t, hget, hmem, he⟩ := keep_line hi hin
    obtain ⟨t', hget', hmem', he'⟩ := keep_line hj hjn
    obtain ⟨⟨ht, htn⟩, -⟩ := mem_keptNumbers.mp hmem
    obtain ⟨⟨ht', htn'⟩, -⟩ := mem_keptNumbers.mp hmem'
    have hne : t ≠ t' := by
      rintro rfl
      have := (getElem?_inj (by omega) (pairwise_keptNumbers.imp Nat.ne_of_lt)).mp (hget.trans hget'.symm)
      omega
    rw [he] at hsi ⊢
    rw [he'] at hsj ⊢
    exact hlay.disjoint t t' ht htn ht' htn' hne hsi hsj

theorem Page.IndexFormed.keep_items :
    (p.keep l).items = (keptNumbers p.maxOffsetNumber l).map fun t => content p.mem (p.line t) := by
  refine items_eq (by rw [length_map, maxOffsetNumber_keep]) fun i hi => ?_
  rw [maxOffsetNumber_keep] at hi
  obtain ⟨t, hget, hmem, he⟩ := keep_line (i := i + 1) (by omega) hi
  obtain ⟨⟨ht, htn⟩, -⟩ := mem_keptNumbers.mp hmem
  rw [getElem?_map, ← Nat.add_sub_cancel (n := i) (m := 1), hget, Nat.add_sub_cancel, he, h.keep_content ht htn]
  rfl

/-- All line pointers of the page are in use, so that its memory is as if it had been cleared. -/
theorem Page.IndexFormed.keep_cleared : Cleared (p.keep l) (p.keep l).mem := by
  refine ⟨fun i hi hin => ?_, fun _ _ => rfl⟩
  rw [maxOffsetNumber_keep] at hin
  obtain ⟨t, -, hmem, he⟩ := keep_line hi hin
  obtain ⟨⟨ht, htn⟩, -⟩ := mem_keptNumbers.mp hmem
  rw [he, if_pos (h.line ht htn).1, ← he]
  rfl

/-- What the loop collects is what compacting the page asks for. -/
theorem Page.IndexFormed.keep_storageItems :
    ((keptNumbers p.maxOffsetNumber l).map p.line).zipIdx.map
        (fun e => (⟨e.2, e.1.lpOff, maxAlign e.1.lpLen⟩ : ItemIdSort)) =
      storageItems (p.keep l).mem (p.keep l).maxOffsetNumber := by
  rw [maxOffsetNumber_keep]
  have hall : storageItems (p.keep l).mem (keptNumbers p.maxOffsetNumber l).length =
      (range (keptNumbers p.maxOffsetNumber l).length).map (sortEntry (p.keep l).line) := by
    rw [storageItems, ← filterMap_eq_map]
    refine filterMap_congr fun i hi => ?_
    have hin := mem_range.mp hi
    obtain ⟨t, -, hmem, he⟩ := keep_line (i := i + 1) (by omega) hin
    obtain ⟨⟨ht, htn⟩, -⟩ := mem_keptNumbers.mp hmem
    have hs : (getItemId (p.keep l).mem (i + 1)).hasStorage = true := by
      show ((p.keep l).line (i + 1)).hasStorage = true
      rw [he]
      exact (h.line ht htn).2.1
    dsimp only
    rw [if_pos hs]
    rfl
  rw [hall]
  refine ext_getElem? fun i => ?_
  rw [getElem?_map, getElem?_zipIdx, getElem?_map, getElem?_map]
  rcases Nat.lt_or_ge i (keptNumbers p.maxOffsetNumber l).length with hi | hi
  · obtain ⟨t, hget, -, he⟩ := keep_line (i := i + 1) (by omega) hi
    rw [Nat.add_sub_cancel] at hget
    rw [hget, getElem?_range hi]
    simp only [Option.map_some, zero_add, sortEntry, he]
  · rw [getElem?_eq_none hi, getElem?_eq_none (by rw [length_range]; exact hi)]
    rfl

/-- The lengths that are added up are those of the items. -/
theorem Page.IndexFormed.keep_totallen :
    ((storageItems (p.keep l).mem (p.keep l).maxOffsetNumber).map ItemIdSort.alignedlen).sum =
      weight (p.keep l).items := by
  rw [← h.keep_storageItems, h.keep_items, weight, map_map, map_map]
  have hzip : ((keptNumbers p.maxOffsetNumber l).map p.line).zipIdx.map
      (ItemIdSort.alignedlen ∘ fun e : ItemId × Nat => (⟨e.2, e.1.lpOff, maxAlign e.1.lpLen⟩ : ItemIdSort)) =
      (((keptNumbers p.maxOffsetNumber l).map p.line).zipIdx.map Prod.fst).map fun lp => maxAlign lp.lpLen := by
    rw [map_map]
    rfl
  rw [hzip, zipIdx_map_fst, map_map]
  refine congrArg sum (map_congr_left fun t ht => ?_)
  obtain ⟨⟨ht, htn⟩, -⟩ := mem_keptNumbers.mp ht
  simp only [Function.comp, content, if_pos (h.line ht htn).1, Option.getD_some, length_bytes_line]

/-- Removing all the items in one pass. -/
theorem multiDelete_spec (hl : l.Pairwise (· < ·))
    (hr : ∀ t ∈ l, 1 ≤ t ∧ t ≤ p.maxOffsetNumber) (hlong : 2 < l.length) :
    ∃ q, pageIndexMultiDelete p l = some q ∧ q.items = without l p.items ∧
      q.pdLower = 24 + 4 * (without l p.items).length ∧ q.pdUpper = p.pdSpecial - weight q.items := by
  have hwithout : without l p.items = (p.keep l).items := by
    rw [h.keep_items, items, ← without_map _ hl hr, range'_eq_map_range, map_map]
    simp only [Function.comp_def, add_comm 1]
  have hscan : scanItems p (range' 1 p.maxOffsetNumber) l =
      some ((keptNumbers p.maxOffsetNumber l).map p.line, []) := scanItems_spec
    (fun t ht htn => by
      have hitem := h.hasItem ht (by omega)
      have hin := h.formed.formed.layout.inside t hitem.1 hitem.2.1 hitem.2.2
      exact ⟨hin.1, hin.2, eq_maxAlign_iff.mpr (h.formed.formed.layout.aligned t hitem.1 hitem.2.1 hitem.2.2)⟩)
    hl fun t ht => by
      have := hr t ht
      omega
  have htotal := h.keep_cleared.totallen_le (h.keep_wellFormed (l := l))
  have hlu := h.formed.formed.lower_le
  have hfew : ((keptNumbers p.maxOffsetNumber l).map p.line).length ≤ maxIndexTuplesPerPage := by
    rw [length_map]
    exact le_trans length_keptNumbers_le h.few
  obtain ⟨-, hitems, hupper⟩ := h.keep_cleared.compacted (h.keep_wellFormed (l := l)) (q := p.keep l) rfl rfl rfl
  rw [pageIndexMultiDelete, if_neg (by omega),
    if_pos ⟨h.formed.formed.pointersOk, eq_maxAlign_iff.mpr h.formed.aligned.special⟩, hscan]
  change ∃ q, (if maxIndexTuplesPerPage < ((keptNumbers p.maxOffsetNumber l).map p.line).length then none
    else if ([] : List Nat) ≠ [] then none
    else if p.pdSpecial - p.pdLower < ((((keptNumbers p.maxOffsetNumber l).map p.line).zipIdx.map
        (fun e => (⟨e.2, e.1.lpOff, maxAlign e.1.lpLen⟩ : ItemIdSort))).map ItemIdSort.alignedlen).sum then none
    else some (compactifyTuples (p.keep l) (((keptNumbers p.maxOffsetNumber l).map p.line).zipIdx.map
        (fun e => (⟨e.2, e.1.lpOff, maxAlign e.1.lpLen⟩ : ItemIdSort))))) = some q ∧ _
  rw [h.keep_storageItems, if_neg (Nat.not_lt.mpr hfew), if_neg (fun hne => hne rfl), if_neg ?_]
  · refine ⟨_, rfl, hitems.trans hwithout.symm, ?_, ?_⟩
    · rw [hwithout, h.keep_items, length_map]
      show 24 + 4 * ((keptNumbers p.maxOffsetNumber l).map p.line).length = _
      rw [length_map]
    · rw [hitems, ← h.keep_totallen]
      exact hupper
  · have : (p.keep l).pdUpper = p.pdUpper := rfl
    have : (p.keep l).pdSpecial = p.pdSpecial := rfl
    omega

end

/-- **Removing items at once or one by one** leaves the same items under the same numbers, the same end of the line
pointers, and, if there were no gaps between the tuples, the same free space. -/
theorem multiDelete_eq_retail (p : Page) (h : p.IndexFormed) (l : List Nat) (hl : l.Pairwise (· < ·))
    (hr : ∀ t ∈ l, 1 ≤ t ∧ t ≤ p.maxOffsetNumber) :
    ∃ q r, pageIndexMultiDelete p l = some q ∧ l.reverse.foldlM pageIndexTupleDelete p = some r ∧
      q.items = r.items ∧ q.pdLower = r.pdLower ∧
      (l.length ≤ 2 ∨ p.Packed → q.pdUpper - q.pdLower = r.pdUpper - r.pdLower) := by
  obtain ⟨r, hretail, hform, hitems, hweight, -, -⟩ := retail_spec h hl hr
  rcases Nat.lt_or_ge 2 l.length with hlong | hshort
  · obtain ⟨q, hmulti, hitems', hlower, hupper⟩ := multiDelete_spec h hl hr hlong
    have hsame : q.items = r.items := hitems'.trans hitems.symm
    have hends : q.pdLower = r.pdLower := by
      rw [hlower, hform.lower, ← length_items (p := r), hitems]
    refine ⟨q, r, hmulti, hretail, hsame, hends, fun hpacked => ?_⟩
    have hpacked : p.pdUpper + weight p.items = p.pdSpecial := hpacked.resolve_left (by omega)
    rw [hsame] at hupper
    rw [hends]
    omega
  · exact ⟨r, r, by rw [pageIndexMultiDelete, if_pos hshort, hretail], hretail, rfl, rfl, fun _ => rfl⟩

end MultiDelete

/-! ### Three items -/

/-- Three items of eight bytes that end at `top`. -/
def threeItems (top : Nat) : Page where
  mem a := if 24 ≤ a ∧ a < 36 then
      store32 (fun _ => 0) (a / 4 * 4) (ItemId.toWord ⟨top - 8 - 2 * (a / 4 * 4 - 24), lpNormal, 8⟩) a
    else 0
  pdLower := 36
  pdUpper := top - 24
  pdSpecial := 8192
  hasFreeLines := false

theorem threeItems_maxOffsetNumber (top : Nat) : (threeItems top).maxOffsetNumber = 3 := by
  simp [Page.maxOffsetNumber, threeItems, sizeOfPageHeaderData, sizeOfItemIdData]

theorem threeItems_indexFormed {top : Nat} (h1 : 8 ∣ top) (h2 : 60 ≤ top) (h3 : top ≤ 8192)
    (hline : ∀ i < 3, (threeItems top).line (i + 1) = ⟨top - 8 - 8 * i, lpNormal, 8⟩) :
    (threeItems top).IndexFormed ∧ weight (threeItems top).items = 24 := by
  have hmax := threeItems_maxOffsetNumber top
  have hat : ∀ i, 1 ≤ i → i ≤ 3 → (threeItems top).line i = ⟨top - 8 * i, lpNormal, 8⟩ := by
    intro i hi hin
    have := hline (i - 1) (by omega)
    rw [Nat.sub_add_cancel hi] at this
    rw [this, ItemId.mk.injEq]
    omega
  have hitems : (threeItems top).items = (range 3).map fun i =>
      some (bytes (threeItems top).mem (top - 8 - 8 * i) 8) := by
    unfold items
    rw [hmax]
    refine map_congr_left fun i hi => ?_
    rw [hline i (mem_range.mp hi)]
    rfl
  refine ⟨⟨⟨⟨by show 24 ≤ 36; decide, by show 36 ≤ top - 24; omega, by show top - 24 ≤ 8192; omega,
    le_refl 8192, ?_⟩, ⟨by show 8 ∣ top - 24; omega, by show 8 ∣ 8192; decide⟩⟩, by rw [hmax]; rfl, ?_,
    by rw [hmax]; decide⟩, ?_⟩
  · rw [hmax]
    refine ⟨fun i hi hin _ => ?_, fun i hi hin _ => ?_, fun i j hi hin hj hjn hij _ _ => ?_⟩
    · rw [hat i hi hin]
      dsimp only
      omega
    · rw [hat i hi hin]
      show top - 24 ≤ top - 8 * i ∧ top - 8 * i + 8 ≤ 8192
      omega
    · rw [hat i hi hin, hat j hj hjn]
      dsimp only
      omega
  · intro x hx
    rw [hitems] at hx
    obtain ⟨i, -, rfl⟩ := mem_map.mp hx
    refine ⟨_, rfl, fun hnil => ?_⟩
    have hlen := congrArg length hnil
    rw [length_bytes_line] at hlen
    cases hlen
  · rw [hitems, weight, map_map]
    simp only [Function.comp_def, Option.getD_some, length_bytes_line]
    decide

theorem fullPage_indexFormed : (threeItems 8192).IndexFormed ∧ weight (threeItems 8192).items = 24 :=
  threeItems_indexFormed (by decide) (by decide) (by decide) (by decide +kernel)

theorem gapPage_indexFormed : (threeItems 8184).IndexFormed ∧ weight (threeItems 8184).items = 24 :=
  threeItems_indexFormed (by decide) (by decide) (by decide) (by decide +kernel)

theorem valid_oneTwoThree (top : Nat) : ∀ t ∈ [1, 2, 3], 1 ≤ t ∧ t ≤ (threeItems top).maxOffsetNumber := by
  have hmax := threeItems_maxOffsetNumber top
  rw [hmax]
  decide

/-- A page without gaps from which all items are removed. -/
theorem fullPage_emptied : ∃ q r, pageIndexMultiDelete (threeItems 8192) [1, 2, 3] = some q ∧
    [1, 2, 3].reverse.foldlM pageIndexTupleDelete (threeItems 8192) = some r ∧
    q.pdUpper - q.pdLower = r.pdUpper - r.pdLower := by
  obtain ⟨hform, hweight⟩ := fullPage_indexFormed
  obtain ⟨q, r, hq, hr, -, -, hfree⟩ := multiDelete_eq_retail (threeItems 8192) hform [1, 2, 3] (by decide)
    (valid_oneTwoThree 8192)
  exact ⟨q, r, hq, hr, hfree (.inr (by rw [Page.Packed, hweight]; rfl))⟩

/-- A page with a gap of eight bytes at its end, which is only closed when the items are removed at once. -/
theorem gapPage_differs : (threeItems 8184).IndexFormed ∧
    ∃ q r, pageIndexMultiDelete (threeItems 8184) [1, 2, 3] = some q ∧
      [1, 2, 3].reverse.foldlM pageIndexTupleDelete (threeItems 8184) = some r ∧
      q.pdUpper = 8192 ∧ r.pdUpper = 8184 ∧ q.pdLower = 24 ∧ r.pdLower = 24 := by
  obtain ⟨hform, hweight⟩ := gapPage_indexFormed
  have hvalid := valid_oneTwoThree 8184
  obtain ⟨r, hretail, hrform, hitems, hsum, -, hlen⟩ := retail_spec hform (by decide) hvalid
  obtain ⟨q, hmulti, hitems', hlower, hupper⟩ := multiDelete_spec hform (by decide) hvalid (by decide)
  have hmax : r.maxOffsetNumber = 0 := Nat.add_right_cancel (m := 3) hlen
  have hnil : r.items = [] := eq_nil_of_length_eq_zero (by rw [length_items, hmax])
  have hnil' : without [1, 2, 3] (threeItems 8184).items = [] := hitems.symm.trans hnil
  rw [hnil, hweight] at hsum
  rw [hnil'] at hitems' hlower
  rw [hitems'] at hupper
  refine ⟨hform, q, r, hmulti, hretail, hupper, hsum, hlower, ?_⟩
  rw [hrform.lower, hmax]

end PgStorage.Bufpage
