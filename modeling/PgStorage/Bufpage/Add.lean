import PgStorage.Bufpage.Index

/-! Adding an item.

The item goes behind the last one, into a line pointer that is free, or between others, which make
room for its line pointer. Its bytes go right in front of the tuples. -/
namespace PgStorage.Bufpage
open Memory
open List

/-- The longest item that can be allocated. -/
def maxAllocSize : Nat := 0x3fffffff

section Add
variable {p q : Page} {m : Mem} {n u upper : Nat} {item : List UInt8}

theorem findFree_spec (m : Mem) (limit : Nat) (hl : 1 ≤ limit) :
    1 ≤ findFree m limit ∧ findFree m limit ≤ limit ∧
      (findFree m limit < limit → (getItemId m (findFree m limit)).isUsed = false ∧
        (getItemId m (findFree m limit)).hasStorage = false) ∧
      ∀ j, 1 ≤ j → j < findFree m limit → (getItemId m j).isUsed = true ∨ (getItemId m j).hasStorage = true := by
  unfold findFree
  split
  · next n hn =>
    obtain ⟨hp, i, hi, hget, hbefore⟩ := find?_eq_some_iff_getElem.mp hn
    rw [length_range'] at hi
    rw [getElem_range'] at hget
    refine ⟨by omega, by omega, fun _ => by simpa using hp, fun j hj hjn => ?_⟩
    have := hbefore (j - 1) (by omega)
    rw [getElem_range', show 1 + 1 * (j - 1) = j by omega] at this
    revert this
    cases (getItemId m j).isUsed <;> cases (getItemId m j).hasStorage <;> simp
  · next hn =>
    refine ⟨hl, le_refl _, fun h => absurd h (lt_irrefl _), fun j hj hjn => ?_⟩
    have := find?_eq_none.mp hn j (mem_range'_1.mpr ⟨hj, by omega⟩)
    revert this
    cases (getItemId m j).isUsed <;> cases (getItemId m j).hasStorage <;> simp

/-- The choice of the place: the number that was passed, or else the first free line pointer or
the one behind the last. The page changes at most in its hint. -/
structure Chosen (p : Page) (offsetNumber : Nat) (isOverwrite : Bool) (q : Page) (n : Nat) (shuffle : Bool) :
    Prop where
  same : ∃ hint, q = {p with hasFreeLines := hint}
  pos : 1 ≤ n
  given : offsetNumberIsValid offsetNumber = true → n = offsetNumber
  shuffles : shuffle = true ↔ offsetNumberIsValid offsetNumber = true ∧ isOverwrite = false ∧ n ≤ p.maxOffsetNumber
  free : shuffle = false → n ≤ p.maxOffsetNumber → (p.line n).isUsed = false ∧ (p.line n).hasStorage = false
  first : offsetNumberIsValid offsetNumber = false → n ≤ p.maxOffsetNumber →
    ∀ j, 1 ≤ j → j < n → (p.line j).isUsed = true ∨ (p.line j).hasStorage = true

theorem chosen (p : Page) (offsetNumber : Nat) (isOverwrite : Bool) {r : Page × Nat × Bool}
    (h : selectOffset p offsetNumber isOverwrite = some r) : Chosen p offsetNumber isOverwrite r.1 r.2.1 r.2.2 := by
  unfold selectOffset at h
  dsimp only at h
  by_cases hv : offsetNumberIsValid offsetNumber = true
  · rw [if_pos hv] at h
    have hpos : 1 ≤ offsetNumber := Nat.one_le_iff_ne_zero.mpr (of_decide_eq_true hv).1
    cases isOverwrite with
    | true =>
      rw [if_pos rfl] at h
      split_ifs at h with hused
      obtain rfl := Option.some_inj.mp h
      refine ⟨⟨p.hasFreeLines, rfl⟩, hpos, fun _ => rfl, by simp, fun _ hn => ?_, fun hf => ?_⟩
      · dsimp only at hn ⊢
        have hfree := fun hu => hused ⟨Nat.lt_succ_of_le hn, hu⟩
        unfold Page.line
        revert hfree
        cases (getItemId p.mem offsetNumber).isUsed <;> cases (getItemId p.mem offsetNumber).hasStorage <;> simp
      · rw [hv] at hf
        cases hf
    | false =>
      rw [if_neg (by simp)] at h
      obtain rfl := Option.some_inj.mp h
      refine ⟨⟨p.hasFreeLines, rfl⟩, hpos, fun _ => rfl, ?_, fun hs hn => ?_, fun hf => ?_⟩
      · simp only [decide_eq_true_iff, hv, true_and]
        exact Nat.lt_succ_iff
      · exact absurd (Nat.lt_succ_of_le hn) (of_decide_eq_false hs)
      · rw [hv] at hf
        cases hf
  · rw [if_neg hv] at h
    obtain ⟨h1, h2, h3, h4⟩ := findFree_spec p.mem (p.maxOffsetNumber + 1) (by omega)
    split_ifs at h with hhint hfull
    · obtain rfl := Option.some_inj.mp h
      refine ⟨⟨false, rfl⟩, h1, fun hc => absurd hc hv, by simp [hv], fun _ hn => h3 (Nat.lt_succ_of_le hn), fun _ _ => h4⟩
    · obtain rfl := Option.some_inj.mp h
      refine ⟨⟨p.hasFreeLines, rfl⟩, h1, fun hc => absurd hc hv, by simp [hv], fun _ hn => h3 (Nat.lt_succ_of_le hn),
        fun _ _ => h4⟩
    · obtain rfl := Option.some_inj.mp h
      refine ⟨⟨p.hasFreeLines, rfl⟩, Nat.succ_pos _, fun hc => absurd hc hv, by simp [hv], fun _ hn => ?_, fun _ hn => ?_⟩
      · exact absurd hn (by simp)
      · exact absurd hn (by simp)

/-- An item in front of all others. -/
theorem Layout.add {line : Nat → ItemId} {special size : Nat} (h : Layout line n upper special)
    (line' : Nat → ItemId) (n' : Nat) (src : Nat → Nat) (lp : ItemId) (hus : upper ≤ special) (hu : line' u = lp)
    (hsize : maxAlign lp.lpLen = size) (hoff : lp.lpOff + size = upper) (hdvd : 8 ∣ upper)
    (hother : ∀ j, 1 ≤ j → j ≤ n' → j ≠ u → 1 ≤ src j ∧ src j ≤ n ∧ line' j = line (src j))
    (hinj : ∀ j k, 1 ≤ j → j ≤ n' → 1 ≤ k → k ≤ n' → j ≠ u → k ≠ u → src j = src k → j = k) :
    Layout line' n' lp.lpOff special := by
  have hle := le_maxAlign lp.lpLen
  have hd := dvd_maxAlign lp.lpLen
  constructor
  · intro j h1 h2 hs
    rcases eq_or_ne j u with rfl | hj
    · rw [hu]; omega
    · obtain ⟨s1, s2, he⟩ := hother j h1 h2 hj
      rw [he] at hs ⊢
      exact h.aligned _ s1 s2 hs
  · intro j h1 h2 hs
    rcases eq_or_ne j u with rfl | hj
    · rw [hu]; omega
    · obtain ⟨s1, s2, he⟩ := hother j h1 h2 hj
      rw [he] at hs ⊢
      have := h.inside _ s1 s2 hs
      omega
  · intro j k hj1 hj2 hk1 hk2 hjk hsj hsk
    by_cases hj : j = u
    · obtain ⟨s1, s2, he⟩ := hother k hk1 hk2 fun e => hjk (hj.trans e.symm)
      rw [he] at hsk ⊢
      have := h.inside _ s1 s2 hsk
      rw [hj, hu]; omega
    · obtain ⟨s1, s2, he⟩ := hother j hj1 hj2 hj
      rw [he] at hsj ⊢
      by_cases hk : k = u
      · have := h.inside _ s1 s2 hsj
        rw [hk, hu]; omega
      · obtain ⟨r1, r2, hr⟩ := hother k hk1 hk2 hk
        rw [hr] at hsk ⊢
        exact h.disjoint _ _ s1 s2 r1 r2 (fun e => hjk (hinj j k hj1 hj2 hk1 hk2 hj hk e)) hsj hsk

/-- The line pointers from one on move up. -/
theorem getItemId_memmove_up {cnt : Nat} (hn : 1 ≤ n) {j : Nat} (hj : 1 ≤ j) (hjn : j ≠ n) (hj2 : j < n + 1 + cnt) :
    getItemId (memmove m (linpAddr (n + 1)) (linpAddr n) (cnt * sizeOfItemIdData)) j =
      getItemId m (if j < n then j else j - 1) := by
  have h1 := linpAddr_eq hn
  have h2 := linpAddr_succ n
  have h3 := linpAddr_eq hj
  unfold sizeOfItemIdData
  split_ifs with hlt
  · exact getItemId_congr fun k hk => memmove_of_not_mem (by omega)
  · have h4 := linpAddr_eq (n := j - 1) (by omega)
    refine getItemId_congr fun k hk => ?_
    rw [memmove_of_mem (by omega)]
    exact congrArg m (by omega)

/-! ### The page -/

/-- The hint is not part of what the page stands for. -/
theorem Page.WellFormed.hint (h : p.WellFormed) (b : Bool) : ({p with hasFreeLines := b} : Page).WellFormed :=
  ⟨⟨h.formed.header, h.formed.lower_le, h.formed.upper_le, h.formed.special_le, h.formed.layout⟩,
    ⟨h.aligned.upper, h.aligned.special⟩⟩

/-- An item put at place `n`: behind the last, between others, or where there was none. -/
def addAt (items : List (Option (List UInt8))) (shuffle : Bool) (n : Nat) (item : List UInt8) :
    List (Option (List UInt8)) :=
  if items.length < n then items ++ [some item]
  else if shuffle = true then items.insertIdx (n - 1) (some item) else items.set (n - 1) (some item)

/-- The line pointer that place `j` of the new array had in the old one. -/
def oldPlace (shuffle : Bool) (n j : Nat) : Nat := if shuffle = true ∧ n < j then j - 1 else j

theorem oldPlace_inj {shuffle : Bool} {j k : Nat} (hj : j ≠ n) (hk : k ≠ n)
    (e : oldPlace shuffle n j = oldPlace shuffle n k) : j = k := by
  unfold oldPlace at e
  cases shuffle with
  | false => simpa using e
  | true =>
    simp only [true_and] at e
    split_ifs at e <;> omega

theorem length_addAt {items : List (Option (List UInt8))} {shuffle : Bool} (hle : n ≤ items.length + 1)
    (hs : shuffle = true → n ≤ items.length) :
    (addAt items shuffle n item).length =
      if n = items.length + 1 ∨ shuffle = true then items.length + 1 else items.length := by
  unfold addAt
  by_cases happ : items.length < n
  · rw [if_pos happ, if_pos (.inl (by omega)), length_append, length_singleton]
  · rw [if_neg happ]
    cases shuffle with
    | false => rw [if_neg (by simp), if_neg (by simp; omega), length_set]
    | true => rw [if_pos rfl, if_pos (.inr rfl), length_insertIdx, if_pos (by omega)]

theorem addAt_getElem? (items : List (Option (List UInt8))) (item : List UInt8) (shuffle : Bool) {j : Nat}
    (hn : 1 ≤ n) (hle : n ≤ items.length + 1) (hs : shuffle = true → n ≤ items.length) (hj : 1 ≤ j) :
    (addAt items shuffle n item)[j - 1]? = if j = n then some (some item) else items[oldPlace shuffle n j - 1]? := by
  unfold addAt
  by_cases happ : items.length < n
  · have hsh : shuffle = false := by
      cases shuffle with
      | false => rfl
      | true => exact absurd (hs rfl) (by omega)
    have hold : oldPlace shuffle n j = j := by rw [hsh]; simp [oldPlace]
    rw [if_pos happ, hold]
    split_ifs with hjn
    · rw [getElem?_append_right (by omega), hjn, show n - 1 - items.length = 0 by omega]
      rfl
    · rcases Nat.lt_or_ge (j - 1) items.length with hlt | hge
      · rw [getElem?_append_left hlt]
      · rw [getElem?_eq_none (by simp; omega), getElem?_eq_none hge]
  · rw [if_neg happ]
    cases shuffle with
    | false =>
      have hold : oldPlace false n j = j := by simp [oldPlace]
      rw [if_neg (by simp), hold, getElem?_set]
      split_ifs <;> first | rfl | omega
    | true =>
      rw [if_pos rfl, getElem?_insertIdx, oldPlace]
      simp only [true_and]
      split_ifs <;> first | rfl | omega

/-- What is known of the number that is returned for an item that was added. -/
structure Added (p : Page) (offsetNumber : Nat) (isOverwrite : Bool) (n : Nat) : Prop where
  pos : 1 ≤ n
  le : n ≤ p.maxOffsetNumber + 1
  given : offsetNumberIsValid offsetNumber = true → n = offsetNumber
  free : n ≤ p.maxOffsetNumber → offsetNumberIsValid offsetNumber = false ∨ isOverwrite = true →
    p.items[n - 1]? = some none
  first : offsetNumberIsValid offsetNumber = false → n ≤ p.maxOffsetNumber →
    ∀ j, 1 ≤ j → j < n → (p.line j).isUsed = true ∨ (p.line j).hasStorage = true

theorem add_written (h : p.WellFormed) (item : List UInt8) {shuffle : Bool} {lower : Nat} (hn : 1 ≤ n)
    (hle : n ≤ p.maxOffsetNumber + 1) (hs : shuffle = true → n ≤ p.maxOffsetNumber)
    (hlower : lower = if n = p.maxOffsetNumber + 1 ∨ shuffle = true then p.pdLower + 4 else p.pdLower)
    (hfit : lower + maxAlign item.length ≤ p.pdUpper)
    (hq : q = {p with
      mem := memcpy (setItemId (if shuffle = true then
          memmove p.mem (linpAddr (n + 1)) (linpAddr n) ((p.maxOffsetNumber + 1 - n) * sizeOfItemIdData) else p.mem)
        n ⟨p.pdUpper - maxAlign item.length, lpNormal, item.length⟩) (p.pdUpper - maxAlign item.length) item
      pdLower := lower
      pdUpper := p.pdUpper - maxAlign item.length}) :
    q.WellFormed ∧ q.items = addAt p.items shuffle n item := by
  have hheader := h.formed.header
  have hmax := Page.maxOffsetNumber_eq hheader
  have hlines := p.lines_le hheader
  have hul := h.formed.upper_le
  have hsp := h.formed.special_le
  have hud := h.aligned.upper
  have hlen := le_maxAlign item.length
  have hld := dvd_maxAlign item.length
  have haddr := linpAddr_eq hn
  have haddr' := linpAddr_succ n
  unfold sizeOfPageHeaderData at hheader
  unfold blcksz at hsp
  generalize hM1 : (if shuffle = true then
    memmove p.mem (linpAddr (n + 1)) (linpAddr n) ((p.maxOffsetNumber + 1 - n) * sizeOfItemIdData) else p.mem) = m1 at hq
  generalize hlp : (⟨p.pdUpper - maxAlign item.length, lpNormal, item.length⟩ : ItemId) = lp at hq
  have hoff : lp.lpOff = p.pdUpper - maxAlign item.length := by rw [← hlp]
  have hlpl : lp.lpLen = item.length := by rw [← hlp]
  have hcut : lp.cut = lp := by
    rw [← hlp]
    exact ItemId.cut_eq (by dsimp only; omega) (show lpNormal < 2 ^ 2 by decide) (by dsimp only; omega)
  generalize hM2 : setItemId m1 n lp = m2 at hq
  generalize hM3 : memcpy m2 (p.pdUpper - maxAlign item.length) item = m3 at hq
  have hlow3 : ∀ b < lower, m3 b = m2 b := fun b hb => hM3 ▸ memcpy_of_not_mem (by omega)
  have hcount : q.maxOffsetNumber = if n = p.maxOffsetNumber + 1 ∨ shuffle = true then p.maxOffsetNumber + 1
      else p.maxOffsetNumber := by
    rw [Page.maxOffsetNumber_eq (by rw [hq]; unfold sizeOfPageHeaderData; dsimp only; split_ifs at hlower <;> omega), hq]
    dsimp only
    split_ifs at hlower ⊢ <;> omega
  have hqlines : 24 + 4 * q.maxOffsetNumber ≤ lower := by
    rw [hcount]
    split_ifs at hlower ⊢ <;> omega
  have hnq : n ≤ q.maxOffsetNumber := by
    rw [hcount]
    split_ifs with hc
    · omega
    · have := not_or.mp hc
      omega
  have hsource : ∀ j, 1 ≤ j → j ≤ q.maxOffsetNumber → j ≠ n → 1 ≤ oldPlace shuffle n j ∧
      oldPlace shuffle n j ≤ p.maxOffsetNumber ∧ getItemId m3 j = p.line (oldPlace shuffle n j) := by
    intro j hj hjq hjn
    rw [getItemId_frame hlow3 hj (by omega), ← hM2, getItemId_setItemId_of_ne hn hj hjn, ← hM1]
    rw [hcount] at hjq
    unfold oldPlace
    cases shuffle with
    | true =>
      have hnle := hs rfl
      rw [if_pos (.inr rfl)] at hjq
      simp only [true_and, if_true]
      rw [getItemId_memmove_up hn hj hjn (by omega)]
      refine ⟨by split_ifs <;> omega, by split_ifs <;> omega, ?_⟩
      split_ifs <;> first | rfl | omega
    | false =>
      simp only [Bool.false_eq_true, or_false, false_and, if_false] at hjq ⊢
      refine ⟨hj, ?_, rfl⟩
      split_ifs at hjq <;> omega
  have hself : getItemId m3 n = lp := by
    rw [getItemId_frame hlow3 hn (by omega), ← hM2, getItemId_setItemId_self, hcut]
  have hdata : ∀ a, p.pdUpper ≤ a → m3 a = p.mem a := by
    intro a ha
    have h3 : m3 a = m2 a := hM3 ▸ memcpy_of_not_mem (by omega)
    have h2 : m2 a = m1 a := hM2 ▸ setItemId_of_le hn (by omega)
    have h1 : m1 a = p.mem a := by
      rw [← hM1]
      split_ifs with hsh
      · have := hs hsh
        rw [hsh, if_pos (.inr rfl)] at hlower
        unfold sizeOfItemIdData
        exact memmove_of_not_mem (by omega)
      · rfl
    rw [h3, h2, h1]
  have hqline : q.line = getItemId m3 := by rw [hq]; rfl
  have hlay : Layout q.line q.maxOffsetNumber q.pdUpper q.pdSpecial := by
    have := Layout.add (u := n) h.formed.layout q.line q.maxOffsetNumber (oldPlace shuffle n) lp hul
      (by rw [hqline]; exact hself) rfl (by rw [hoff, hlpl]; omega) hud
      (fun j h1 h2 h3 => by rw [hqline]; exact hsource j h1 h2 h3)
      (fun j k _ _ _ _ h5 h6 e => oldPlace_inj h5 h6 e)
    rw [hoff] at this
    rw [hq] at this ⊢
    exact this
  refine ⟨⟨⟨?_, ?_, ?_, ?_, hlay⟩, ⟨?_, ?_⟩⟩, Page.items_eq ?_ ?_⟩
  · rw [hq]; unfold sizeOfPageHeaderData; dsimp only; split_ifs at hlower <;> omega
  · rw [hq]; dsimp only; omega
  · rw [hq]; dsimp only; omega
  · rw [hq]; exact h.formed.special_le
  · rw [hq]; dsimp only; omega
  · rw [hq]; exact h.aligned.special
  · rw [hcount, length_addAt (by rw [Page.length_items]; exact hle) (by rw [Page.length_items]; exact hs),
      Page.length_items]
  · intro i hi
    have hplace := addAt_getElem? p.items item shuffle (j := i + 1) hn (by rw [Page.length_items]; exact hle) (by rw [Page.length_items]; exact hs) (by omega)
    rw [Nat.add_sub_cancel] at hplace
    rw [hplace, hqline]
    split_ifs with hin
    · rw [hin, hself]
      have hbytes : bytes q.mem lp.lpOff lp.lpLen = item := by
        rw [hq, hoff, hlpl]
        dsimp only
        rw [← hM3]; exact bytes_memcpy
      have hused : lp.isUsed = true := by rw [← hlp]; rfl
      rw [content, if_pos hused, hbytes]
    · obtain ⟨s1, s2, he⟩ := hsource (i + 1) (by omega) hi hin
      rw [Page.getElem?_items (by omega), Nat.sub_add_cancel s1, he]
      refine congrArg some (content_of_len rfl rfl fun hst => bytes_congr fun k hk => ?_).symm
      have hin' := (h.formed.layout.inside _ s1 s2 hst).1
      rw [hq]
      exact hdata _ (by omega)

/-- **Adding an item adds it to the array, or the item does not fit and nothing changes.** -/
theorem add_spec (h : p.WellFormed) (offsetNumber : Nat) (isOverwrite isHeap : Bool)
    (hsize : item.length ≤ maxAllocSize) :
    (∃ q, pageAddItemExtended p item offsetNumber isOverwrite isHeap = some (q, 0) ∧ q.WellFormed ∧
      q.items = p.items ∧ q.pdLower = p.pdLower ∧ q.pdUpper = p.pdUpper) ∨
    ∃ q n, pageAddItemExtended p item offsetNumber isOverwrite isHeap = some (q, n) ∧ q.WellFormed ∧
      Added p offsetNumber isOverwrite n ∧
      q.items = addAt p.items (offsetNumberIsValid offsetNumber && !isOverwrite) n item := by
  unfold pageAddItemExtended
  rw [if_pos h.formed.pointersOk]
  cases hsel : selectOffset p offsetNumber isOverwrite with
  | none => exact .inl ⟨p, rfl, h, rfl, rfl, rfl⟩
  | some r =>
    obtain ⟨p', n, shuffle⟩ := r
    have hc := chosen p offsetNumber isOverwrite hsel
    obtain ⟨hint, rfl⟩ := hc.same
    dsimp only at hc ⊢
    have hw := h.hint hint
    have hnothing : ∃ q, some (({p with hasFreeLines := hint} : Page), 0) = some (q, 0) ∧ q.WellFormed ∧
        q.items = p.items ∧ q.pdLower = p.pdLower ∧ q.pdUpper = p.pdUpper := ⟨_, rfl, hw, rfl, rfl, rfl⟩
    by_cases hlim : p.maxOffsetNumber + 1 < n
    · rw [if_pos hlim]; exact .inl hnothing
    rw [if_neg hlim]
    by_cases hheap : isHeap = true ∧ maxHeapTuplesPerPage < n
    · rw [if_pos hheap]; exact .inl hnothing
    rw [if_neg hheap]
    have hal := le_maxAlign item.length
    have hal' := maxAlign_lt item.length
    unfold maxAllocSize at hsize
    have h32 : toInt32 (maxAlign item.length) = maxAlign item.length := toInt32_of_lt (by omega)
    rw [h32]
    generalize hlower : (if n = p.maxOffsetNumber + 1 ∨ shuffle = true then p.pdLower + sizeOfItemIdData
      else p.pdLower) = lower
    by_cases hfit : (lower : Int) > p.pdUpper - maxAlign item.length
    · rw [if_pos hfit]; exact .inl hnothing
    rw [if_neg hfit]
    have hul := h.formed.upper_le
    have hsp := h.formed.special_le
    unfold blcksz at hsp
    have hnat : ((p.pdUpper : Int) - maxAlign item.length).toNat = p.pdUpper - maxAlign item.length := by omega
    have hu16 : toUInt16 ((p.pdUpper : Int) - maxAlign item.length) = p.pdUpper - maxAlign item.length := by
      have := toUInt16_of_lt (n := (p.pdUpper : Int) - maxAlign item.length) (by omega) (by omega)
      omega
    have hl16 : toUInt16 (lower : Int) = lower := by
      have := toUInt16_of_lt (n := (lower : Int)) (by omega) (by omega)
      omega
    rw [hnat, hu16, hl16]
    have hsn : shuffle = true → n ≤ p.maxOffsetNumber := fun hs => (hc.shuffles.mp hs).2.2
    obtain ⟨hwq, hitems⟩ := add_written (p := {p with hasFreeLines := hint}) hw item hc.pos
      (Nat.le_of_not_lt hlim) hsn hlower.symm (by dsimp only; omega) rfl
    refine .inr ⟨_, n, rfl, hwq, ⟨hc.pos, Nat.le_of_not_lt hlim, hc.given, fun hn hor => ?_, hc.first⟩, ?_⟩
    · -- the place was free
      have hs : shuffle = false := by
        cases shuffle with
        | false => rfl
        | true =>
          obtain ⟨hv, hov, -⟩ := hc.shuffles.mp rfl
          rcases hor with hor | hor
          · rw [hor] at hv; cases hv
          · rw [hor] at hov; cases hov
      have hfree := (hc.free hs hn).1
      rw [Page.getElem?_items (by have := hc.pos; omega), Nat.sub_add_cancel hc.pos, content, hfree]
      rfl
    · refine hitems.trans ?_
      have hsame : ({p with hasFreeLines := hint} : Page).items = p.items := rfl
      rw [hsame]
      unfold addAt
      rw [Page.length_items]
      by_cases happ : p.maxOffsetNumber < n
      · rw [if_pos happ, if_pos happ]
      · rw [if_neg happ, if_neg happ]
        have hiff : shuffle = (offsetNumberIsValid offsetNumber && !isOverwrite) := by
          rw [Bool.eq_iff_iff, hc.shuffles, Bool.and_eq_true, Bool.not_eq_true']
          exact ⟨fun hh => ⟨hh.1, hh.2.1⟩, fun hh => ⟨hh.1, hh.2, Nat.le_of_not_lt happ⟩⟩
        rw [hiff]

end Add
end PgStorage.Bufpage
