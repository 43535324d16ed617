import PgStorage.Lib.Extent
import PgStorage.Slotted.Page

/-! The items of a slotted page.

What a page stands for is an array of optional byte strings: nothing for a line pointer that is unused, otherwise the
bytes it points to. On a page that is well formed, the items that are used lie apart between `pd_upper` and
`pd_special`. -/
namespace PgStorage.Slotted
open Memory Extent ItemId

theorem le_doubleAlign (n : Nat) : n ≤ doubleAlign n := by unfold doubleAlign; omega

theorem doubleAlign_lt (n : Nat) : doubleAlign n < n + 8 := by unfold doubleAlign; omega

theorem dvd_doubleAlign (n : Nat) : 8 ∣ doubleAlign n := Nat.dvd_mul_left 8 _

theorem doubleAlign_le (n a : Nat) (ha : 8 ∣ a) (h : n ≤ a) : doubleAlign n ≤ a := by unfold doubleAlign; omega

theorem toUInt16_natCast {n : Nat} (h : n < 2 ^ 16) : toUInt16 n = n := by
  unfold toUInt16
  omega

/-! ### Line pointers in the bytes -/

/-- The fields as they are stored. -/
def ItemId.cut (lp : ItemId) : ItemId := ⟨lp.lpOff % 2 ^ 13, lp.lpFlags % 2 ^ 6, lp.lpLen % 2 ^ 13⟩

theorem ItemId.ofWord_toWord (lp : ItemId) : ofWord (lp.toWord % 2 ^ 32) = lp.cut := by
  simp only [ofWord, toWord, cut, mk.injEq]
  omega

/-- All bits of a word are in the fields. -/
theorem ItemId.ofWord_inj {v w : Nat} (hv : v < 2 ^ 32) (hw : w < 2 ^ 32) (h : ofWord v = ofWord w) :
    v = w := by
  simp only [ofWord, mk.injEq] at h
  omega

theorem ItemId.cut_isUsed (lp : ItemId) : lp.cut.isUsed = lp.isUsed := by
  unfold isUsed cut
  dsimp only
  rw [Nat.mod_mod_of_dvd _ (by decide)]

section Lines
variable {m m' : Mem} {n k i : Nat} {lp : ItemId} {l : List Nat}

theorem getItemId_flags_lt : (getItemId m n).lpFlags < 2 ^ 6 := Nat.mod_lt _ (by decide)

theorem getItemId_len_lt : (getItemId m n).lpLen < 2 ^ 13 := Nat.mod_lt _ (by decide)

theorem linpAddr_succ (n : Nat) : linpAddr (n + 1) = 8 + 4 * n := rfl

theorem linpAddr_eq (hn : 1 ≤ n) : linpAddr n = 4 + 4 * n := by
  unfold linpAddr sizeOfPageHeaderData sizeOfItemIdData
  omega

/-- A line pointer is read from its four bytes. -/
theorem getItemId_congr (h : ∀ j < 4, m' (linpAddr k + j) = m (linpAddr n + j)) : getItemId m' k = getItemId m n := by
  rw [getItemId, getItemId, load32_congr h]

/-- Bytes behind the line pointers do not matter. -/
theorem getItemId_frame {a : Nat} (h : ∀ b < a, m' b = m b) (hn : 1 ≤ n) (ha : 8 + 4 * n ≤ a) :
    getItemId m' n = getItemId m n := by
  have hl := linpAddr_eq hn
  exact getItemId_congr fun j hj => h _ (by omega)

theorem getItemId_setItemId_self : getItemId (setItemId m n lp) n = lp.cut := by
  rw [getItemId, setItemId, load32_store32, ofWord_toWord]

theorem getItemId_setItemId_of_ne (hn : 1 ≤ n) (hk : 1 ≤ k) (hkn : k ≠ n) :
    getItemId (setItemId m n lp) k = getItemId m k := by
  have h1 := linpAddr_eq hn
  have h2 := linpAddr_eq hk
  exact getItemId_congr fun j hj => store32_of_not_mem (by omega)

theorem setItemId_of_le {a : Nat} (hn : 1 ≤ n) (ha : 8 + 4 * n ≤ a) : setItemId m n lp a = m a := by
  have h1 := linpAddr_eq hn
  exact store32_of_not_mem (by omega)

/-- A loop that rewrites line pointers of a kind rewrites each one that it comes to once. -/
theorem forLines_spec (c : ItemId → Bool) (f : ItemId → ItemId) (m : Mem) (hl : ∀ i ∈ l, 1 ≤ i ∧ i ≤ n)
    (hnd : l.Nodup) :
    (∀ i, 1 ≤ i → getItemId (forLines m l c f) i =
      if i ∈ l ∧ c (getItemId m i) = true then (f (getItemId m i)).cut else getItemId m i) ∧
    ∀ a, 8 + 4 * n ≤ a → forLines m l c f a = m a := by
  induction l generalizing m with
  | nil => exact ⟨fun i _ => (if_neg fun h => absurd h.1 List.not_mem_nil).symm, fun _ _ => rfl⟩
  | cons k l ih =>
    obtain ⟨hk, hnd'⟩ := List.nodup_cons.mp hnd
    obtain ⟨hk1, hkn⟩ := hl k List.mem_cons_self
    generalize hm1 : (if c (getItemId m k) = true then setItemId m k (f (getItemId m k)) else m) = m1
    obtain ⟨hline, hmem⟩ := ih m1 (fun i hi => hl i (List.mem_cons_of_mem k hi)) hnd'
    have hstep : forLines m (k :: l) c f = forLines m1 l c f := by
      rw [← hm1]
      rfl
    have hother (i : Nat) (hi : 1 ≤ i) (hik : i ≠ k) : getItemId m1 i = getItemId m i := by
      rw [← hm1]
      split_ifs
      · exact getItemId_setItemId_of_ne hk1 hi hik
      · rfl
    rw [hstep]
    refine ⟨fun i hi => ?_, fun a ha => ?_⟩
    · rw [hline i hi]
      by_cases hik : i = k
      · rw [if_neg fun h => hk (hik ▸ h.1), ← hm1, hik]
        by_cases hc : c (getItemId m k) = true
        · rw [if_pos hc, getItemId_setItemId_self, if_pos ⟨List.mem_cons_self, hc⟩]
        · rw [if_neg hc, if_neg fun h => hc h.2]
      · have hmem : i ∈ k :: l ↔ i ∈ l := by simp [hik]
        rw [hother i hi hik]
        simp only [hmem]
    · rw [hmem a ha, ← hm1]
      split_ifs
      · exact setItemId_of_le hk1 (by omega)
      · rfl

end Lines

/-! ### What a page stands for -/

def Page.line (p : Page) (i : Nat) : ItemId := getItemId p.mem i

/-- There is an item at the number. -/
def Page.Used (p : Page) (i : Nat) : Prop := 1 ≤ i ∧ i ≤ p.maxOffsetNumber ∧ (p.line i).isUsed = true

def Page.off (p : Page) (i : Nat) : Nat := (p.line i).lpOff

def Page.len (p : Page) (i : Nat) : Nat := (p.line i).lpLen

/-- A page is well formed. -/
structure Page.Formed (p : Page) : Prop where
  header : sizeOfPageHeaderData - sizeOfItemIdData ≤ p.pdLower
  lower_le : p.pdLower ≤ p.pdUpper
  upper_le : p.pdUpper ≤ p.pdSpecial
  special_le : p.pdSpecial ≤ blcksz
  apart : Apart p.Used p.off p.len p.pdUpper p.pdSpecial

/-- The space for tuples and the items in it are aligned, as `PageInit` and `PageAddItem` make them. -/
structure Page.Aligned (p : Page) : Prop where
  upper : 8 ∣ p.pdUpper
  special : 8 ∣ p.pdSpecial
  items : ∀ i, p.Used i → 8 ∣ p.off i

/-- The bytes a line pointer stands for. -/
def content (m : Mem) (lp : ItemId) : Option (List UInt8) :=
  if lp.isUsed = true then some (bytes m lp.lpOff lp.lpLen) else none

/-- The array that a page stands for; item `i` has the line pointer `i + 1`. -/
def Page.items (p : Page) : List (Option (List UInt8)) :=
  (List.range p.maxOffsetNumber).map fun i => content p.mem (p.line (i + 1))

section Facts
variable {p q : Page} {m m' : Mem} {lp lp' : ItemId}

@[simp] theorem Page.length_items : p.items.length = p.maxOffsetNumber := by simp [Page.items]

theorem Page.getElem?_items {i : Nat} (hi : i < p.maxOffsetNumber) :
    p.items[i]? = some (content p.mem (p.line (i + 1))) := by
  simp [Page.items, hi]

theorem Page.items_eq {items : List (Option (List UInt8))} (hlen : q.maxOffsetNumber = items.length)
    (h : ∀ i < q.maxOffsetNumber, items[i]? = some (content q.mem (q.line (i + 1)))) : q.items = items := by
  refine List.ext_getElem? fun i => ?_
  rcases Nat.lt_or_ge i q.maxOffsetNumber with hi | hi
  · rw [Page.getElem?_items hi, h i hi]
  · rw [List.getElem?_eq_none (by rw [Page.length_items]; exact hi), List.getElem?_eq_none (hlen ▸ hi)]

theorem Page.maxOffsetNumber_congr (h : q.pdLower = p.pdLower) : q.maxOffsetNumber = p.maxOffsetNumber := by
  rw [Page.maxOffsetNumber, Page.maxOffsetNumber, h]

theorem Page.maxOffsetNumber_eq (h : 8 ≤ p.pdLower) (h16 : p.pdLower < 2 ^ 16) :
    p.maxOffsetNumber = (p.pdLower - 8) / 4 := by
  unfold Page.maxOffsetNumber sizeOfPageHeaderData sizeOfItemIdData
  omega

/-- The header of a well-formed page, as numbers. -/
theorem Page.Formed.bounds (h : p.Formed) :
    8 + 4 * p.maxOffsetNumber ≤ p.pdLower ∧ p.pdLower < 8 + 4 * p.maxOffsetNumber + 4 ∧ p.pdLower ≤ p.pdUpper ∧
      p.pdUpper ≤ p.pdSpecial ∧ p.pdSpecial ≤ 8192 := by
  have h1 : 8 ≤ p.pdLower := h.header
  have h2 := h.lower_le
  have h3 := h.upper_le
  have h4 : p.pdSpecial ≤ 8192 := h.special_le
  have h5 := Page.maxOffsetNumber_eq h1 (by omega)
  omega

/-- The line pointer of a used item is below all tuples, and its tuple is in their space. -/
theorem Page.Formed.used (h : p.Formed) {i : Nat} (hi : p.Used i) : p.pdUpper ≤ (p.line i).lpOff ∧
    (p.line i).lpOff + (p.line i).lpLen ≤ p.pdSpecial := h.apart.inside i hi

theorem content_eq_none (h : content m lp = none) : lp.isUsed = false := by
  unfold content at h
  split_ifs at h with hu
  exact Bool.eq_false_iff.mpr hu

theorem content_of_unused (h : lp.isUsed = false) : content m lp = none := if_neg (by rw [h]; exact Bool.false_ne_true)

theorem content_of_used (h : lp.isUsed = true) : content m lp = some (bytes m lp.lpOff lp.lpLen) := if_pos h

/-- A line pointer with the flags and length of another stands for the same if its bytes are the same. -/
theorem content_congr (hf : lp'.isUsed = lp.isUsed) (hl : lp.isUsed = true → lp'.lpLen = lp.lpLen)
    (hb : lp.isUsed = true → bytes m' lp'.lpOff lp.lpLen = bytes m lp.lpOff lp.lpLen) :
    content m' lp' = content m lp := by
  cases hu : lp.isUsed with
  | false => rw [content_of_unused hu, content_of_unused (hf.trans hu)]
  | true => rw [content_of_used hu, content_of_used (hf.trans hu), hl hu, hb hu]

end Facts
end PgStorage.Slotted
