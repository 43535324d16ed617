import PgStorage.Bufpage.Bufpage

/-! The items of a slotted page.

What a page stands for is an array of optional byte strings: nothing for a line pointer that is
unused, otherwise the bytes it points to. The layout of a page is the part of its being well formed
that is about line pointers, and does not depend on the bytes. -/
namespace PgStorage.Bufpage
open Memory ItemId

theorem le_maxAlign (n : Nat) : n ≤ maxAlign n := by unfold maxAlign; omega

theorem maxAlign_lt (n : Nat) : maxAlign n < n + 8 := by unfold maxAlign; omega

theorem dvd_maxAlign (n : Nat) : 8 ∣ maxAlign n := Nat.dvd_mul_left 8 _

theorem maxAlign_le {a n : Nat} (ha : 8 ∣ a) (h : n ≤ a) : maxAlign n ≤ a := by unfold maxAlign; omega

theorem eq_maxAlign_iff {n : Nat} : n = maxAlign n ↔ 8 ∣ n := by unfold maxAlign; omega

theorem toInt32_of_lt {n : Nat} (h : n < 2 ^ 31) : toInt32 n = n := by
  rw [toInt32, Nat.mod_eq_of_lt (by omega), if_pos h]

theorem toUInt16_of_lt {n : Int} (h0 : 0 ≤ n) (h : n < 2 ^ 16) : (toUInt16 n : Int) = n := by
  unfold toUInt16
  omega

/-! ### Line pointers in the bytes -/

/-- The fields as they are stored. -/
def ItemId.cut (lp : ItemId) : ItemId := ⟨lp.lpOff % 2 ^ 15, lp.lpFlags % 2 ^ 2, lp.lpLen % 2 ^ 15⟩

theorem ItemId.ofWord_toWord (lp : ItemId) : ofWord (lp.toWord % 2 ^ 32) = lp.cut := by
  simp only [ofWord, toWord, cut, mk.injEq]
  omega

theorem ItemId.cut_eq {lp : ItemId} (h1 : lp.lpOff < 2 ^ 15) (h2 : lp.lpFlags < 2 ^ 2) (h3 : lp.lpLen < 2 ^ 15) :
    lp.cut = lp := by
  rw [cut, Nat.mod_eq_of_lt h1, Nat.mod_eq_of_lt h2, Nat.mod_eq_of_lt h3]

section Lines
variable {m m' : Mem} {n k i : Nat} {lp : ItemId}

theorem getItemId_off_lt : (getItemId m n).lpOff < 2 ^ 15 := Nat.mod_lt _ (by decide)

theorem getItemId_flags_lt : (getItemId m n).lpFlags < 2 ^ 2 := Nat.mod_lt _ (by decide)

theorem getItemId_len_lt : (getItemId m n).lpLen < 2 ^ 15 := Nat.mod_lt _ (by decide)

theorem linpAddr_succ (n : Nat) : linpAddr (n + 1) = 24 + 4 * n := rfl

theorem linpAddr_eq (hn : 1 ≤ n) : linpAddr n = 20 + 4 * n := by
  unfold linpAddr sizeOfPageHeaderData sizeOfItemIdData
  omega

/-- A line pointer is read from its four bytes. -/
theorem getItemId_congr (h : ∀ j < 4, m' (linpAddr k + j) = m (linpAddr n + j)) : getItemId m' k = getItemId m n := by
  rw [getItemId, getItemId, load32_congr h]

/-- Bytes behind the line pointers do not matter. -/
theorem getItemId_frame {a : Nat} (h : ∀ b < a, m' b = m b) (hn : 1 ≤ n) (ha : 20 + 4 * n + 4 ≤ a) :
    getItemId m' n = getItemId m n := by
  have hl := linpAddr_eq hn
  exact getItemId_congr fun j hj => h _ (by omega)

theorem getItemId_setItemId_self : getItemId (setItemId m n lp) n = lp.cut := by
  rw [getItemId, setItemId, load32_store32, ofWord_toWord]

theorem getItemId_setItemId_of_ne (hn : 1 ≤ n) (hk : 1 ≤ k) (hkn : k ≠ n) :
    getItemId (setItemId m n lp) k = getItemId m k := by
  have h1 := linpAddr_eq hn
  have h2 := linpAddr_eq hk
  exact getItemId_congr fun j hj => store32_of_not_mem (by omega)

theorem setItemId_of_le {a : Nat} (hn : 1 ≤ n) (ha : 20 + 4 * n + 4 ≤ a) : setItemId m n lp a = m a := by
  have h1 := linpAddr_eq hn
  exact store32_of_not_mem (by omega)

/-- A loop that rewrites the line pointers of a kind. -/
theorem foldLines_spec (c : ItemId → Bool) (f : ItemId → ItemId) (m : Mem) (n : Nat) :
    let r := (List.range' 1 n).foldl
      (fun m k => if c (getItemId m k) = true then setItemId m k (f (getItemId m k)) else m) m
    (∀ i, 1 ≤ i → getItemId r i =
      if i ≤ n ∧ c (getItemId m i) = true then (f (getItemId m i)).cut else getItemId m i) ∧
    ∀ a, 24 + 4 * n ≤ a → r a = m a := by
  induction n with
  | zero =>
    refine ⟨fun i hi => ?_, fun _ _ => rfl⟩
    rw [if_neg (by omega)]
    rfl
  | succ n ih =>
    rw [List.range'_1_concat, List.foldl_append]
    dsimp only at ih ⊢
    revert ih
    generalize (List.range' 1 n).foldl
      (fun m k => if c (getItemId m k) = true then setItemId m k (f (getItemId m k)) else m) m = r
    rintro ⟨hline, hmem⟩
    simp only [List.foldl_cons, List.foldl_nil]
    have hlast : getItemId r (1 + n) = getItemId m (1 + n) := by
      rw [hline (1 + n) (by omega), if_neg (by omega)]
    rw [hlast]
    split_ifs with hc
    · refine ⟨fun i hi => ?_, fun a ha => ?_⟩
      · rcases eq_or_ne i (1 + n) with rfl | hne
        · rw [getItemId_setItemId_self, if_pos ⟨by omega, hc⟩]
        · rw [getItemId_setItemId_of_ne (by omega) hi hne, hline i hi]
          have hiff : i ≤ n + 1 ↔ i ≤ n := by omega
          simp only [hiff]
      · rw [setItemId_of_le (by omega) (by omega), hmem a (by omega)]
    · refine ⟨fun i hi => ?_, fun a ha => hmem a (by omega)⟩
      rcases eq_or_ne i (1 + n) with rfl | hne
      · rw [hlast, if_neg fun h => hc h.2]
      · rw [hline i hi]
        have hiff : i ≤ n + 1 ↔ i ≤ n := by omega
        simp only [hiff]

theorem adjustLines_spec (m : Mem) (n : Nat) (moved : ItemId → Bool) (delta : Int) :
    (∀ i, 1 ≤ i → getItemId (adjustLines m n moved delta) i =
      if i ≤ n ∧ moved (getItemId m i) = true then
        {getItemId m i with lpOff := (((getItemId m i).lpOff + delta) % 2 ^ 15).toNat}
      else getItemId m i) ∧
    ∀ a, 24 + 4 * n ≤ a → adjustLines m n moved delta a = m a := by
  obtain ⟨hline, hmem⟩ := foldLines_spec moved (fun lp => {lp with lpOff := ((lp.lpOff + delta) % 2 ^ 15).toNat}) m n
  refine ⟨fun i hi => ?_, hmem⟩
  refine (hline i hi).trans ?_
  split_ifs
  · exact cut_eq (by dsimp only; omega) getItemId_flags_lt getItemId_len_lt
  · rfl

theorem clearUnused_spec (m : Mem) (n : Nat) :
    (∀ i, 1 ≤ i → getItemId (clearUnused m n) i =
      if i ≤ n ∧ (getItemId m i).isUsed = false then ⟨0, lpUnused, 0⟩ else getItemId m i) ∧
    ∀ a, 24 + 4 * n ≤ a → clearUnused m n a = m a := by
  have hsame : clearUnused m n = (List.range' 1 n).foldl
      (fun m k => if (!(getItemId m k).isUsed) = true then setItemId m k ⟨0, lpUnused, 0⟩ else m) m := by
    unfold clearUnused
    congr 1
    funext m k
    cases (getItemId m k).isUsed <;> rfl
  obtain ⟨hline, hmem⟩ := foldLines_spec (fun lp => !lp.isUsed) (fun _ => ⟨0, lpUnused, 0⟩) m n
  rw [hsame]
  refine ⟨fun i hi => ?_, hmem⟩
  rw [hline i hi]
  simp only [Bool.not_eq_true']
  rfl

end Lines

/-- The items with storage among the first `n` line pointers are aligned, inside the space for
tuples, and pairwise disjoint. -/
structure Layout (line : Nat → ItemId) (n upper special : Nat) : Prop where
  aligned : ∀ i, 1 ≤ i → i ≤ n → (line i).hasStorage = true → 8 ∣ (line i).lpOff
  inside : ∀ i, 1 ≤ i → i ≤ n → (line i).hasStorage = true →
    upper ≤ (line i).lpOff ∧ (line i).lpOff + (line i).lpLen ≤ special
  disjoint : ∀ i j, 1 ≤ i → i ≤ n → 1 ≤ j → j ≤ n → i ≠ j → (line i).hasStorage = true →
    (line j).hasStorage = true →
    (line i).lpOff + (line i).lpLen ≤ (line j).lpOff ∨ (line j).lpOff + (line j).lpLen ≤ (line i).lpOff

def Page.line (p : Page) (i : Nat) : ItemId := getItemId p.mem i

/-- A page is well formed. -/
structure Page.Formed (p : Page) : Prop where
  header : sizeOfPageHeaderData ≤ p.pdLower
  lower_le : p.pdLower ≤ p.pdUpper
  upper_le : p.pdUpper ≤ p.pdSpecial
  special_le : p.pdSpecial ≤ blcksz
  layout : Layout p.line p.maxOffsetNumber p.pdUpper p.pdSpecial

/-- The bounds of the tuple space are aligned, as `PageInit` makes them. -/
structure Page.Aligned (p : Page) : Prop where
  upper : 8 ∣ p.pdUpper
  special : 8 ∣ p.pdSpecial

/-- The bytes a line pointer stands for. -/
def content (m : Mem) (lp : ItemId) : Option (List UInt8) :=
  if lp.isUsed = true then some (bytes m lp.lpOff lp.lpLen) else none

/-- The array that a page stands for; item `i` has the line pointer `i + 1`. -/
def Page.items (p : Page) : List (Option (List UInt8)) :=
  (List.range p.maxOffsetNumber).map fun i => content p.mem (p.line (i + 1))

section Facts
variable {p : Page} {m m' : Mem} {lp lp' : ItemId} {line : Nat → ItemId} {n upper special : Nat}

@[simp] theorem Page.length_items : p.items.length = p.maxOffsetNumber := by simp [Page.items]

theorem Page.getElem?_items {i : Nat} (hi : i < p.maxOffsetNumber) :
    p.items[i]? = some (content p.mem (p.line (i + 1))) := by
  simp [Page.items, hi]

theorem Page.maxOffsetNumber_eq (h : sizeOfPageHeaderData ≤ p.pdLower) :
    p.maxOffsetNumber = (p.pdLower - 24) / 4 := by
  unfold Page.maxOffsetNumber sizeOfPageHeaderData sizeOfItemIdData at *
  split_ifs <;> omega

theorem Page.lines_le (h : sizeOfPageHeaderData ≤ p.pdLower) : 24 + 4 * p.maxOffsetNumber ≤ p.pdLower := by
  rw [Page.maxOffsetNumber_eq h]
  unfold sizeOfPageHeaderData at h
  omega

theorem Page.Formed.pointersOk (h : p.Formed) : p.pointersOk = true :=
  decide_eq_true ⟨h.header, h.lower_le, h.upper_le, h.special_le⟩

theorem hasStorage_iff : lp.hasStorage = true ↔ 0 < lp.lpLen := by
  simp [hasStorage, Nat.pos_iff_ne_zero]

/-- A line pointer without storage stands for nothing or for no bytes. -/
theorem content_of_len {lp' : ItemId} (hf : lp'.lpFlags = lp.lpFlags) (hl : lp'.lpLen = lp.lpLen)
    (hb : lp.hasStorage = true → bytes m' lp'.lpOff lp.lpLen = bytes m lp.lpOff lp.lpLen) :
    content m' lp' = content m lp := by
  have hused : lp'.isUsed = lp.isUsed := by rw [isUsed, isUsed, hf]
  rw [content, content, hused, hl]
  by_cases hs : lp.hasStorage = true
  · rw [hb hs]
  · have h0 : lp.lpLen = 0 := by simpa [hasStorage] using hs
    rw [h0, bytes_zero, bytes_zero]

/-- Items that are in place before a stored item end before it, with what aligns them. -/
theorem Layout.before (h : Layout line n upper special) {i t : Nat} (hi : 1 ≤ i ∧ i ≤ n) (ht : 1 ≤ t ∧ t ≤ n)
    (hit : i ≠ t) (hs : (line i).hasStorage = true) (hst : (line t).hasStorage = true) :
    (line i).lpOff < (line t).lpOff ∧ (line i).lpOff + maxAlign (line i).lpLen ≤ (line t).lpOff ∨
      (line t).lpOff + maxAlign (line t).lpLen ≤ (line i).lpOff := by
  have ha := h.aligned i hi.1 hi.2 hs
  have hat := h.aligned t ht.1 ht.2 hst
  have hl := hasStorage_iff.mp hs
  have hlt := hasStorage_iff.mp hst
  have hma : ∀ len b, 8 ∣ b → len ≤ b → maxAlign len ≤ b := fun _ _ => maxAlign_le
  rcases h.disjoint i t hi.1 hi.2 ht.1 ht.2 hit hs hst with hd | hd
  · have := hma (line i).lpLen ((line t).lpOff - (line i).lpOff) (by omega) (by omega)
    exact .inl ⟨by omega, by omega⟩
  · have := hma (line t).lpLen ((line i).lpOff - (line t).lpOff) (by omega) (by omega)
    exact .inr (by omega)

/-- An aligned item inside an aligned space does not stick out when its length is aligned. -/
theorem Layout.end_le (h : Layout line n upper special) (hsp : 8 ∣ special) {i : Nat} (hi : 1 ≤ i ∧ i ≤ n)
    (hs : (line i).hasStorage = true) : (line i).lpOff + maxAlign (line i).lpLen ≤ special := by
  have ha := h.aligned i hi.1 hi.2 hs
  have hin := (h.inside i hi.1 hi.2 hs).2
  have := maxAlign_le (a := special - (line i).lpOff) (n := (line i).lpLen) (by omega) (by omega)
  omega

end Facts
end PgStorage.Bufpage
