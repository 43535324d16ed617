import PgStorage.Slotted.Items

/-! Putting an item on a page.

The line pointers from the place on move up by one, or a free one is taken, or one behind all others; the bytes go right
in front of the tuples. If there is room, the items are those of before and the new one at its place. What can go wrong
is a line pointer behind the last that leaves some unwritten ones before it, and an empty item at the end of the page. -/
namespace PgStorage.Slotted
open Memory Extent
open List Page

section Place
variable {p q : Page} {m : Mem} {n j limit flags : Nat} {item : List UInt8} {shuffled : Bool}

/-- Moving the line pointers one by one moves them as a block. -/
theorem shuffleItemIds_eq (m : Mem) (hn : 1 ≤ n) :
    shuffleItemIds m n limit = memmove m (linpAddr (n + 1)) (linpAddr n) (4 * (limit - n)) := by
  unfold shuffleItemIds
  generalize limit - n = k
  induction k generalizing n with
  | zero => exact memmove_zero.symm
  | succ k ih =>
    have h1 := linpAddr_succ n
    have h2 := linpAddr_succ (n + 1)
    have h3 := linpAddr_eq hn
    rw [range'_succ, foldr_cons, ih (show 1 ≤ n + 1 by omega)]
    unfold sizeOfItemIdData
    funext a
    by_cases hlow : linpAddr (n + 1) ≤ a ∧ a < linpAddr (n + 1) + 4
    · have hblock : memmove m (linpAddr (n + 1)) (linpAddr n) (4 * (k + 1)) a =
          m (linpAddr n + (a - linpAddr (n + 1))) :=
        memmove_of_mem (by omega)
      rw [memmove_of_mem hlow, hblock]
      exact memmove_of_not_mem (by omega)
    · rw [memmove_of_not_mem (by omega)]
      by_cases hin : linpAddr (n + 1 + 1) ≤ a ∧ a < linpAddr (n + 1 + 1) + 4 * k
      · rw [memmove_of_mem hin, memmove_of_mem (by omega)]
        exact congrArg m (by omega)
      · rw [memmove_of_not_mem (by omega), memmove_of_not_mem (by omega)]

/-- The memory in which the place for the item has been made. -/
def Page.madeRoom (p : Page) (n : Nat) (shuffled : Bool) : Mem :=
  if shuffled = true then shuffleItemIds p.mem n (p.maxOffsetNumber + 1) else p.mem

/-- The line pointer that place `j` of the new array had in the old one. -/
def oldPlace (shuffled : Bool) (n j : Nat) : Nat := if shuffled = true ∧ n < j then j - 1 else j

theorem oldPlace_inj {k : Nat} (hj : j ≠ n) (hk : k ≠ n) (e : oldPlace shuffled n j = oldPlace shuffled n k) :
    j = k := by
  unfold oldPlace at e
  cases shuffled with
  | false => simpa using e
  | true =>
    simp only [true_and] at e
    split_ifs at e <;> omega

theorem getItemId_madeRoom (hn : 1 ≤ n) (hj : 1 ≤ j) (hle : j ≤ p.maxOffsetNumber + 1 ∨ j < n) :
    getItemId (p.madeRoom n shuffled) j = p.line (oldPlace shuffled n j) := by
  unfold madeRoom oldPlace
  cases shuffled with
  | false => rfl
  | true =>
    have h1 := linpAddr_eq hn
    have h2 := linpAddr_succ n
    have h3 := linpAddr_eq hj
    rw [if_pos rfl, shuffleItemIds_eq _ hn]
    simp only [true_and]
    split_ifs with hlt
    · have h4 := linpAddr_eq (show 1 ≤ j - 1 by omega)
      refine getItemId_congr fun k hk => ?_
      rw [memmove_of_mem (by omega)]
      exact congrArg p.mem (by omega)
    · exact getItemId_congr fun k hk => memmove_of_not_mem (by omega)

theorem madeRoom_of_le {a : Nat} (hn : 1 ≤ n) (hs : shuffled = true → n ≤ p.maxOffsetNumber →
    8 + 4 * (p.maxOffsetNumber + 1) ≤ a) : p.madeRoom n shuffled a = p.mem a := by
  unfold madeRoom
  split_ifs with h
  · have h1 := linpAddr_eq hn
    have h2 := linpAddr_succ n
    have h3 := hs h
    rw [shuffleItemIds_eq _ hn]
    exact memmove_of_not_mem (by omega)
  · rfl

/-- The shuffle changes nothing exactly if all line pointers that it copies are alike. -/
theorem madeRoom_eq_iff (hn : 1 ≤ n) : p.madeRoom n shuffled = p.mem ↔
    (shuffled = true → ∀ i, n ≤ i → i ≤ p.maxOffsetNumber → p.line (i + 1) = p.line i) := by
  unfold madeRoom
  cases shuffled with
  | false => simp
  | true =>
    have h1 := linpAddr_eq hn
    have h2 := linpAddr_succ n
    rw [if_pos rfl, shuffleItemIds_eq _ hn]
    refine ⟨fun h _ i hni hi => ?_, fun h => funext fun a => ?_⟩
    · have h3 := linpAddr_succ i
      have h4 := linpAddr_eq (show 1 ≤ i by omega)
      refine getItemId_congr fun k hk => ?_
      rw [← h, memmove_of_mem (by omega)]
      conv_rhs => rw [h]
      exact congrArg p.mem (by omega)
    · by_cases hin : linpAddr (n + 1) ≤ a ∧ a < linpAddr (n + 1) + 4 * (p.maxOffsetNumber + 1 - n)
      · -- the byte is in line pointer `i + 1`
        obtain ⟨i, k, hi, hk, ha⟩ : ∃ i k, (n ≤ i ∧ i ≤ p.maxOffsetNumber) ∧ k < 4 ∧ a = linpAddr (i + 1) + k :=
          ⟨n + (a - linpAddr (n + 1)) / 4, (a - linpAddr (n + 1)) % 4, by omega, by omega, by
            rw [linpAddr_succ]
            omega⟩
        have h3 := linpAddr_succ i
        have h4 := linpAddr_eq (show 1 ≤ i by omega)
        have hword : load32 p.mem (linpAddr (i + 1)) = load32 p.mem (linpAddr i) :=
          ItemId.ofWord_inj load32_lt load32_lt (h rfl i hi.1 hi.2)
        rw [memmove_of_mem hin, ha, bytes_of_load32 hword hk]
        exact congrArg p.mem (by omega)
      · exact memmove_of_not_mem (by omega)

end Place
section Add
variable {p q : Page} {n j flags : Nat} {item : List UInt8} {shuffled : Bool}

/-- An item put at place `n`: behind the last, with nothing at the places between, before others, or where there was
none. -/
def addAt (items : List (Option (List UInt8))) (shuffled : Bool) (n : Nat) (x : Option (List UInt8)) :
    List (Option (List UInt8)) :=
  if items.length < n then items ++ (List.replicate (n - 1 - items.length) none ++ [x])
  else if shuffled = true then items.insertIdx (n - 1) x else items.set (n - 1) x

theorem length_addAt (items : List (Option (List UInt8))) (x : Option (List UInt8)) (hn : 1 ≤ n) :
    (addAt items shuffled n x).length =
      if items.length + 1 < n then n
      else if n = items.length + 1 ∨ shuffled = true then items.length + 1 else items.length := by
  unfold addAt
  by_cases hlt : items.length < n
  · rw [if_pos hlt, length_append, length_append, length_replicate, length_singleton]
    split_ifs <;> omega
  · have hnot : ¬items.length + 1 < n := by omega
    have hne : ¬(n = items.length + 1 ∨ false = true) := by
      rintro (h | h)
      · omega
      · cases h
    rw [if_neg hlt, if_neg hnot]
    cases shuffled with
    | true => rw [if_pos rfl, if_pos (.inr rfl), length_insertIdx, if_pos (by omega)]
    | false => rw [if_neg Bool.false_ne_true, if_neg hne, length_set]

theorem addAt_getElem? (items : List (Option (List UInt8))) (x : Option (List UInt8)) (shuffled : Bool) (hn : 1 ≤ n)
    (hj : 1 ≤ j) :
    (addAt items shuffled n x)[j - 1]? =
      if j = n then some x
      else if items.length < j ∧ j < n then some none
      else items[oldPlace shuffled n j - 1]? := by
  unfold addAt oldPlace
  by_cases hlt : items.length < n
  · rw [if_pos hlt]
    rcases Nat.lt_or_ge (j - 1) items.length with hold | hnew
    · rw [getElem?_append_left hold, if_neg (by omega), if_neg (by omega), if_neg (by omega)]
    · rw [getElem?_append_right hnew]
      by_cases hjn : j < n
      · rw [if_neg (by omega), if_pos (by omega), getElem?_append_left (by rw [length_replicate]; omega),
          getElem?_replicate, if_pos (by omega)]
      · rw [getElem?_append_right (by rw [length_replicate]; omega), length_replicate]
        by_cases he : j = n
        · rw [if_pos he, he, Nat.sub_self]
          rfl
        · rw [if_neg he, if_neg (fun h => hjn h.2), getElem?_eq_none (by rw [length_singleton]; omega),
            getElem?_eq_none (by split_ifs <;> omega)]
  · rw [if_neg hlt]
    cases shuffled with
    | true =>
      rw [if_pos rfl, getElem?_insertIdx]
      simp only [true_and]
      split_ifs <;> first | rfl | omega
    | false =>
      rw [if_neg (by simp), getElem?_set]
      simp only [Bool.false_eq_true, false_and, if_false]
      split_ifs <;> first | rfl | omega

/-! ### The page with the item -/

/-- Where the line pointers end once there is one for the item. -/
def Page.lowerFor (p : Page) (n : Nat) (shuffled : Bool) : Nat :=
  if p.maxOffsetNumber + 1 < n then 8 + 4 * n
  else if n = p.maxOffsetNumber + 1 ∨ shuffled = true then p.pdLower + 4
  else p.pdLower

def Page.written (p : Page) (item : List UInt8) (n flags : Nat) (shuffled : Bool) : Page :=
  { mem := memcpy (setItemId (p.madeRoom n shuffled) n ⟨p.pdUpper - doubleAlign item.length, flags, item.length⟩)
      (p.pdUpper - doubleAlign item.length) item
    pdLower := p.lowerFor n shuffled
    pdUpper := p.pdUpper - doubleAlign item.length
    pdSpecial := p.pdSpecial }

theorem Page.Formed.lowerFor (hp : p.Formed) (n : Nat) (shuffled : Bool) : 8 + 4 * n ≤ p.lowerFor n shuffled ∧
    (shuffled = true → n ≤ p.maxOffsetNumber → 8 + 4 * (p.maxOffsetNumber + 1) ≤ p.lowerFor n shuffled) ∧
    p.pdLower ≤ p.lowerFor n shuffled := by
  have hb := hp.bounds
  unfold Page.lowerFor
  refine ⟨?_, fun hs hle => ?_, ?_⟩
  · split_ifs <;> omega
  · rw [if_neg (by omega), if_pos (.inr hs)]
    omega
  · split_ifs <;> omega

/-- There is room for an item and its line pointer. -/
structure Page.Fits (p : Page) (size n : Nat) (shuffled : Bool) : Prop where
  formed : p.Formed
  pos : 1 ≤ n
  room : p.lowerFor n shuffled + doubleAlign size ≤ p.pdUpper

/-- The bounds of the page before, and of what is added. -/
theorem Page.Fits.bounds (h : p.Fits item.length n shuffled) :
    8 + 4 * n ≤ p.lowerFor n shuffled ∧ p.pdUpper ≤ 8192 ∧ p.lowerFor n shuffled + doubleAlign item.length ≤ p.pdUpper ∧
      item.length ≤ doubleAlign item.length := by
  have hb := h.formed.bounds
  have hl := (h.formed.lowerFor n shuffled).1
  have hr := h.room
  exact ⟨hl, by omega, hr, le_doubleAlign _⟩

theorem written_maxOffsetNumber (flags : Nat) (h : p.Fits item.length n shuffled) :
    (p.written item n flags shuffled).maxOffsetNumber =
      if p.maxOffsetNumber + 1 < n then n
      else if n = p.maxOffsetNumber + 1 ∨ shuffled = true then p.maxOffsetNumber + 1 else p.maxOffsetNumber := by
  have hb := h.formed.bounds
  have hl := (h.formed.lowerFor n shuffled).2.2
  have hr := h.bounds
  rw [maxOffsetNumber_eq (show 8 ≤ p.lowerFor n shuffled by omega) (show p.lowerFor n shuffled < 2 ^ 16 by omega)]
  show (p.lowerFor n shuffled - 8) / 4 = _
  unfold lowerFor
  split_ifs <;> omega

/-- All line pointers are below the free space. -/
theorem written_lines_le (flags : Nat) (h : p.Fits item.length n shuffled) :
    n ≤ (p.written item n flags shuffled).maxOffsetNumber ∧
      8 + 4 * (p.written item n flags shuffled).maxOffsetNumber ≤ p.lowerFor n shuffled := by
  have hb := h.formed.bounds
  have hr := h.bounds
  rw [written_maxOffsetNumber flags h]
  unfold lowerFor at hr ⊢
  split_ifs at hr ⊢ <;> omega

/-- Line pointers are read from the memory before the bytes are copied. -/
theorem written_line_eq (h : p.Fits item.length n shuffled) (hj : 1 ≤ j)
    (hle : 8 + 4 * j ≤ p.lowerFor n shuffled) : (p.written item n flags shuffled).line j =
      getItemId (setItemId (p.madeRoom n shuffled) n ⟨p.pdUpper - doubleAlign item.length, flags, item.length⟩) j := by
  have hr := h.bounds
  exact getItemId_frame (fun b hb => memcpy_of_not_mem (by omega)) hj hle

theorem written_line_self (flags : Nat) (h : p.Fits item.length n shuffled) :
    (p.written item n flags shuffled).line n =
      ⟨(p.pdUpper - doubleAlign item.length) % 2 ^ 13, flags % 2 ^ 6, item.length⟩ := by
  have hr := h.bounds
  rw [written_line_eq h h.pos hr.1, getItemId_setItemId_self, ItemId.cut]
  dsimp only
  rw [Nat.mod_eq_of_lt (show item.length < 2 ^ 13 by omega)]

theorem written_line (flags : Nat) (h : p.Fits item.length n shuffled) (hj : 1 ≤ j)
    (hle : j ≤ (p.written item n flags shuffled).maxOffsetNumber) (hjn : j ≠ n) :
    (p.written item n flags shuffled).line j = p.line (oldPlace shuffled n j) := by
  have hmax := written_maxOffsetNumber flags h
  have hlines := written_lines_le flags h
  rw [written_line_eq h hj (by omega), getItemId_setItemId_of_ne h.pos hj hjn]
  rw [hmax] at hle
  exact getItemId_madeRoom h.pos hj (by split_ifs at hle <;> omega)

theorem written_mem (h : p.Fits item.length n shuffled) {a : Nat} (ha : p.pdUpper ≤ a) :
    (p.written item n flags shuffled).mem a = p.mem a := by
  have hr := h.bounds
  have hl := (h.formed.lowerFor n shuffled).2.1
  calc memcpy (setItemId (p.madeRoom n shuffled) n _) _ item a
      = setItemId (p.madeRoom n shuffled) n _ a := memcpy_of_not_mem (by omega)
    _ = p.madeRoom n shuffled a := setItemId_of_le h.pos (by omega)
    _ = p.mem a := madeRoom_of_le h.pos fun hs hle => by
      have := hl hs hle
      omega

theorem written_bytes (h : p.Fits item.length n shuffled) :
    bytes (p.written item n flags shuffled).mem ((p.written item n flags shuffled).off n)
      ((p.written item n flags shuffled).len n) = item := by
  have hr := h.bounds
  unfold off len
  rw [written_line_self flags h]
  dsimp only
  by_cases hsize : item.length = 0
  · rw [hsize, length_eq_zero_iff.mp hsize]
    rfl
  · rw [Nat.mod_eq_of_lt (by omega)]
    exact bytes_memcpy

/-! ### What the page stands for then -/

/-- What the new line pointer stands for. -/
def newItem (item : List UInt8) (flags : Nat) : Option (List UInt8) := if flags % 2 = 1 then some item else none

/-- The line pointers between the last one and the new one, which the call does not write, are unused. -/
def Page.GapUnused (p : Page) (n : Nat) : Prop := ∀ i, p.maxOffsetNumber < i → i < n → (p.line i).isUsed = false

/-- The offset of the new item fits its field: it is not an empty item at the end of the largest page. -/
def Page.OffsetFits (p : Page) (size flags : Nat) : Prop := size = 0 → p.pdUpper = blcksz → flags % 2 = 0

theorem written_isUsed (flags : Nat) (h : p.Fits item.length n shuffled) :
    ((p.written item n flags shuffled).line n).isUsed = decide (flags % 2 = 1) := by
  rw [written_line_self flags h, ItemId.isUsed]
  dsimp only
  rw [Nat.mod_mod_of_dvd _ (by decide)]
  rfl

section
variable (h : p.Fits item.length n shuffled) (hgap : p.GapUnused n)
include h hgap

/-- An item that is used and not the new one was used before. -/
theorem written_used
    (hj : (p.written item n flags shuffled).Used j) (hjn : j ≠ n) : p.Used (oldPlace shuffled n j) ∧
      (p.written item n flags shuffled).line j = p.line (oldPlace shuffled n j) := by
  obtain ⟨h1, h2, hu⟩ := hj
  have hline := written_line flags h h1 h2 hjn
  have hpos := h.pos
  rw [hline] at hu
  rw [written_maxOffsetNumber flags h] at h2
  have hpl : 1 ≤ oldPlace shuffled n j := by
    unfold oldPlace
    split_ifs <;> omega
  refine ⟨⟨hpl, ?_, hu⟩, hline⟩
  by_contra hgt
  have hlt : oldPlace shuffled n j < n := by
    unfold oldPlace at hgt ⊢
    cases shuffled with
    | true =>
      simp only [true_and, or_true, if_true] at h2 hgt ⊢
      split_ifs at h2 hgt ⊢ <;> omega
    | false =>
      simp only [Bool.false_eq_true, false_and, or_false, if_false] at h2 hgt ⊢
      split_ifs at h2 <;> omega
  rw [hgap _ (Nat.lt_of_not_le hgt) hlt] at hu
  cases hu

theorem written_formed
    (hoff : p.OffsetFits item.length flags) : (p.written item n flags shuffled).Formed := by
  have hb := h.formed.bounds
  have hr := h.bounds
  have hl := (h.formed.lowerFor n shuffled).2.2
  refine ⟨show 8 ≤ p.lowerFor n shuffled by omega,
    show p.lowerFor n shuffled ≤ p.pdUpper - doubleAlign item.length by omega,
    show p.pdUpper - doubleAlign item.length ≤ p.pdSpecial by omega, h.formed.special_le, ?_⟩
  refine h.formed.apart.insert (oldPlace shuffled n) n _ (fun j hj hjn => ?_) 
    (fun j k _ _ hjn hkn => oldPlace_inj hjn hkn) (fun hn => ?_) (Nat.sub_le _ _) h.formed.upper_le
  · obtain ⟨hold, hline⟩ := written_used h hgap hj hjn
    exact ⟨hold, congrArg ItemId.lpOff hline, congrArg ItemId.lpLen hline⟩
  · have hu := hn.2.2
    rw [written_isUsed flags h, decide_eq_true_iff] at hu
    have hlt : p.pdUpper - doubleAlign item.length < 2 ^ 13 := by
      by_contra hge
      have h0 := hoff (by omega) (show p.pdUpper = 8192 by omega)
      omega
    have hline := written_line_self flags h
    rw [Nat.mod_eq_of_lt hlt] at hline
    rw [off, len, hline]
    show p.pdUpper - doubleAlign item.length ≤ p.pdUpper - doubleAlign item.length ∧
      p.pdUpper - doubleAlign item.length + item.length ≤ p.pdUpper
    omega

/-- What another place stands for, it stood for before. -/
theorem written_content (hj : 1 ≤ j)
    (hle : j ≤ (p.written item n flags shuffled).maxOffsetNumber) (hjn : j ≠ n) :
    content (p.written item n flags shuffled).mem ((p.written item n flags shuffled).line j) =
      content p.mem (p.line (oldPlace shuffled n j)) := by
  have hline := written_line flags h hj hle hjn
  cases hu : ((p.written item n flags shuffled).line j).isUsed with
  | false => rw [content_of_unused hu, content_of_unused (hline ▸ hu)]
  | true =>
    obtain ⟨hold, -⟩ := written_used h hgap ⟨hj, hle, hu⟩ hjn
    have hin := h.formed.used hold
    rw [hline]
    exact content_congr rfl (fun _ => rfl) fun _ => bytes_congr fun k hk => written_mem h (by omega)

theorem written_items :
    (p.written item n flags shuffled).items = addAt p.items shuffled n (newItem item flags) := by
  have hmax := written_maxOffsetNumber flags h
  have hpos := h.pos
  refine items_eq ?_ fun i hi => ?_
  · rw [length_addAt _ _ h.pos, length_items, hmax]
  · have hget := addAt_getElem? p.items (newItem item flags) shuffled h.pos (show 1 ≤ i + 1 by omega)
    rw [Nat.add_sub_cancel, length_items] at hget
    rw [hget]
    by_cases hin : i + 1 = n
    · rw [if_pos hin, hin]
      have hused := written_isUsed flags h
      by_cases hf : flags % 2 = 1
      · rw [content_of_used (by rw [hused, hf]; rfl), newItem, if_pos hf]
        exact congrArg (some ∘ some) (written_bytes h).symm
      · rw [content_of_unused (by rw [hused]; exact decide_eq_false hf), newItem, if_neg hf]
    · rw [if_neg hin, written_content h hgap (Nat.succ_pos i) hi hin]
      have hpl : 1 ≤ oldPlace shuffled n (i + 1) := by
        unfold oldPlace
        split_ifs <;> omega
      split_ifs with hnew
      · have hsame : oldPlace shuffled n (i + 1) = i + 1 := if_neg (by omega)
        rw [hsame, content_of_unused (hgap _ hnew.1 hnew.2)]
      · have hlt : oldPlace shuffled n (i + 1) - 1 < p.maxOffsetNumber := by
          rw [hmax] at hi
          unfold oldPlace
          cases shuffled with
          | true =>
            simp only [true_and, or_true, if_true] at hi ⊢
            split_ifs at hi ⊢ <;> omega
          | false =>
            simp only [Bool.false_eq_true, false_and, or_false, if_false] at hi ⊢
            split_ifs at hi <;> omega
        rw [getElem?_items hlt, Nat.sub_add_cancel hpl]

end

end Add
end PgStorage.Slotted
