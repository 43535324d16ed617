import Mathlib

/-! The words of a page's bitmap.

Bit `i` is bit `i % 32` of word `i / 32`. -/
namespace PgStorage.TidBitmap
open List
open Function (update comp_apply)
open BitVec (getLsbD_zero getLsbD_or getLsbD_and)

/-- `MaxHeapTuplesPerPage` -/
def maxTuplesPerPage : Nat := 291

def bitsPerBitmapword : Nat := 32

def wordsPerPage : Nat := (maxTuplesPerPage - 1) / bitsPerBitmapword + 1

abbrev Bitmapword := BitVec 32

abbrev Words := Nat → Bitmapword

namespace Words

def zero : Words := fun _ => 0#32

/-- The bit in its word. -/
def mask (i : Nat) : Bitmapword := 1#32 <<< (i % bitsPerBitmapword)

def setBit (words : Words) (i : Nat) : Words :=
  update words (i / bitsPerBitmapword) (words (i / bitsPerBitmapword) ||| mask i)

def testBit (words : Words) (i : Nat) : Bool := words (i / bitsPerBitmapword) &&& mask i ≠ 0#32

def merge (a b : Words) : Words := fun wordnum => if wordnum < wordsPerPage then a wordnum ||| b wordnum else a wordnum

def intersect (a b : Words) : Words :=
  fun wordnum => if wordnum < wordsPerPage then a wordnum &&& b wordnum else a wordnum

def allZero (words : Words) : Bool := (List.range wordsPerPage).all fun wordnum => words wordnum = 0#32

/-- The places of the set bits of a word, as the loop that shifts it finds them. -/
def wordLoop : Nat → Bitmapword → Nat → List Nat
  | 0, _, _ => []
  | fuel + 1, w, place =>
    if w = 0#32 then []
    else if w &&& 1#32 ≠ 0#32 then place :: wordLoop fuel (w >>> 1) (place + 1)
    else wordLoop fuel (w >>> 1) (place + 1)

/-- The places of the set bits, word by word. -/
def setBits (words : Words) (base : Nat) : List Nat :=
  (List.range wordsPerPage).flatMap fun wordnum =>
    wordLoop bitsPerBitmapword (words wordnum) (base + bitsPerBitmapword * wordnum)

/-- Every set bit of a word that is not to stay is cleared. -/
def clearLoop (stays : Nat → Bool) (w : Bitmapword) (base : Nat) : Bitmapword :=
  (wordLoop bitsPerBitmapword w 0).foldl
    (fun neww bitnum => if stays (base + bitnum) then neww else neww &&& ~~~ mask bitnum) w

def clearBits (words : Words) (stays : Nat → Bool) (base : Nat) : Words := fun wordnum =>
  if wordnum < wordsPerPage then clearLoop stays (words wordnum) (base + bitsPerBitmapword * wordnum)
  else words wordnum

/-- What the words stand for. -/
def bit (words : Words) (i : Nat) : Bool := (words (i / 32)).getLsbD (i % 32)

variable {a b words : Words} {i j k m n base fuel : Nat} {w : Bitmapword} {stays : Nat → Bool}

theorem getLsbD_mask : (mask i).getLsbD j = decide (j = i % 32) := by
  have hi : i % 32 < 32 := Nat.mod_lt _ (by decide)
  rw [mask, bitsPerBitmapword, BitVec.getLsbD_shiftLeft, BitVec.getLsbD_one]
  by_cases hj : j = i % 32
  · simp [hj, hi]
  · by_cases hlt : j < i % 32
    · simp [hlt, hj]
    · have : ¬ j - i % 32 = 0 := by omega
      simp [hj, this]

@[simp] theorem bit_zero : zero.bit i = false := by
  rw [bit, zero, getLsbD_zero]

/-- Places are told apart by their word and their bit. -/
theorem place_eq : j / 32 = i / 32 ∧ j % 32 = i % 32 ↔ j = i := by omega

@[simp] theorem bit_setBit : (setBit words i).bit j = (decide (j = i) || words.bit j) := by
  rw [bit, bit, setBit, bitsPerBitmapword]
  by_cases hw : j / 32 = i / 32
  · rw [hw, Function.update_self, getLsbD_or, getLsbD_mask, Bool.or_comm]
    refine congrArg (· || _) (decide_eq_decide.mpr ?_)
    exact ⟨fun h => place_eq.mp ⟨hw, h⟩, fun h => (place_eq.mpr h).2⟩
  · rw [Function.update_of_ne hw, decide_eq_false (fun h => hw (congrArg (· / 32) h)), Bool.false_or]

theorem testBit_eq : testBit words i = words.bit i := by
  have hi : i % 32 < 32 := Nat.mod_lt _ (by decide)
  rw [testBit, bit, bitsPerBitmapword]
  by_cases hb : (words (i / 32)).getLsbD (i % 32) = true
  · rw [hb, decide_eq_true_eq]
    intro hz
    have := congrArg (·.getLsbD (i % 32)) hz
    simp [getLsbD_mask, hb] at this
  · rw [Bool.eq_false_iff.mpr hb, decide_eq_false_iff_not, not_not]
    refine BitVec.eq_of_getLsbD_eq fun k hk => ?_
    rw [getLsbD_and, getLsbD_mask, getLsbD_zero]
    by_cases hki : k = i % 32
    · rw [hki, Bool.eq_false_iff.mpr hb, Bool.false_and]
    · rw [decide_eq_false hki, Bool.and_false]

/-- The words of a page hold 320 bits. -/
theorem if_wordnum {α : Type} {x y : α} : (if i / 32 < wordsPerPage then x else y) = if i < 320 then x else y :=
  if_congr (by rw [show wordsPerPage = 10 from rfl]; omega) rfl rfl

theorem bit_merge (hb : ∀ i, b.bit i = true → i < 320) :
    (merge a b).bit i = (a.bit i || b.bit i) := by
  rw [bit, merge, if_wordnum]
  by_cases hi : i < 320
  · rw [if_pos hi, getLsbD_or]
    rfl
  · rw [if_neg hi, Bool.eq_false_iff.mpr fun h => hi (hb i h), Bool.or_false]
    rfl

theorem bit_intersect (ha : ∀ i, a.bit i = true → i < 320) :
    (intersect a b).bit i = (a.bit i && b.bit i) := by
  rw [bit, intersect, if_wordnum]
  by_cases hi : i < 320
  · rw [if_pos hi, getLsbD_and]
    rfl
  · rw [if_neg hi, show (a (i / 32)).getLsbD (i % 32) = a.bit i from rfl,
      Bool.eq_false_iff.mpr fun h => hi (ha i h), Bool.false_and]

theorem allZero_iff : allZero words = true ↔ ∀ i < 320, words.bit i = false := by
  have h10 : wordsPerPage = 10 := rfl
  rw [allZero, all_eq_true]
  constructor
  · intro h i hi
    have hw := of_decide_eq_true (h (i / 32) (mem_range.mpr (by omega)))
    rw [bit, hw, getLsbD_zero]
  · intro h k hk
    have hk' := mem_range.mp hk
    refine decide_eq_true (BitVec.eq_of_getLsbD_eq fun j hj => ?_)
    have hb := h (32 * k + j) (by omega)
    rw [bit, show (32 * k + j) / 32 = k by omega, show (32 * k + j) % 32 = j by omega] at hb
    rw [hb, getLsbD_zero]

/-! ### The loops over the set bits -/

theorem low_bit : w &&& 1#32 ≠ 0#32 ↔ w.getLsbD 0 = true := by
  rw [← show testBit (fun _ => w) 0 = w.getLsbD 0 from testBit_eq]
  exact decide_eq_true_iff.symm

/-- The loop that shifts the word finds its set bits from the lowest on. -/
theorem wordLoop_eq : wordLoop fuel w base = ((range fuel).filter w.getLsbD).map (base + ·) := by
  induction fuel generalizing w base with
  | zero => rfl
  | succ fuel ih =>
    have hshift : (w >>> 1).getLsbD = w.getLsbD ∘ Nat.succ := by
      funext k
      rw [BitVec.getLsbD_ushiftRight, add_comm, comp_apply]
    have hrest : wordLoop fuel (w >>> 1) (base + 1) =
        (((range fuel).map Nat.succ).filter w.getLsbD).map (base + ·) := by
      rw [ih, hshift, filter_map, map_map]
      refine map_congr_left fun n _ => ?_
      rw [comp_apply, Nat.succ_eq_add_one, add_assoc, add_comm 1]
    rw [wordLoop, hrest, range_succ_eq_map]
    split
    next hz =>
      have hnone : ∀ l : List Nat, l.filter w.getLsbD = [] := fun l =>
        filter_eq_nil_iff.mpr fun n _ => by simp [hz]
      rw [hnone, map_nil]
    next =>
      split
      next h1 => rw [filter_cons_of_pos (low_bit.mp h1), map_cons, add_zero]
      next h1 => rw [filter_cons_of_neg fun h => h1 (low_bit.mpr h)]

theorem range_mul : range (m * n) = (range m).flatMap fun k => (range n).map (n * k + ·) := by
  induction m with
  | zero => rw [Nat.zero_mul]; rfl
  | succ m ih =>
    rw [range_succ, flatMap_append, ← ih, Nat.succ_mul, range_add, flatMap_singleton,
      mul_comm n]

/-- The set bits are found in ascending order. -/
theorem setBits_eq : setBits words base = ((range 320).filter words.bit).map (base + ·) := by
  rw [setBits, show (320 : Nat) = 10 * 32 from rfl, range_mul, filter_flatMap, map_flatMap]
  refine flatMap_congr fun k _ => ?_
  rw [wordLoop_eq, filter_map, map_map]
  have hword : (range 32).filter (words k).getLsbD = (range 32).filter (words.bit ∘ (32 * k + ·)) := by
    refine filter_congr fun j hj => ?_
    have hj' := mem_range.mp hj
    rw [comp_apply, bit, show (32 * k + j) / 32 = k by omega, show (32 * k + j) % 32 = j by omega]
  rw [bitsPerBitmapword, hword]
  refine map_congr_left fun n _ => ?_
  rw [comp_apply, add_assoc]

theorem mem_setBits : n ∈ setBits words base ↔ ∃ i < 320, words.bit i = true ∧ base + i = n := by
  rw [setBits_eq, mem_map]
  refine exists_congr fun i => ?_
  rw [mem_filter, mem_range, and_assoc]

theorem setBits_ascend : (setBits words base).Pairwise (· < ·) := by
  rw [setBits_eq, pairwise_map]
  exact (pairwise_lt_range.filter _).imp fun h => Nat.add_lt_add_left h _

theorem getLsbD_clear (l : List Nat) (hl : ∀ j ∈ l, j < 32) (hk : k < 32) :
    (l.foldl (fun neww bitnum => if stays (base + bitnum) then neww else neww &&& ~~~ mask bitnum) w).getLsbD k =
      (w.getLsbD k && (decide (k ∉ l) || stays (base + k))) := by
  induction l generalizing w with
  | nil => simp
  | cons j l ih =>
    have hj := hl j mem_cons_self
    rw [foldl_cons, ih fun i hi => hl i (mem_cons_of_mem _ hi)]
    by_cases hkj : k = j
    · subst hkj
      cases hs : stays (base + k) <;>
        simp [getLsbD_mask, Nat.mod_eq_of_lt hj, hj]
    · have hsame : (if stays (base + j) then w else w &&& ~~~ mask j).getLsbD k = w.getLsbD k := by
        split
        · rfl
        · rw [getLsbD_and, BitVec.getLsbD_not, getLsbD_mask, Nat.mod_eq_of_lt hj]
          simp [hk, hkj]
      rw [hsame]
      simp [hkj]

theorem bit_clearBits (hwords : ∀ i, words.bit i = true → i < 320) :
    (clearBits words stays base).bit i = (words.bit i && stays (base + i)) := by
  have hi : i % 32 < 32 := Nat.mod_lt _ (by decide)
  rw [bit, clearBits, if_wordnum, bitsPerBitmapword]
  by_cases hlt : i < 320
  · rw [if_pos hlt, clearLoop, getLsbD_clear _ (fun j hj => ?_) hi, wordLoop_eq, add_assoc,
      show 32 * (i / 32) + i % 32 = i from Nat.div_add_mod i 32]
    · rw [bit]
      by_cases hb : (words (i / 32)).getLsbD (i % 32) = true
      · have hmem : i % 32 ∈ ((range bitsPerBitmapword).filter (words (i / 32)).getLsbD).map (0 + ·) :=
          mem_map.mpr ⟨i % 32, mem_filter.mpr ⟨mem_range.mpr hi, hb⟩, zero_add _⟩
        rw [decide_eq_false (not_not.mpr hmem), Bool.false_or]
      · rw [Bool.eq_false_iff.mpr hb, Bool.false_and, Bool.false_and]
    · rw [wordLoop_eq] at hj
      obtain ⟨n, hn, rfl⟩ := mem_map.mp hj
      rw [zero_add]
      exact mem_range.mp (mem_filter.mp hn).1
  · rw [if_neg hlt, show (words (i / 32)).getLsbD (i % 32) = words.bit i from rfl,
      Bool.eq_false_iff.mpr fun h => hlt (hwords i h), Bool.false_and]

end Words
end PgStorage.TidBitmap
