import Mathlib

/-! Words of the on-disk bitmap index (`access/bitmap.h`).

A bitmap vector is hybrid run-length (HRL) coded: a content word is either 16
literal bits or a fill, one bit and a count of 16-bit words, and a separate header
bit says which. Bits are numbered from 1, the rightmost bit of a word first. -/
namespace PgStorage.Hrl
open List
open BitVec (ofNat twoPow twoPow_eq getLsbD_or eq_of_toNat_eq toNat_ofNat)

/-- `BM_WORD` -/
abbrev Word := BitVec 16

def wordSize : Nat := 16
def literalAllZero : Word := 0
def literalAllOne : Word := ~~~0
def maxFillLength : Nat := 2 ^ 15 - 1

/-- `FILL_LENGTH` -/
def fillLength (w : Word) : Nat := (w &&& ~~~((1 : Word) <<< 15)).toNat

/-- `GET_FILL_BIT` -/
def fillBit (w : Word) : Word := w >>> 15

/-- `BM_MAKE_FILL_WORD`; a count that does not fit is cut to the word. -/
def makeFillWord (bit : Word) (length : Nat) : Word := (bit <<< 15) ||| ofNat 16 length

/-- `WORDNO_GET_HEADER_BIT` -/
def headerBit (cwNo : Nat) : Word := (1 : Word) <<< (15 - cwNo % 16)

/-- `IS_FILL_WORD` -/
def isFillWord (h : Nat → Word) (n : Nat) : Bool := decide (0 < h (n / 16) &&& headerBit n)

theorem isFillWord_eq (h : Nat → Word) (n : Nat) : isFillWord h n = (h (n / 16)).getLsbD (15 - n % 16) := by
  have hbit : headerBit n = twoPow 16 (15 - n % 16) := by rw [headerBit, twoPow_eq]; rfl
  rw [isFillWord, hbit, BitVec.and_twoPow]
  cases hget : (h (n / 16)).getLsbD (15 - n % 16)
  · rfl
  · have hpos : 0 < (twoPow 16 (15 - n % 16)).toNat := by
      rw [BitVec.toNat_twoPow, Nat.mod_eq_of_lt (Nat.pow_lt_pow_right (by decide) (by omega))]
      exact Nat.two_pow_pos _
    exact decide_eq_true hpos

theorem getLsbD_headerBit (n i : Nat) : (headerBit n).getLsbD i = decide (i = 15 - n % 16) := by
  have hbit : headerBit n = twoPow 16 (15 - n % 16) := by rw [headerBit, twoPow_eq]; rfl
  rw [hbit, BitVec.getLsbD_twoPow]
  have hlt : 15 - n % 16 < 16 := by omega
  simp only [hlt, decide_true, Bool.true_and, eq_comm]

/-- Setting one header bit. -/
theorem isFillWord_set (h : Nat → Word) (m n : Nat) (fill : Bool) :
    isFillWord (fun i => if i = m / 16 ∧ fill = true then h i ||| headerBit m else h i) n =
      (isFillWord h n || (decide (n = m) && fill)) := by
  rw [isFillWord_eq, isFillWord_eq]
  cases fill with
  | false => simp
  | true =>
    by_cases hdiv : n / 16 = m / 16
    · rw [if_pos ⟨hdiv, rfl⟩, getLsbD_or, getLsbD_headerBit, Bool.and_true]
      congr 2
      apply propext
      omega
    · rw [if_neg fun hc => hdiv hc.1]
      have hne : n ≠ m := fun h => hdiv (by rw [h])
      simp [hne]

theorem fillLength_eq (w : Word) : fillLength w = w.toNat % 2 ^ 15 := by
  have hmask : (~~~((1 : Word) <<< 15)).toNat = 2 ^ 15 - 1 := by decide
  rw [fillLength, BitVec.toNat_and, hmask, Nat.and_two_pow_sub_one_eq_mod]

theorem fillLength_lt (w : Word) : fillLength w < 2 ^ 15 := by
  rw [fillLength_eq]
  exact Nat.mod_lt _ (by decide)

theorem toNat_fillBit (w : Word) : (fillBit w).toNat = w.toNat / 2 ^ 15 := by
  rw [fillBit, BitVec.toNat_ushiftRight, Nat.shiftRight_eq_div_pow]

theorem fillBit_cases (w : Word) : fillBit w = 0 ∨ fillBit w = 1 := by
  have hlt := w.isLt
  have hdiv := toNat_fillBit w
  have hor : (fillBit w).toNat = 0 ∨ (fillBit w).toNat = 1 := by omega
  rcases hor with h | h
  · exact .inl (eq_of_toNat_eq h)
  · exact .inr (eq_of_toNat_eq h)

variable {w : Word} {k n : Nat} {h c : Nat → Word}

/-- Taking `k` off the count of a fill. -/
theorem fill_sub (h : k ≤ fillLength w) :
    fillLength (w - ofNat 16 k) = fillLength w - k ∧ fillBit (w - ofNat 16 k) = fillBit w := by
  have hlt := w.isLt
  have hlen := fillLength_eq w
  have hk : (w - ofNat 16 k).toNat = w.toNat - k := by
    rw [BitVec.toNat_sub, toNat_ofNat]
    omega
  constructor
  · rw [fillLength_eq, hk, hlen]
    omega
  · apply eq_of_toNat_eq
    rw [toNat_fillBit, toNat_fillBit, hk]
    omega

/-- Adding `k` to the count of a fill. -/
theorem fill_add (h : fillLength w + k ≤ maxFillLength) :
    fillLength (w + ofNat 16 k) = fillLength w + k ∧ fillBit (w + ofNat 16 k) = fillBit w := by
  unfold maxFillLength at h
  have hlt := w.isLt
  have hlen := fillLength_eq w
  have hk : (w + ofNat 16 k).toNat = w.toNat + k := by
    rw [BitVec.toNat_add, toNat_ofNat]
    omega
  constructor
  · rw [fillLength_eq, hk, hlen]
    omega
  · apply eq_of_toNat_eq
    rw [toNat_fillBit, toNat_fillBit, hk]
    omega

theorem makeFillWord_zero {len : Nat} (h : len ≤ maxFillLength) :
    fillLength (makeFillWord 0 len) = len ∧ fillBit (makeFillWord 0 len) = 0 := by
  unfold maxFillLength at h
  have hval : (makeFillWord 0 len).toNat = len := by
    have hzero : (0 : Word) <<< 15 = 0 := by decide
    have hword : makeFillWord 0 len = ofNat 16 len := by
      rw [makeFillWord, hzero]
      exact BitVec.zero_or
    rw [hword, toNat_ofNat]
    omega
  constructor
  · rw [fillLength_eq, hval]
    omega
  · apply eq_of_toNat_eq
    rw [toNat_fillBit, hval]
    show len / 2 ^ 15 = 0
    omega

theorem makeFillWord_one {len : Nat} (h : len < 2 ^ 15) :
    fillLength (makeFillWord 1 len) = len ∧ fillBit (makeFillWord 1 len) = 1 := by
  have hval : (makeFillWord 1 len).toNat = 2 ^ 15 + len := by
    have hbit : ((1 : Word) <<< 15).toNat = 2 ^ 15 * 1 := by decide
    rw [makeFillWord, BitVec.toNat_or, hbit, toNat_ofNat, Nat.mod_eq_of_lt (by omega),
      ← Nat.two_pow_add_eq_or_of_lt h, mul_one]
  constructor
  · rw [fillLength_eq, hval]
    omega
  · apply eq_of_toNat_eq
    rw [toNat_fillBit, hval]
    show (2 ^ 15 + len) / 2 ^ 15 = 1
    omega

/-! ### What words stand for -/

/-- A content word with its header bit. -/
structure Cell where
  fill : Bool
  word : Word
  deriving DecidableEq, Repr

/-- The 16-bit words a cell stands for. -/
def Cell.words (c : Cell) : List Word :=
  if c.fill then List.replicate (fillLength c.word) (if fillBit c.word = 1 then literalAllOne else literalAllZero)
  else [c.word]

/-- The fields of a fill word: a count between 1 and 32767. -/
def Cell.Valid (c : Cell) : Prop := c.fill = true → 1 ≤ fillLength c.word

instance (c : Cell) : Decidable c.Valid := inferInstanceAs (Decidable (c.fill = true → 1 ≤ fillLength c.word))

/-- `n` cells of an array of content words with its header words. -/
def cells (h c : Nat → Word) : Nat → Nat → List Cell
  | _, 0 => []
  | start, n + 1 => ⟨isFillWord h start, c start⟩ :: cells h c (start + 1) n

theorem cells_congr {h' c' : Nat → Word} {start : Nat}
    (hh : ∀ i, start ≤ i → i < start + n → isFillWord h i = isFillWord h' i)
    (hc : ∀ i, start ≤ i → i < start + n → c i = c' i) : cells h c start n = cells h' c' start n := by
  induction n generalizing start with
  | zero => rfl
  | succ n ih =>
    rw [cells, cells, hh start (by omega) (by omega), hc start (by omega) (by omega),
      ih (fun i hi hn => hh i (by omega) (by omega)) (fun i hi hn => hc i (by omega) (by omega))]

/-- The same cells at another place. -/
theorem cells_shift {h' c' : Nat → Word} {start start' : Nat}
    (hh : ∀ i < n, isFillWord h (start + i) = isFillWord h' (start' + i))
    (hc : ∀ i < n, c (start + i) = c' (start' + i)) : cells h c start n = cells h' c' start' n := by
  induction n generalizing start start' with
  | zero => rfl
  | succ n ih =>
    have h0 := hh 0 (Nat.succ_pos n)
    have hc0 := hc 0 (Nat.succ_pos n)
    rw [add_zero, add_zero] at h0 hc0
    rw [cells, cells, h0, hc0]
    congr 1
    apply ih
    · intro i hi
      rw [add_assoc, add_assoc, add_comm 1 i]
      exact hh (i + 1) (by omega)
    · intro i hi
      rw [add_assoc, add_assoc, add_comm 1 i]
      exact hc (i + 1) (by omega)

/-- Overwriting the first word. -/
theorem cells_set (h c : Nat → Word) (start n : Nat) (w : Word) :
    cells h (fun i => if i = start then w else c i) start (n + 1) =
      ⟨isFillWord h start, w⟩ :: cells h c (start + 1) n := by
  rw [cells, if_pos rfl]
  congr 1
  apply cells_congr
  · intro i _ _
    rfl
  · intro i hi _
    rw [if_neg (by omega)]

@[simp] theorem cells_length (h c : Nat → Word) (start n : Nat) : (cells h c start n).length = n := by
  induction n generalizing start with
  | zero => rfl
  | succ n ih => rw [cells, length_cons, ih]

theorem cells_add (h c : Nat → Word) (start m n : Nat) :
    cells h c start (m + n) = cells h c start m ++ cells h c (start + m) n := by
  induction m generalizing start with
  | zero => simp [cells]
  | succ m ih =>
    rw [Nat.succ_add, cells, cells, ih, cons_append]
    congr 3
    omega

def expand (cs : List Cell) : List Word := cs.flatMap Cell.words

@[simp] theorem expand_nil : expand [] = [] := rfl
@[simp] theorem expand_cons (c : Cell) (cs : List Cell) : expand (c :: cs) = c.words ++ expand cs := rfl
@[simp] theorem expand_append (cs ds : List Cell) : expand (cs ++ ds) = expand cs ++ expand ds :=
  flatMap_append ..

theorem Cell.words_pos {c : Cell} (h : c.Valid) : 1 ≤ c.words.length := by
  unfold Cell.words
  split
  · rename_i hfill
    rw [length_replicate]
    exact h hfill
  · simp

theorem Cell.words_sub (h : k ≤ fillLength w) :
    (Cell.mk true (w - ofNat 16 k)).words = (Cell.mk true w).words.drop k := by
  obtain ⟨hlen, hbit⟩ := fill_sub h
  simp only [Cell.words, if_true, hlen, hbit, drop_replicate]

/-- Writing a word behind the last one, whose header bit is clear. -/
theorem cells_snoc (hclear : isFillWord h n = false) (fill : Bool) (w : Word) :
    cells (fun i => if i = n / 16 ∧ fill = true then h i ||| headerBit n else h i)
      (fun i => if i = n then w else c i) 0 (n + 1) = cells h c 0 n ++ [⟨fill, w⟩] := by
  rw [cells_add, zero_add, cells, cells, isFillWord_set, hclear, if_pos rfl]
  congr 1
  · apply cells_congr
    · intro i _ hi
      rw [isFillWord_set, show decide (i = n) = false from decide_eq_false (by omega)]
      simp
    · intro i _ hi
      rw [if_neg (by omega)]
  · simp

/-- The positions of the bits set in one word that comes after `base` bits. -/
def wordTids (base : Nat) (w : Word) : List Nat := ((List.range 16).filter (w.getLsbD ·)).map (base + 1 + ·)

/-- The positions of the bits set in a list of words, in ascending order. -/
def tidsFrom (base : Nat) : List Word → List Nat
  | [] => []
  | w :: ws => wordTids base w ++ tidsFrom (base + 16) ws

theorem tidsFrom_append (base : Nat) (xs ys : List Word) :
    tidsFrom base (xs ++ ys) = tidsFrom base xs ++ tidsFrom (base + 16 * xs.length) ys := by
  induction xs generalizing base with
  | nil => rfl
  | cons x xs ih =>
    rw [cons_append, tidsFrom, tidsFrom, ih, append_assoc, length_cons]
    congr 3
    omega

theorem wordTids_zero (base : Nat) : wordTids base 0 = [] := by
  have : (range 16).filter ((0 : Word).getLsbD ·) = [] := by decide
  rw [wordTids, this]
  rfl

theorem tidsFrom_zeros (base n : Nat) : tidsFrom base (replicate n 0) = [] := by
  induction n generalizing base with
  | zero => rfl
  | succ n ih => rw [replicate_succ, tidsFrom, wordTids_zero, ih, nil_append]

/-- The bit at a position. -/
def bitAt (ws : List Word) (p : Nat) : Bool := (ws.getD ((p - 1) / 16) 0).getLsbD ((p - 1) % 16)

theorem wordTids_eq (base : Nat) (w : Word) :
    wordTids base w = (range' (base + 1) 16).filter fun p => w.getLsbD (p - 1 - base) := by
  have hrange : range' (base + 1) 16 = (range 16).map (base + 1 + ·) := by
    rw [range_eq_range', map_add_range']
  rw [hrange, filter_map, wordTids]
  congr 2
  funext i
  show w.getLsbD i = w.getLsbD (base + 1 + i - 1 - base)
  congr 1
  omega

/-- The positions, as a filter of all positions. -/
theorem tidsFrom_eq (base : Nat) (ws : List Word) : tidsFrom (16 * base) ws =
    (range' (16 * base + 1) (16 * ws.length)).filter fun p => bitAt ws (p - 16 * base) := by
  induction ws generalizing base with
  | nil => rfl
  | cons w ws ih =>
    have hlen : 16 * (w :: ws).length = 16 + 16 * ws.length := by rw [length_cons]; omega
    rw [tidsFrom, hlen, ← range'_append_1, filter_append, wordTids_eq]
    congr 1
    · apply filter_congr
      intro p hp
      rw [mem_range'_1] at hp
      have hdiv : (p - 16 * base - 1) / 16 = 0 := by omega
      have hmod : (p - 16 * base - 1) % 16 = p - 1 - 16 * base := by omega
      rw [bitAt, hdiv, hmod, getD_cons_zero]
    · have hbase : 16 * base + 16 = 16 * (base + 1) := by omega
      have hstart : 16 * base + 1 + 16 = 16 * (base + 1) + 1 := by omega
      rw [hbase, ih, hstart]
      apply filter_congr
      intro p hp
      rw [mem_range'_1] at hp
      have hdiv : (p - 16 * base - 1) / 16 = (p - 16 * (base + 1) - 1) / 16 + 1 := by omega
      have hmod : (p - 16 * base - 1) % 16 = (p - 16 * (base + 1) - 1) % 16 := by omega
      rw [bitAt, bitAt, hdiv, hmod, getD_cons_succ]

theorem bitAt_drop (ws : List Word) (n : Nat) {p : Nat} (h : 16 * n < p) :
    bitAt (ws.drop n) (p - 16 * n) = bitAt ws p := by
  have hdiv : (p - 1) / 16 = n + (p - 16 * n - 1) / 16 := by omega
  have hmod : (p - 1) % 16 = (p - 16 * n - 1) % 16 := by omega
  rw [bitAt, bitAt, hdiv, hmod, getD_eq_getElem?_getD, getElem?_drop, getD_eq_getElem?_getD]

theorem bitAt_of_length_le {ws : List Word} {p : Nat} (h : 16 * ws.length < p) : bitAt ws p = false := by
  rw [bitAt, getD_eq_default _ _ (by omega)]
  exact BitVec.getLsbD_zero

/-- The OR of two word lists, the shorter one continued with zeros. -/
def orWords : List Word → List Word → List Word
  | [], ys => ys
  | x :: xs, [] => x :: xs
  | x :: xs, y :: ys => (x ||| y) :: orWords xs ys

/-- The OR of all. -/
def orAll (vs : List (List Word)) : List Word := vs.foldr orWords []

@[simp] theorem orWords_nil_right (xs : List Word) : orWords xs [] = xs := by cases xs <;> rfl
@[simp] theorem orWords_nil_left (ys : List Word) : orWords [] ys = ys := rfl

theorem orWords_length (xs ys : List Word) : (orWords xs ys).length = max xs.length ys.length := by
  induction xs, ys using orWords.induct with
  | case1 ys => simp
  | case2 x xs => simp
  | case3 x xs y ys ih => simp only [orWords, length_cons, ih]; omega

theorem orWords_getD (xs ys : List Word) (i : Nat) :
    (orWords xs ys).getD i 0 = xs.getD i 0 ||| ys.getD i 0 := by
  induction xs, ys using orWords.induct generalizing i with
  | case1 ys => simp
  | case2 x xs => simp
  | case3 x xs y ys ih =>
    cases i with
    | zero => rfl
    | succ i => rw [orWords, getD_cons_succ, getD_cons_succ, getD_cons_succ, ih]

theorem orWords_drop (xs ys : List Word) (n : Nat) :
    (orWords xs ys).drop n = orWords (xs.drop n) (ys.drop n) := by
  induction xs, ys using orWords.induct generalizing n with
  | case1 ys => simp
  | case2 x xs => simp
  | case3 x xs y ys ih =>
    cases n with
    | zero => rfl
    | succ n => rw [orWords, drop_succ_cons, drop_succ_cons, drop_succ_cons, ih]

theorem bitAt_orWords (xs ys : List Word) (p : Nat) : bitAt (orWords xs ys) p = (bitAt xs p || bitAt ys p) := by
  rw [bitAt, orWords_getD, getLsbD_or, bitAt, bitAt]

@[simp] theorem orAll_cons (v : List Word) (vs : List (List Word)) : orAll (v :: vs) = orWords v (orAll vs) := rfl

theorem bitAt_orAll (vs : List (List Word)) (p : Nat) : bitAt (orAll vs) p = vs.any (bitAt · p) := by
  induction vs with
  | nil => simp [orAll, bitAt]
  | cons v vs ih => rw [orAll_cons, bitAt_orWords, ih, any_cons]

/-- The positions set in some of the vectors, in ascending order. -/
def setPositions (vs : List (List Word)) : List Nat :=
  (List.range' 1 (16 * (orAll vs).length)).filter fun p => vs.any (bitAt · p)

theorem tidsFrom_orAll (vs : List (List Word)) : tidsFrom 0 (orAll vs) = setPositions vs := by
  have h := tidsFrom_eq 0 (orAll vs)
  rw [Nat.mul_zero, zero_add] at h
  rw [h, setPositions]
  apply filter_congr
  intro p _
  rw [Nat.sub_zero, bitAt_orAll]

/-- There is nothing to come after `16 * n` bits. -/
theorem tidsFrom_drop_eq_nil_iff (vs : List (List Word)) (n : Nat) :
    tidsFrom (16 * n) ((orAll vs).drop n) = [] ↔ ∀ v ∈ vs, ∀ p, 16 * n < p → bitAt v p = false := by
  rw [tidsFrom_eq, filter_eq_nil_iff]
  constructor
  · intro h v hv p hp
    by_contra hbit
    have hor : bitAt (orAll vs) p = true := by
      rw [bitAt_orAll, any_eq_true]
      exact ⟨v, hv, by simpa using hbit⟩
    have hlt : ¬16 * (orAll vs).length < p := fun hc => by
      rw [bitAt_of_length_le hc] at hor
      exact absurd hor (by decide)
    refine h p ?_ ?_
    · rw [mem_range'_1, length_drop]
      omega
    · rw [bitAt_drop _ _ hp]
      exact hor
  · intro h p hp
    rw [mem_range'_1] at hp
    rw [bitAt_drop _ _ (by omega), bitAt_orAll, any_eq_true]
    rintro ⟨v, hv, hbit⟩
    rw [h v hv p (by omega)] at hbit
    exact absurd hbit (by decide)

end PgStorage.Hrl
