import PgStorage.Hrl.BuildProofs

/-! Inserting words into a page.

The words behind the place of insertion move back and their header bits with them, across the header words. What is
beyond the page's end goes to the words left over, so the words of both together are the old ones with the new ones
in between. -/
namespace PgStorage.Hrl
open List BitVec

/-! ### Header bits -/

/-- One pass of the loop of `shift_header_bits`. -/
def shiftPass (maxNumOfWords shift no : Nat) (ws : Nat → Word) (i : Nat) : Word :=
  if i = no then ws no >>> shift
  else if i = no + 1 ∧ no < maxNumOfWords - 1 then ws i ||| (ws no <<< (16 - shift)) else ws i

/-- The loop shifts each word and gives the bits shifted out to the next. -/
theorem shiftPass_foldr (ws : Nat → Word) (max shift start n i : Nat) :
    (range' (start + 1) n).foldr (shiftPass max shift) ws i =
      (if start < i ∧ i ≤ start + n then ws i >>> shift else ws i) |||
        (if start + 1 < i ∧ i ≤ start + n + 1 ∧ i < max then ws (i - 1) <<< (16 - shift) else 0) := by
  induction n generalizing start i with
  | zero =>
    have h1 : ¬(start < i ∧ i ≤ start + 0) := by omega
    have h2 : ¬(start + 1 < i ∧ i ≤ start + 0 + 1 ∧ i < max) := by omega
    rw [if_neg h1, if_neg h2]
    exact or_zero.symm
  | succ n ih =>
    have hself : (range' (start + 1 + 1) n).foldr (shiftPass max shift) ws (start + 1) = ws (start + 1) := by
      rw [ih, if_neg (by omega), if_neg (by omega)]
      exact or_zero
    rw [range'_succ, foldr_cons, shiftPass, hself]
    by_cases hfirst : i = start + 1
    · rw [if_pos hfirst, if_pos (by omega), if_neg (by omega), hfirst]
      exact or_zero.symm
    · have hin : (start + 1 < i ∧ i ≤ start + 1 + n) = (start < i ∧ i ≤ start + (n + 1)) := propext (by omega)
      rw [if_neg hfirst, ih]
      simp only [hin]
      by_cases hnext : i = start + 1 + 1
      · have hnone : ¬(start + 1 + 1 < i ∧ i ≤ start + 1 + n + 1 ∧ i < max) := by omega
        have hsome : (i = start + 1 + 1 ∧ start + 1 < max - 1) =
            (start + 1 < i ∧ i ≤ start + (n + 1) + 1 ∧ i < max) := propext (by omega)
        simp only [if_neg hnone, hsome, show i - 1 = start + 1 by omega]
        split
        · congr 1
          exact or_zero
        · rfl
      · have hsame : (start + 1 + 1 < i ∧ i ≤ start + 1 + n + 1 ∧ i < max) =
            (start + 1 < i ∧ i ≤ start + (n + 1) + 1 ∧ i < max) := propext (by omega)
        rw [if_neg fun hc => hnext hc.1]
        simp only [hsame]

theorem getLsbD_shiftRight (w : Word) {k j : Nat} (hj : j < 16) :
    (w >>> k).getLsbD (15 - j) = (decide (k ≤ j) && w.getLsbD (15 - (j - k))) := by
  rw [getLsbD_ushiftRight]
  by_cases hle : k ≤ j
  · rw [decide_eq_true hle, Bool.true_and]
    congr 1
    omega
  · rw [decide_eq_false hle, Bool.false_and]
    exact BitVec.getLsbD_of_ge _ _ (by omega)

theorem getLsbD_shiftLeft (w : Word) {k j : Nat} (hj : j < 16) :
    (w <<< k).getLsbD (15 - j) = (decide (j + k < 16) && w.getLsbD (15 - (j + k))) := by
  rw [BitVec.getLsbD_shiftLeft]
  by_cases hlt : j + k < 16
  · have h1 : ¬15 - j < k := by omega
    have h2 : 15 - j < 16 := by omega
    have h3 : 15 - j - k = 15 - (j + k) := by omega
    simp [h1, h2, h3, hlt]
  · have h1 : 15 - j < k := by omega
    simp [h1, hlt]

theorem getLsbD_head (w : Word) {loc j : Nat} (hj : j < 16) :
    ((w >>> (16 - loc)) <<< (16 - loc)).getLsbD (15 - j) = (decide (j < loc) && w.getLsbD (15 - j)) := by
  rw [getLsbD_shiftLeft _ hj]
  by_cases hlt : j < loc
  · have hin : j + (16 - loc) < 16 := by omega
    rw [getLsbD_shiftRight _ hin, decide_eq_true hin, decide_eq_true (Nat.le_add_left ..), decide_eq_true hlt,
      Nat.add_sub_cancel]
    simp only [Bool.true_and]
  · have hout : ¬j + (16 - loc) < 16 := by omega
    rw [decide_eq_false hlt, decide_eq_false hout, Bool.false_and, Bool.false_and]

theorem getLsbD_tail (w : Word) {loc j : Nat} (hj : j < 16) :
    ((w <<< loc) >>> loc).getLsbD (15 - j) = (decide (loc ≤ j) && w.getLsbD (15 - j)) := by
  rw [getLsbD_shiftRight _ hj]
  by_cases hle : loc ≤ j
  · rw [getLsbD_shiftLeft _ (show j - loc < 16 by omega), show j - loc + loc = j by omega, decide_eq_true hj,
      Bool.true_and]
  · rw [decide_eq_false hle, Bool.false_and, Bool.false_and]

section
variable {ws : Nat → Word} {bits max start k n : Nat}

theorem shiftPass_foldr_before (ws : Nat → Word) (max k s n : Nat) {i : Nat} (hi : i ≤ s) :
    (range' (s + 1) n).foldr (shiftPass max k) ws i = ws i := by
  rw [shiftPass_foldr, if_neg (by omega), if_neg (by omega)]
  exact or_zero

/-- The bits behind the first word, after the loop. -/
theorem getLsbD_shiftPass_foldr (hzero : ∀ i, bits ≤ i * 16 → ws i = 0) (hk : k ≤ 16) {s i : Nat} (hs : s < i)
    (hi : i < max) {j : Nat} (hj : j < 16) :
    ((range' (s + 1) ((bits - 1) / 16 - s)).foldr (shiftPass max k) ws i).getLsbD (15 - j) =
      (decide (k ≤ j) && (ws i).getLsbD (15 - (j - k)) ||
        decide (s + 1 < i ∧ j < k) && (ws (i - 1)).getLsbD (15 - (j + (16 - k)))) := by
  have hzeroBit (b : Nat) : (0 : Word).getLsbD b = false := getLsbD_zero
  rw [shiftPass_foldr, getLsbD_or]
  congr 1
  · split
    next => exact getLsbD_shiftRight _ hj
    next hout =>
      rw [hzero i (by omega), hzeroBit, hzeroBit, Bool.and_false]
  · split
    next hin =>
      rw [getLsbD_shiftLeft _ hj]
      congr 1
      exact decide_eq_decide.mpr (by omega)
    next hout =>
      rw [hzeroBit]
      by_cases hnext : s + 1 < i
      · rw [hzero (i - 1) (by omega), hzeroBit, Bool.and_false]
      · rw [decide_eq_false fun hc => hnext hc.1, Bool.false_and]

/-- **Shifting the header bits** from `start` on by `k`. -/
theorem isFillWord_shiftHeaderBits (hzero : ∀ i, bits ≤ i * 16 → ws i = 0) (hk : k ≤ 16) (hn : n / 16 < max) :
    isFillWord (shiftHeaderBits ws bits max start k) n =
      if n < start then isFillWord ws n else if n < start + k then false else isFillWord ws (n - k) := by
  have hloop : (range' (start / 16 + 1) ((bits - 1) / 16 - start / 16)).foldr
      (fun no (ws : Nat → Word) i =>
        if i = no then ws no >>> k
        else if i = no + 1 ∧ no < max - 1 then ws i ||| (ws no <<< (16 - k)) else ws i) ws =
      (range' (start / 16 + 1) ((bits - 1) / 16 - start / 16)).foldr (shiftPass max k) ws := rfl
  have hj : n % 16 < 16 := Nat.mod_lt _ (by decide)
  rw [isFillWord_eq, isFillWord_eq, isFillWord_eq, shiftHeaderBits]
  dsimp only
  rw [hloop, shiftPass_foldr_before ws max k (start / 16) _ (Nat.le_refl _)]
  by_cases hfirst : n / 16 = start / 16
  · rw [if_pos hfirst, getLsbD_or, getLsbD_head _ hj, getLsbD_shiftRight _ hj, hfirst]
    by_cases hlt : n < start
    · have htail : (decide (min k (16 - start % 16) ≤ n % 16) && ((ws (start / 16) <<< (start % 16)) >>> (start % 16)).getLsbD
          (15 - (n % 16 - min k (16 - start % 16)))) = false := by
        rw [getLsbD_tail _ (by omega), decide_eq_false (show ¬start % 16 ≤ n % 16 - min k (16 - start % 16) by omega),
          Bool.false_and, Bool.and_false]
      rw [htail, if_pos hlt, decide_eq_true (show n % 16 < start % 16 by omega), Bool.true_and, Bool.or_false]
    · rw [if_neg hlt, decide_eq_false (show ¬n % 16 < start % 16 by omega), Bool.false_and, Bool.false_or,
        getLsbD_tail _ (by omega)]
      by_cases hgap : n < start + k
      · rw [if_pos hgap]
        by_cases hle : min k (16 - start % 16) ≤ n % 16
        · rw [decide_eq_false (show ¬start % 16 ≤ n % 16 - min k (16 - start % 16) by omega), Bool.false_and,
            Bool.and_false]
        · rw [decide_eq_false hle, Bool.false_and]
      · have hfinal : min k (16 - start % 16) = k := by omega
        rw [if_neg hgap, hfinal, decide_eq_true (show k ≤ n % 16 by omega),
          decide_eq_true (show start % 16 ≤ n % 16 - k by omega), show (n - k) / 16 = start / 16 by omega,
          show n % 16 - k = (n - k) % 16 by omega]
        simp only [Bool.true_and]
  · rw [if_neg hfirst]
    by_cases hbefore : n / 16 < start / 16
    · rw [if_neg (by omega), if_pos (by omega), shiftPass_foldr_before _ _ _ _ _ (Nat.le_of_lt hbefore)]
    · have hfold := getLsbD_shiftPass_foldr hzero hk (s := start / 16) (i := n / 16) (by omega) hn hj
      by_cases hnext : n / 16 = start / 16 + 1 ∧ start / 16 < max - 1
      · have hnone : ¬(start / 16 + 1 < n / 16 ∧ n % 16 < k) := by omega
        rw [if_pos hnext, getLsbD_or, hfold, decide_eq_false hnone, Bool.false_and, Bool.or_false,
          getLsbD_shiftRight _ hj]
        have htail : (decide (k - min k (16 - start % 16) ≤ n % 16) &&
            (((ws (start / 16) <<< (start % 16)) >>> (start % 16)) <<< (16 - min k (16 - start % 16))).getLsbD
              (15 - (n % 16 - (k - min k (16 - start % 16))))) =
            (decide (start ≤ n - k ∧ n % 16 < k) && (ws (start / 16)).getLsbD (15 - (n - k) % 16)) := by
          rw [getLsbD_shiftLeft _ (by omega)]
          by_cases hin : start ≤ n - k ∧ n % 16 < k
          · have h1 : k - min k (16 - start % 16) ≤ n % 16 := by omega
            have h2 : n % 16 - (k - min k (16 - start % 16)) + (16 - min k (16 - start % 16)) = (n - k) % 16 := by omega
            have h3 : start % 16 ≤ (n - k) % 16 := by omega
            have h4 : (n - k) % 16 < 16 := by omega
            rw [h2, getLsbD_tail _ h4, decide_eq_true h1, decide_eq_true h3, decide_eq_true h4, decide_eq_true hin]
            simp only [Bool.true_and]
          · rw [decide_eq_false hin, Bool.false_and]
            by_cases h1 : k - min k (16 - start % 16) ≤ n % 16
            · by_cases h2 : n % 16 - (k - min k (16 - start % 16)) + (16 - min k (16 - start % 16)) < 16
              · have h3 : ¬start % 16 ≤ n % 16 - (k - min k (16 - start % 16)) + (16 - min k (16 - start % 16)) := by
                  omega
                rw [getLsbD_tail _ h2, decide_eq_false h3, Bool.false_and, Bool.and_false, Bool.and_false]
              · rw [decide_eq_false h2, Bool.false_and, Bool.and_false]
            · rw [decide_eq_false h1, Bool.false_and]
        rw [htail, if_neg (by omega)]
        by_cases hgap : n < start + k
        · have h1 : ¬k ≤ n % 16 := by omega
          have h2 : ¬(start ≤ n - k ∧ n % 16 < k) := by omega
          rw [if_pos hgap, decide_eq_false h1, decide_eq_false h2, Bool.false_and, Bool.false_and, Bool.or_false]
        · rw [if_neg hgap]
          by_cases hle : k ≤ n % 16
          · have h2 : ¬(start ≤ n - k ∧ n % 16 < k) := by omega
            rw [decide_eq_true hle, decide_eq_false h2, Bool.true_and, Bool.false_and, Bool.or_false,
              show (n - k) / 16 = n / 16 by omega, show (n - k) % 16 = n % 16 - k by omega]
          · have h2 : start ≤ n - k ∧ n % 16 < k := by omega
            rw [decide_eq_false hle, decide_eq_true h2, Bool.false_and, Bool.false_or, Bool.true_and,
              show (n - k) / 16 = start / 16 by omega]
      · rw [if_neg hnext, hfold, if_neg (by omega), if_neg (by omega)]
        by_cases hle : k ≤ n % 16
        · have hnone : ¬(start / 16 + 1 < n / 16 ∧ n % 16 < k) := by omega
          rw [decide_eq_true hle, decide_eq_false hnone, Bool.true_and, Bool.false_and,
            Bool.or_false, show (n - k) / 16 = n / 16 by omega, show (n - k) % 16 = n % 16 - k by omega]
        · have hsome : start / 16 + 1 < n / 16 ∧ n % 16 < k := by omega
          rw [decide_eq_false hle, decide_eq_true hsome, Bool.false_and, Bool.false_or, Bool.true_and,
            show (n - k) / 16 = n / 16 - 1 by omega, show (n - k) % 16 = n % 16 + (16 - k) by omega]

end

/-- Header bits set, one after the other. -/
theorem getLsbD_setBits (bits : List Nat) (Q : Nat → Prop) [DecidablePred Q] (w : Word) {m : Nat}
    (hQ : ∀ j ∈ bits, Q j → j / 16 = m / 16) :
    (bits.foldl (fun h j => if Q j then h ||| headerBit j else h) w).getLsbD (15 - m % 16) =
      (w.getLsbD (15 - m % 16) || decide (m ∈ bits ∧ Q m)) := by
  induction bits generalizing w with
  | nil => simp
  | cons j bits ih =>
    rw [foldl_cons, ih _ fun i hi => hQ i (mem_cons_of_mem _ hi)]
    by_cases hj : Q j
    · have hword := hQ j mem_cons_self hj
      rw [if_pos hj, getLsbD_or, getLsbD_headerBit, Bool.or_assoc]
      congr 1
      by_cases hm : m = j
      · subst hm
        simp [hj]
      · have hbit : ¬15 - m % 16 = 15 - j % 16 := by omega
        simp [hm, hbit]
    · rw [if_neg hj]
      congr 1
      apply decide_eq_decide.mpr
      constructor
      · intro ⟨hm, hq⟩
        exact ⟨mem_cons_of_mem _ hm, hq⟩
      · intro ⟨hm, hq⟩
        exact ⟨(mem_cons.mp hm).resolve_left fun hc => hj (hc ▸ hq), hq⟩

/-- Header bits cleared, one after the other. -/
theorem getLsbD_clearBits (bits : List Nat) (Q : Nat → Prop) [DecidablePred Q] (w : Word) {m : Nat}
    (hQ : ∀ j ∈ bits, Q j → j / 16 = m / 16) :
    (bits.foldl (fun h j => if Q j then h &&& ~~~(headerBit j) else h) w).getLsbD (15 - m % 16) =
      (w.getLsbD (15 - m % 16) && !decide (m ∈ bits ∧ Q m)) := by
  induction bits generalizing w with
  | nil => simp
  | cons j bits ih =>
    have hin : 15 - m % 16 < 16 := by omega
    rw [foldl_cons, ih _ fun i hi => hQ i (mem_cons_of_mem _ hi)]
    by_cases hj : Q j
    · have hword := hQ j mem_cons_self hj
      rw [if_pos hj, getLsbD_and, getLsbD_not, getLsbD_headerBit, decide_eq_true hin, Bool.true_and,
        Bool.and_assoc]
      congr 1
      by_cases hm : m = j
      · subst hm
        simp [hj]
      · have hbit : ¬15 - m % 16 = 15 - j % 16 := by omega
        simp [hm, hbit]
    · rw [if_neg hj]
      congr 2
      apply decide_eq_decide.mpr
      constructor
      · intro ⟨hm, hq⟩
        exact ⟨mem_cons_of_mem _ hm, hq⟩
      · intro ⟨hm, hq⟩
        exact ⟨(mem_cons.mp hm).resolve_left fun hc => hj (hc ▸ hq), hq⟩

/-! ### Inserting words -/

theorem cells_eq_map (h c : Nat → Word) (start n : Nat) :
    cells h c start n = (range n).map fun i => ⟨isFillWord h (start + i), c (start + i)⟩ := by
  induction n generalizing start with
  | zero => rfl
  | succ n ih =>
    rw [cells, ih, range_succ_eq_map, map_cons, map_map, Nat.add_zero]
    congr 2
    funext i
    show (⟨isFillWord h (start + 1 + i), c (start + 1 + i)⟩ : Cell) = ⟨isFillWord h (start + (i + 1)), c (start + (i + 1))⟩
    rw [Nat.add_assoc, Nat.add_comm 1 i]

/-- The word that ends up at `t` when `new` goes into `words` at `pos`. -/
def insertedCell (words new : TidBuffer) (pos t : Nat) : Cell :=
  if t < pos then ⟨isFillWord words.hwords t, words.cwords t⟩
  else if t < pos + new.curword then ⟨isFillWord new.hwords (t - pos), new.cwords (t - pos)⟩
  else ⟨isFillWord words.hwords (t - new.curword), words.cwords (t - new.curword)⟩

theorem map_insertedCell (words new : TidBuffer) {pos : Nat} (hpos : pos ≤ words.curword) :
    (range (words.curword + new.curword)).map (insertedCell words new pos) =
      cells words.hwords words.cwords 0 pos ++ new.bufCells ++
        cells words.hwords words.cwords pos (words.curword - pos) := by
  rw [show words.curword + new.curword = pos + new.curword + (words.curword - pos) by omega, range_add,
    range_add, map_append, map_append, map_map, map_map, TidBuffer.bufCells, cells_eq_map,
    cells_eq_map, cells_eq_map]
  congr 1
  · congr 1
    · apply map_congr_left
      intro t ht
      rw [insertedCell, if_pos (mem_range.mp ht), Nat.zero_add]
    · apply map_congr_left
      intro t ht
      have hlt := mem_range.mp ht
      show insertedCell words new pos (pos + t) = _
      rw [insertedCell, if_neg (by omega), if_pos (by omega), Nat.add_sub_cancel_left, Nat.zero_add]
  · apply map_congr_left
    intro t ht
    show insertedCell words new pos (pos + new.curword + t) = _
    rw [insertedCell, if_neg (by omega), if_neg (by omega), show pos + new.curword + t - new.curword = pos + t by omega]

/-- What an insert comes to: the words of the page and of those left over are the old ones with the new ones in between. -/
structure Inserts (words new : TidBuffer) (pos : Nat) (out rest : TidBuffer) : Prop where
  curword : out.curword = min (words.curword + new.curword) words.numCwords
  left : rest.curword = words.curword + new.curword - words.numCwords
  cells : out.bufCells ++ rest.bufCells = (List.range (words.curword + new.curword)).map (insertedCell words new pos)

section
variable {words new : TidBuffer} {pos : Nat}

/-- Words copied with their header words. -/
theorem cells_copied (new : TidBuffer) (h c : Nat → Word) :
    cells (fun i => if i * 16 < new.curword then new.hwords i else h i)
      (fun i => if i < new.curword then new.cwords i else c i) 0 new.curword = new.bufCells := by
  apply cells_congr
  · intro i _ hi
    rw [isFillWord_eq, isFillWord_eq, if_pos (by omega)]
  · intro i _ hi
    exact if_pos (by omega)

theorem insertNewwords_empty (left : TidBuffer) (hempty : words.curword = 0) (hk : new.curword ≤ words.numCwords) :
    Inserts words new 0 (insertNewwords words 0 new left).1 (insertNewwords words 0 new left).2 := by
  rw [insertNewwords, if_pos hempty]
  refine ⟨by dsimp only; omega, by dsimp only; omega, ?_⟩
  rw [map_insertedCell words new (Nat.zero_le _), hempty]
  exact (append_nil _).trans ((cells_copied new _ _).trans (append_nil _).symm)

theorem insertNewwords_full (left : TidBuffer) (hn : words.curword = words.numCwords) (hempty : words.curword ≠ 0)
    (hpos : pos = words.numCwords) :
    Inserts words new pos (insertNewwords words pos new left).1 (insertNewwords words pos new left).2 := by
  rw [insertNewwords, if_neg hempty, if_pos hpos]
  refine ⟨by dsimp only; omega, by dsimp only; omega, ?_⟩
  rw [map_insertedCell words new (by omega), hpos, ← hn, Nat.sub_self]
  exact (congrArg (words.bufCells ++ ·) (cells_copied new _ _)).trans (append_nil _).symm

theorem foldl_skip {Q : Nat → Prop} [DecidablePred Q] (f : Word → Nat → Word) {bits : List Nat} (w : Word)
    (h : ∀ j ∈ bits, ¬Q j) : bits.foldl (fun h j => if Q j then f h j else h) w = w := by
  induction bits with
  | nil => rfl
  | cons j bits ih =>
    rw [foldl_cons, if_neg (h j mem_cons_self)]
    exact ih fun i hi => h i (mem_cons_of_mem _ hi)

/-- The header words before the shift: the bits of the words that leave are cleared. -/
def clearedHeader (words new : TidBuffer) (pos i : Nat) : Word :=
  (List.range' pos (words.curword - pos)).foldl
    (fun h j => if j / 16 = i ∧ words.numCwords ≤ j + new.curword ∧ isFillWord words.hwords j = true
      then h &&& ~~~(headerBit j) else h) (words.hwords i)

theorem isFillWord_clearedHeader {t : Nat} (h : t < pos ∨ t + new.curword < words.numCwords) :
    isFillWord (clearedHeader words new pos) t = isFillWord words.hwords t := by
  rw [isFillWord_eq, clearedHeader, getLsbD_clearBits _ _ _ fun j _ hj => hj.1, isFillWord_eq]
  rw [decide_eq_false, Bool.not_false, Bool.and_true]
  rintro ⟨hmem, -, hle, -⟩
  have hge := (mem_range'_1.mp hmem).1
  omega

theorem clearedHeader_zero (hzero : ∀ i, words.curword ≤ i * 16 → words.hwords i = 0) {i : Nat}
    (hi : words.curword ≤ i * 16) : clearedHeader words new pos i = 0 := by
  rw [clearedHeader, foldl_skip (fun h j => h &&& ~~~(headerBit j)), hzero i hi]
  rintro j hj ⟨hdiv, -⟩
  obtain ⟨hge, hlt⟩ := mem_range'_1.mp hj
  omega

/-- The header words after the shift, with the bits of the new words. -/
def insertedHeader (words new : TidBuffer) (pos i : Nat) : Word :=
  (List.range' pos new.curword).foldl
    (fun h j => if j / 16 = i ∧ j < words.numCwords ∧ isFillWord new.hwords (j - pos) = true
      then h ||| headerBit j else h)
    (shiftHeaderBits (clearedHeader words new pos) words.curword headerWords pos new.curword i)

theorem isFillWord_insertedHeader (hmax : words.numCwords ≤ headerWords * 16) (hk : new.curword ≤ 16)
    (hzero : ∀ i, words.curword ≤ i * 16 → words.hwords i = 0) {t : Nat} (ht : t < words.numCwords) :
    isFillWord (insertedHeader words new pos) t = (insertedCell words new pos t).fill := by
  have hshift : isFillWord (shiftHeaderBits (clearedHeader words new pos) words.curword headerWords pos new.curword) t = _ :=
    isFillWord_shiftHeaderBits (fun i hi => clearedHeader_zero hzero hi) hk (by omega)
  rw [isFillWord_eq, insertedHeader, getLsbD_setBits _ _ _ fun j _ hj => hj.1, ← isFillWord_eq, hshift, insertedCell]
  by_cases hlt : t < pos
  · have hnot : ¬(t ∈ range' pos new.curword ∧ t / 16 = t / 16 ∧ t < words.numCwords ∧
        isFillWord new.hwords (t - pos) = true) := fun hc => by
      have := (mem_range'_1.mp hc.1).1
      omega
    rw [if_pos hlt, if_pos hlt, decide_eq_false hnot, Bool.or_false, isFillWord_clearedHeader (.inl hlt)]
  · rw [if_neg hlt, if_neg hlt]
    by_cases hnew : t < pos + new.curword
    · have hset : decide (t ∈ range' pos new.curword ∧ t / 16 = t / 16 ∧ t < words.numCwords ∧
          isFillWord new.hwords (t - pos) = true) = isFillWord new.hwords (t - pos) := by
        rw [Bool.eq_iff_iff, decide_eq_true_iff]
        exact ⟨fun hc => hc.2.2.2, fun hf => ⟨mem_range'_1.mpr ⟨by omega, hnew⟩, rfl, ht, hf⟩⟩
      rw [if_pos hnew, if_pos hnew, hset, Bool.false_or]
    · have hnot : ¬(t ∈ range' pos new.curword ∧ t / 16 = t / 16 ∧ t < words.numCwords ∧
          isFillWord new.hwords (t - pos) = true) := fun hc => hnew (mem_range'_1.mp hc.1).2
      rw [if_neg hnew, if_neg hnew, decide_eq_false hnot, Bool.or_false, isFillWord_clearedHeader (.inr (by omega))]

/-- The header bit and the word of the word `j` left over. -/
def leftTarget (words new : TidBuffer) (pos j : Nat) : Bool × Word :=
  if words.numCwords + j < pos + new.curword then
    (isFillWord new.hwords (words.numCwords + j - pos), new.cwords (words.numCwords + j - pos))
  else
    (isFillWord words.hwords (words.numCwords + j - new.curword), words.cwords (words.numCwords + j - new.curword))

theorem leftTarget_eq (hroom : pos < words.numCwords) (j : Nat) :
    Cell.mk (leftTarget words new pos j).1 (leftTarget words new pos j).2 =
      insertedCell words new pos (words.numCwords + j) := by
  rw [leftTarget, insertedCell, if_neg (c := words.numCwords + j < pos) (by omega)]
  split <;> rfl

theorem insertNewwords_eq (left : TidBuffer) (hempty : words.curword ≠ 0) (hroom : pos ≠ words.numCwords) :
    insertNewwords words pos new left =
      ({words with
        cwords := fun i =>
          if pos ≤ i ∧ i < pos + new.curword ∧ i < words.numCwords then new.cwords (i - pos)
          else if pos + new.curword ≤ i ∧ i < words.curword + new.curword ∧ i < words.numCwords then
            words.cwords (i - new.curword) else words.cwords i
        hwords := insertedHeader words new pos
        curword := words.curword + new.curword - (words.curword + new.curword - words.numCwords)},
      {left with
        curword := words.curword + new.curword - words.numCwords
        cwords := fun j => if j < words.curword + new.curword - words.numCwords then (leftTarget words new pos j).2
          else left.cwords j
        hwords := fun i => if i = 0 then
            (range (words.curword + new.curword - words.numCwords)).foldl
              (fun h j => if (leftTarget words new pos j).1 = true then h ||| headerBit j else h) 0
          else 0}) := by
  rw [insertNewwords, if_neg hempty, if_neg hroom]
  rfl

section
variable (left : TidBuffer) (hempty : words.curword ≠ 0) (hroom : pos < words.numCwords) (hk : new.curword ≤ 16)
include hempty hroom hk

theorem insertNewwords_kept (hmax : words.numCwords ≤ headerWords * 16)
    (hzero : ∀ i, words.curword ≤ i * 16 → words.hwords i = 0) :
    (insertNewwords words pos new left).1.bufCells =
      (range (words.curword + new.curword - (words.curword + new.curword - words.numCwords))).map
        (insertedCell words new pos) := by
  rw [insertNewwords_eq left hempty (Nat.ne_of_lt hroom)]
  refine (cells_eq_map _ _ _ _).trans (map_congr_left fun t ht => ?_)
  have hlt : t < words.curword + new.curword ∧ t < words.numCwords := by
    have := mem_range.mp ht
    dsimp only at this
    omega
  rw [Nat.zero_add, isFillWord_insertedHeader hmax hk hzero hlt.2, insertedCell]
  dsimp only
  by_cases hbefore : t < pos
  · rw [if_pos hbefore, if_neg (by omega), if_neg (by omega)]
  · rw [if_neg hbefore]
    by_cases hnew : t < pos + new.curword
    · rw [if_pos hnew, if_pos (by omega)]
    · rw [if_neg hnew, if_neg (by omega), if_pos (by omega)]

theorem insertNewwords_left (hn : words.curword ≤ words.numCwords) :
    (insertNewwords words pos new left).2.bufCells =
      (range (words.curword + new.curword - words.numCwords)).map
        fun j => insertedCell words new pos (words.numCwords + j) := by
  rw [insertNewwords_eq left hempty (Nat.ne_of_lt hroom)]
  refine (cells_eq_map _ _ _ _).trans (map_congr_left fun j hj => ?_)
  have hlt := mem_range.mp hj
  dsimp only at hlt
  have hbits := getLsbD_setBits (range (words.curword + new.curword - words.numCwords))
    (fun i => (leftTarget words new pos i).1 = true) 0 (m := j) fun i hi _ => by have := mem_range.mp hi; omega
  rw [Nat.zero_add, ← leftTarget_eq hroom, isFillWord_eq]
  dsimp only
  rw [if_pos hlt, if_pos (by omega), hbits]
  congr 1
  have hzero : (0 : Word).getLsbD (15 - j % 16) = false := getLsbD_zero
  rw [hzero, Bool.false_or, Bool.eq_iff_iff, decide_eq_true_iff]
  exact ⟨fun hc => hc.2, fun hf => ⟨hj, hf⟩⟩

end

theorem insertNewwords_moves (left : TidBuffer) (hn : words.curword ≤ words.numCwords) (hempty : words.curword ≠ 0)
    (hroom : pos < words.numCwords) (hmax : words.numCwords ≤ headerWords * 16) (hk : new.curword ≤ 16)
    (hzero : ∀ i, words.curword ≤ i * 16 → words.hwords i = 0) :
    Inserts words new pos (insertNewwords words pos new left).1 (insertNewwords words pos new left).2 := by
  have hout : (insertNewwords words pos new left).1.curword =
      words.curword + new.curword - (words.curword + new.curword - words.numCwords) := by
    rw [insertNewwords_eq left hempty (Nat.ne_of_lt hroom)]
  have hrest : (insertNewwords words pos new left).2.curword = words.curword + new.curword - words.numCwords := by
    rw [insertNewwords_eq left hempty (Nat.ne_of_lt hroom)]
  refine ⟨by omega, hrest, ?_⟩
  rw [insertNewwords_kept left hempty hroom hk hmax hzero, insertNewwords_left left hempty hroom hk hn]
  generalize hextra : words.curword + new.curword - words.numCwords = extra
  obtain ⟨m, hm⟩ : ∃ m, words.curword + new.curword = m + extra := ⟨words.curword + new.curword - extra, by omega⟩
  rw [hm, Nat.add_sub_cancel, range_add, map_append, map_map]
  congr 1
  apply map_congr_left
  intro j hj
  have hlt := mem_range.mp hj
  show _ = insertedCell words new pos (m + j)
  rw [show m = words.numCwords by omega]

/-- **Inserting words.** -/
theorem insertNewwords_inserts (left : TidBuffer) (hn : words.curword ≤ words.numCwords) (hpos : pos ≤ words.curword)
    (hmax : words.numCwords ≤ headerWords * 16) (hk : new.curword ≤ 16) (hfit : new.curword ≤ words.numCwords)
    (hzero : ∀ i, words.curword ≤ i * 16 → words.hwords i = 0) :
    Inserts words new pos (insertNewwords words pos new left).1 (insertNewwords words pos new left).2 := by
  by_cases hempty : words.curword = 0
  · obtain rfl : pos = 0 := by omega
    exact insertNewwords_empty left hempty hfit
  · by_cases hfull : pos = words.numCwords
    · exact insertNewwords_full left (by omega) hempty hfull
    · exact insertNewwords_moves left hn hempty (by omega) hmax hk hzero

end
end PgStorage.Hrl
