import PgStorage.Hrl.Write

/-! What writing words does to a page and to a vector.

The header bits of a buffer are moved to the place behind the words of a page, across
header words, and the words follow those of the page. A vector is the chain of its pages;
what does not fit on its last page goes to new ones. -/
namespace PgStorage.Hrl
open List
open BitVec (getLsbD_ushiftRight getLsbD_or getLsbD_zero)
open Relation (log_toIndex setLov_lov_self log)

section
variable (hwords : Nat → Word) (start written : Nat)

/-- The header words that `_bitmap_write_bitmapwords` copies, with the bits of other words
cleared. -/
def cleanHeader (i : Nat) : Word :=
  let numHwords := (start + written - 1) / 16 - start / 16 + 1
  let copied := if i < numHwords then hwords (start / 16 + i) else 0
  let first := if i = 0 then (copied <<< (start % 16)) >>> (start % 16) else copied
  let keep := 15 - (start + written - 1) % 16
  if i = numHwords - 1 then (first >>> keep) <<< keep else first

theorem movedHeader_eq (used : Nat) :
    movedHeader hwords start written used =
      if start % 16 < used % 16 then
        rshiftHeaderBits (cleanHeader hwords start written) ((start + written - 1) / 16 - start / 16 + 1 + 1)
          (used % 16 - start % 16)
      else if used % 16 < start % 16 then
        lshiftHeaderBits (cleanHeader hwords start written) ((start + written - 1) / 16 - start / 16 + 1)
          (start % 16 - used % 16)
      else cleanHeader hwords start written := rfl

/-- A bit of the copied words, counted from the first copied header word. -/
theorem getLsbD_cleanHeader (hpos : 0 < written) (q : Nat) :
    (cleanHeader hwords start written (q / 16)).getLsbD (15 - q % 16) =
      (decide (start % 16 ≤ q ∧ q < start % 16 + written) && isFillWord hwords (start / 16 * 16 + q)) := by
  have hbit : isFillWord hwords (start / 16 * 16 + q) = (hwords (start / 16 + q / 16)).getLsbD (15 - q % 16) := by
    rw [isFillWord_eq, show (start / 16 * 16 + q) / 16 = start / 16 + q / 16 by omega,
      show (start / 16 * 16 + q) % 16 = q % 16 by omega]
  have hin : 15 - q % 16 < 16 := by omega
  have hfirst (w : Word) :
      (if q / 16 = 0 then (w <<< (start % 16)) >>> (start % 16) else w).getLsbD (15 - q % 16) =
        (decide (start % 16 ≤ q) && w.getLsbD (15 - q % 16)) := by
    split
    · rw [getLsbD_ushiftRight, BitVec.getLsbD_shiftLeft]
      by_cases hle : start % 16 ≤ q
      · have h1 : start % 16 + (15 - q % 16) < 16 := by omega
        have h2 : ¬start % 16 + (15 - q % 16) < start % 16 := by omega
        have h3 : start % 16 + (15 - q % 16) - start % 16 = 15 - q % 16 := by omega
        simp [h1, h2, h3, hle]
      · have h1 : ¬start % 16 + (15 - q % 16) < 16 := by omega
        simp [h1, hle]
    · have hle : start % 16 ≤ q := by omega
      simp [hle]
  simp only [cleanHeader]
  by_cases hcopied : q / 16 < (start + written - 1) / 16 - start / 16 + 1
  · rw [if_pos hcopied]
    by_cases hlast : q / 16 = (start + written - 1) / 16 - start / 16 + 1 - 1
    · rw [if_pos hlast, BitVec.getLsbD_shiftLeft, getLsbD_ushiftRight]
      by_cases hlt : q < start % 16 + written
      · have h1 : ¬15 - q % 16 < 15 - (start + written - 1) % 16 := by omega
        have h2 : 15 - (start + written - 1) % 16 + (15 - q % 16 - (15 - (start + written - 1) % 16)) =
            15 - q % 16 := by omega
        rw [h2, hfirst, hbit]
        simp [hin, h1, hlt]
      · have h1 : 15 - q % 16 < 15 - (start + written - 1) % 16 := by omega
        simp [h1, hlt]
    · rw [if_neg hlast, hfirst, hbit]
      have hlt : q < start % 16 + written := by omega
      simp [hlt]
  · have hlt : ¬q < start % 16 + written := by omega
    rw [if_neg hcopied, if_neg (by omega), if_neg (by omega)]
    simp [hlt]

end

/-- Shifting right moves the bits by `bits`, across the words. -/
theorem getLsbD_rshiftHeaderBits (words : Nat → Word) {nwords bits j : Nat} (hbits : bits < 16) (hj : j / 16 < nwords) :
    (rshiftHeaderBits words nwords bits (j / 16)).getLsbD (15 - j % 16) =
      (decide (bits ≤ j) && (words ((j - bits) / 16)).getLsbD (15 - (j - bits) % 16)) := by
  have hin : 15 - j % 16 < 16 := by omega
  rw [rshiftHeaderBits, if_pos hj, getLsbD_or, getLsbD_ushiftRight]
  by_cases hsame : bits ≤ j % 16
  · have hle : bits ≤ j := by omega
    have hlow (w : Word) : (w <<< (16 - bits)).getLsbD (15 - j % 16) = false := by
      rw [BitVec.getLsbD_shiftLeft]
      have : 15 - j % 16 < 16 - bits := by omega
      simp [this]
    have hother : (if j / 16 = 0 then (0 : Word) else words (j / 16 - 1) <<< (16 - bits)).getLsbD (15 - j % 16) = false := by
      split
      · exact getLsbD_zero
      · exact hlow _
    rw [hother, show (j - bits) / 16 = j / 16 by omega, show 15 - (j - bits) % 16 = bits + (15 - j % 16) by omega]
    simp [hle]
  · have hhigh : (words (j / 16)).getLsbD (bits + (15 - j % 16)) = false := BitVec.getLsbD_of_ge _ _ (by omega)
    rw [hhigh, Bool.false_or]
    split
    · have hle : ¬bits ≤ j := by omega
      simp [hle]
    · have hle : bits ≤ j := by omega
      rw [BitVec.getLsbD_shiftLeft, show (j - bits) / 16 = j / 16 - 1 by omega,
        show 15 - (j - bits) % 16 = 15 - j % 16 - (16 - bits) by omega]
      have hge : ¬15 - j % 16 < 16 - bits := by omega
      simp [hin, hge, hle]

/-- Shifting left moves the bits the other way. -/
theorem getLsbD_lshiftHeaderBits (words : Nat → Word) {nwords bits j : Nat} (hbits : bits < 16) (hj : j / 16 < nwords) :
    (lshiftHeaderBits words nwords bits (j / 16)).getLsbD (15 - j % 16) =
      (decide ((j + bits) / 16 < nwords) && (words ((j + bits) / 16)).getLsbD (15 - (j + bits) % 16)) := by
  have hin : 15 - j % 16 < 16 := by omega
  rw [lshiftHeaderBits, if_pos hj, getLsbD_or, BitVec.getLsbD_shiftLeft]
  by_cases hsame : j % 16 + bits < 16
  · have hlt : (j + bits) / 16 < nwords := by omega
    have hge : ¬15 - j % 16 < bits := by omega
    have hlow (w : Word) : (w >>> (16 - bits)).getLsbD (15 - j % 16) = false := by
      rw [getLsbD_ushiftRight]
      exact BitVec.getLsbD_of_ge _ _ (by omega)
    have hother : (if j / 16 + 1 < nwords then words (j / 16 + 1) >>> (16 - bits) else (0 : Word)).getLsbD
        (15 - j % 16) = false := by
      split
      · exact hlow _
      · exact getLsbD_zero
    rw [hother, show (j + bits) / 16 = j / 16 by omega, show 15 - (j + bits) % 16 = 15 - j % 16 - bits by omega]
    simp [hin, hge, hj]
  · have hlt : 15 - j % 16 < bits := by omega
    have hnext : (j + bits) / 16 = j / 16 + 1 := by omega
    rw [hnext]
    split
    · rename_i hmore
      rw [getLsbD_ushiftRight, show 16 - bits + (15 - j % 16) = 15 - (j + bits) % 16 by omega]
      simp [hlt, hmore]
    · rename_i hmore
      simp [hlt, hmore]

/-- **The moved header words**: the bits of the words written, from `used % 16` on. -/
theorem getLsbD_movedHeader (hwords : Nat → Word) (start : Nat) {written : Nat} (used : Nat) (hpos : 0 < written) {j : Nat}
    (hj : j / 16 ≤ (used % 16 + written - 1) / 16) :
    (movedHeader hwords start written used (j / 16)).getLsbD (15 - j % 16) =
      (decide (used % 16 ≤ j ∧ j < used % 16 + written) && isFillWord hwords (start + (j - used % 16))) := by
  rw [movedHeader_eq]
  by_cases hin : used % 16 ≤ j
  · split
    · rw [getLsbD_rshiftHeaderBits _ (by omega) (by omega), getLsbD_cleanHeader _ _ _ hpos,
        show start / 16 * 16 + (j - (used % 16 - start % 16)) = start + (j - used % 16) by omega]
      have h1 : used % 16 - start % 16 ≤ j := by omega
      have h2 : (start % 16 ≤ j - (used % 16 - start % 16) ∧ j - (used % 16 - start % 16) < start % 16 + written) ↔
          (used % 16 ≤ j ∧ j < used % 16 + written) := by omega
      simp only [h1, h2, decide_true, Bool.true_and]
    · split
      · rw [getLsbD_lshiftHeaderBits _ (by omega) (by omega), getLsbD_cleanHeader _ _ _ hpos,
          show start / 16 * 16 + (j + (start % 16 - used % 16)) = start + (j - used % 16) by omega]
        by_cases hlt : j < used % 16 + written
        · have h1 : (j + (start % 16 - used % 16)) / 16 < (start + written - 1) / 16 - start / 16 + 1 := by omega
          have h2 : start % 16 ≤ j + (start % 16 - used % 16) ∧ j + (start % 16 - used % 16) < start % 16 + written := by
            omega
          simp only [h1, h2, hin, hlt, decide_true, Bool.true_and, and_self]
        · have h2 : ¬(start % 16 ≤ j + (start % 16 - used % 16) ∧
              j + (start % 16 - used % 16) < start % 16 + written) := by omega
          simp only [h2, hlt, and_false, decide_false, Bool.false_and, Bool.and_false]
      · have heq : start % 16 = used % 16 := by omega
        rw [getLsbD_cleanHeader _ _ _ hpos, heq,
          show start / 16 * 16 + j = start + (j - used % 16) by omega]
  · have hout : ¬(used % 16 ≤ j ∧ j < used % 16 + written) := fun hc => hin hc.1
    split
    · rw [getLsbD_rshiftHeaderBits _ (by omega) (by omega), getLsbD_cleanHeader _ _ _ hpos]
      by_cases hle : used % 16 - start % 16 ≤ j
      · have h1 : ¬(start % 16 ≤ j - (used % 16 - start % 16) ∧ j - (used % 16 - start % 16) < start % 16 + written) := by
          omega
        simp only [h1, hout, decide_false, Bool.false_and, Bool.and_false]
      · simp only [hle, hout, decide_false, Bool.false_and]
    · split
      · rw [getLsbD_lshiftHeaderBits _ (by omega) (by omega), getLsbD_cleanHeader _ _ _ hpos]
        have h1 : ¬(start % 16 ≤ j + (start % 16 - used % 16) ∧
            j + (start % 16 - used % 16) < start % 16 + written) := by omega
        simp only [h1, hout, decide_false, Bool.false_and, Bool.and_false]
      · rw [getLsbD_cleanHeader _ _ _ hpos]
        have h1 : ¬(start % 16 ≤ j ∧ j < start % 16 + written) := by omega
        simp only [h1, hout, decide_false, Bool.false_and]

/-- Words can go behind those of the page: header bits there are clear. -/
structure PageOpen (p : BMPage) : Prop where
  size : p.hrlWordsUsed ≤ hrlWordsPerPage
  clear : ∀ n, p.hrlWordsUsed ≤ n → n < hrlWordsPerPage → isFillWord p.hwords n = false

theorem emptyPage_open : PageOpen emptyPage := by
  refine ⟨Nat.zero_le _, fun n _ _ => ?_⟩
  rw [isFillWord_eq]
  exact getLsbD_zero

/-- The number of words that `_bitmap_write_bitmapwords` writes -/
def wordsWritten (page : BMPage) (buf : TidBuffer) : Nat :=
  min (buf.curword - buf.startWordno) (hrlWordsPerPage - page.hrlWordsUsed)

variable {buf : TidBuffer} {page page' : Nat → BMPage} {head b : Nat} {blocks : List Nat} {lov : Nat × Nat}
  {cs : List Cell} {rel : Relation}

theorem isFillWord_writeBitmapwords {page : BMPage} (h : PageOpen page) (hpos : 0 < wordsWritten page buf)
    {n : Nat} (hn : n < hrlWordsPerPage) :
    isFillWord (writeBitmapwords page buf).1.hwords n =
      if page.hrlWordsUsed ≤ n ∧ n < page.hrlWordsUsed + wordsWritten page buf then
        isFillWord buf.hwords (buf.startWordno + (n - page.hrlWordsUsed))
      else isFillWord page.hwords n := by
  have hclear := h.clear n
  have hsize := h.size
  simp only [writeBitmapwords]
  unfold wordsWritten at hpos ⊢
  generalize hw : min (buf.curword - buf.startWordno) (hrlWordsPerPage - page.hrlWordsUsed) = written at hpos ⊢
  generalize hu : page.hrlWordsUsed = used at hclear hsize ⊢
  have hmoved (hle : used / 16 ≤ n / 16) (hend : n / 16 ≤ (used + written - 1) / 16) :
      (movedHeader buf.hwords buf.startWordno written used (n / 16 - used / 16)).getLsbD (15 - n % 16) =
        (decide (used ≤ n ∧ n < used + written) && isFillWord buf.hwords (buf.startWordno + (n - used))) := by
    have hj := getLsbD_movedHeader buf.hwords buf.startWordno used hpos
      (show (n - used / 16 * 16) / 16 ≤ (used % 16 + written - 1) / 16 by omega)
    rw [show (n - used / 16 * 16) / 16 = n / 16 - used / 16 by omega,
      show (n - used / 16 * 16) % 16 = n % 16 by omega] at hj
    rw [hj]
    by_cases hin : used ≤ n ∧ n < used + written
    · have hin' : used % 16 ≤ n - used / 16 * 16 ∧ n - used / 16 * 16 < used % 16 + written := by omega
      rw [show n - used / 16 * 16 - used % 16 = n - used by omega]
      simp only [hin, hin', and_self, decide_true]
    · have hin' : ¬(used % 16 ≤ n - used / 16 * 16 ∧ n - used / 16 * 16 < used % 16 + written) := by omega
      simp only [hin, hin', decide_false, Bool.false_and]
  rw [isFillWord_eq _ n]
  split
  · rename_i hfirst
    have hm := hmoved (by omega) (by omega)
    rw [hfirst, Nat.sub_self] at hm
    rw [hfirst, getLsbD_or, hm, ← hfirst, ← isFillWord_eq]
    split
    · rename_i hin
      rw [hclear hin.1 hn]
      simp [hin]
    · rename_i hin
      simp [hin]
  · split
    · rename_i hfirst hnext
      rw [hmoved (by omega) hnext.2]
      split
      · rename_i hin
        simp [hin]
      · rename_i hin
        rw [hclear (by omega) hn]
        simp [hin]
    · rename_i hfirst hnext
      rw [if_neg (by omega), isFillWord_eq]

/-- **Words on a page** follow those of the page. -/
theorem writeBitmapwords_cells {page : BMPage} (h : PageOpen page) (hpos : 0 < wordsWritten page buf) :
    pageCells (writeBitmapwords page buf).1 =
      pageCells page ++ cells buf.hwords buf.cwords buf.startWordno (wordsWritten page buf) := by
  have hsize := h.size
  have hle : wordsWritten page buf ≤ hrlWordsPerPage - page.hrlWordsUsed := min_le_right ..
  have hused : (writeBitmapwords page buf).1.hrlWordsUsed = page.hrlWordsUsed + wordsWritten page buf := rfl
  have hc (i : Nat) : (writeBitmapwords page buf).1.cwords i =
      if page.hrlWordsUsed ≤ i ∧ i < page.hrlWordsUsed + wordsWritten page buf then
        buf.cwords (buf.startWordno + (i - page.hrlWordsUsed)) else page.cwords i := rfl
  rw [pageCells, hused, cells_add, zero_add]
  congr 1
  · apply cells_congr
    · intro i _ hi
      rw [isFillWord_writeBitmapwords h hpos (by omega), if_neg (by omega)]
    · intro i _ hi
      rw [hc, if_neg (by omega)]
  · apply cells_shift
    · intro i hi
      rw [isFillWord_writeBitmapwords h hpos (by omega), if_pos (by omega), Nat.add_sub_cancel_left]
    · intro i hi
      rw [hc, if_pos (by omega), Nat.add_sub_cancel_left]

theorem writeBitmapwords_open {page : BMPage} (h : PageOpen page) (hpos : 0 < wordsWritten page buf) :
    PageOpen (writeBitmapwords page buf).1 := by
  have hsize := h.size
  have hle : wordsWritten page buf ≤ hrlWordsPerPage - page.hrlWordsUsed := min_le_right ..
  have hused : (writeBitmapwords page buf).1.hrlWordsUsed = page.hrlWordsUsed + wordsWritten page buf := rfl
  refine ⟨by rw [hused]; omega, fun n hn hlt => ?_⟩
  rw [hused] at hn
  rw [isFillWord_writeBitmapwords h hpos hlt, if_neg (by omega)]
  exact h.clear n (by omega) hlt

theorem Chain.of_mem (h : Chain page head blocks)
    (hb : b ∈ blocks) : ∃ rest, Chain page b (b :: rest) ∧ rest.length < blocks.length := by
  induction h with
  | done => exact absurd hb (by simp)
  | @page c bs hne hrest ih =>
    rcases mem_cons.mp hb with rfl | hmem
    · exact ⟨bs, .page hne hrest, Nat.lt_succ_self _⟩
    · obtain ⟨rest, hchain, hlt⟩ := ih hmem
      exact ⟨rest, hchain, Nat.lt_succ_of_lt hlt⟩

theorem Chain.cons_inv {c : Nat} {rest : List Nat} (h : Chain page b (c :: rest)) :
    b = c ∧ c ≠ invalidBlockNumber ∧ Chain page (page c).bitmapNext rest := by
  cases h with
  | page hne hrest => exact ⟨rfl, hne, hrest⟩

/-- No block is twice in a chain. -/
theorem Chain.nodup (h : Chain page head blocks) :
    blocks.Nodup := by
  induction h with
  | done => exact nodup_nil
  | @page c bs hne hrest ih =>
    refine nodup_cons.mpr ⟨fun hmem => ?_, ih⟩
    obtain ⟨rest, hchain, hlt⟩ := hrest.of_mem hmem
    have heq := (Chain.page hne hrest).unique hchain
    rw [cons_inj_right] at heq
    rw [heq] at hlt
    exact absurd hlt (lt_irrefl _)

/-- The end of a chain is replaced. -/
theorem Chain.relink {pre post post' : List Nat}
    (h : Chain page head (pre ++ b :: post)) (hsame : ∀ i ∈ pre, page' i = page i)
    (hend : Chain page' b (b :: post')) : Chain page' head (pre ++ b :: post') := by
  induction pre generalizing head with
  | nil =>
    cases h with
    | page => exact hend
  | cons c pre ih =>
    cases h with
    | page hne hrest =>
      refine .page hne ?_
      rw [hsame c mem_cons_self]
      exact ih hrest fun i hi => hsame i (mem_cons_of_mem _ hi)

theorem Chain.congr (h : Chain page head blocks)
    (hsame : ∀ i ∈ blocks, page' i = page i) : Chain page' head blocks := by
  induction h with
  | done => exact .done
  | @page c bs hne hrest ih =>
    refine .page hne ?_
    rw [hsame c mem_cons_self]
    exact ih fun i hi => hsame i (mem_cons_of_mem _ hi)

/-- The part of a chain from one of its blocks on. -/
theorem Chain.suffix {pre post : List Nat}
    (h : Chain page head (pre ++ b :: post)) : Chain page b (b :: post) := by
  induction pre generalizing head with
  | nil =>
    cases h with
    | page hne hrest => exact .page hne hrest
  | cons c pre ih =>
    cases h with
    | page _ hrest => exact ih hrest

/-- The cells of pages. -/
def chainCells (page : Nat → BMPage) (blocks : List Nat) : List Cell := blocks.flatMap fun b => pageCells (page b)

theorem chainCells_append (page : Nat → BMPage) (bs cs : List Nat) :
    chainCells page (bs ++ cs) = chainCells page bs ++ chainCells page cs := flatMap_append ..

theorem chainCells_congr
    (h : ∀ b ∈ blocks, pageCells (page' b) = pageCells (page b)) : chainCells page' blocks = chainCells page blocks := by
  induction blocks with
  | nil => rfl
  | cons b bs ih =>
    simp only [chainCells, flatMap_cons] at ih ⊢
    rw [h b mem_cons_self, ih fun c hc => h c (mem_cons_of_mem _ hc)]

theorem chainCells_empty (h : ∀ b ∈ blocks, pageCells (page b) = []) :
    chainCells page blocks = [] := by
  rw [chainCells, flatMap_eq_nil_iff]
  exact h

/-- The pages of a vector: those before its tail, the tail, and empty ones behind it. -/
structure Pages (idx : Index) (head : Nat) (pre : List Nat) (tail : Nat) (post : List Nat) : Prop where
  chain : Chain idx.page head (pre ++ tail :: post)
  inside : ∀ b ∈ pre ++ tail :: post, b < idx.nblocks
  openTail : PageOpen (idx.page tail)
  empty : ∀ b ∈ post, pageCells (idx.page b) = []

section
variable {idx : Index} {head tail : Nat} {pre post : List Nat}

theorem Pages.tail_lt (h : Pages idx head pre tail post) : tail < idx.nblocks :=
  h.inside tail (mem_append_right _ mem_cons_self)

theorem Pages.head_ne (h : Pages idx head pre tail post) : head ≠ invalidBlockNumber := by
  intro hc
  rw [hc] at h
  have hnil := h.chain.unique .done
  exact absurd hnil (by simp)

theorem Pages.pre_ne (h : Pages idx head pre tail post) : ∀ b ∈ pre, b ≠ tail := by
  intro b hb heq
  have hnodup := h.chain.nodup
  rw [nodup_append] at hnodup
  exact hnodup.2.2 b hb tail mem_cons_self heq

theorem Pages.post_ne (h : Pages idx head pre tail post) : ∀ b ∈ post, b ≠ tail := by
  intro b hb heq
  have hnodup := h.chain.nodup
  rw [nodup_append] at hnodup
  exact (nodup_cons.mp hnodup.2.1).1 (heq ▸ hb)

theorem Pages.cells_eq (h : Pages idx head pre tail post) :
    chainCells idx.page (pre ++ tail :: post) = chainCells idx.page pre ++ pageCells (idx.page tail) := by
  have hpost := chainCells_empty h.empty
  simp only [chainCells, flatMap_append, flatMap_cons] at hpost ⊢
  rw [hpost, append_nil]

end

/-! ### One pass -/

/-- The words of the buffer that are left. -/
def TidBuffer.rest (buf : TidBuffer) : List Cell :=
  cells buf.hwords buf.cwords buf.startWordno (buf.curword - buf.startWordno)

/-- The page of a pass with its words, and their number. -/
def WriteState.filled (s : WriteState) : BMPage × Nat :=
  if (s.rel.page s.blk).hrlWordsUsed < hrlWordsPerPage then writeBitmapwords (s.rel.page s.blk) s.buf
  else (s.rel.page s.blk, 0)

/-- The relation of a pass, before it logs and sets the head of a vector without pages. -/
def WriteState.linked (s : WriteState) : Relation :=
  s.rel.newPage.setPage s.blk {s.filled.1 with bitmapNext := s.rel.nblocks}

theorem writePass_index (lov : Nat × Nat) (s : WriteState) :
    (writePass lov s).rel.toIndex =
      (if (s.rel.lov lov).lovHead = invalidBlockNumber then
        s.linked.setLov lov {s.rel.lov lov with lovHead := s.blk, lovTail := s.blk} else s.linked).toIndex :=
  log_toIndex ..

theorem writePass_page (lov : Nat × Nat) (s : WriteState) :
    (writePass lov s).rel.page = fun i =>
      if i = s.blk then {s.filled.1 with bitmapNext := s.rel.nblocks}
      else if i = s.rel.nblocks then emptyPage else s.rel.page i := by
  rw [writePass_index]
  split <;> rfl

theorem writePass_nblocks (lov : Nat × Nat) (s : WriteState) : (writePass lov s).rel.nblocks = s.rel.nblocks + 1 := by
  rw [writePass_index]
  split <;> rfl

theorem writePass_buf (lov : Nat × Nat) (s : WriteState) :
    (writePass lov s).buf = {s.buf with startWordno := s.buf.startWordno + s.filled.2} := rfl

theorem writePass_blk (lov : Nat × Nat) (s : WriteState) : (writePass lov s).blk = s.rel.nblocks := rfl

theorem writePass_lov (lov : Nat × Nat) (s : WriteState) :
    (writePass lov s).rel.lov lov =
      if (s.rel.lov lov).lovHead = invalidBlockNumber then {s.rel.lov lov with lovHead := s.blk, lovTail := s.blk}
      else s.rel.lov lov := by
  rw [writePass_index]
  split
  · exact setLov_lov_self ..
  · rfl

variable {s : WriteState}

/-- A page and its words, when not all words fit. -/
theorem filled_cells (hopen : PageOpen (s.rel.page s.blk)) (hover : overflows s = true) :
    s.filled.2 = hrlWordsPerPage - (s.rel.page s.blk).hrlWordsUsed ∧
      pageCells s.filled.1 ++ cells s.buf.hwords s.buf.cwords (s.buf.startWordno + s.filled.2)
        (s.buf.curword - (s.buf.startWordno + s.filled.2)) = pageCells (s.rel.page s.blk) ++ s.buf.rest := by
  have hlt : hrlWordsPerPage - (s.rel.page s.blk).hrlWordsUsed < s.buf.curword - s.buf.startWordno :=
    of_decide_eq_true hover
  have hsize := hopen.size
  unfold WriteState.filled
  split
  · rename_i hfree
    have hn : wordsWritten (s.rel.page s.blk) s.buf = hrlWordsPerPage - (s.rel.page s.blk).hrlWordsUsed :=
      min_eq_right (le_of_lt hlt)
    have hwritten : (writeBitmapwords (s.rel.page s.blk) s.buf).2 = wordsWritten (s.rel.page s.blk) s.buf := rfl
    refine ⟨by rw [hwritten, hn], ?_⟩
    rw [writeBitmapwords_cells hopen (by omega), hwritten, TidBuffer.rest, append_assoc, ← cells_add]
    congr 2
    omega
  · refine ⟨by dsimp only; omega, ?_⟩
    rfl

/-- The words that a write still has to place, and one for a full page. -/
def writeMeasure (s : WriteState) : Nat :=
  s.buf.curword - s.buf.startWordno + if (s.rel.page s.blk).hrlWordsUsed = hrlWordsPerPage then 1 else 0

/-- The loop of `_bitmap_write_new_bitmapwords`: the pages so far and the words left are
the cells `cs`. A vector without pages gets its head at the end. -/
structure Writing (lov : Nat × Nat) (cs : List Cell) (s : WriteState) : Prop where
  pages : ∃ head pre post, Pages s.rel.toIndex head pre s.blk post ∧
    ((s.rel.lov lov).lovHead = head ∨ (s.rel.lov lov).lovHead = invalidBlockNumber ∧ head = s.blk) ∧
    chainCells s.rel.page pre ++ pageCells (s.rel.page s.blk) ++ s.buf.rest = cs
  room : s.rel.nblocks + writeMeasure s < invalidBlockNumber

theorem Writing.step (h : Writing lov cs s) (hover : overflows s = true) :
    Writing lov cs (writePass lov s) ∧ writeMeasure (writePass lov s) < writeMeasure s := by
  obtain ⟨⟨head, pre, post, hpages, hhead, hcells⟩, hroom⟩ := h
  obtain ⟨hwritten, hfilled⟩ := filled_cells hpages.openTail hover
  have hlt : hrlWordsPerPage - (s.rel.page s.blk).hrlWordsUsed < s.buf.curword - s.buf.startWordno :=
    of_decide_eq_true hover
  have htail := hpages.tail_lt
  have hsize := hpages.openTail.size
  have hnew : (writePass lov s).rel.page s.rel.nblocks = emptyPage := by
    rw [writePass_page]
    simp [Nat.ne_of_gt htail]
  have hold : (writePass lov s).rel.page s.blk = {s.filled.1 with bitmapNext := s.rel.nblocks} := by
    rw [writePass_page]
    simp
  have hpre : ∀ b ∈ pre, (writePass lov s).rel.page b = s.rel.page b := by
    intro b hb
    have hne := hpages.pre_ne b hb
    have hin := hpages.inside b (mem_append_left _ hb)
    rw [writePass_page]
    simp [hne, Nat.ne_of_lt hin]
  have hmeasure : writeMeasure (writePass lov s) = s.buf.curword - (s.buf.startWordno + s.filled.2) := by
    have hempty : emptyPage.hrlWordsUsed ≠ hrlWordsPerPage := by decide
    rw [writeMeasure, writePass_blk, hnew, if_neg hempty, writePass_buf, add_zero]
  have hless : writeMeasure (writePass lov s) < writeMeasure s := by
    rw [hmeasure, hwritten, writeMeasure]
    split <;> omega
  have hfree : s.rel.nblocks ≠ invalidBlockNumber := by omega
  have hend : Chain (writePass lov s).rel.page s.blk (s.blk :: [s.rel.nblocks]) := by
    obtain ⟨-, hne, -⟩ := hpages.chain.suffix.cons_inv
    refine .page hne ?_
    rw [hold]
    exact .single rfl hfree (by rw [hnew]; rfl)
  refine ⟨⟨⟨head, pre ++ [s.blk], [], ⟨?_, ?_, ?_, ?_⟩, ?_, ?_⟩, ?_⟩, hless⟩
  · rw [writePass_blk, append_assoc]
    exact hpages.chain.relink hpre hend
  · intro b hb
    rw [writePass_nblocks]
    rw [writePass_blk, append_assoc, mem_append] at hb
    rcases hb with hb | hb
    · exact Nat.lt_succ_of_lt (hpages.inside b (mem_append_left _ hb))
    · simp only [singleton_append, mem_cons, not_mem_nil, or_false] at hb
      rcases hb with rfl | rfl
      · exact Nat.lt_succ_of_lt htail
      · exact Nat.lt_succ_self _
  · rw [writePass_blk, hnew]
    exact emptyPage_open
  · intro b hb
    exact absurd hb (by simp)
  · rw [writePass_lov]
    rcases hhead with hh | ⟨hnone, hh⟩
    · rw [if_neg (hh ▸ hpages.head_ne)]
      exact .inl hh
    · rw [if_pos hnone, hh]
      exact .inl rfl
  · have hblank : pageCells emptyPage = [] := rfl
    have hone : chainCells (writePass lov s).rel.page [s.blk] = pageCells s.filled.1 := by
      rw [chainCells, flatMap_cons, flatMap_nil, append_nil, hold]
      rfl
    rw [writePass_blk, hnew, hblank, append_nil, chainCells_append, chainCells_congr fun b hb => by rw [hpre b hb],
      hone, writePass_buf, ← hcells, append_assoc, append_assoc, ← hfilled]
    rfl
  · rw [writePass_nblocks]
    omega

theorem Writing.last (h : Writing lov cs s) (hfits : overflows s = false) :
    ∃ pre post, Pages (writeLast lov s).1.toIndex ((writeLast lov s).1.lov lov).lovHead pre
        ((writeLast lov s).1.lov lov).lovTail post ∧
      chainCells (writeLast lov s).1.page (pre ++ ((writeLast lov s).1.lov lov).lovTail :: post) = cs := by
  obtain ⟨⟨head, pre, post, hpages, hhead, hcells⟩, -⟩ := h
  have hle : ¬hrlWordsPerPage - (s.rel.page s.blk).hrlWordsUsed < s.buf.curword - s.buf.startWordno :=
    of_decide_eq_false hfits
  obtain ⟨p, hp, hopen, hnext, hpcells⟩ : ∃ p, (if s.buf.startWordno < s.buf.curword then
        writeBitmapwords (s.rel.page s.blk) s.buf else (s.rel.page s.blk, 0)).1 = p ∧ PageOpen p ∧
      p.bitmapNext = (s.rel.page s.blk).bitmapNext ∧ pageCells p = pageCells (s.rel.page s.blk) ++ s.buf.rest := by
    split
    · have hn : wordsWritten (s.rel.page s.blk) s.buf = s.buf.curword - s.buf.startWordno :=
        min_eq_left (Nat.le_of_not_lt hle)
      have hpos : 0 < wordsWritten (s.rel.page s.blk) s.buf := by omega
      refine ⟨_, rfl, writeBitmapwords_open hpages.openTail hpos, rfl, ?_⟩
      rw [writeBitmapwords_cells hpages.openTail hpos, hn]
      rfl
    · have hzero : s.buf.curword - s.buf.startWordno = 0 := by omega
      refine ⟨_, rfl, hpages.openTail, rfl, ?_⟩
      rw [TidBuffer.rest, hzero]
      exact (append_nil _).symm
  have hpage : (writeLast lov s).1.page = fun i => if i = s.blk then p else s.rel.page i := by
    rw [← hp]
    exact congrArg Index.page (log_toIndex ..)
  have hblocks : (writeLast lov s).1.nblocks = s.rel.nblocks := by
    show (log _ _).toIndex.nblocks = _
    rw [log_toIndex]
    rfl
  have hlov : ((writeLast lov s).1.lov lov).lovTail = s.blk ∧ ((writeLast lov s).1.lov lov).lovHead = head := by
    have hitem : (writeLast lov s).1.lov lov =
        { lovHead := if (s.rel.lov lov).lovHead = invalidBlockNumber then s.blk else (s.rel.lov lov).lovHead
          lovTail := s.blk, lastCompword := s.buf.lastCompword, lastWord := s.buf.lastWord
          lastTidLocation := s.buf.lastTid - s.buf.lastTid % 16, lastSetbit := s.buf.lastTid
          wordsHeader := if s.buf.isLastCompwordFill then lastCompwordBit else lovWordsNoFill } :=
      (congrFun (congrArg Index.lov (log_toIndex ..)) lov).trans (setLov_lov_self ..)
    rw [hitem]
    refine ⟨rfl, ?_⟩
    rcases hhead with hh | ⟨hnone, hh⟩
    · exact (if_neg (hh ▸ hpages.head_ne)).trans hh
    · exact (if_pos hnone).trans hh.symm
  have hsame (b : Nat) (hb : b ≠ s.blk) : (writeLast lov s).1.page b = s.rel.page b := by
    rw [hpage]
    exact if_neg hb
  have htail : (writeLast lov s).1.page s.blk = p := by
    rw [hpage]
    exact if_pos rfl
  obtain ⟨-, hne, hrest⟩ := hpages.chain.suffix.cons_inv
  have hend : Chain (writeLast lov s).1.page s.blk (s.blk :: post) := by
    refine .page hne ?_
    rw [htail, hnext]
    exact hrest.congr fun b hb => hsame b (hpages.post_ne b hb)
  have hpost : ∀ b ∈ post, pageCells ((writeLast lov s).1.page b) = [] := fun b hb => by
    rw [hsame b (hpages.post_ne b hb)]
    exact hpages.empty b hb
  have hnew : Pages (writeLast lov s).1.toIndex head pre s.blk post :=
    ⟨hpages.chain.relink (fun b hb => hsame b (hpages.pre_ne b hb)) hend,
      fun b hb => by rw [hblocks]; exact hpages.inside b hb, by rw [htail]; exact hopen, hpost⟩
  refine ⟨pre, post, ?_, ?_⟩
  · rw [hlov.1, hlov.2]
    exact hnew
  · rw [hlov.1, hnew.cells_eq, htail, hpcells, ← hcells,
      chainCells_congr fun b hb => by rw [hsame b (hpages.pre_ne b hb)], append_assoc]

/-- The pages of a vector hold the cells `cs`. -/
def PagesHold (idx : Index) (lov : Nat × Nat) (cs : List Cell) : Prop :=
  (idx.lov lov).lovHead = invalidBlockNumber ∧ cs = [] ∨
    ∃ pre post, Pages idx (idx.lov lov).lovHead pre (idx.lov lov).lovTail post ∧
      chainCells idx.page (pre ++ (idx.lov lov).lovTail :: post) = cs

theorem PagesHold.chain {idx : Index} (h : PagesHold idx lov cs) :
    ∃ blocks, Chain idx.page (idx.lov lov).lovHead blocks ∧ chainCells idx.page blocks = cs := by
  rcases h with ⟨hnone, rfl⟩ | ⟨pre, post, hpages, hcells⟩
  · rw [hnone]
    exact ⟨[], .done, rfl⟩
  · exact ⟨_, hpages.chain, hcells⟩

/-- **`_bitmap_write_new_bitmapwords` appends the words of the buffer** to those of the
pages. -/
theorem writeNew_pages (h : PagesHold rel.toIndex lov cs)
    (hroom : rel.nblocks + (buf.curword - buf.startWordno) + 2 < invalidBlockNumber) :
    PagesHold (writeNewBitmapwords rel lov buf).1.toIndex lov (cs ++ buf.rest) := by
  have hrun (s : WriteState) (hs : Writing lov (cs ++ buf.rest) s) (hbuf : s.buf = buf) :
      PagesHold (writeLast lov (Loop.whileN overflows (writePass lov) (buf.curword + 1) s)).1.toIndex lov
        (cs ++ buf.rest) := by
    have hmeasure : writeMeasure s ≤ buf.curword + 1 := by
      rw [writeMeasure, hbuf]
      split <;> omega
    obtain ⟨hend, hfits⟩ := Loop.whileN_of_invariant (Writing lov (cs ++ buf.rest)) writeMeasure
      (fun t ht hover => ht.step hover) s hs (buf.curword + 1) hmeasure
    exact .inr (hend.last hfits)
  have hmeasure (s : WriteState) (hbuf : s.buf = buf) : writeMeasure s ≤ buf.curword - buf.startWordno + 1 := by
    rw [writeMeasure, hbuf]
    split <;> omega
  simp only [writeNewBitmapwords]
  rcases h with ⟨hnone, rfl⟩ | ⟨pre, post, hpages, hcells⟩
  · rw [if_neg (not_not_intro hnone)]
    have hpage : rel.newPage.page rel.nblocks = emptyPage := rel.setPage_page_self rel.nblocks emptyPage
    have hm := hmeasure ⟨rel.newPage, buf, rel.nblocks, false⟩ rfl
    refine hrun _ ⟨⟨rel.nblocks, [], [], ⟨?_, ?_, ?_, by simp⟩, .inr ⟨hnone, rfl⟩, ?_⟩, ?_⟩ rfl
    · exact .single rfl (show rel.nblocks ≠ _ by omega) (by rw [hpage]; rfl)
    · intro b hb
      rw [nil_append, mem_singleton] at hb
      rw [hb]
      exact Nat.lt_succ_self _
    · rw [hpage]
      exact emptyPage_open
    · rw [hpage]
      rfl
    · show rel.nblocks + 1 + _ < _
      omega
  · have hm := hmeasure ⟨rel, buf, (rel.lov lov).lovTail, false⟩ rfl
    rw [if_pos hpages.head_ne]
    refine hrun _ ⟨⟨_, pre, post, hpages, .inl rfl, ?_⟩, ?_⟩ rfl
    · rw [← hcells, hpages.cells_eq]
    · show rel.nblocks + _ < _
      omega

/-! ### The last words -/

/-- The buffer, as if none of its words had been written. -/
def TidBuffer.unwritten (buf : TidBuffer) : TidBuffer := {buf with startWordno := 0}

/-- The loop over full pages changes only `start_wordno` of the buffer. -/
theorem writeLoop_buf (lov : Nat × Nat) (s : WriteState) (n : Nat) :
    (Loop.whileN overflows (writePass lov) n s).buf.unwritten = s.buf.unwritten := by
  refine Loop.whileN_induction (fun t => t.buf.unwritten = s.buf.unwritten) ?_ s rfl n
  intro t ht _
  exact ht

/-- The last write, in terms of the state the loop ends in. -/
theorem writeNew_eq (rel : Relation) (lov : Nat × Nat) (buf : TidBuffer) :
    ∃ s : WriteState, writeNewBitmapwords rel lov buf = writeLast lov s ∧ s.buf.unwritten = buf.unwritten := by
  simp only [writeNewBitmapwords]
  split
  · exact ⟨_, rfl, writeLoop_buf lov _ _⟩
  · exact ⟨_, rfl, writeLoop_buf lov _ _⟩

/-- `_bitmap_write_new_bitmapwords` keeps the buffer but for `start_wordno`. -/
theorem writeNew_buf (rel : Relation) (lov : Nat × Nat) (buf : TidBuffer) :
    ∃ start, (writeNewBitmapwords rel lov buf).2 = {buf with startWordno := start} := by
  obtain ⟨s, hs, hbuf⟩ := writeNew_eq rel lov buf
  rw [hs]
  refine ⟨(writeLast lov s).2.startWordno, ?_⟩
  exact congrArg (fun b : TidBuffer => {b with startWordno := (writeLast lov s).2.startWordno}) hbuf

/-- The LOV item takes its last words from the buffer. -/
structure LastWords (item : LovItem) (buf : TidBuffer) : Prop where
  compword : item.lastCompword = buf.lastCompword
  word : item.lastWord = buf.lastWord
  header : item.wordsHeader = if buf.isLastCompwordFill then lastCompwordBit else lovWordsNoFill
  setbit : item.lastSetbit = buf.lastTid
  location : item.lastTidLocation = buf.lastTid - buf.lastTid % 16

theorem writeLast_lastWords (lov : Nat × Nat) (s : WriteState) : LastWords ((writeLast lov s).1.lov lov) s.buf := by
  show LastWords ((log _ _).toIndex.lov lov) s.buf
  rw [log_toIndex, setLov_lov_self]
  exact ⟨rfl, rfl, rfl, rfl, rfl⟩

theorem writeNew_lov (rel : Relation) (lov : Nat × Nat) (buf : TidBuffer) :
    LastWords ((writeNewBitmapwords rel lov buf).1.lov lov) buf := by
  obtain ⟨s, hs, hbuf⟩ := writeNew_eq rel lov buf
  have hlast := writeLast_lastWords lov s
  have hsame : s.buf = {buf with startWordno := s.buf.startWordno} :=
    congrArg (fun b : TidBuffer => {b with startWordno := s.buf.startWordno}) hbuf
  rw [hs]
  rw [hsame] at hlast
  exact ⟨hlast.compword, hlast.word, hlast.header, hlast.setbit, hlast.location⟩

/-- The header byte that `_bitmap_write_new_bitmapwords` stores. -/
theorem LastWords.word_literal {item : LovItem} (h : LastWords item buf) :
    lastwordIsFill item = false := by
  rw [lastwordIsFill, h.header]
  split <;> rfl

/-- The last complete word, if there is one. -/
def TidBuffer.compCells (buf : TidBuffer) : List Cell :=
  if buf.lastCompword ≠ literalAllOne then [⟨buf.isLastCompwordFill, buf.lastCompword⟩] else []

/-- The vector has the words `ws`. -/
def HasWords (rel : Relation) (lov : Nat × Nat) (ws : List Word) : Prop :=
  ∃ blocks, Chain rel.page (rel.lov lov).lovHead blocks ∧ vectorWords rel.toIndex blocks (rel.lov lov) = ws

/-- The cells of an LOV item that has its last words from a buffer. -/
theorem LastWords.expand_cells {item : LovItem} (h : LastWords item buf) :
    expand (lovCells item) = expand buf.compCells ++ [buf.lastWord] := by
  have hfill : lastCompwordIsFill item = buf.isLastCompwordFill := by
    rw [lastCompwordIsFill, h.header]
    cases buf.isLastCompwordFill <;> rfl
  rw [lovCells, h.word_literal, hfill, h.compword, h.word, TidBuffer.compCells]
  split
  · rw [expand_cons, expand_cons, expand_cons, expand_nil, append_nil, append_nil]
    rfl
  · rfl

/-- The words of a vector, from those of its pages and the buffer of its last words. -/
theorem PagesHold.words (h : PagesHold rel.toIndex lov cs) (hlast : LastWords (rel.lov lov) buf) :
    HasWords rel lov (expand (cs ++ buf.compCells) ++ [buf.lastWord]) := by
  obtain ⟨blocks, hchain, hcells⟩ := h.chain
  refine ⟨blocks, hchain, ?_⟩
  have hvector : vectorCells rel.toIndex blocks (rel.lov lov) = cs ++ lovCells (rel.lov lov) := by
    rw [← hcells]
    rfl
  rw [vectorWords, hvector, expand_append, hlast.expand_cells, expand_append, append_assoc]

/-- **The words of a vector after a write.** -/
theorem writeNew_words (h : PagesHold rel.toIndex lov cs)
    (hroom : rel.nblocks + (buf.curword - buf.startWordno) + 2 < invalidBlockNumber) :
    HasWords (writeNewBitmapwords rel lov buf).1 lov
      (expand (cs ++ buf.rest ++ buf.compCells) ++ [buf.lastWord]) :=
  (writeNew_pages h hroom).words (writeNew_lov rel lov buf)

end PgStorage.Hrl
