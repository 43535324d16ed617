import PgStorage.Hrl.BatchProofs
import PgStorage.Hrl.Split

/-! Setting a bit in the pages of a vector.

The page and the word with the bit are found by counting bits. A literal gets the bit in place; a run of zeros becomes the
zeros before the bit's word, that word, and the zeros behind it. -/
namespace PgStorage.Hrl
open List
open BitVec (ofNat toNat_ofNat toNat_add toNat_sub toNat_udiv lt_def le_def)

theorem add_clean {buf : TidBuffer} (h : buf.Clean) (hroom : buf.curword < buf.numCwords) (fill : Bool) (w : Word)
    (tid : BitVec 64) :
    (buf.add fill w tid).Clean ∧ (buf.add fill w tid).bufCells = buf.bufCells ++ [⟨fill, w⟩] ∧
      (buf.add fill w tid).curword = buf.curword + 1 ∧ (buf.add fill w tid).curword < (buf.add fill w tid).numCwords := by
  obtain ⟨hpush, hcells⟩ := push_clean h hroom fill w tid
  obtain ⟨hclean, hext, hcur, hlt⟩ := bufExtend_clean hpush
  refine ⟨hclean, hext.trans hcells, hcur, ?_⟩
  rw [TidBuffer.add, hcur]
  exact hlt

/-- The cells of a run of `len` zeros with bit `loc` set. -/
def splitCells (len loc : Nat) : List Cell :=
  (if 16 ≤ loc then [⟨true, makeFillWord 0 (loc / 16)⟩] else []) ++ [⟨false, (1 : Word) <<< (loc % 16)⟩] ++
    if loc / 16 + 1 < len then [⟨true, makeFillWord 0 (len - loc / 16 - 1)⟩] else []

theorem splitCells_length (len loc : Nat) : 1 ≤ (splitCells len loc).length ∧ (splitCells len loc).length ≤ 3 := by
  unfold splitCells
  constructor <;> split <;> split <;> simp

theorem zeroBuffer_clean : zeroBuffer.Clean := by
  refine ⟨le_refl _, fun n _ => ?_, rfl⟩
  rw [isFillWord_eq]
  exact BitVec.getLsbD_zero

/-- The literal and the zeros behind it, added to a buffer. -/
theorem addLiteral_cells {buf : TidBuffer} (hclean : buf.Clean) (hroom : buf.curword < buf.numCwords) {word : Word}
    {loc used : BitVec 64} (first : BitVec 64) (hloc : loc.toNat < 16 * fillLength word)
    (hused : used.toNat = loc.toNat / 16 * 16) :
    let numBits := ofNat 64 (fillLength word * 16)
    let lit := buf.add false ((1 : Word) <<< (loc - used).toNat) (first + 16 - 1)
    let out :=
      if used + 16 < numBits then
        lit.add true (makeFillWord 0 ((numBits - (used + 16)) / 16).toNat)
          (first + 16 + (numBits - (used + 16)) / 16 * 16 - 1)
      else lit
    out.bufCells = buf.bufCells ++ ([⟨false, (1 : Word) <<< (loc.toNat % 16)⟩] ++
      if loc.toNat / 16 + 1 < fillLength word then [⟨true, makeFillWord 0 (fillLength word - loc.toNat / 16 - 1)⟩]
      else []) ∧ out.Clean := by
  intro numBits lit out
  have hlen := fillLength_lt word
  have h16 : (16 : BitVec 64).toNat = 16 := rfl
  have hbits : numBits.toNat = 16 * fillLength word := by
    rw [toNat_ofNat]
    omega
  have hnext : (used + 16).toNat = loc.toNat / 16 * 16 + 16 := by
    rw [toNat_add, hused, h16]
    omega
  have hbit : (loc - used).toNat = loc.toNat % 16 := by
    rw [toNat_sub, hused]
    omega
  obtain ⟨hclean', hcells', hcur', hroom'⟩ := add_clean hclean hroom false ((1 : Word) <<< (loc - used).toNat) (first + 16 - 1)
  replace hcells' : lit.bufCells = buf.bufCells ++ [⟨false, (1 : Word) <<< (loc.toNat % 16)⟩] := by rw [← hbit]; exact hcells'
  by_cases hmore : used + 16 < numBits
  · have hrest : ((numBits - (used + 16)) / 16).toNat = fillLength word - loc.toNat / 16 - 1 := by
      rw [toNat_udiv, toNat_sub, hnext, hbits, h16]
      omega
    have hlt : loc.toNat / 16 + 1 < fillLength word := by
      rw [lt_def, hnext, hbits] at hmore
      omega
    obtain ⟨hclean'', hcells'', -, -⟩ := add_clean hclean' hroom' true (makeFillWord 0 ((numBits - (used + 16)) / 16).toNat)
      (first + 16 + (numBits - (used + 16)) / 16 * 16 - 1)
    rw [show out = _ from if_pos hmore, if_pos hlt, ← hrest, ← append_assoc, ← hcells']
    exact ⟨hcells'', hclean''⟩
  · have hlt : ¬loc.toNat / 16 + 1 < fillLength word := by
      rw [lt_def, hnext, hbits] at hmore
      omega
    rw [show out = lit from if_neg hmore, if_neg hlt, append_nil]
    exact ⟨hcells', hclean'⟩

theorem updatesetbitInword_cells {word : Word} {loc : BitVec 64} (first : BitVec 64)
    (hloc : loc.toNat < 16 * fillLength word) :
    (updatesetbitInword word loc first (bufExtend zeroBuffer)).bufCells = splitCells (fillLength word) loc.toNat ∧
      (updatesetbitInword word loc first (bufExtend zeroBuffer)).Clean := by
  obtain ⟨hclean, hcells, hcur, hroom⟩ := bufExtend_clean zeroBuffer_clean
  rw [← hcur] at hroom
  have hnil : (bufExtend zeroBuffer).bufCells = [] := hcells
  generalize bufExtend zeroBuffer = buf at hclean hroom hnil
  have h16 : (16 : BitVec 64).toNat = 16 := rfl
  have hdiv : (loc / 16).toNat = loc.toNat / 16 := by rw [toNat_udiv, h16]
  have hlt := loc.isLt
  rw [updatesetbitInword, splitCells, append_assoc]
  by_cases hlong : 16 ≤ loc
  · have hlong' : 16 ≤ loc.toNat := by
      rw [le_def, h16] at hlong
      exact hlong
    have hused : (loc / 16 * 16).toNat = loc.toNat / 16 * 16 := by
      rw [BitVec.toNat_mul, hdiv, h16]
      omega
    obtain ⟨hclean', hcells', -, hroom'⟩ := add_clean hclean hroom true (makeFillWord 0 (loc / 16).toNat)
      (first + loc / 16 * 16 - 1)
    have h := addLiteral_cells hclean' hroom' (first + loc / 16 * 16) hloc hused
    rw [hcells', hnil, nil_append, hdiv] at h
    rw [if_pos hlong, if_pos hlong', hdiv]
    exact h
  · have hshort : ¬16 ≤ loc.toNat := by
      rw [le_def, h16] at hlong
      exact hlong
    have hused : (0 : BitVec 64).toNat = loc.toNat / 16 * 16 := by
      show 0 = _
      omega
    have h := addLiteral_cells hclean hroom first hloc hused
    rw [hnil] at h
    rw [if_neg hlong, if_neg hshort]
    exact h

/-- The words of a run of zeros with one bit set. -/
theorem expand_splitCells {len loc : Nat} (hlen : len ≤ maxFillLength) (hloc : loc < 16 * len) :
    expand (splitCells len loc) =
      replicate (loc / 16) 0 ++ (1 : Word) <<< (loc % 16) :: replicate (len - loc / 16 - 1) 0 := by
  have hzeros (n : Nat) (hn : n ≤ maxFillLength) : (Cell.mk true (makeFillWord 0 n)).words = replicate n 0 := by
    obtain ⟨hl, hb⟩ := makeFillWord_zero hn
    simp only [Cell.words, if_true, hl, hb]
    rfl
  have hfirst : expand (if 16 ≤ loc then [⟨true, makeFillWord 0 (loc / 16)⟩] else []) = replicate (loc / 16) 0 := by
    split
    next => rw [expand_cons, expand_nil, append_nil, hzeros _ (by omega)]
    next h => rw [expand_nil, show loc / 16 = 0 by omega, replicate_zero]
  have hlast : expand (if loc / 16 + 1 < len then [⟨true, makeFillWord 0 (len - loc / 16 - 1)⟩] else []) =
      replicate (len - loc / 16 - 1) 0 := by
    split
    next => rw [expand_cons, expand_nil, append_nil, hzeros _ (by omega)]
    next h => rw [expand_nil, show len - loc / 16 - 1 = 0 by omega, replicate_zero]
  rw [splitCells, expand_append, expand_append, hfirst, hlast, append_assoc]
  rfl

/-- The cells before and behind a word of a page. -/
def cellsBefore (p : BMPage) (wordNo : Nat) : List Cell := cells p.hwords p.cwords 0 wordNo
def cellsFrom (p : BMPage) (wordNo : Nat) : List Cell := cells p.hwords p.cwords wordNo (p.hrlWordsUsed - wordNo)

variable {p : BMPage} {wordNo : Nat}

theorem pageCells_at (h : wordNo ≤ p.hrlWordsUsed) :
    pageCells p = cellsBefore p wordNo ++ cellsFrom p wordNo := by
  have hsplit := cells_add p.hwords p.cwords 0 wordNo (p.hrlWordsUsed - wordNo)
  rw [zero_add, Nat.add_sub_cancel' h] at hsplit
  exact hsplit

theorem cellsFrom_cons (h : wordNo < p.hrlWordsUsed) :
    cellsFrom p wordNo = ⟨isFillWord p.hwords wordNo, p.cwords wordNo⟩ :: cellsFrom p (wordNo + 1) := by
  rw [cellsFrom, cellsFrom, show p.hrlWordsUsed - wordNo = p.hrlWordsUsed - (wordNo + 1) + 1 by omega, cells]

theorem cellsBefore_succ (p : BMPage) (wordNo : Nat) :
    cellsBefore p (wordNo + 1) = cellsBefore p wordNo ++ [⟨isFillWord p.hwords wordNo, p.cwords wordNo⟩] := by
  rw [cellsBefore, cellsBefore, cells_add, zero_add, cells, cells]

theorem pageCells_split (h : wordNo < p.hrlWordsUsed) :
    pageCells p = cellsBefore p wordNo ++ ⟨isFillWord p.hwords wordNo, p.cwords wordNo⟩ :: cellsFrom p (wordNo + 1) := by
  rw [pageCells_at (le_of_lt h), cellsFrom_cons h]

/-- Pages that differ in one word. -/
structure WordAt (p q : BMPage) (wordNo : Nat) (c : Cell) : Prop where
  used : q.hrlWordsUsed = p.hrlWordsUsed
  before : cellsBefore q wordNo = cellsBefore p wordNo
  behind : cellsFrom q (wordNo + 1) = cellsFrom p (wordNo + 1)
  cell : Cell.mk (isFillWord q.hwords wordNo) (q.cwords wordNo) = c

theorem WordAt.cells {q : BMPage} {c : Cell} (h : WordAt p q wordNo c) (hlt : wordNo < p.hrlWordsUsed) :
    pageCells q = cellsBefore p wordNo ++ c :: cellsFrom p (wordNo + 1) := by
  rw [pageCells_split (by rw [h.used]; exact hlt), h.before, h.behind, h.cell]

theorem wordAt_setWord (p : BMPage) (wordNo : Nat) (w : Word) :
    WordAt p (p.setWord wordNo w) wordNo ⟨isFillWord p.hwords wordNo, w⟩ := by
  refine ⟨rfl, cells_congr (fun _ _ _ => rfl) fun i _ hi => if_neg (by omega),
    cells_congr (fun _ _ _ => rfl) fun i hi _ => if_neg (by omega), ?_⟩
  show Cell.mk (isFillWord p.hwords wordNo) (if wordNo = wordNo then w else _) = _
  rw [if_pos rfl]

/-- Clearing one header bit. -/
theorem isFillWord_clear (h : Nat → Word) (m n : Nat) :
    isFillWord (fun i => if i = m / 16 then h i &&& ~~~(headerBit m) else h i) n =
      (isFillWord h n && !decide (n = m)) := by
  rw [isFillWord_eq, isFillWord_eq]
  have hin : 15 - n % 16 < 16 := by omega
  by_cases hdiv : n / 16 = m / 16
  · rw [if_pos hdiv, BitVec.getLsbD_and, BitVec.getLsbD_not, getLsbD_headerBit, decide_eq_true hin, Bool.true_and]
    congr 2
    exact decide_eq_decide.mpr (by omega)
  · have hne : n ≠ m := fun hc => hdiv (by rw [hc])
    rw [if_neg hdiv, decide_eq_false hne, Bool.not_false, Bool.and_true]

theorem wordAt_clearBit (p : BMPage) (wordNo : Nat) (w : Word) :
    WordAt p ((p.setWord wordNo w).clearBit wordNo) wordNo ⟨false, w⟩ := by
  refine ⟨rfl, cells_congr (fun i _ hi => ?_) fun i _ hi => if_neg (by omega),
    cells_congr (fun i hi _ => ?_) fun i hi _ => if_neg (by omega), ?_⟩
  · exact (isFillWord_clear ..).trans (by rw [decide_eq_false (by omega), Bool.not_false, Bool.and_true]; rfl)
  · exact (isFillWord_clear ..).trans (by rw [decide_eq_false (by omega), Bool.not_false, Bool.and_true]; rfl)
  · have hclear : isFillWord ((p.setWord wordNo w).clearBit wordNo).hwords wordNo = false := by
      refine (isFillWord_clear ..).trans ?_
      rw [decide_eq_true rfl, Bool.not_true, Bool.and_false]
    rw [hclear]
    show Cell.mk false (if wordNo = wordNo then w else _) = _
    rw [if_pos rfl]

theorem pageBuffer_cells (p : BMPage) {start n : Nat} (h : start + n ≤ p.hrlWordsUsed) :
    cells (pageBuffer p).hwords (pageBuffer p).cwords start n = cells p.hwords p.cwords start n := by
  apply cells_congr
  · intro i _ hi
    rw [isFillWord_eq, isFillWord_eq, pageBuffer]
    dsimp only
    rw [if_pos (by omega)]
  · intro i _ _
    rfl

theorem setBuffer_cells (p : BMPage) (buf : TidBuffer) : pageCells (p.setBuffer buf) = buf.bufCells := by
  apply cells_congr
  · intro i _ hi
    have hlt : i < buf.curword := by rwa [zero_add] at hi
    rw [isFillWord_eq, isFillWord_eq, BMPage.setBuffer]
    dsimp only
    rw [if_pos (by omega)]
  · intro i _ _
    rfl

theorem pageInsert (p : BMPage) (pos : Nat) (new left : TidBuffer) (hsize : p.hrlWordsUsed ≤ hrlWordsPerPage)
    (hpos : pos ≤ p.hrlWordsUsed) (hk : new.curword ≤ 16) :
    pageCells (p.setBuffer (insertNewwords (pageBuffer p) pos new left).1) ++
        (insertNewwords (pageBuffer p) pos new left).2.bufCells =
      cellsBefore p pos ++ new.bufCells ++ cellsFrom p pos ∧
    (insertNewwords (pageBuffer p) pos new left).1.curword = min (p.hrlWordsUsed + new.curword) hrlWordsPerPage ∧
    (insertNewwords (pageBuffer p) pos new left).2.curword = p.hrlWordsUsed + new.curword - hrlWordsPerPage := by
  have hroom : 16 ≤ hrlWordsPerPage := by decide
  have h : Inserts (pageBuffer p) new pos (insertNewwords (pageBuffer p) pos new left).1
      (insertNewwords (pageBuffer p) pos new left).2 :=
    insertNewwords_inserts left hsize hpos (le_refl _) hk (le_trans hk hroom) fun i hi => if_neg (Nat.not_lt.mpr hi)
  refine ⟨?_, h.curword, h.left⟩
  rw [setBuffer_cells, h.cells, map_insertedCell _ _ hpos, pageBuffer_cells p (by omega),
    show (pageBuffer p).curword = p.hrlWordsUsed from rfl,
    pageBuffer_cells p (show pos + (p.hrlWordsUsed - pos) ≤ _ by omega)]
  rfl

/-- The buffer without its first word. -/
theorem dropFirst_cells {new : TidBuffer} {d : Cell} {ds : List Cell} (h : new.bufCells = d :: ds) (hk : new.curword ≤ 16) :
    new.dropFirst.bufCells = ds ∧ new.dropFirst.curword = ds.length ∧ d = ⟨isFillWord new.hwords 0, new.cwords 0⟩ := by
  have hlen : new.curword = ds.length + 1 := by
    rw [← length_cons, ← h, TidBuffer.bufCells, cells_length]
  rw [TidBuffer.bufCells, hlen, cells, cons.injEq] at h
  obtain ⟨hd, hds⟩ := h
  have hcur : new.dropFirst.curword = ds.length := by
    show new.curword - 1 = _
    omega
  refine ⟨?_, hcur, hd.symm⟩
  rw [← hds, TidBuffer.bufCells, hcur]
  apply cells_shift
  · intro i hi
    rw [isFillWord_eq, isFillWord_eq, TidBuffer.dropFirst]
    dsimp only
    rw [if_pos (by omega), show (0 + 1 + i) / 16 = 0 by omega, getLsbD_shiftLeft _ (by omega),
      decide_eq_true (by omega), Bool.true_and]
    congr 1
    omega
  · intro i hi
    show (if 0 + i < new.curword - 1 then _ else _) = _
    rw [if_pos (by omega)]
    congr 1
    omega

theorem wordBits_eq (fill : Bool) (w : Word) : wordBits fill w = ofNat 64 (16 * (Cell.mk fill w).words.length) := by
  unfold wordBits Cell.words
  cases fill
  · rfl
  · rw [if_pos rfl, if_pos rfl, length_replicate, mul_comm]

theorem getnumbits_eq (cwords hwords : Nat → Word) (n : Nat) :
    getnumbits cwords hwords n = ofNat 64 (16 * (expand (cells hwords cwords 0 n)).length) := by
  induction n with
  | zero => rfl
  | succ n ih =>
    rw [getnumbits, ih, wordBits_eq, ← BitVec.ofNat_add, cells_add, zero_add, cells, cells, expand_append, expand_cons,
      expand_nil, append_nil, length_append, mul_add]

theorem findWord_from (p : BMPage) {first tidnum : BitVec 64} {base : Nat} (hfirst : first.toNat = 16 * base + 1)
    (n wordNo : Nat) (bitNo : BitVec 64) {m : Nat} (hbit : bitNo.toNat = 16 * m) (hlow : 16 * (base + m) < tidnum.toNat)
    (hhigh : tidnum.toNat ≤ 16 * (base + m + (expand (cells p.hwords p.cwords wordNo n)).length))
    (hend : 16 * (base + m + (expand (cells p.hwords p.cwords wordNo n)).length) < 2 ^ 64) :
    ∃ i < n, ∃ bitNo' : BitVec 64, findWord p first tidnum n wordNo bitNo = some (wordNo + i, bitNo') ∧
      bitNo'.toNat = 16 * (m + (expand (cells p.hwords p.cwords wordNo (i + 1))).length) ∧
      16 * (base + m + (expand (cells p.hwords p.cwords wordNo i)).length) < tidnum.toNat ∧
      tidnum.toNat ≤ 16 * (base + m + (expand (cells p.hwords p.cwords wordNo (i + 1))).length) := by
  induction n generalizing wordNo bitNo m with
  | zero =>
    rw [cells, expand_nil, length_nil] at hhigh
    omega
  | succ n ih =>
    have hcons (k : Nat) : (expand (cells p.hwords p.cwords wordNo (k + 1))).length =
        (Cell.mk (isFillWord p.hwords wordNo) (p.cwords wordNo)).words.length +
          (expand (cells p.hwords p.cwords (wordNo + 1) k)).length := by
      rw [cells, expand_cons, length_append]
    rw [hcons] at hhigh hend
    have hbits := wordBits_eq (isFillWord p.hwords wordNo) (p.cwords wordNo)
    have hone : (expand (cells p.hwords p.cwords wordNo 1)).length =
        (Cell.mk (isFillWord p.hwords wordNo) (p.cwords wordNo)).words.length := hcons 0
    generalize (Cell.mk (isFillWord p.hwords wordNo) (p.cwords wordNo)).words.length = len at hcons hhigh hend hbits hone
    have hnext : (bitNo + wordBits (isFillWord p.hwords wordNo) (p.cwords wordNo)).toNat = 16 * (m + len) := by
      rw [hbits, toNat_add, toNat_ofNat]
      omega
    have hpos : (first + (bitNo + wordBits (isFillWord p.hwords wordNo) (p.cwords wordNo)) - 1).toNat =
        16 * (base + (m + len)) := by
      have h1 : (1 : BitVec 64).toNat = 1 := rfl
      rw [toNat_sub, toNat_add, hnext, hfirst, h1]
      omega
    rw [findWord]
    by_cases hfound : tidnum ≤ first + (bitNo + wordBits (isFillWord p.hwords wordNo) (p.cwords wordNo)) - 1
    · rw [if_pos hfound]
      rw [le_def, hpos] at hfound
      refine ⟨0, Nat.succ_pos n, _, rfl, ?_, ?_, ?_⟩
      · rw [hnext, hone]
      · rw [cells, expand_nil]
        exact hlow
      · rw [hone]
        omega
    · rw [if_neg hfound]
      rw [le_def, hpos] at hfound
      obtain ⟨i, hi, bitNo', hfind, hb, hl, hh⟩ := ih (wordNo + 1) _ hnext (by omega) (by omega) (by omega)
      refine ⟨i + 1, Nat.succ_lt_succ hi, bitNo', ?_, ?_, ?_, ?_⟩
      · rw [hfind, show wordNo + 1 + i = wordNo + (i + 1) by omega]
      · rw [hb, hcons (i + 1)]
        omega
      · rw [hcons i]
        omega
      · rw [hcons (i + 1)]
        omega

/-- The word with a bit of a page whose first bit comes behind `base` words. -/
structure Found (p : BMPage) (base : Nat) (tidnum : BitVec 64) (wordNo : Nat) (bitNo : BitVec 64) : Prop where
  inside : wordNo < p.hrlWordsUsed
  bits : bitNo.toNat = 16 * (expand (cellsBefore p (wordNo + 1))).length
  low : 16 * (base + (expand (cellsBefore p wordNo)).length) < tidnum.toNat
  high : tidnum.toNat ≤ 16 * (base + (expand (cellsBefore p (wordNo + 1))).length)

theorem findWord_found {first tidnum : BitVec 64} {base : Nat} (hfirst : first.toNat = 16 * base + 1)
    (hlow : 16 * base < tidnum.toNat) (hhigh : tidnum.toNat ≤ 16 * (base + (expand (pageCells p)).length))
    (hend : 16 * (base + (expand (pageCells p)).length) < 2 ^ 64) :
    ∃ wordNo bitNo, findWord p first tidnum p.hrlWordsUsed 0 0 = some (wordNo, bitNo) ∧
      Found p base tidnum wordNo bitNo := by
  obtain ⟨i, hi, bitNo, hfind, hb, hl, hh⟩ :=
    findWord_from p hfirst p.hrlWordsUsed 0 0 (m := 0) rfl hlow hhigh hend
  rw [zero_add] at hfind hb
  exact ⟨i, bitNo, hfind, hi, hb, hl, hh⟩

/-! ### Setting a bit -/

/-- A list of words with one bit set. -/
def setBit (ws : List Word) (t : Nat) : List Word := ws.modify ((t - 1) / 16) (· ||| (1 : Word) <<< ((t - 1) % 16))

theorem setBit_length (ws : List Word) (t : Nat) : (setBit ws t).length = ws.length := length_modify ..

theorem bitAt_setBit {ws : List Word} {t p : Nat} (ht : 1 ≤ t) (hle : t ≤ 16 * ws.length) (hp : 1 ≤ p) :
    bitAt (setBit ws t) p = (bitAt ws p || decide (p = t)) := by
  rw [bitAt, bitAt, getD_eq_getElem?_getD, getD_eq_getElem?_getD, setBit, getElem?_modify]
  by_cases hword : (t - 1) / 16 = (p - 1) / 16
  · have hlt : (p - 1) / 16 < ws.length := by omega
    rw [getElem?_eq_getElem hlt]
    show (if (t - 1) / 16 = (p - 1) / 16 then _ else _ : Word).getLsbD _ = _
    have hin : (p - 1) % 16 < 16 := Nat.mod_lt _ (by decide)
    have hone : ((1 : Word) <<< ((t - 1) % 16)).getLsbD ((p - 1) % 16) = decide ((p - 1) % 16 = (t - 1) % 16) := by
      have hpow : (1 : Word) <<< ((t - 1) % 16) = BitVec.twoPow 16 ((t - 1) % 16) := by rw [BitVec.twoPow_eq]; rfl
      rw [hpow, BitVec.getLsbD_twoPow, decide_eq_true (Nat.mod_lt _ (by decide)), Bool.true_and]
      exact decide_eq_decide.mpr eq_comm
    rw [if_pos hword, BitVec.getLsbD_or, hone]
    congr 1
    exact decide_eq_decide.mpr (by omega)
  · have hne : ¬p = t := by
      rintro rfl
      exact hword rfl
    rw [decide_eq_false hne, Bool.or_false]
    cases ws[(p - 1) / 16]? with
    | none => rfl
    | some w =>
      show (if (t - 1) / 16 = (p - 1) / 16 then _ else w : Word).getLsbD _ = _
      rw [if_neg hword]
      rfl

theorem modify_append_right {α : Type} (xs ys : List α) (i : Nat) (f : α → α) :
    (xs ++ ys).modify (xs.length + i) f = xs ++ ys.modify i f := by
  induction xs with
  | nil => rw [nil_append, nil_append, length_nil, zero_add]
  | cons x xs ih =>
    rw [cons_append, cons_append, length_cons, add_right_comm, modify_succ_cons, ih]

theorem modify_append_left {α : Type} {xs : List α} (ys : List α) {i : Nat} (f : α → α) (h : i < xs.length) :
    (xs ++ ys).modify i f = xs.modify i f ++ ys := by
  induction xs generalizing i with
  | nil => exact absurd h (Nat.not_lt_zero i)
  | cons x xs ih =>
    cases i with
    | zero => rfl
    | succ i =>
      rw [cons_append, modify_succ_cons, modify_succ_cons, ih (Nat.lt_of_succ_lt_succ h), cons_append]

/-- A bit set in the middle. -/
theorem setBit_append {xs ys zs : List Word} {t : Nat} (hlow : 16 * xs.length < t) (hhigh : t ≤ 16 * (xs.length + ys.length)) :
    setBit (xs ++ ys ++ zs) t = xs ++ setBit ys (t - 16 * xs.length) ++ zs := by
  have hword : (t - 1) / 16 = xs.length + (t - 16 * xs.length - 1) / 16 := by omega
  have hbit : (t - 1) % 16 = (t - 16 * xs.length - 1) % 16 := by omega
  rw [setBit, hword, hbit, setBit, append_assoc, append_assoc, modify_append_right,
    modify_append_left _ _ (by omega)]

/-- A bit of a literal, which comes behind `base` words. -/
theorem setBit_literal (w : Word) {base t : Nat} (hlow : 16 * base < t) (hhigh : t ≤ 16 * (base + 1)) :
    setBit [w] (t - 16 * base) = [w ||| (1 : Word) <<< ((t - 1) % 16)] := by
  rw [setBit, show (t - 16 * base - 1) / 16 = 0 by omega, show (t - 16 * base - 1) % 16 = (t - 1) % 16 by omega]
  rfl

/-- A bit of a run of ones is set. -/
theorem setBit_ones (len t : Nat) : setBit (replicate len literalAllOne) t = replicate len literalAllOne := by
  apply ext_getElem?
  intro i
  rw [setBit, getElem?_modify, getElem?_replicate]
  split
  · split
    · exact congrArg some (allOne_or _)
    · rfl
  · split <;> rfl

/-- A bit of a run of zeros. -/
theorem setBit_zeros {len loc : Nat} (hloc : loc < 16 * len) :
    setBit (replicate len 0) (loc + 1) =
      replicate (loc / 16) 0 ++ (1 : Word) <<< (loc % 16) :: replicate (len - loc / 16 - 1) 0 := by
  have hsplit : replicate len (0 : Word) =
      replicate (loc / 16) 0 ++ (0 :: replicate (len - loc / 16 - 1) 0) := by
    rw [← replicate_succ, replicate_append_replicate]
    congr 1
    omega
  have hright := modify_append_right (replicate (loc / 16) (0 : Word)) (0 :: replicate (len - loc / 16 - 1) 0) 0
    (· ||| (1 : Word) <<< (loc % 16))
  rw [length_replicate, add_zero, modify_zero_cons] at hright
  rw [setBit, Nat.add_sub_cancel, hsplit, hright]
  congr 2
  exact BitVec.zero_or

end PgStorage.Hrl
