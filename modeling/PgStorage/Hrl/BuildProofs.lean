import PgStorage.Hrl.InsertProofs

/-! What a build leaves in a vector.

The words of a buffer are its complete words, behind those already written. A flush puts
the words of one heap block behind them, from the place the vector has come to: it does
not look at the number of the block. So the bits are right only if the block starts there. -/
namespace PgStorage.Hrl
open List Nat TidBuffer
open BitVec (ofNat getLsbD_zero)

namespace TidBuffer

def bufCells (buf : TidBuffer) : List Cell := cells buf.hwords buf.cwords 0 buf.curword

/-- The complete words. -/
def words (buf : TidBuffer) : List Word := expand (buf.bufCells ++ buf.compCells)

/-- The arrays hold the words of the buffer and nothing behind them. -/
structure Clean (buf : TidBuffer) : Prop where
  room : buf.curword ≤ buf.numCwords
  clear : ∀ n, buf.curword ≤ n → isFillWord buf.hwords n = false
  start : buf.startWordno = 0

end TidBuffer

variable {buf : TidBuffer} {rel : Relation} {lov : Nat × Nat} {block start : Nat}

theorem bufExtend_clean (h : buf.Clean) :
    (bufExtend buf).Clean ∧ (bufExtend buf).bufCells = buf.bufCells ∧ (bufExtend buf).curword = buf.curword ∧
      buf.curword < (bufExtend buf).numCwords := by
  have hroom := h.room
  unfold bufExtend
  split
  · exact ⟨h, rfl, rfl, by omega⟩
  · split
    · rename_i hzero
      have hcur : buf.curword = 0 := by omega
      refine ⟨⟨by dsimp only; omega, h.clear, h.start⟩, ?_, rfl, by dsimp only; rw [hcur]; decide⟩
      simp only [bufCells, hcur, cells]
    · refine ⟨⟨by dsimp only; omega, h.clear, h.start⟩, ?_, rfl, by dsimp only; omega⟩
      show cells buf.hwords (fun i => if i < buf.numCwords then buf.cwords i else 0) 0 buf.curword = _
      apply cells_congr
      · intro i _ _
        rfl
      · intro i _ hi
        exact if_pos (by omega)

theorem push_clean (h : buf.Clean) (hroom : buf.curword < buf.numCwords) (fill : Bool) (w : Word)
    (tid : BitVec 64) : (buf.push fill w tid).Clean ∧ (buf.push fill w tid).bufCells = buf.bufCells ++ [⟨fill, w⟩] := by
  refine ⟨⟨hroom, fun n hn => ?_, h.start⟩, cells_snoc (h.clear _ (Nat.le_refl _)) fill w⟩
  have hlt : buf.curword < n := hn
  show isFillWord (fun i => if i = buf.curword / 16 ∧ fill = true then _ else _) n = false
  rw [isFillWord_set, h.clear n (by omega), show decide (n = buf.curword) = false from decide_eq_false (by omega)]
  rfl

/-- Two fills of one bit. -/
theorem words_append_fill {v w : Word} (hbit : fillBit v = fillBit w) {k : Nat} (hk : k ≤ fillLength w)
    (hle : fillLength v + k ≤ maxFillLength) :
    (Cell.mk true (v + ofNat 16 k)).words ++ (Cell.mk true (w - ofNat 16 k)).words =
      (Cell.mk true v).words ++ (Cell.mk true w).words := by
  obtain ⟨hadd, haddb⟩ := fill_add hle
  obtain ⟨hsub, hsubb⟩ := fill_sub hk
  simp only [Cell.words, if_true, hadd, haddb, hsub, hsubb, hbit, replicate_append_replicate]
  congr 1
  omega

theorem literalAllOne_length : fillLength literalAllOne = maxFillLength := by decide

/-- A fill that is not full is not the mark for no word. -/
theorem ne_literalAllOne {w : Word} (h : fillLength w < maxFillLength) : w ≠ literalAllOne := by
  rintro rfl
  exact absurd h (by decide)

namespace TidBuffer
variable {buf : TidBuffer}

theorem words_of_comp (h : buf.lastCompword ≠ literalAllOne) :
    buf.words = expand buf.bufCells ++ (Cell.mk buf.isLastCompwordFill buf.lastCompword).words := by
  rw [words, compCells, if_pos h, expand_append, expand_cons, expand_nil, append_nil]

theorem words_of_no_comp (h : buf.lastCompword = literalAllOne) : buf.words = expand buf.bufCells := by
  rw [words, compCells, if_neg (not_not_intro h), append_nil]

end TidBuffer

/-- What a fill takes of the next one, when it can take some but not all of it. -/
theorem words_append_part {comp last : Word} (fill fill' : Bool) (hlast : last ≠ literalAllOne)
    (hlong : (fill && fill' && fillBit comp == fillBit last) = true →
      maxFillLength ≤ fillLength comp + fillLength last) {merged : Nat}
    (hmerged : merged = if (fill && fill' && fillBit comp == fillBit last) = true then maxFillLength - fillLength comp
      else 0) :
    (Cell.mk fill (comp + ofNat 16 merged)).words ++ (Cell.mk fill' (last - ofNat 16 merged)).words =
      (Cell.mk fill comp).words ++ (Cell.mk fill' last).words ∧ last - ofNat 16 merged ≠ literalAllOne := by
  have hzero : ofNat 16 0 = 0#16 := rfl
  split at hmerged
  · rename_i hsame
    have hle := hlong hsame
    have hlt : fillLength comp ≤ maxFillLength := le_of_lt_succ (fillLength_lt comp)
    simp only [Bool.and_eq_true, beq_iff_eq] at hsame
    obtain ⟨⟨rfl, rfl⟩, hbit⟩ := hsame
    refine ⟨words_append_fill hbit (by omega) (by omega), ?_⟩
    rcases Nat.eq_zero_or_pos merged with h0 | hpos
    · rw [h0, hzero, BitVec.sub_zero]
      exact hlast
    · apply ne_literalAllOne
      rw [(fill_sub (by omega)).1]
      have := le_of_lt_succ (fillLength_lt last)
      unfold maxFillLength
      omega
  · rw [hmerged, hzero, BitVec.add_zero, BitVec.sub_zero]
    exact ⟨rfl, hlast⟩

/-- **Merging** puts the last word behind the complete words. -/
theorem mergewords_words (h : buf.Clean) (hlast : buf.lastWord ≠ literalAllOne) (fill : Bool) :
    (mergewords buf fill).Clean ∧ (mergewords buf fill).words = buf.words ++ (Cell.mk fill buf.lastWord).words ∧
      (mergewords buf fill).curword ≤ buf.curword + 1 := by
  simp only [mergewords]
  rw [if_neg fun hc => hlast hc.2]
  split
  · rename_i hcomp
    refine ⟨⟨h.room, h.clear, h.start⟩, ?_, le_succ _⟩
    rw [words_of_comp hlast, words_of_no_comp hcomp]
    rfl
  · rename_i hcomp
    rw [words_of_comp hcomp]
    split
    · rename_i hfits
      obtain ⟨hsame, hlt⟩ := hfits
      simp only [Bool.and_eq_true, beq_iff_eq] at hsame
      obtain ⟨⟨hfill, rfl⟩, hbit⟩ := hsame
      have hsum := words_append_fill hbit (Nat.le_refl _) (Nat.le_of_lt hlt)
      have hrest : (Cell.mk true (buf.lastWord - ofNat 16 (fillLength buf.lastWord))).words = [] := by
        rw [Cell.words_sub (Nat.le_refl _), Cell.words, if_pos rfl, drop_replicate, Nat.sub_self]
        rfl
      rw [hrest, append_nil] at hsum
      refine ⟨⟨h.room, h.clear, h.start⟩, ?_, Nat.le_succ _⟩
      rw [words_of_comp (ne_literalAllOne (by rw [(fill_add (Nat.le_of_lt hlt)).1]; exact hlt))]
      simp only [hfill, hsum, append_assoc]
      rfl
    · rename_i hfits
      obtain ⟨hclean, hcells, hcur, hroom⟩ := bufExtend_clean h
      generalize hmerged : (if (buf.isLastCompwordFill && fill && fillBit buf.lastCompword == fillBit buf.lastWord) = true
        then maxFillLength - fillLength buf.lastCompword else 0) = merged
      obtain ⟨hwords, hne⟩ := words_append_part buf.isLastCompwordFill fill hlast
        (fun hsame => Nat.le_of_not_lt fun hlt => hfits ⟨hsame, hlt⟩) hmerged.symm
      generalize buf.lastTid - (buf.lastTid - 1) % 16 - 1 + ofNat 64 (merged * 16) = tid
      obtain ⟨hpush, hpcells⟩ := push_clean hclean (by rw [hcur]; exact hroom) buf.isLastCompwordFill
        (buf.lastCompword + ofNat 16 merged) tid
      refine ⟨⟨hpush.room, hpush.clear, hpush.start⟩, ?_, Nat.le_of_eq (congrArg (· + 1) hcur)⟩
      rw [words_of_comp hne]
      have hsame : expand ((bufExtend buf).push buf.isLastCompwordFill (buf.lastCompword + ofNat 16 merged)
          tid).bufCells ++ (Cell.mk fill (buf.lastWord - ofNat 16 merged)).words =
          expand buf.bufCells ++ (Cell.mk buf.isLastCompwordFill buf.lastCompword).words ++
            (Cell.mk fill buf.lastWord).words := by
        rw [hpcells, hcells, expand_append, expand_cons, expand_nil, append_nil, append_assoc, hwords,
          append_assoc]
      exact hsame

/-! ### A flush -/

theorem hotWord_words (w : Word) :
    (Cell.mk (hotWord w).2 (hotWord w).1).words = [w] ∧ (hotWord w).1 ≠ literalAllOne := by
  unfold hotWord
  split
  · rename_i h
    rw [h]
    decide
  · rename_i hne
    split
    · rename_i h
      rw [h]
      decide
    · exact ⟨rfl, hne⟩

theorem bufEnsureHeadSpace_eq
    (h : buf.curword < headerWords * 16) : bufEnsureHeadSpace rel lov buf = (rel, buf) := by
  rw [bufEnsureHeadSpace, if_neg (Nat.not_le_of_lt h)]

/-- The buffer with word `i` of the hot buffer as its last word. -/
def TidBuffer.takeHot (buf : TidBuffer) (i : Nat) : TidBuffer :=
  {buf with
    lastTid := iptrToInt buf.hotBufferBlock (min buf.hotBufferLastOffset ((i + 1) * 16))
    lastWord := (hotWord (buf.hotBuffer i)).1}

theorem flushFrom_succ (lov : Nat × Nat) (n i : Nat) (rel : Relation) (h : buf.curword < headerWords * 16) :
    flushFrom lov (n + 1) i rel buf =
      if (i + 1) * 16 < buf.hotBufferLastOffset then
        flushFrom lov n (i + 1) rel (mergewords (buf.takeHot i) (hotWord (buf.hotBuffer i)).2)
      else (rel, buf.takeHot i) := by
  simp only [flushFrom, decide_eq_true_eq]
  generalize htid : iptrToInt buf.hotBufferBlock (min buf.hotBufferLastOffset ((i + 1) * 16)) = tid
  rw [bufEnsureHeadSpace_eq (show curword {buf with lastTid := tid} < headerWords * 16 from h)]
  simp only [takeHot, htid]

/-- The words of the hot buffer from `i` to before `j` are complete words now, and word
`j` is the last word. -/
structure Flushed (i j : Nat) (buf out : TidBuffer) : Prop where
  clean : out.Clean
  words : out.words = buf.words ++ (List.range' i (j - i)).map buf.hotBuffer
  last : out.lastWord = (hotWord (buf.hotBuffer j)).1
  size : out.curword ≤ buf.curword + (j - i)
  alloc : 0 < out.numCwords

/-- The loop of the flush, while the buffer has header words: it stays in memory, and
ends at the word of the last offset. -/
theorem flushFrom_words (lov : Nat × Nat) (n : Nat) {i j : Nat} (rel : Relation) (h : buf.Clean)
    (halloc : 0 < buf.numCwords) (hij : i ≤ j) (hjn : j < i + n) (hlow : j * 16 < buf.hotBufferLastOffset)
    (hhigh : buf.hotBufferLastOffset ≤ (j + 1) * 16) (hsize : buf.curword + (j - i) < headerWords * 16) :
    ∃ out, flushFrom lov n i rel buf = (rel, out) ∧ Flushed i j buf out := by
  induction n generalizing i buf with
  | zero => omega
  | succ n ih =>
    obtain ⟨hcell, hne⟩ := hotWord_words (buf.hotBuffer i)
    have hclean : (buf.takeHot i).Clean := ⟨h.room, h.clear, h.start⟩
    rw [flushFrom_succ _ _ _ _ (by omega)]
    split
    · rename_i hmore
      have hlt : i < j := by omega
      obtain ⟨hclean', hwords, hcur⟩ := mergewords_words hclean hne (hotWord (buf.hotBuffer i)).2
      obtain ⟨hsame, hpos⟩ := mergewords_hot (buf.takeHot i) (hotWord (buf.hotBuffer i)).2
      generalize mergewords _ _ = merged at hclean' hwords hcur hsame hpos
      have hoff : merged.hotBufferLastOffset = buf.hotBufferLastOffset := hsame.offset
      have hcur' : merged.curword ≤ buf.curword + 1 := hcur
      have hhot : merged.hotBuffer = buf.hotBuffer := hsame.hot
      have hwords' : merged.words = buf.words ++ [buf.hotBuffer i] := hwords.trans (congrArg (buf.words ++ ·) hcell)
      obtain ⟨out, hout, hflushed⟩ := ih hclean' (hpos halloc) hlt (by omega) (by rw [hoff]; exact hlow)
        (by rw [hoff]; exact hhigh) (by omega)
      refine ⟨out, hout, hflushed.clean, ?_, ?_, ?_, hflushed.alloc⟩
      · have hrange : range' i (j - i) = i :: range' (i + 1) (j - (i + 1)) := by
          rw [show j - i = j - (i + 1) + 1 by omega, range'_succ]
        rw [hflushed.words, hwords', hhot, hrange, map_cons, append_assoc]
        rfl
      · rw [hflushed.last, hhot]
      · have := hflushed.size
        omega
    · obtain rfl : i = j := by omega
      refine ⟨_, rfl, hclean, ?_, rfl, Nat.le_add_right _ _, halloc⟩
      rw [Nat.sub_self]
      exact (append_nil _).symm

/-- The words of a buffer, written to an empty page. -/
theorem writeBitmapwords_empty (h : buf.Clean) (hpos : 0 < buf.curword)
    (hsize : buf.curword ≤ hrlWordsPerPage) :
    pageCells (writeBitmapwords emptyPage buf).1 = buf.bufCells ∧
      (writeBitmapwords emptyPage buf).1.bitmapNext = invalidBlockNumber := by
  have hwritten : wordsWritten emptyPage buf = buf.curword := by
    rw [wordsWritten, h.start]
    exact Nat.min_eq_left hsize
  refine ⟨?_, rfl⟩
  rw [writeBitmapwords_cells emptyPage_open (by rw [hwritten]; exact hpos), hwritten, h.start]
  rfl

/-- **A write into a fresh vector**: the words go to a page of their own. -/
theorem writeNew_fresh (h : buf.Clean)
    (hsize : buf.curword ≤ hrlWordsPerPage) (hhead : (rel.lov lov).lovHead = invalidBlockNumber)
    (hroom : rel.nblocks ≠ invalidBlockNumber) :
    HasWords (writeNewBitmapwords rel lov buf).1 lov (buf.words ++ [buf.lastWord]) := by
  have hlast := (writeNew_lov rel lov buf).expand_cells
  have hpage : rel.newPage.page rel.nblocks = emptyPage := rel.setPage_page_self rel.nblocks emptyPage
  have hfits : overflows ⟨rel.newPage, buf, rel.nblocks, false⟩ = false := by
    rw [overflows, hpage]
    exact decide_eq_false (by rw [h.start]; exact Nat.not_lt_of_le hsize)
  have hwrite : writeNewBitmapwords rel lov buf = writeLast lov ⟨rel.newPage, buf, rel.nblocks, false⟩ := by
    simp only [writeNewBitmapwords, hhead, ne_eq, not_true_eq_false, if_false, Loop.whileN, hfits, Bool.false_eq_true]
  have hcells : pageCells ((writeNewBitmapwords rel lov buf).1.page rel.nblocks) = buf.bufCells ∧
      ((writeNewBitmapwords rel lov buf).1.page rel.nblocks).bitmapNext = invalidBlockNumber ∧
      ((writeNewBitmapwords rel lov buf).1.lov lov).lovHead = rel.nblocks := by
    rw [hwrite]
    simp only [writeLast, logBitmapwords, Relation.log_toIndex, Relation.setLov_page, Relation.setPage_page_self,
      Relation.setLov_lov_self, Relation.setPage_lov, Relation.newPage_lov, hhead, if_true, hpage]
    split
    · rename_i hpos
      rw [h.start] at hpos
      obtain ⟨hp, hnext⟩ := writeBitmapwords_empty h hpos hsize
      exact ⟨hp, hnext, trivial⟩
    · rename_i hpos
      have hzero : buf.curword = 0 := by
        rw [h.start] at hpos
        omega
      refine ⟨?_, rfl, trivial⟩
      rw [bufCells, hzero]
      rfl
  obtain ⟨hp, hnext, hhead'⟩ := hcells
  refine ⟨[rel.nblocks], .single hhead' hroom hnext, ?_⟩
  rw [vectorWords, vectorCells, flatMap_cons, flatMap_nil, append_nil, hp, expand_append, hlast,
    words, expand_append, append_assoc]

/-! ### Events in one heap block -/

/-- The heap can have a tuple there. -/
structure ValidTid (block offset : Nat) : Prop where
  block : block < invalidBlockNumber
  first : 1 ≤ offset
  last : offset ≤ maxHtupPerPage

section
variable {block offset : Nat} (h : ValidTid block offset)
include h

theorem ValidTid.toNat_iptrToInt : (iptrToInt block offset).toNat = block * 291 + offset := by
  obtain ⟨hb, h1, hl⟩ := h
  unfold invalidBlockNumber at hb
  unfold maxHtupPerPage at hl
  rw [iptrToInt, BitVec.toNat_ofNat]
  show (block * 291 + offset) % 2 ^ 64 = _
  omega

theorem ValidTid.toNat_pred : (iptrToInt block offset - 1).toNat = block * 291 + (offset - 1) := by
  have hone : (1 : BitVec 64).toNat = 1 := rfl
  have hlt := (iptrToInt block offset).isLt
  have hfirst := h.first
  rw [BitVec.toNat_sub, hone, h.toNat_iptrToInt]
  rw [h.toNat_iptrToInt] at hlt
  omega

theorem ValidTid.blockno : intGetBlockno (iptrToInt block offset) = block := by
  have hdiv : ((iptrToInt block offset - 1) / ofNat 64 maxHtupPerPage).toNat =
      (iptrToInt block offset - 1).toNat / 291 := BitVec.toNat_udiv
  obtain ⟨hb, h1, hl⟩ := h
  unfold invalidBlockNumber at hb
  unfold maxHtupPerPage at hl
  rw [intGetBlockno, hdiv, ValidTid.toNat_pred ⟨hb, h1, hl⟩]
  omega

theorem ValidTid.offsetno : intGetOffset (iptrToInt block offset) = offset := by
  have hmod : ((iptrToInt block offset - 1) % ofNat 64 maxHtupPerPage).toNat =
      (iptrToInt block offset - 1).toNat % 291 := BitVec.toNat_umod
  obtain ⟨hb, h1, hl⟩ := h
  have hl' : offset ≤ 291 := hl
  rw [intGetOffset, hmod, ValidTid.toNat_pred ⟨hb, h1, hl⟩]
  omega

end

/-- The bit of an offset in the hot buffer. -/
def hotBit (hot : Nat → Word) (offset : Nat) : Bool := (hot ((offset - 1) / 16)).getLsbD ((offset - 1) % 16)

/-- The buffer of a vector that has only `start` words of zeros, while the tids of one
heap block are added: the offsets are in the hot buffer. -/
structure Filling (block start : Nat) (offsets : List Nat) (buf : TidBuffer) : Prop where
  clean : buf.Clean
  alloc : 0 < buf.numCwords
  empty : buf.curword = 0
  words : buf.words = List.replicate start 0
  lastWord : buf.lastWord = 0
  block : buf.hotBufferBlock = block ∨ buf.hotBufferBlock = invalidBlockNumber
  bits : ∀ o, 1 ≤ o → (hotBit buf.hotBuffer o = true ↔ o ∈ offsets)
  upper : ∀ o ∈ offsets, o ≤ buf.hotBufferLastOffset
  attained : offsets = [] ∧ buf.hotBufferLastOffset = 0 ∨ buf.hotBufferLastOffset ∈ offsets

theorem Filling.reverse {offsets : List Nat}
    (h : Filling block start offsets.reverse buf) : Filling block start offsets buf :=
  {h with
    bits := fun o ho => (h.bits o ho).trans mem_reverse
    upper := fun o ho => h.upper o (mem_reverse.mpr ho)
    attained := h.attained.imp (fun hc => ⟨reverse_eq_nil_iff.mp hc.1, hc.2⟩) mem_reverse.mp}

/-- A tid in the block of the hot buffer, or in the first block: nothing is flushed. -/
theorem bufAddTidWithFill_same {offset : Nat} (h : ValidTid block offset) (rel : Relation) (lov : Nat × Nat)
    (hblock : buf.hotBufferBlock = block ∨ buf.hotBufferBlock = invalidBlockNumber) :
    bufAddTidWithFill rel lov buf (iptrToInt block offset) =
      (rel, {buf with
        hotBufferBlock := block
        hotBuffer := fun i => if i = (offset - 1) / 16 then buf.hotBuffer i ||| (1 : Word) <<< ((offset - 1) % 16)
          else buf.hotBuffer i
        hotBufferLastOffset := max buf.hotBufferLastOffset offset}) := by
  simp only [bufAddTidWithFill, h.blockno, h.offsetno]
  rcases hblock with hsame | hnone
  · rw [if_neg (not_not_intro hsame.symm)]
    subst hsame
    rfl
  · rw [if_pos (by rw [hnone]; exact Nat.ne_of_lt h.block), if_neg (not_not_intro hnone)]

theorem hotBit_set (hot : Nat → Word) {o q : Nat} (ho : 1 ≤ o) (hq : 1 ≤ q) :
    hotBit (fun i => if i = (o - 1) / 16 then hot i ||| (1 : Word) <<< ((o - 1) % 16) else hot i) q = true ↔
      q = o ∨ hotBit hot q = true := by
  have hone : (1 : Word) <<< ((o - 1) % 16) = BitVec.twoPow 16 ((o - 1) % 16) := by
    rw [BitVec.twoPow_eq]
    rfl
  simp only [hotBit]
  split
  · rename_i hword
    rw [hone, BitVec.getLsbD_or, BitVec.getLsbD_twoPow, Bool.or_eq_true, Bool.and_eq_true, decide_eq_true_eq,
      decide_eq_true_eq, or_comm]
    have heq : ((o - 1) % 16 < 16 ∧ (o - 1) % 16 = (q - 1) % 16) ↔ q = o := by omega
    rw [heq]
  · rename_i hword
    have hne : q ≠ o := fun hc => hword (by rw [hc])
    simp [hne]

theorem Filling.add {offsets : List Nat} (h : Filling block start offsets buf)
    {offset : Nat} (hv : ValidTid block offset) (rel : Relation) (lov : Nat × Nat) :
    ∃ buf', bufAddTidWithFill rel lov buf (iptrToInt block offset) = (rel, buf') ∧
      Filling block start (offset :: offsets) buf' := by
  refine ⟨_, bufAddTidWithFill_same hv rel lov h.block, ?_⟩
  refine ⟨⟨h.clean.room, h.clean.clear, h.clean.start⟩, h.alloc, h.empty, h.words, h.lastWord, .inl rfl, ?_, ?_, ?_⟩
  · intro q hq
    rw [hotBit_set _ hv.first hq, h.bits q hq, mem_cons]
  · intro q hq
    rcases mem_cons.mp hq with rfl | hq
    · exact Nat.le_max_right ..
    · exact Nat.le_trans (h.upper q hq) (Nat.le_max_left ..)
  · refine .inr ?_
    show max buf.hotBufferLastOffset offset ∈ offset :: offsets
    rcases h.attained with ⟨-, hzero⟩ | hmem
    · rw [hzero, Nat.zero_max]
      exact mem_cons_self
    · rcases Nat.le_total buf.hotBufferLastOffset offset with hle | hle
      · rw [Nat.max_eq_right hle]
        exact mem_cons_self
      · rw [Nat.max_eq_left hle]
        exact mem_cons_of_mem _ hmem

/-- The tids that a build adds. -/
def fed : List BuildEvent → List (Nat × Nat)
  | [] => []
  | .add block offset :: es => (block, offset) :: fed es
  | .spill :: es => fed es

/-- All tids are valid and in one heap block. -/
def InBlock (block : Nat) (es : List BuildEvent) : Prop := ∀ t ∈ fed es, t.1 = block ∧ ValidTid block t.2

/-- The buffer is not spilled once it has a tid. -/
def NoLateSpill : List BuildEvent → Prop
  | [] => True
  | .add _ _ :: es => .spill ∉ es
  | .spill :: es => NoLateSpill es

section
variable {block start : Nat} {offsets : List Nat} {buf : TidBuffer} {rel : Relation} {lov : Nat × Nat}
  {es : List BuildEvent}

/-- A run without spills collects the offsets. -/
theorem buildRun_filling (h : Filling block start offsets buf) (hin : InBlock block es) (hes : .spill ∉ es) :
    ∃ buf', buildRun lov ⟨rel, some buf⟩ es = ⟨rel, some buf'⟩ ∧
      Filling block start (((fed es).map (·.2)).reverse ++ offsets) buf' := by
  induction es generalizing offsets buf with
  | nil => exact ⟨buf, rfl, h⟩
  | cons e es ih =>
    cases e with
    | spill => exact absurd mem_cons_self hes
    | add b o =>
      obtain ⟨rfl, hv⟩ := hin (b, o) mem_cons_self
      obtain ⟨buf', hadd, hfill⟩ := h.add hv rel lov
      obtain ⟨out, hout, hlast⟩ := ih hfill (fun t ht => hin t (mem_cons_of_mem _ ht))
        (fun hc => hes (mem_cons_of_mem _ hc))
      refine ⟨out, ?_, ?_⟩
      · simp only [buildRun, buildStep, bufAddTid, Option.getD_some, hadd]
        exact hout
      · simpa [fed] using hlast

/-- A buffer that has been spilled does nothing more. -/
theorem buildRun_spilled (halloc : buf.numCwords = 0)
    (hblock : buf.hotBufferBlock = block ∨ buf.hotBufferBlock = invalidBlockNumber) (hin : InBlock block es) :
    ∃ buf', buildRun lov ⟨rel, some buf⟩ es = ⟨rel, some buf'⟩ ∧ buf'.numCwords = 0 := by
  induction es generalizing buf with
  | nil => exact ⟨buf, rfl, halloc⟩
  | cons e es ih =>
    cases e with
    | spill =>
      obtain ⟨out, hout, hzero⟩ := ih halloc hblock hin
      refine ⟨out, ?_, hzero⟩
      simp only [buildRun, buildStep, bufMakeSpace, halloc, if_true]
      exact hout
    | add b o =>
      obtain ⟨rfl, hv⟩ := hin (b, o) mem_cons_self
      have hadd := bufAddTidWithFill_same hv rel lov hblock
      generalize hnext : mk .. = next at hadd
      obtain ⟨out, hout, hzero⟩ := ih (show next.numCwords = 0 by rw [← hnext]; exact halloc)
        (by rw [← hnext]; exact .inl rfl) (fun t ht => hin t (mem_cons_of_mem _ ht))
      refine ⟨out, ?_, hzero⟩
      simp only [buildRun, buildStep, bufAddTid, Option.getD_some, hadd]
      exact hout

/-- A spill before the hot buffer is flushed leaves zeros on disk. -/
theorem Filling.spill (h : Filling block start offsets buf) (hhead : (rel.lov lov).lovHead = invalidBlockNumber)
    (hroom : rel.nblocks ≠ invalidBlockNumber) :
    ∃ rel' buf', bufMakeSpace lov ⟨rel, some buf⟩ = ⟨rel', some buf'⟩ ∧ buf'.numCwords = 0 ∧
      (buf'.hotBufferBlock = block ∨ buf'.hotBufferBlock = invalidBlockNumber) ∧
      HasWords rel' lov (replicate (start + 1) 0) := by
  have hne : buf.numCwords ≠ 0 := Nat.ne_of_gt h.alloc
  obtain ⟨_, hbuf⟩ := writeNew_buf rel lov buf
  have hwords := writeNew_fresh h.clean (by rw [h.empty]; exact zero_le _) hhead hroom
  rw [h.words, h.lastWord, ← replicate_succ'] at hwords
  refine ⟨(writeNewBitmapwords rel lov buf).1, freeTidbuf (writeNewBitmapwords rel lov buf).2, ?_, rfl, ?_, hwords⟩
  · simp only [bufMakeSpace, bufFreeMem, bufFreeWords, hne, if_false, Bool.false_eq_true]
  · rw [hbuf]
    exact h.block

/-- A run with a spill leaves zeros. -/
theorem buildRun_late (h : Filling block start offsets buf) (hin : InBlock block es) (hes : .spill ∈ es)
    (hhead : (rel.lov lov).lovHead = invalidBlockNumber) (hroom : rel.nblocks ≠ invalidBlockNumber) :
    ∃ rel' buf', buildRun lov ⟨rel, some buf⟩ es = ⟨rel', some buf'⟩ ∧ buf'.numCwords = 0 ∧
      HasWords rel' lov (replicate (start + 1) 0) := by
  induction es generalizing offsets buf with
  | nil => exact absurd hes (by simp)
  | cons e es ih =>
    cases e with
    | spill =>
      obtain ⟨rel', buf', hspill, hzero, hblock, hwords⟩ := h.spill hhead hroom
      obtain ⟨out, hout, hzero'⟩ : ∃ out, buildRun lov ⟨rel', some buf'⟩ es = ⟨rel', some out⟩ ∧ out.numCwords = 0 :=
        buildRun_spilled hzero hblock hin
      refine ⟨rel', out, ?_, hzero', hwords⟩
      rw [buildRun, buildStep, hspill]
      exact hout
    | add b o =>
      obtain ⟨rfl, hv⟩ := hin (b, o) mem_cons_self
      obtain ⟨buf', hadd, hfill⟩ := h.add hv rel lov
      obtain ⟨rel', out, hout, hlast⟩ := ih hfill (fun t ht => hin t (mem_cons_of_mem _ ht)) (by simpa using hes)
      refine ⟨rel', out, ?_, hlast⟩
      simp only [buildRun, buildStep, bufAddTid, Option.getD_some, hadd]
      exact hout

end

/-- The words of zeros that a fresh vector starts with. -/
def startFill (t : BitVec 64) : Nat := if 16 < t then min (((t - 1) / 16).toNat % 2 ^ 32) maxFillLength else 0

theorem lovBuffer_filling (block : Nat) (t : BitVec 64) :
    Filling block (startFill t) [] (lovBuffer (formitem t)) := by
  have hhead (n : Nat) : isFillWord (lovBuffer (formitem t)).hwords n = false := by
    rw [isFillWord_eq]
    exact getLsbD_zero
  refine ⟨⟨zero_le _, fun n _ => hhead n, rfl⟩, zero_lt_succ 7, rfl, ?_, ?_, .inr rfl, ?_, by simp, .inl ⟨rfl, rfl⟩⟩
  · have hcells : (lovBuffer (formitem t)).bufCells = [] := rfl
    have hcomp : (lovBuffer (formitem t)).lastCompword = (formitem t).lastCompword := rfl
    have hfill : (lovBuffer (formitem t)).isLastCompwordFill = lastCompwordIsFill (formitem t) := rfl
    by_cases ht : 16 < t
    · obtain ⟨hlen, hbit⟩ := makeFillWord_zero (Nat.min_le_right (((t - 1) / 16).toNat % 2 ^ 32) maxFillLength)
      have hne : makeFillWord 0 (min (((t - 1) / 16).toNat % 2 ^ 32) maxFillLength) ≠ literalAllOne := fun hc => by
        rw [hc] at hbit
        exact absurd hbit (by decide)
      have hword : (formitem t).lastCompword = makeFillWord 0 (min (((t - 1) / 16).toNat % 2 ^ 32) maxFillLength) := by
        simp only [formitem, ht, if_true]
      have hheader : lastCompwordIsFill (formitem t) = true := by
        simp only [formitem, ht, if_true, lastCompwordIsFill]
        decide
      rw [words_of_comp (by rw [hcomp, hword]; exact hne), hcells, hfill, hcomp, hheader, hword, startFill,
        if_pos ht]
      simp only [expand_nil, nil_append, Cell.words, if_true, hlen, hbit]
      rfl
    · have hword : (formitem t).lastCompword = literalAllOne := by simp only [formitem, ht, if_false]
      rw [words_of_no_comp (hcomp.trans hword), hcells, startFill, if_neg ht]
      rfl
  · show (formitem t).lastWord = 0
    simp only [formitem]
    split <;> rfl
  · intro o _
    have hzero : hotBit (lovBuffer (formitem t)).hotBuffer o = false := getLsbD_zero
    rw [hzero]
    simp

/-- The end of a build: the hot buffer goes behind the zeros. -/
theorem Filling.finish {offsets : List Nat} (h : Filling block start offsets buf)
    (hhead : (rel.lov lov).lovHead = invalidBlockNumber)
    (hroom : rel.nblocks ≠ invalidBlockNumber) (hne : offsets ≠ [])
    (hvalid : ∀ o ∈ offsets, 1 ≤ o ∧ o ≤ maxHtupPerPage) {j : Nat} (hj : j = (buf.hotBufferLastOffset - 1) / 16) :
    HasWords (writeAlltids lov ⟨rel, some buf⟩) lov
      (replicate start 0 ++ ((range' 0 j).map buf.hotBuffer ++ [(hotWord (buf.hotBuffer j)).1])) := by
  have hmem : buf.hotBufferLastOffset ∈ offsets := h.attained.resolve_left fun hc => hne hc.1
  obtain ⟨hfirst, hlast⟩ := hvalid _ hmem
  unfold maxHtupPerPage at hlast
  have hempty := h.empty
  obtain ⟨out, hout, hflushed⟩ := flushFrom_words lov sizeofHotBuffer rel h.clean h.alloc (zero_le j)
    (show j < 0 + 19 by omega) (by omega) (by omega) (show buf.curword + (j - 0) < 238 * 16 by omega)
  have hsize := hflushed.size
  have hwords := writeNew_fresh (show TidBuffer.Clean {out with hotBuffer := fun _ => 0} from
    ⟨hflushed.clean.room, hflushed.clean.clear, hflushed.clean.start⟩)
    (show out.curword ≤ 3808 by omega) hhead hroom
  have hout' : TidBuffer.words {out with hotBuffer := fun _ => 0} ++ [out.lastWord] =
      replicate start 0 ++ ((range' 0 j).map buf.hotBuffer ++ [(hotWord (buf.hotBuffer j)).1]) := by
    show out.words ++ _ = _
    rw [hflushed.words, hflushed.last, h.words, Nat.sub_zero, append_assoc]
  have hwrite : writeAlltids lov ⟨rel, some buf⟩ = (writeNewBitmapwords rel lov {out with hotBuffer := fun _ => 0}).1 := by
    simp only [writeAlltids, Nat.ne_of_gt h.alloc, if_false, bufFreeMem, if_true, hotBufferFlush, hout, bufFreeWords,
      Nat.ne_of_gt hflushed.alloc]
  rw [hwrite, ← hout']
  exact hwords

/-! ### The bits of a build -/

theorem bitAt_zeros_append (start : Nat) (ws : List Word) {p : Nat} (hp : 1 ≤ p) :
    bitAt (replicate start 0 ++ ws) p = if p ≤ 16 * start then false else bitAt ws (p - 16 * start) := by
  split
  · have hlt : (p - 1) / 16 < (replicate start (0 : Word)).length := by rw [length_replicate]; omega
    rw [bitAt, getD_append _ _ _ _ hlt, getD_replicate _ (by omega)]
    exact getLsbD_zero
  · rename_i hgt
    rw [← bitAt_drop _ start (by omega), drop_left' (length_replicate ..)]

theorem bitAt_hot (hot : Nat → Word) (j : Nat) (w : Word) (q : Nat) :
    bitAt ((range' 0 j).map hot ++ [w]) q =
      if (q - 1) / 16 < j then hotBit hot q else if (q - 1) / 16 = j then w.getLsbD ((q - 1) % 16) else false := by
  have hlen : ((range' 0 j).map hot).length = j := by rw [length_map, length_range']
  rw [bitAt, getD_eq_getElem?_getD]
  split
  · rename_i hlt
    rw [getElem?_append_left (by omega), getElem?_map, getElem?_range' hlt]
    simp only [Option.map_some, Option.getD_some, Nat.zero_add, Nat.one_mul, hotBit]
  · rw [getElem?_append_right (by omega), hlen]
    split
    · rename_i heq
      rw [heq, Nat.sub_self]
      rfl
    · rename_i hge hne
      rw [getElem?_eq_none (by rw [length_singleton]; omega)]
      exact getLsbD_zero

theorem getLsbD_literalAllOne {i : Nat} (h : i < 16) : literalAllOne.getLsbD i = true := by
  rw [literalAllOne, BitVec.getLsbD_not]
  simp [h]

/-- The offsets fill the word of `last`. -/
def GroupFull (offsets : List Nat) (last : Nat) : Prop := ∀ q, 1 ≤ q → (q - 1) / 16 = (last - 1) / 16 → q ∈ offsets

theorem groupFull_iff {hot : Nat → Word} {offsets : List Nat} (hbits : ∀ o, 1 ≤ o → (hotBit hot o = true ↔ o ∈ offsets))
    (last : Nat) : GroupFull offsets last ↔ hot ((last - 1) / 16) = literalAllOne := by
  constructor
  · intro h
    apply BitVec.eq_of_getLsbD_eq
    intro i hi
    have hmem := h (16 * ((last - 1) / 16) + i + 1) (by omega) (by omega)
    rw [← hbits _ (by omega), hotBit, show (16 * ((last - 1) / 16) + i + 1 - 1) / 16 = (last - 1) / 16 by omega,
      show (16 * ((last - 1) / 16) + i + 1 - 1) % 16 = i by omega] at hmem
    rw [hmem, getLsbD_literalAllOne hi]
  · intro h q hq hgroup
    rw [← hbits q hq, hotBit, hgroup, h]
    exact getLsbD_literalAllOne (by omega)

/-- What the words of a flushed heap block are, against the offsets: right, unless the
last group is full. Then its fill word is read as a literal. -/
structure Built (start : Nat) (offsets : List Nat) (last : Nat) (ws : List Word) : Prop where
  mem : last ∈ offsets
  upper : ∀ o ∈ offsets, o ≤ last
  below : ∀ p, 1 ≤ p → p ≤ 16 * start → bitAt ws p = false
  above : ∀ q, last < q → bitAt ws (16 * start + q) = false
  top : bitAt ws (16 * start + last) = true
  exact : ¬GroupFull offsets last → ∀ q, 1 ≤ q → (bitAt ws (16 * start + q) = true ↔ q ∈ offsets)
  lost : GroupFull offsets last → bitAt ws (16 * start + (16 * ((last - 1) / 16) + 2)) = false

theorem Filling.built {offsets : List Nat} (h : Filling block start offsets buf)
    (hne : offsets ≠ []) (hvalid : ∀ o ∈ offsets, 1 ≤ o) {last j : Nat} (hlast : buf.hotBufferLastOffset = last)
    (hj : j = (last - 1) / 16) :
    Built start offsets last
      (replicate start 0 ++ ((range' 0 j).map buf.hotBuffer ++ [(hotWord (buf.hotBuffer j)).1])) := by
  have hmem : last ∈ offsets := hlast ▸ h.attained.resolve_left fun hc => hne hc.1
  have hupper : ∀ o ∈ offsets, o ≤ last := hlast ▸ h.upper
  have hfirst := hvalid last hmem
  have hfull := groupFull_iff h.bits last
  rw [← hj] at hfull
  have hat (q : Nat) (hq : 1 ≤ q) :
      bitAt (replicate start 0 ++ ((range' 0 j).map buf.hotBuffer ++ [(hotWord (buf.hotBuffer j)).1]))
        (16 * start + q) = bitAt ((range' 0 j).map buf.hotBuffer ++ [(hotWord (buf.hotBuffer j)).1]) q := by
    rw [bitAt_zeros_append _ _ (by omega), if_neg (by omega), Nat.add_sub_cancel_left]
  by_cases hg : GroupFull offsets last
  · have hword : (hotWord (buf.hotBuffer j)).1 = 0x8001 := by rw [hfull.mp hg]; decide
    have hend : last = 16 * j + 16 := by
      have h16 := hupper _ (hg (16 * j + 16) (by omega) (by omega))
      omega
    rw [hword] at hat ⊢
    refine ⟨hmem, hupper, fun p hp hle => ?_, fun q hq => ?_, ?_, fun hc => absurd hg hc, fun _ => ?_⟩
    · rw [bitAt_zeros_append _ _ hp, if_pos hle]
    · rw [hat q (by omega), bitAt_hot, if_neg (by omega), if_neg (by omega)]
    · rw [hat last hfirst, bitAt_hot, if_neg (by omega), if_pos (by omega), show (last - 1) % 16 = 15 by omega]
      decide
    · rw [hat _ (by omega), bitAt_hot, ← hj, if_neg (by omega), if_pos (by omega),
        show (16 * j + 2 - 1) % 16 = 1 by omega]
      decide
  · have hhot : hotBit buf.hotBuffer last = true := (h.bits last hfirst).mpr hmem
    have hword : (hotWord (buf.hotBuffer j)).1 = buf.hotBuffer j := by
      rw [hotWord, if_neg fun hc => hg (hfull.mpr hc), if_neg]
      intro hc
      rw [hotBit, ← hj, hc] at hhot
      exact absurd hhot (by simp [literalAllZero])
    have hexact (q : Nat) (hq : 1 ≤ q) :
        bitAt ((range' 0 j).map buf.hotBuffer ++ [(hotWord (buf.hotBuffer j)).1]) q = true ↔ q ∈ offsets := by
      rw [hword, bitAt_hot, ← h.bits q hq]
      split
      · exact Iff.rfl
      · split
        · rename_i heq
          rw [hotBit, heq]
        · rename_i hlt hne'
          rw [h.bits q hq]
          refine ⟨fun hc => absurd hc Bool.false_ne_true, fun hq' => ?_⟩
          have := hupper q hq'
          omega
    refine ⟨hmem, hupper, fun p hp hle => ?_, fun q hq => ?_, ?_, fun _ q hq => ?_, fun hc => absurd hc hg⟩
    · rw [bitAt_zeros_append _ _ hp, if_pos hle]
    · rw [hat q (by omega), Bool.eq_false_iff, ne_eq, hexact q (by omega)]
      exact fun hc => absurd (hupper q hc) (by omega)
    · rw [hat last hfirst, hexact last hfirst]
      exact hmem
    · rw [hat q hq, hexact q hq]

/-- **A build does what it should:** the bits of the vector are the tids fed. -/
def BuildSpec (rel : Relation) (lov : Nat × Nat) (es : List BuildEvent) : Prop :=
  ∃ blocks, Chain (build rel lov es).page ((build rel lov es).lov lov).lovHead blocks ∧
    ∀ p, 1 ≤ p →
      (bitAt (vectorWords (build rel lov es).toIndex blocks ((build rel lov es).lov lov)) p = true ↔
        ∃ t ∈ fed es, (iptrToInt t.1 t.2).toNat = p)

/-- The bits of a build, once the words of its vector are known. -/
theorem buildSpec_iff {es : List BuildEvent} {ws : List Word} (h : HasWords (build rel lov es) lov ws) :
    BuildSpec rel lov es ↔ ∀ p, 1 ≤ p → (bitAt ws p = true ↔ ∃ t ∈ fed es, (iptrToInt t.1 t.2).toNat = p) := by
  obtain ⟨blocks, hchain, hwords⟩ := h
  constructor
  · rintro ⟨blocks', hchain', hbits⟩
    rw [hchain'.unique hchain, hwords] at hbits
    exact hbits
  · intro hbits
    refine ⟨blocks, hchain, ?_⟩
    rw [hwords]
    exact hbits

section
variable {rel : Relation} {lov : Nat × Nat} {t0 : BitVec 64} {block : Nat} {es : List BuildEvent}

theorem build_nil (h : fed es = []) : build rel lov es = rel := by
  unfold build
  induction es with
  | nil => rfl
  | cons e es ih =>
    cases e with
    | spill => exact ih h
    | add b o => exact absurd h (by simp [fed])

theorem InBlock.offsets (hin : InBlock block es) : ∀ o ∈ (fed es).map (·.2), 1 ≤ o ∧ o ≤ maxHtupPerPage := by
  intro o ho
  obtain ⟨t, ht, rfl⟩ := mem_map.mp ho
  exact ⟨(hin t ht).2.first, (hin t ht).2.last⟩

/-- The words after a build in one heap block. -/
theorem build_words (hfresh : rel.lov lov = formitem t0) (hroom : rel.nblocks ≠ invalidBlockNumber)
    (hin : InBlock block es) (hne : fed es ≠ []) :
    (NoLateSpill es → ∃ last ws, Built (startFill t0) ((fed es).map (·.2)) last ws ∧
      HasWords (build rel lov es) lov ws) ∧
    (¬NoLateSpill es → HasWords (build rel lov es) lov (replicate (startFill t0 + 1) 0)) := by
  have hhead : (rel.lov lov).lovHead = invalidBlockNumber := by rw [hfresh, (formitem_cases t0).1.2]
  have hoffsets := hin.offsets
  unfold build
  induction es with
  | nil => exact absurd rfl hne
  | cons e es ih =>
    cases e with
    | spill => exact ih hin hne hoffsets
    | add b o =>
      obtain ⟨rfl, hv⟩ := hin (b, o) mem_cons_self
      have hrest : InBlock b es := fun t ht => hin t (mem_cons_of_mem _ ht)
      obtain ⟨buf, hadd, hfill⟩ := (lovBuffer_filling b t0).add hv rel lov
      have hstep : buildRun lov ⟨rel, none⟩ (.add b o :: es) = buildRun lov ⟨rel, some buf⟩ es := by
        simp only [buildRun, buildStep, bufAddTid, Option.getD_none, hfresh, hadd]
      have hall : (fed (.add b o :: es)).map (·.2) = o :: (fed es).map (·.2) := rfl
      rw [hstep, hall]
      rw [hall] at hoffsets
      constructor
      · intro hspill
        obtain ⟨out, hout, hlast⟩ : ∃ out, buildRun lov ⟨rel, some buf⟩ es = ⟨rel, some out⟩ ∧
          Filling b (startFill t0) (((fed es).map (·.2)).reverse ++ [o]) out := buildRun_filling hfill hrest hspill
        rw [← reverse_cons] at hlast
        have hbuilt := hlast.reverse.built (by simp) (fun q hq => (hoffsets q hq).1) rfl rfl
        refine ⟨out.hotBufferLastOffset, _, hbuilt, ?_⟩
        rw [hout]
        exact hlast.reverse.finish hhead hroom (by simp) hoffsets rfl
      · intro hspill
        obtain ⟨rel', out, hout, hzero, hwords⟩ := buildRun_late hfill hrest (Decidable.not_not.mp hspill) hhead hroom
        rw [hout]
        simp only [writeAlltids, hzero, if_true]
        exact hwords

end

/-- **When a build is right:** all tids are in one heap block that starts where the zeros
of the fresh vector end, the buffer is not spilled, and the group of 16 offsets with the
last one is not full. -/
def BuildCond (t0 : BitVec 64) (es : List BuildEvent) : Prop :=
  fed es = [] ∨ ∃ block, (∀ t ∈ fed es, t.1 = block) ∧ 16 * startFill t0 = maxHtupPerPage * block ∧ NoLateSpill es ∧
    ∀ t ∈ fed es, (∀ u ∈ fed es, u.2 ≤ t.2) → ¬GroupFull ((fed es).map (·.2)) t.2

section
variable {start block : Nat} {es : List BuildEvent} {last : Nat} {ws : List Word}

/-- The positions of tids in one heap block. -/
theorem InBlock.exists_tid (hin : InBlock block es) (p : Nat) :
    (∃ t ∈ fed es, (iptrToInt t.1 t.2).toNat = p) ↔ ∃ o ∈ (fed es).map (·.2), block * 291 + o = p := by
  constructor
  · rintro ⟨t, ht, hp⟩
    obtain ⟨hb, hv⟩ := hin t ht
    rw [hb, hv.toNat_iptrToInt] at hp
    exact ⟨t.2, mem_map_of_mem ht, hp⟩
  · rintro ⟨o, ho, hp⟩
    obtain ⟨t, ht, rfl⟩ := mem_map.mp ho
    obtain ⟨hb, hv⟩ := hin t ht
    refine ⟨t, ht, ?_⟩
    rw [hb, hv.toNat_iptrToInt, hp]

theorem Built.right (h : Built start ((fed es).map (·.2)) last ws) (hin : InBlock block es)
    (hstart : 16 * start = block * 291) (hgroup : ¬GroupFull ((fed es).map (·.2)) last) (p : Nat) (hp : 1 ≤ p) :
    bitAt ws p = true ↔ ∃ t ∈ fed es, (iptrToInt t.1 t.2).toNat = p := by
  rw [hin.exists_tid]
  by_cases hle : p ≤ 16 * start
  · rw [h.below p hp hle]
    refine ⟨fun hc => absurd hc Bool.false_ne_true, ?_⟩
    rintro ⟨o, ho, hpos⟩
    have := (hin.offsets o ho).1
    omega
  · obtain ⟨q, rfl⟩ : ∃ q, p = 16 * start + q := ⟨p - 16 * start, by omega⟩
    rw [h.exact hgroup q (by omega)]
    constructor
    · intro hq
      exact ⟨q, hq, by omega⟩
    · rintro ⟨o, ho, hpos⟩
      obtain rfl : o = q := by omega
      exact ho

/-- Where the last offset is, the heap block must start where the zeros end. -/
theorem Built.start_eq (h : Built start ((fed es).map (·.2)) last ws) (hin : InBlock block es)
    (hspec : ∀ p, 1 ≤ p → (bitAt ws p = true ↔ ∃ t ∈ fed es, (iptrToInt t.1 t.2).toNat = p)) :
    16 * start = block * 291 := by
  have hlast := (hin.offsets last h.mem).1
  apply Nat.le_antisymm
  · obtain ⟨o, ho, hpos⟩ := (hin.exists_tid _).mp ((hspec (16 * start + last) (by omega)).mp h.top)
    have := h.upper o ho
    omega
  · have hbit := (hspec (block * 291 + last) (by omega)).mpr ((hin.exists_tid _).mpr ⟨last, h.mem, rfl⟩)
    by_contra hlt
    have habove := h.above (block * 291 + last - 16 * start) (by omega)
    rw [show 16 * start + (block * 291 + last - 16 * start) = block * 291 + last by omega, hbit] at habove
    exact absurd habove (by decide)

end

theorem bitAt_zeros (n : Nat) {p : Nat} (hp : 1 ≤ p) : bitAt (replicate n 0) p = false := by
  have h := bitAt_zeros_append n [] hp
  rw [append_nil] at h
  rw [h]
  split
  · rfl
  · exact getLsbD_zero

section
variable {rel : Relation} {lov : Nat × Nat} {t0 : BitVec 64} {es : List BuildEvent}

theorem buildSpec_nil (hfresh : rel.lov lov = formitem t0) (hnil : fed es = []) : BuildSpec rel lov es := by
  refine ⟨[], ?_, fun p _ => ?_⟩
  · rw [build_nil hnil, hfresh, (formitem_cases t0).1.2]
    exact .done
  · rw [build_nil hnil, hfresh, bitAt_formitem, hnil]
    simp

/-- Zeros are right only if no tid is fed. -/
theorem not_buildSpec_zeros (hvalid : ∀ t ∈ fed es, ValidTid t.1 t.2) (hne : fed es ≠ []) {n : Nat}
    (hwords : HasWords (build rel lov es) lov (replicate n 0)) : ¬BuildSpec rel lov es := by
  intro hspec
  obtain ⟨t, ht⟩ := exists_mem_of_ne_nil _ hne
  have hpos : 1 ≤ (iptrToInt t.1 t.2).toNat := by
    rw [(hvalid t ht).toNat_iptrToInt]
    exact Nat.le_trans (hvalid t ht).first (Nat.le_add_left ..)
  have hbit := ((buildSpec_iff hwords).mp hspec _ hpos).mpr ⟨t, ht, rfl⟩
  rw [bitAt_zeros _ hpos] at hbit
  exact absurd hbit (by decide)

end

/-- **Builds into a fresh vector.** The condition is enough, and where the tids are all in
one heap block it is needed. -/
theorem build_correct (rel : Relation) (lov : Nat × Nat) (t0 : BitVec 64) (hfresh : rel.lov lov = formitem t0)
    (hroom : rel.nblocks < invalidBlockNumber) (es : List BuildEvent) (hvalid : ∀ t ∈ fed es, ValidTid t.1 t.2) :
    (BuildCond t0 es → BuildSpec rel lov es) ∧
      ((∃ block, ∀ t ∈ fed es, t.1 = block) → BuildSpec rel lov es → BuildCond t0 es) := by
  have hin {block : Nat} (hblock : ∀ t ∈ fed es, t.1 = block) : InBlock block es := fun t ht =>
    ⟨hblock t ht, hblock t ht ▸ hvalid t ht⟩
  by_cases hne : fed es = []
  · exact ⟨fun _ => buildSpec_nil hfresh hne, fun _ _ => .inl hne⟩
  constructor
  · rintro (hnil | ⟨block, hblock, hstart, hspill, hgroup⟩)
    · exact absurd hnil hne
    · obtain ⟨last, ws, hbuilt, hwords⟩ := (build_words hfresh (Nat.ne_of_lt hroom) (hin hblock) hne).1 hspill
      obtain ⟨t, ht, hlast⟩ := mem_map.mp hbuilt.mem
      have hfull : ¬GroupFull ((fed es).map (·.2)) last :=
        hlast ▸ hgroup t ht fun u hu => hlast ▸ hbuilt.upper _ (mem_map_of_mem hu)
      have hstart' : 16 * startFill t0 = block * 291 := hstart.trans (Nat.mul_comm ..)
      exact (buildSpec_iff hwords).mpr (hbuilt.right (hin hblock) hstart' hfull)
  · rintro ⟨block, hblock⟩ hspec
    obtain ⟨hbuild, hlate⟩ := build_words hfresh (Nat.ne_of_lt hroom) (hin hblock) hne
    have hspill : NoLateSpill es := by
      by_contra hc
      exact not_buildSpec_zeros hvalid hne (hlate hc) hspec
    obtain ⟨last, ws, hbuilt, hwords⟩ := hbuild hspill
    have hbits := (buildSpec_iff hwords).mp hspec
    have hstart := hbuilt.start_eq (hin hblock) hbits
    refine .inr ⟨block, hblock, hstart.trans (Nat.mul_comm ..), hspill, fun t ht hmax hfull => ?_⟩
    have hlast : t.2 = last := by
      obtain ⟨u, hu, hulast⟩ := mem_map.mp hbuilt.mem
      exact Nat.le_antisymm (hbuilt.upper t.2 (mem_map_of_mem ht)) (hulast ▸ hmax u hu)
    rw [hlast] at hfull
    have hmem := hfull (16 * ((last - 1) / 16) + 2) (by omega) (by omega)
    have hbit := (hbits (16 * startFill t0 + (16 * ((last - 1) / 16) + 2)) (by omega)).mpr
      (((hin hblock).exists_tid _).mpr ⟨_, hmem, by omega⟩)
    rw [hbuilt.lost hfull] at hbit
    exact absurd hbit (by decide)

/-- Two tids of the first heap block, in either order. -/
theorem build_correct_first : BuildSpec freshRelation (1, 1) [.spill, .add 0 40, .add 0 5] := by
  refine (build_correct freshRelation (1, 1) 5 rfl (by decide) _ ?_).1 (.inr ⟨0, ?_, by decide, ?_, ?_⟩)
  · intro t ht
    simp only [fed, mem_cons, not_mem_nil, or_false] at ht
    rcases ht with rfl | rfl <;> exact ⟨by decide, by decide, by decide⟩
  · simp [fed]
  · show BuildEvent.spill ∉ [BuildEvent.add 0 5]
    decide
  · intro t ht hmax hfull
    simp only [fed, mem_cons, not_mem_nil, or_false] at ht
    rcases ht with rfl | rfl
    · exact absurd (hfull 39 (by decide) (by decide)) (by decide)
    · exact absurd (hmax (0, 40) (by decide)) (by decide)

/-- The fresh relation, with vectors made for the first tid of heap block 1. -/
def secondBlockRelation : Relation := {freshRelation with lov := fun _ => formitem 292}

/-- The first tid of heap block 1, added to the vector made for it, sets bit 289. -/
theorem build_moves_bit :
    (∃ blocks, Chain (build secondBlockRelation (1, 1) [.add 1 1]).page
        ((build secondBlockRelation (1, 1) [.add 1 1]).lov (1, 1)).lovHead blocks ∧
      bitAt (vectorWords (build secondBlockRelation (1, 1) [.add 1 1]).toIndex blocks
        ((build secondBlockRelation (1, 1) [.add 1 1]).lov (1, 1))) 289 = true) ∧
      (iptrToInt 1 1).toNat = 292 ∧ ¬BuildSpec secondBlockRelation (1, 1) [.add 1 1] := by
  have hchain : Chain (build secondBlockRelation (1, 1) [.add 1 1]).page
      ((build secondBlockRelation (1, 1) [.add 1 1]).lov (1, 1)).lovHead [2] :=
    .single (by decide +kernel) (by decide) (by decide +kernel)
  refine ⟨⟨[2], hchain, by decide +kernel⟩, by decide, ?_⟩
  rintro ⟨blocks, hchain', hbits⟩
  have hbit := (hbits 292 (by decide)).mpr ⟨(1, 1), by decide, by decide⟩
  rw [hchain'.unique hchain] at hbit
  exact absurd hbit (by decide +kernel)

end PgStorage.Hrl
