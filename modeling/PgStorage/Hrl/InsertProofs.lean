import PgStorage.Hrl.Insert
import PgStorage.Hrl.WriteProofs

/-! What single inserts leave in a vector.

`insertsetbit` puts a tid number beyond the last set bit into the hot buffer of a buffer
that nobody flushes before it is freed, and stores what the buffer had before. So the bit
is lost, and the last set bit of the LOV item is 0, or 291 after a change of heap block. -/
namespace PgStorage.Hrl
open List
open Relation (log_toIndex setPage_lov setLov_lov_self)

/-- Between the buffer and its words on disk, only the words change. -/
structure SameHot (buf buf' : TidBuffer) : Prop where
  block : buf'.hotBufferBlock = buf.hotBufferBlock
  offset : buf'.hotBufferLastOffset = buf.hotBufferLastOffset
  hot : buf'.hotBuffer = buf.hotBuffer

theorem SameHot.trans {a b c : TidBuffer} (h : SameHot a b) (h' : SameHot b c) : SameHot a c :=
  ⟨h'.block.trans h.block, h'.offset.trans h.offset, h'.hot.trans h.hot⟩

theorem bufExtend_hot (buf : TidBuffer) : SameHot buf (bufExtend buf) := by
  unfold bufExtend
  split
  · exact ⟨rfl, rfl, rfl⟩
  · split <;> exact ⟨rfl, rfl, rfl⟩

theorem bufExtend_pos (buf : TidBuffer) : 0 < (bufExtend buf).numCwords := by
  unfold bufExtend
  split
  · rename_i h
    exact h.1
  · split
    · exact Nat.zero_lt_succ 7
    · dsimp only
      omega

theorem mergewords_hot (buf : TidBuffer) (fill : Bool) :
    SameHot buf (mergewords buf fill) ∧ (0 < buf.numCwords → 0 < (mergewords buf fill).numCwords) := by
  simp only [mergewords]
  split
  · exact ⟨⟨rfl, rfl, rfl⟩, id⟩
  · split
    · exact ⟨⟨rfl, rfl, rfl⟩, id⟩
    · split
      · exact ⟨⟨rfl, rfl, rfl⟩, id⟩
      · have h := bufExtend_hot buf
        exact ⟨⟨h.block, h.offset, h.hot⟩, fun _ => bufExtend_pos buf⟩

theorem bufEnsureHeadSpace_hot (rel : Relation) (lov : Nat × Nat) (buf : TidBuffer) :
    SameHot buf (bufEnsureHeadSpace rel lov buf).2 ∧ (bufEnsureHeadSpace rel lov buf).2.lastTid = buf.lastTid ∧
      (0 < buf.numCwords → 0 < (bufEnsureHeadSpace rel lov buf).2.numCwords) := by
  have htid (b : TidBuffer) : (bufExtend b).lastTid = b.lastTid := by
    unfold bufExtend
    split
    · rfl
    · split <;> rfl
  have hfree : SameHot buf (bufFreeWords rel lov buf).2 ∧ (bufFreeWords rel lov buf).2.lastTid = buf.lastTid := by
    unfold bufFreeWords
    split
    · exact ⟨⟨rfl, rfl, rfl⟩, rfl⟩
    · obtain ⟨start, hb⟩ := writeNew_buf rel lov buf
      show SameHot buf (freeTidbuf (writeNewBitmapwords rel lov buf).2) ∧
        (freeTidbuf (writeNewBitmapwords rel lov buf).2).lastTid = _
      rw [hb]
      exact ⟨⟨rfl, rfl, rfl⟩, rfl⟩
  unfold bufEnsureHeadSpace
  split
  · exact ⟨hfree.1.trans (bufExtend_hot _), (htid _).trans hfree.2, fun _ => bufExtend_pos _⟩
  · exact ⟨⟨rfl, rfl, rfl⟩, rfl, id⟩

/-- A flush keeps room for words. -/
theorem flushFrom_pos (lov : Nat × Nat) (n i : Nat) (rel : Relation) (buf : TidBuffer) (hpos : 0 < buf.numCwords) :
    0 < (flushFrom lov n i rel buf).2.numCwords := by
  induction n generalizing i rel buf with
  | zero => exact hpos
  | succ n ih =>
    have hnum := (bufEnsureHeadSpace_hot rel lov
      {buf with lastTid := iptrToInt buf.hotBufferBlock (min buf.hotBufferLastOffset ((i + 1) * 16))}).2.2 hpos
    simp only [flushFrom]
    generalize bufEnsureHeadSpace rel lov _ = out at hnum
    obtain ⟨rel', buf'⟩ := out
    split
    · exact ih _ _ _ ((mergewords_hot _ _).2 hnum)
    · exact hnum

/-- The flush ends at the last offset. -/
theorem flushFrom_lastTid (lov : Nat × Nat) (n i : Nat) (rel : Relation) (buf : TidBuffer) (hn : 0 < n)
    (hle : buf.hotBufferLastOffset ≤ (i + n) * 16) :
    (flushFrom lov n i rel buf).2.lastTid = iptrToInt buf.hotBufferBlock buf.hotBufferLastOffset := by
  induction n generalizing i rel buf with
  | zero => omega
  | succ n ih =>
    obtain ⟨hhot, htid, -⟩ := bufEnsureHeadSpace_hot rel lov
      {buf with lastTid := iptrToInt buf.hotBufferBlock (min buf.hotBufferLastOffset ((i + 1) * 16))}
    simp only [flushFrom]
    generalize bufEnsureHeadSpace rel lov _ = out at hhot htid
    obtain ⟨rel', buf'⟩ := out
    split
    · rename_i hmore
      have hlt := of_decide_eq_true hmore
      obtain ⟨hm, -⟩ := mergewords_hot {buf' with lastWord := (hotWord (buf'.hotBuffer i)).1}
        (hotWord (buf'.hotBuffer i)).2
      have hoff : (mergewords {buf' with lastWord := (hotWord (buf'.hotBuffer i)).1}
          (hotWord (buf'.hotBuffer i)).2).hotBufferLastOffset = buf.hotBufferLastOffset := hm.offset.trans hhot.offset
      have hblk : (mergewords {buf' with lastWord := (hotWord (buf'.hotBuffer i)).1}
          (hotWord (buf'.hotBuffer i)).2).hotBufferBlock = buf.hotBufferBlock := hm.block.trans hhot.block
      have hrest := ih (i + 1) rel' _ (show 0 < n from Nat.pos_of_ne_zero fun h0 => by subst h0; omega)
        (by rw [hoff]; omega)
      rw [hoff, hblk] at hrest
      exact hrest
    · rename_i hmore
      have hge : buf.hotBufferLastOffset ≤ (i + 1) * 16 := by
        have := of_decide_eq_false (by simpa using hmore : decide ((i + 1) * 16 < buf.hotBufferLastOffset) = false)
        omega
      show buf'.lastTid = _
      rw [htid]
      show iptrToInt _ (min _ _) = _
      rw [Nat.min_eq_left hge]

theorem hotBufferFlush_lastTid (rel : Relation) (lov : Nat × Nat) {buf : TidBuffer}
    (hle : buf.hotBufferLastOffset ≤ maxHtupPerPage) (hpos : 0 < buf.numCwords) :
    (hotBufferFlush rel lov buf).2.lastTid = iptrToInt buf.hotBufferBlock buf.hotBufferLastOffset ∧
      0 < (hotBufferFlush rel lov buf).2.numCwords := by
  have htid := flushFrom_lastTid lov sizeofHotBuffer 0 rel buf (by decide) (Nat.le_trans hle (by decide))
  have hnum := flushFrom_pos lov sizeofHotBuffer 0 rel buf hpos
  simp only [hotBufferFlush]
  exact ⟨htid, hnum⟩

theorem choosePage_lov (rel : Relation) (blk extra : Nat) : (choosePage rel blk extra).rel.lov = rel.lov := by
  simp only [choosePage]
  split
  · rfl
  · split <;> rfl

theorem splitWord_lov (rel : Relation) (lov : Nat × Nat) (blk wordNo : Nat) (literalFirst : Bool) (new : TidBuffer) :
    ∃ tail, (splitWord rel lov blk wordNo literalFirst new).lov lov = {rel.lov lov with lovTail := tail} := by
  have hlov := choosePage_lov rel blk (new.curword - 1)
  simp only [splitWord]
  split
  · refine ⟨(rel.lov lov).lovTail, ?_⟩
    simp only [logUpdatewords, log_toIndex, setPage_lov, hlov]
  · rename_i b _
    simp only [logUpdatewords, log_toIndex, setPage_lov]
    split
    · refine ⟨b, ?_⟩
      rw [setLov_lov_self, hlov]
    · refine ⟨(rel.lov lov).lovTail, ?_⟩
      rw [hlov]

variable {rel rel' : Relation} {lov : Nat × Nat} {t : BitVec 64} {ts : List (BitVec 64)}

/-- An update in a page leaves the LOV item, but for the last page of the vector. -/
theorem updatesetbitInpage_lov {tidnum : BitVec 64} {blk : Nat}
    {first : BitVec 64} (h : updatesetbitInpage rel tidnum lov blk first = some rel') :
    ∃ tail, rel'.lov lov = {rel.lov lov with lovTail := tail} := by
  unfold updatesetbitInpage at h
  dsimp only at h
  split at h
  · exact absurd h (by simp)
  · split at h
    · cases h
      exact ⟨(rel.lov lov).lovTail, by simp [logUpdateword]⟩
    · split at h
      · cases h
        exact ⟨(rel.lov lov).lovTail, rfl⟩
      · split at h
        · cases h
          exact ⟨(rel.lov lov).lovTail, by simp [logUpdateword]⟩
        · cases h
          exact splitWord_lov ..

/-- An update keeps the last set bit, and sets no header bit. -/
theorem updatesetbit_lov {tidnum : BitVec 64}
    (h : updatesetbit rel lov tidnum = some rel') (hword : lastwordIsFill (rel.lov lov) = false) :
    (rel'.lov lov).lastSetbit = (rel.lov lov).lastSetbit ∧ lastwordIsFill (rel'.lov lov) = false := by
  simp only [updatesetbit] at h
  split at h
  · cases h
    simp only [logBitmapLastwords, log_toIndex, setLov_lov_self]
    exact ⟨trivial, hword⟩
  · split at h
    · cases h
      simp only [logBitmapLastwords, log_toIndex, setLov_lov_self]
      refine ⟨trivial, ?_⟩
      show (lovWordsNoFill &&& lastWordBit != 0) = false
      decide
    · split at h
      · rename_i hfill
        exact absurd (hword.symm.trans hfill.2) Bool.false_ne_true
      · split at h
        · exact absurd h (by simp)
        · obtain ⟨tail, htail⟩ := updatesetbitInpage_lov h
          rw [htail]
          exact ⟨rfl, hword⟩

/-- The buffer that `insertsetbit` starts with. -/
def startBuffer (item : LovItem) : TidBuffer :=
  {bufExtend zeroBuffer with
    lastCompword := item.lastCompword, lastWord := item.lastWord, isLastCompwordFill := lastCompwordIsFill item
    lastTid := item.lastSetbit}

theorem insertTid_eq (rel : Relation) (lov : Nat × Nat) (t : BitVec 64) :
    insertTid rel lov t =
      if t ≤ (rel.lov lov).lastSetbit then updatesetbit rel lov t
      else
        let out := bufAddTidWithFill rel lov (startBuffer (rel.lov lov)) t
        if out.2.numCwords = 0 then
          let item := {out.1.lov lov with
            lastCompword := out.2.lastCompword, lastWord := out.2.lastWord
            wordsHeader := (out.1.lov lov).wordsHeader &&& lastCompwordBit
            lastSetbit := t, lastTidLocation := t - t % 16}
          some (logBitmapLastwords (out.1.setLov lov item) lov item)
        else some (writeNewBitmapwords out.1 lov out.2).1 := by
  have hbuf : (fun i => if i * 16 < (bufExtend zeroBuffer).numCwords then 0 else (bufExtend zeroBuffer).hwords i) =
      (bufExtend zeroBuffer).hwords := by
    funext i
    split <;> rfl
  simp only [insertTid, insertsetbit, hbuf]
  rfl

/-- A tid number beyond the last set bit: what the buffer's `last_tid` is in the end. -/
theorem bufAdd_lastTid (rel : Relation) (lov : Nat × Nat) (item : LovItem) (t : BitVec 64) :
    0 < (bufAddTidWithFill rel lov (startBuffer item) t).2.numCwords ∧
      (bufAddTidWithFill rel lov (startBuffer item) t).2.lastTid =
        if intGetBlockno t = 0 then item.lastSetbit else 291 := by
  have h0 : (startBuffer item).hotBufferBlock = 0 := rfl
  have hflush : (hotBufferFlush rel lov {startBuffer item with hotBufferLastOffset := maxHtupPerPage}).2.lastTid =
      iptrToInt 0 maxHtupPerPage ∧
      0 < (hotBufferFlush rel lov {startBuffer item with hotBufferLastOffset := maxHtupPerPage}).2.numCwords :=
    hotBufferFlush_lastTid rel lov (Nat.le_refl _) (Nat.zero_lt_succ 7)
  have hend : iptrToInt 0 maxHtupPerPage = 291 := by decide
  rw [hend] at hflush
  simp only [bufAddTidWithFill]
  split
  · rename_i hblock
    have hblock' : intGetBlockno t ≠ 0 := hblock
    rw [if_neg hblock', if_pos (show (startBuffer item).hotBufferBlock ≠ invalidBlockNumber by rw [h0]; decide)]
    generalize hotBufferFlush rel lov _ = out at hflush ⊢
    exact ⟨hflush.2, hflush.1⟩
  · rename_i hblock
    have hblock' : intGetBlockno t = 0 := by
      by_contra hc
      exact hblock hc
    rw [if_pos hblock']
    exact ⟨Nat.zero_lt_succ 7, rfl⟩

theorem intGetBlockno_pos (ht : 1 ≤ t) (h : intGetBlockno t ≠ 0) : 291 < t.toNat := by
  by_contra hle
  apply h
  have hone : (1 : BitVec 64).toNat = 1 := rfl
  have hpos : 1 ≤ t.toNat := ht
  have hdiv : ((t - 1) / BitVec.ofNat 64 maxHtupPerPage).toNat = (t - 1).toNat / 291 := BitVec.toNat_udiv
  rw [intGetBlockno, hdiv, BitVec.toNat_sub, hone]
  omega

/-- The last set bit of the LOV item is smaller than one of the tid numbers `ts`. -/
structure Lost (ts : List (BitVec 64)) (item : LovItem) : Prop where
  word : lastwordIsFill item = false
  setbit : ∃ u ∈ ts, item.lastSetbit < u

/-- An insert beyond the last set bit does not raise it to the tid number. -/
theorem insertTid_new (ht : 1 ≤ t)
    (hnew : ¬t ≤ (rel.lov lov).lastSetbit) (h : insertTid rel lov t = some rel') :
    lastwordIsFill (rel'.lov lov) = false ∧ (rel'.lov lov).lastSetbit < t := by
  obtain ⟨hnum, htid⟩ := bufAdd_lastTid rel lov (rel.lov lov) t
  rw [insertTid_eq, if_neg hnew] at h
  dsimp only at h
  rw [if_neg (Nat.ne_of_gt hnum)] at h
  cases h
  have hlast := writeNew_lov (bufAddTidWithFill rel lov (startBuffer (rel.lov lov)) t).1 lov
    (bufAddTidWithFill rel lov (startBuffer (rel.lov lov)) t).2
  refine ⟨hlast.word_literal, ?_⟩
  rw [hlast.setbit, htid]
  split
  · exact BitVec.not_le.mp hnew
  · rename_i hblock
    exact intGetBlockno_pos ht hblock

theorem insertTid_lost (ht : 1 ≤ t)
    (hinv : Lost ts (rel.lov lov)) (h : insertTid rel lov t = some rel') : Lost (t :: ts) (rel'.lov lov) := by
  by_cases hle : t ≤ (rel.lov lov).lastSetbit
  · rw [insertTid_eq, if_pos hle] at h
    obtain ⟨hset, hword⟩ := updatesetbit_lov h hinv.word
    obtain ⟨u, hu, hlt⟩ := hinv.setbit
    exact ⟨hword, u, mem_cons_of_mem _ hu, by rw [hset]; exact hlt⟩
  · obtain ⟨hword, hset⟩ := insertTid_new ht hle h
    exact ⟨hword, t, mem_cons_self, hset⟩

theorem insertTids_lost {pre : List (BitVec 64)}
    (hts : ∀ t ∈ ts, 1 ≤ t) (hinv : Lost pre (rel.lov lov)) (h : insertTids rel lov ts = some rel') :
    Lost (ts.reverse ++ pre) (rel'.lov lov) := by
  induction ts generalizing rel pre with
  | nil =>
    cases h
    exact hinv
  | cons t ts ih =>
    simp only [insertTids] at h
    split at h
    · exact absurd h (by simp)
    · rename_i rel1 h1
      have hstep := insertTid_lost (hts t mem_cons_self) hinv h1
      have hrest := ih (fun u hu => hts u (mem_cons_of_mem _ hu)) hstep h
      simpa using hrest

/-! ### Fresh vectors -/

/-- A fresh LOV item has no last set bit, unless one fill cannot hold all the zeros before
the first tid number. -/
theorem formitem_cases (t : BitVec 64) :
    (lastwordIsFill (formitem t) = false ∧ (formitem t).lovHead = invalidBlockNumber) ∧
      ((formitem t).lastSetbit = 0 ∨
        (formitem t).lastSetbit = 524272 ∧ (formitem t).lastTidLocation = 524272 ∧
          (formitem t).wordsHeader = lastCompwordBit ∧ (formitem t).lastCompword = 32767) := by
  simp only [formitem]
  split
  · refine ⟨⟨?_, rfl⟩, ?_⟩
    · show (lastCompwordBit &&& lastWordBit != 0) = false
      decide
    · dsimp only
      split
      · rename_i hlt
        have hmin : min (((t - 1) / 16).toNat % 2 ^ 32) maxFillLength = maxFillLength := by omega
        rw [hmin]
        exact .inr ⟨by decide, by decide, rfl, by decide⟩
      · exact .inl rfl
  · refine ⟨⟨?_, rfl⟩, .inl rfl⟩
    show (lovWordsNoFill &&& lastWordBit != 0) = false
    decide

/-- In a fresh vector that starts with a full fill, no bit of the fill can be set: it is
not in a page, and `updatesetbit` asks whether the last word is a fill. -/
theorem updatesetbit_fresh (hle : t ≤ 524272)
    (hhead : (rel.lov lov).lovHead = invalidBlockNumber) (hword : lastwordIsFill (rel.lov lov) = false)
    (hloc : (rel.lov lov).lastTidLocation = 524272) (hheader : (rel.lov lov).wordsHeader = lastCompwordBit)
    (hcomp : (rel.lov lov).lastCompword = 32767) : updatesetbit rel lov t = none := by
  have hfill : lastCompwordIsFill (rel.lov lov) = true := by rw [lastCompwordIsFill, hheader]; decide
  have hfind : findbitmappage rel (rel.lov lov) t = none := by
    rw [findbitmappage, hhead, findbitmappageFrom, if_pos rfl]
  simp only [updatesetbit, hfind]
  rw [if_neg, if_neg, if_neg]
  · rw [hword]
    simp
  · rw [hheader, hcomp]
    have h1 : ¬(lastCompwordBit = lovWordsNoFill ∨ fillLength (32767 : Word) = 1) := by decide
    exact fun hc => h1 hc.2
  · rw [hloc]
    exact BitVec.not_lt.mpr hle

theorem insertTid_fresh {t0 : BitVec 64} (hfresh : rel.lov lov = formitem t0)
    (ht : 1 ≤ t) (h : insertTid rel lov t = some rel') : Lost [t] (rel'.lov lov) := by
  by_cases hle : t ≤ (rel.lov lov).lastSetbit
  · obtain ⟨⟨hword, hhead⟩, hset⟩ := formitem_cases t0
    rw [← hfresh] at hword hhead hset
    rcases hset with hzero | ⟨hset, hloc, hheader, hcomp⟩
    · rw [hzero] at hle
      exact absurd (Nat.le_trans ht hle) (by decide)
    · rw [insertTid_eq, if_pos hle, updatesetbit_fresh (hset ▸ hle) hhead hword hloc hheader hcomp] at h
      exact absurd h (by simp)
  · obtain ⟨hword, hset⟩ := insertTid_new ht hle h
    exact ⟨hword, t, mem_cons_self, hset⟩

/-- A fresh LOV item has no bits. -/
theorem formitem_zeros (t : BitVec 64) : ∀ w ∈ expand (lovCells (formitem t)), w = 0 := by
  have hzero : (Cell.mk false literalAllZero).words = [0] := rfl
  have hone : literalAllOne ≠ 0 := by decide
  simp only [formitem]
  split
  · have hbit := (makeFillWord_zero (Nat.min_le_right (((t - 1) / 16).toNat % 2 ^ 32) maxFillLength)).2
    generalize makeFillWord 0 _ = comp at hbit
    have hfill : (lastCompwordBit &&& lastCompwordBit != 0) = true := by decide
    have hword : (lastCompwordBit &&& lastWordBit != 0) = false := by decide
    simp only [lovCells, lastCompwordIsFill, lastwordIsFill, hfill, hword]
    split
    · rw [expand_cons, expand_cons, hzero]
      simp only [Cell.words, if_true, hbit]
      intro w hw
      simp only [expand_nil, append_nil, mem_append, mem_replicate, mem_singleton] at hw
      rcases hw with ⟨-, rfl⟩ | rfl
      · rfl
      · rfl
    · rw [expand_cons, hzero]
      simp
  · have hword : (lovWordsNoFill &&& lastWordBit != 0) = false := by decide
    simp only [lovCells, lastwordIsFill, hword, ne_eq, not_true_eq_false, if_false, expand_cons, hzero]
    simp

theorem bitAt_formitem (idx : Index) (t : BitVec 64) (p : Nat) : bitAt (vectorWords idx [] (formitem t)) p = false := by
  rw [bitAt, getD_eq_getElem?_getD]
  cases hget : (vectorWords idx [] (formitem t))[(p - 1) / 16]? with
  | none => exact BitVec.getLsbD_zero
  | some w =>
    rw [Option.getD_some, formitem_zeros t w (mem_of_getElem? hget)]
    exact BitVec.getLsbD_zero

/-- **Inserts do what they should:** they succeed, the bits of the vector are the tid
numbers, and the last set bit is the largest. -/
def InsertSpec (rel : Relation) (lov : Nat × Nat) (ts : List (BitVec 64)) : Prop :=
  ∃ rel', insertTids rel lov ts = some rel' ∧
    (∃ blocks, Chain rel'.page (rel'.lov lov).lovHead blocks ∧
      ∀ p, 1 ≤ p → (bitAt (vectorWords rel'.toIndex blocks (rel'.lov lov)) p = true ↔ ∃ t ∈ ts, t.toNat = p)) ∧
    ∀ t ∈ ts, (∀ u ∈ ts, u ≤ t) → (rel'.lov lov).lastSetbit = t

theorem exists_max (h : ts ≠ []) : ∃ t ∈ ts, ∀ u ∈ ts, u ≤ t := by
  induction ts with
  | nil => exact absurd rfl h
  | cons t ts ih =>
    cases ts with
    | nil => exact ⟨t, mem_cons_self, by simp⟩
    | cons t' ts =>
      obtain ⟨m, hm, hmax⟩ := ih (by simp)
      by_cases hle : m ≤ t
      · refine ⟨t, mem_cons_self, fun u hu => ?_⟩
        rcases mem_cons.mp hu with rfl | hu
        · exact Nat.le_refl _
        · exact Nat.le_trans (hmax u hu) hle
      · refine ⟨m, mem_cons_of_mem _ hm, fun u hu => ?_⟩
        rcases mem_cons.mp hu with rfl | hu
        · exact Nat.le_of_lt (BitVec.not_le.mp hle)
        · exact hmax u hu

theorem not_insertSpec {t0 : BitVec 64} (hfresh : rel.lov lov = formitem t0)
    (hts : ∀ t ∈ ts, 1 ≤ t) (hne : ts ≠ []) : ¬InsertSpec rel lov ts := by
  rintro ⟨rel', hrun, -, hset⟩
  obtain ⟨m, hm, hmax⟩ := exists_max hne
  have hlost : ∃ u ∈ ts, (rel'.lov lov).lastSetbit < u := by
    cases ts with
    | nil => exact absurd rfl hne
    | cons t ts =>
      simp only [insertTids] at hrun
      split at hrun
      · exact absurd hrun (by simp)
      · rename_i rel1 h1
        have hfirst := insertTid_fresh hfresh (hts t mem_cons_self) h1
        have hrest := insertTids_lost (fun u hu => hts u (mem_cons_of_mem _ hu)) hfirst hrun
        obtain ⟨u, hu, hlt⟩ := hrest.setbit
        exact ⟨u, by simpa [or_comm] using hu, hlt⟩
  obtain ⟨u, hu, hlt⟩ := hlost
  rw [hset m hm hmax] at hlt
  exact absurd (hmax u hu) (BitVec.not_le.mpr hlt)

/-- **Inserts into a fresh vector** do what they should only if there are none. -/
theorem insert_correct_iff (rel : Relation) (lov : Nat × Nat) (t0 : BitVec 64) (hfresh : rel.lov lov = formitem t0)
    (ts : List (BitVec 64)) (hts : ∀ t ∈ ts, 1 ≤ t) : InsertSpec rel lov ts ↔ ts = [] := by
  constructor
  · intro h
    by_contra hne
    exact not_insertSpec hfresh hts hne h
  · rintro rfl
    refine ⟨rel, rfl, ⟨[], ?_, fun p _ => ?_⟩, by simp⟩
    · rw [hfresh, (formitem_cases t0).1.2]
      exact .done
    · rw [hfresh, bitAt_formitem]
      simp

/-- A relation whose LOV items are fresh, made for tid number 5. -/
def freshRelation : Relation where
  nblocks := 2
  page := fun _ => emptyPage
  lov := fun _ => formitem 5
  useWal := false
  stack :=
    { lov := (0, 0), firstBlkno := 0, firstCwords := fun _ => 0, firstHwords := fun _ => 0, firstLastTid := 0
      firstNumCwords := 0, secondBlkno := 0, secondCwords := fun _ => 0, secondHwords := fun _ => 0
      secondLastTid := 0, secondNumCwords := 0, twoPages := false, nextBlkno := 0, newLastpage := false }
  wal := []

theorem insert_correct_iff_fresh : InsertSpec freshRelation (1, 1) [5, 3] ↔ [5, 3] = ([] : List (BitVec 64)) :=
  insert_correct_iff freshRelation (1, 1) 5 rfl [5, 3] (by simp)

/-- Tid number 5, inserted into the vector made for it, leaves no bit and no last set bit. -/
theorem insert_loses_bit :
    (∃ rel', insertTids freshRelation (1, 1) [5] = some rel' ∧ (rel'.lov (1, 1)).lastSetbit = 0 ∧
      Chain rel'.page (rel'.lov (1, 1)).lovHead [2] ∧
      bitAt (vectorWords rel'.toIndex [2] (rel'.lov (1, 1))) 5 = false) ∧
      ¬InsertSpec freshRelation (1, 1) [5] := by
  refine ⟨⟨_, rfl, by decide +kernel, ?_, by decide +kernel⟩, not_insertSpec (rfl : _ = formitem 5) (by simp) (by simp)⟩
  exact .single (by decide +kernel) (by decide) (by decide +kernel)

end PgStorage.Hrl
