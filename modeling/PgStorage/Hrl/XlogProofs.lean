import PgStorage.Hrl.Xlog
import PgStorage.Hrl.WriteProofs

/-! What replay of the log reproduces.

Last words and single words are replayed as they were written. A record of new words is
right only if the page it goes to is in the buffer cache, or has no words; a record of
two or three words in the place of one leaves out what the source never sets. -/
namespace PgStorage.Hrl
open Option (bind_eq_bind bind_some)
open Relation (log log_toIndex)

/-- What replay finds on a page that it takes from a record. -/
def loaded (s : RedoState) (b : Nat) : BMPage := if b < s.nblocks ∧ s.cached b = true then s.page b else emptyPage

/-- No block of the file is new, and all LSNs are below `lsn`. -/
structure Settled (lsn : Nat) (s : RedoState) : Prop where
  old : ∀ b < s.nblocks, s.isNew b = false
  lsn : ∀ b, s.lsn b < lsn

/-- Block `b` is ready to be changed; nothing else has changed. -/
structure Loaded (lsn : Nat) (s : RedoState) (b : Nat) (s' : RedoState) : Prop where
  settled : Settled lsn s'
  page : s'.page = fun i => if i = b then loaded s b else s.page i
  lov : s'.lov = s.lov
  nblocks : s'.nblocks = max s.nblocks (b + 1)
  cached : ∀ i, i = b ∨ s.cached i = true → s'.cached i = true
  incomplete : s'.incomplete = s.incomplete

section
variable {lsn : Nat} {s : RedoState} {b : Nat}

theorem read_old (h : Settled lsn s) (hb : b < s.nblocks) : s.xlogReadBuffer b false = some (s.setCached b) := by
  rw [RedoState.xlogReadBuffer, if_pos hb, if_neg Bool.false_ne_true, h.old b hb, if_neg Bool.false_ne_true]

theorem initBitmappage_zeroBlocks (s : RedoState) (b : Nat) :
    ((s.zeroBlocks b b).initBitmappage b).page = fun i => if i = b then emptyPage else s.page i := by
  funext i
  simp only [RedoState.initBitmappage, RedoState.setPage, RedoState.zeroBlocks, le_refl, and_self, if_true]
  split
  · rfl
  · rename_i hne
    rw [if_neg (by omega)]

/-- A block of zeros that is initialised. -/
theorem loaded_zero (h : Settled lsn s) (hload : loaded s b = emptyPage) {n : Nat} (hn : n = max s.nblocks (b + 1))
    (hb : b ≤ s.nblocks) : Loaded lsn s b ({s.zeroBlocks b b with nblocks := n}.initBitmappage b) := by
  have hlsn := h.lsn
  refine ⟨⟨fun i hi => ?_, fun i => ?_⟩, ?_, rfl, hn, fun i hi => ?_, rfl⟩
  · show (if i = b then false else if b ≤ i ∧ i ≤ b then true else s.isNew i) = false
    have hi' : i < n := hi
    split
    · rfl
    · rw [if_neg (by omega)]
      exact h.old i (by omega)
  · show (if b ≤ i ∧ i ≤ b then 0 else s.lsn i) < lsn
    have := hlsn i
    split <;> omega
  · rw [hload]
    exact initBitmappage_zeroBlocks s b
  · show (if b ≤ i ∧ i ≤ b then true else s.cached i) = true
    split
    · rfl
    · rcases hi with rfl | hi
      · omega
      · exact hi

theorem load_page (h : Settled lsn s) (hb : b ≤ s.nblocks) :
    ∃ s', s.xlogReadBuffer b true = some s' ∧ Loaded lsn s b (if s'.isNew b then s'.initBitmappage b else s') := by
  unfold RedoState.xlogReadBuffer
  by_cases hlt : b < s.nblocks
  · rw [if_pos hlt, if_pos rfl]
    refine ⟨_, rfl, ?_⟩
    cases hc : s.cached b with
    | true =>
      have hload : loaded s b = s.page b := if_pos ⟨hlt, hc⟩
      rw [if_pos rfl, h.old b hlt, if_neg Bool.false_ne_true]
      refine ⟨h, ?_, rfl, by omega, fun i hi => ?_, rfl⟩
      · funext i
        split
        · rename_i heq
          rw [heq, hload]
        · rfl
      · rcases hi with rfl | hi
        · exact hc
        · exact hi
    | false =>
      have hload : loaded s b = emptyPage := if_neg (by simp [hc])
      have hnew : (s.zeroBlocks b b).isNew b = true := if_pos ⟨le_refl _, le_refl _⟩
      rw [if_neg Bool.false_ne_true, hnew, if_pos rfl]
      exact loaded_zero h hload (by show s.nblocks = _; omega) hb
  · obtain rfl : b = s.nblocks := by omega
    have hload : loaded s s.nblocks = emptyPage := if_neg (by omega)
    have hnew : (s.zeroBlocks s.nblocks s.nblocks).isNew s.nblocks = true := if_pos ⟨le_refl _, le_refl _⟩
    rw [if_neg hlt, if_pos rfl]
    refine ⟨_, rfl, ?_⟩
    show Loaded lsn s s.nblocks (if (s.zeroBlocks s.nblocks s.nblocks).isNew s.nblocks then _ else _)
    rw [hnew, if_pos rfl]
    exact loaded_zero h hload (by omega) hb

end

/-! ### Records of new words -/

/-- The page that a record of new words makes of `p`. -/
def recordPage (p : BMPage) (r : XlBitmapwords) : BMPage :=
  {(if r.wordsWritten = 0 then p else (writeBitmapwords p (recordWords r)).1) with bitmapNext := r.nextBlkno}

theorem Settled.set {lsn : Nat} {s : RedoState} (h : Settled lsn s) {s' : RedoState} {lsn' : Nat} (hlt : lsn < lsn')
    (hold : ∀ b < s'.nblocks, s'.isNew b = s.isNew b ∧ b < s.nblocks)
    (hlsn : ∀ b, s'.lsn b = lsn ∨ s'.lsn b = s.lsn b) : Settled lsn' s' := by
  refine ⟨fun b hb => ?_, fun b => ?_⟩
  · rw [(hold b hb).1]
    exact h.old b (hold b hb).2
  · have := h.lsn b
    rcases hlsn b with h' | h' <;> omega

/-- **Replay of the last record** of a write. -/
theorem redo_last {lsn lsn' : Nat} {s : RedoState} {r : XlBitmapwords} (h : Settled lsn s) (hlt : lsn < lsn')
    (hblk : r.blkno ≤ s.nblocks) (hlov : r.lov.1 < s.nblocks) (hlast : r.isLast = true) :
    ∃ s', xlogInsertBitmapwords lsn r s = some s' ∧ Settled lsn' s' ∧
      s'.toIndex =
        { nblocks := max s.nblocks (r.blkno + 1)
          page := fun i => if i = r.blkno then recordPage (loaded s r.blkno) r else s.page i
          lov := fun l => if l = r.lov then lastRecordItem r (s.lov r.lov) else s.lov l } ∧
      s'.incomplete = forgetIncompleteInsertBitmapwords s.incomplete r := by
  obtain ⟨s1, hread, hload⟩ := load_page h hblk
  generalize hs2 : (if s1.isNew r.blkno then s1.initBitmappage r.blkno else s1) = s2 at hload
  have hpage2 : s2.page r.blkno = loaded s r.blkno := by
    rw [hload.page]
    exact if_pos rfl
  simp only [xlogInsertBitmapwords, hread, bind_eq_bind, bind_some, hs2]
  rw [if_pos (hload.settled.lsn _), hpage2]
  generalize hs3 : s2.setPage r.blkno _ = s3
  have hsettled : Settled lsn s3 := hs3 ▸ ⟨hload.settled.old, hload.settled.lsn⟩
  have hblocks : s3.nblocks = max s.nblocks (r.blkno + 1) := by rw [← hs3]; exact hload.nblocks
  rw [read_old hsettled (by rw [hblocks]; omega)]
  simp only [bind_some, hlast, if_true]
  refine ⟨_, rfl, ?_, ?_, ?_⟩
  · have hlsn (b : Nat) : (if b = r.blkno then lsn else if b = r.lov.1 then lsn else s3.lsn b) = lsn ∨
        (if b = r.blkno then lsn else if b = r.lov.1 then lsn else s3.lsn b) = s3.lsn b := by
      split_ifs <;> simp
    exact hsettled.set hlt (fun b hb => ⟨rfl, hb⟩) hlsn
  · have hlov3 : s3.lov = s.lov := by rw [← hs3]; exact hload.lov
    have hpage3 : s3.page = fun i => if i = r.blkno then recordPage (loaded s r.blkno) r else s.page i := by
      rw [← hs3]
      funext i
      show (if i = r.blkno then _ else s2.page i) = _
      split
      · rfl
      · rename_i hne
        rw [hload.page]
        exact if_neg hne
    show Index.mk s3.nblocks s3.page (fun l => if l = r.lov then lastRecordItem r (s3.lov r.lov) else s3.lov l) = _
    rw [hblocks, hpage3, hlov3]
  · show forgetIncompleteInsertBitmapwords s3.incomplete r = _
    rw [← hs3]
    exact congrArg (forgetIncompleteInsertBitmapwords · r) hload.incomplete

/-- **Replay of a record that goes on** on the next new page. -/
theorem redo_next {lsn lsn' : Nat} {s : RedoState} {r : XlBitmapwords} (h : Settled lsn s) (hlt : lsn < lsn')
    (hblk : r.blkno ≤ s.nblocks) (hlov : r.lov.1 < s.nblocks) (hlast : r.isLast = false)
    (hnext : r.nextBlkno = max s.nblocks (r.blkno + 1)) :
    ∃ s', xlogInsertBitmapwords lsn r s = some s' ∧ Settled lsn' s' ∧
      s'.toIndex =
        { nblocks := r.nextBlkno + 1
          page := fun i => if i = r.nextBlkno then emptyPage
            else if i = r.blkno then recordPage (loaded s r.blkno) r else s.page i
          lov := if r.isFirst then
              fun l => if l = r.lov then {s.lov r.lov with lovHead := r.blkno, lovTail := r.blkno} else s.lov l
            else s.lov } ∧
      s'.cached r.nextBlkno = true ∧ s'.incomplete = logIncompleteInsertBitmapwords s.incomplete r := by
  obtain ⟨s1, hread, hload⟩ := load_page h hblk
  generalize hs2 : (if s1.isNew r.blkno then s1.initBitmappage r.blkno else s1) = s2 at hload
  have hpage2 : s2.page r.blkno = loaded s r.blkno := by
    rw [hload.page]
    exact if_pos rfl
  simp only [xlogInsertBitmapwords, hread, bind_eq_bind, bind_some, hs2]
  rw [if_pos (hload.settled.lsn _), hpage2]
  generalize hs3 : s2.setPage r.blkno _ = s3
  have hsettled : Settled lsn s3 := hs3 ▸ ⟨hload.settled.old, hload.settled.lsn⟩
  have hblocks : s3.nblocks = r.nextBlkno := by rw [← hs3, hnext]; exact hload.nblocks
  have hlov3 : s3.lov = s.lov := by rw [← hs3]; exact hload.lov
  have hpage3 : s3.page = fun i => if i = r.blkno then recordPage (loaded s r.blkno) r else s.page i := by
    rw [← hs3]
    funext i
    show (if i = r.blkno then _ else s2.page i) = _
    split
    · rfl
    · rename_i hne
      rw [hload.page]
      exact if_neg hne
  have hinc : s3.incomplete = s.incomplete := by rw [← hs3]; exact hload.incomplete
  rw [read_old hsettled (by rw [hblocks, hnext]; omega)]
  simp only [bind_some, hlast, Bool.false_eq_true, if_false]
  have hextend : (s3.setCached r.lov.1).xlogReadBuffer r.nextBlkno true =
      some {(s3.setCached r.lov.1).zeroBlocks r.nextBlkno r.nextBlkno with nblocks := r.nextBlkno + 1} := by
    show (if r.nextBlkno < s3.nblocks then _ else if true = true then
      some {(s3.setCached r.lov.1).zeroBlocks s3.nblocks r.nextBlkno with nblocks := r.nextBlkno + 1} else none) = _
    rw [hblocks, if_neg (lt_irrefl _), if_pos rfl]
  simp only [hextend, bind_some]
  have hzero : Loaded lsn (s3.setCached r.lov.1) r.nextBlkno
      ({(s3.setCached r.lov.1).zeroBlocks r.nextBlkno r.nextBlkno with nblocks := r.nextBlkno + 1}.initBitmappage
        r.nextBlkno) := by
    have hcached : Settled lsn (s3.setCached r.lov.1) := ⟨hsettled.old, hsettled.lsn⟩
    refine loaded_zero hcached (if_neg ?_) ?_ ?_
    · show ¬(r.nextBlkno < s3.nblocks ∧ _)
      omega
    · show _ = max s3.nblocks _
      omega
    · show _ ≤ s3.nblocks
      omega
  generalize RedoState.initBitmappage _ r.nextBlkno = s5 at hzero ⊢
  have hpage5 : s5.page = fun i => if i = r.nextBlkno then emptyPage
      else if i = r.blkno then recordPage (loaded s r.blkno) r else s.page i := by
    rw [hzero.page]
    have hfresh : loaded (s3.setCached r.lov.1) r.nextBlkno = emptyPage := by
      refine if_neg ?_
      show ¬(r.nextBlkno < s3.nblocks ∧ _)
      omega
    rw [hfresh]
    show (fun i => if i = r.nextBlkno then emptyPage else s3.page i) = _
    rw [hpage3]
  have hblocks5 : s5.nblocks = r.nextBlkno + 1 := by
    rw [hzero.nblocks]
    show max s3.nblocks _ = _
    omega
  have hlov5 : s5.lov = s.lov := hzero.lov.trans hlov3
  have hinc5 : s5.incomplete = s.incomplete := hzero.incomplete.trans hinc
  have hcached5 : s5.cached r.nextBlkno = true := hzero.cached _ (.inl rfl)
  refine ⟨_, rfl, ?_, ?_, ?_, ?_⟩
  · split
    · have hlsn (b : Nat) :
          (if b = r.blkno then lsn else if b = r.nextBlkno then lsn else if b = r.lov.1 then lsn else s5.lsn b) = lsn ∨
          (if b = r.blkno then lsn else if b = r.nextBlkno then lsn else if b = r.lov.1 then lsn else s5.lsn b) =
            s5.lsn b := by
        split_ifs <;> simp
      exact hzero.settled.set hlt (fun b hb => ⟨rfl, hb⟩) hlsn
    · have hlsn (b : Nat) : (if b = r.blkno then lsn else if b = r.nextBlkno then lsn else s5.lsn b) = lsn ∨
          (if b = r.blkno then lsn else if b = r.nextBlkno then lsn else s5.lsn b) = s5.lsn b := by
        split_ifs <;> simp
      exact hzero.settled.set hlt (fun b hb => ⟨rfl, hb⟩) hlsn
  · split
    · show Index.mk s5.nblocks s5.page
        (fun l => if l = r.lov then {s5.lov r.lov with lovHead := r.blkno, lovTail := r.blkno} else s5.lov l) = _
      rw [hblocks5, hpage5, hlov5]
    · show Index.mk s5.nblocks s5.page s5.lov = _
      rw [hblocks5, hpage5, hlov5]
  · split
    · exact hcached5
    · exact hcached5
  · split
    · exact congrArg (logIncompleteInsertBitmapwords · r) hinc5
    · exact congrArg (logIncompleteInsertBitmapwords · r) hinc5

/-! ### The records of a write -/

/-- The record of `_bitmap_log_bitmapwords` -/
def wordsRecord (rel : Relation) (blk : Nat) (lov : Nat × Nat) (buf : TidBuffer) (written : Nat) (nextBlkno : Nat)
    (isLast isFirst : Bool) : XlBitmapwords :=
  { blkno := blk, nextBlkno, lastTid := (rel.page blk).lastTidLocation, lov
    lastCompword := buf.lastCompword, lastWord := buf.lastWord
    wordsHeader := if buf.isLastCompwordFill then lastCompwordBit else lovWordsNoFill
    lastSetbit := buf.lastTid, isLast, isFirst, startWordno := buf.startWordno, wordsWritten := written
    numCwords := buf.curword
    lastTids := fun i => if i < buf.curword then buf.lastTids i else 0
    cwords := fun i => if i < buf.curword then buf.cwords i else 0
    hwords := fun i => if i * 16 < buf.curword then buf.hwords i else 0 }

/-- Header words beyond those of the words written do not matter. -/
theorem movedHeader_congr {hwords hwords' : Nat → Word} {start written : Nat} (used : Nat) (hpos : 0 < written)
    (h : ∀ i, i * 16 < start + written → hwords i = hwords' i) :
    movedHeader hwords start written used = movedHeader hwords' start written used := by
  have hclean : cleanHeader hwords start written = cleanHeader hwords' start written := by
    funext i
    simp only [cleanHeader]
    by_cases hi : i < (start + written - 1) / 16 - start / 16 + 1
    · rw [if_pos hi, if_pos hi, h (start / 16 + i) (by omega)]
    · rw [if_neg hi, if_neg hi]
  rw [movedHeader_eq, movedHeader_eq, hclean]

/-- Only the words below `curword` matter. -/
theorem writeBitmapwords_congr {page : BMPage} {buf buf' : TidBuffer} (hpos : 0 < wordsWritten page buf)
    (hcur : buf'.curword = buf.curword) (hstart : buf'.startWordno = buf.startWordno)
    (htids : ∀ i < buf.curword, buf'.lastTids i = buf.lastTids i)
    (hcwords : ∀ i < buf.curword, buf'.cwords i = buf.cwords i)
    (hhwords : ∀ i, i * 16 < buf.curword → buf'.hwords i = buf.hwords i) :
    writeBitmapwords page buf' = writeBitmapwords page buf := by
  have hle : wordsWritten page buf ≤ buf.curword - buf.startWordno := Nat.min_le_left ..
  have hmoved : movedHeader buf'.hwords buf.startWordno (wordsWritten page buf) page.hrlWordsUsed =
      movedHeader buf.hwords buf.startWordno (wordsWritten page buf) page.hrlWordsUsed :=
    movedHeader_congr _ hpos fun i hi => hhwords i (by omega)
  have htid := htids (buf.startWordno + wordsWritten page buf - 1) (by omega)
  simp only [writeBitmapwords]
  rw [hcur, hstart]
  unfold wordsWritten at hmoved htid hle
  rw [hmoved, htid]
  congr 2
  funext i
  split
  · exact hcwords _ (by omega)
  · rfl

/-- The words of a record are those of the buffer it was made from. -/
theorem writeBitmapwords_record {rel : Relation} {blk : Nat} {lov : Nat × Nat} {buf : TidBuffer} {written next : Nat}
    {isLast isFirst : Bool} {page : BMPage} (hpos : 0 < wordsWritten page buf) :
    writeBitmapwords page (recordWords (wordsRecord rel blk lov buf written next isLast isFirst)) =
      writeBitmapwords page buf :=
  writeBitmapwords_congr hpos rfl rfl (fun _ hi => if_pos hi) (fun _ hi => if_pos hi) (fun _ hi => if_pos hi)

/-- The last page of a write, and the number of its new words. -/
def WriteState.ended (s : WriteState) : BMPage × Nat :=
  if s.buf.startWordno < s.buf.curword then writeBitmapwords (s.rel.page s.blk) s.buf else (s.rel.page s.blk, 0)

/-- The record of a pass. -/
def WriteState.passRecord (s : WriteState) (lov : Nat × Nat) : XlBitmapwords :=
  wordsRecord s.linked s.blk lov s.buf s.filled.2 s.rel.nblocks false
    (s.isFirst || (s.rel.lov lov).lovHead == invalidBlockNumber)

/-- The record of the last page. -/
def WriteState.lastRecord (s : WriteState) (lov : Nat × Nat) : XlBitmapwords :=
  wordsRecord (s.rel.setPage s.blk s.ended.1) s.blk lov s.buf s.ended.2 invalidBlockNumber true
    (s.isFirst || (s.rel.lov lov).lovHead == invalidBlockNumber)

theorem log_wal (rel : Relation) (r : XlRecord) (h : rel.useWal = true) : (rel.log r).wal = rel.wal ++ [r] := by
  rw [log, if_pos h]

theorem writeLast_wal {lov : Nat × Nat} {s : WriteState} (h : s.rel.useWal = true) :
    (writeLast lov s).1.wal = s.rel.wal ++ [.bitmapwords (s.lastRecord lov)] :=
  log_wal _ _ h

/-- The relation of a pass, before it logs. -/
def WriteState.passed (s : WriteState) (lov : Nat × Nat) : Relation :=
  if (s.rel.lov lov).lovHead = invalidBlockNumber then
    s.linked.setLov lov {s.rel.lov lov with lovHead := s.blk, lovTail := s.blk}
  else s.linked

theorem writePass_wal (lov : Nat × Nat) {s : WriteState} (h : s.rel.useWal = true) :
    (writePass lov s).rel.wal = s.rel.wal ++ [.bitmapwords (s.passRecord lov)] ∧
      (writePass lov s).rel.useWal = true := by
  have hpassed : (s.passed lov).useWal = true ∧ (s.passed lov).wal = s.rel.wal ∧
      (s.passed lov).page = s.linked.page := by
    unfold WriteState.passed
    split <;> exact ⟨h, rfl, rfl⟩
  have hrel : (writePass lov s).rel = (s.passed lov).log (.bitmapwords (wordsRecord (s.passed lov) s.blk lov s.buf
      s.filled.2 s.rel.nblocks false (s.isFirst || (s.rel.lov lov).lovHead == invalidBlockNumber))) := rfl
  have hrecord : wordsRecord (s.passed lov) s.blk lov s.buf s.filled.2 s.rel.nblocks false
      (s.isFirst || (s.rel.lov lov).lovHead == invalidBlockNumber) = s.passRecord lov := by
    rw [wordsRecord, hpassed.2.2]
    rfl
  rw [hrel, hrecord, log_wal _ _ hpassed.1, hpassed.2.1]
  refine ⟨rfl, ?_⟩
  rw [log, if_pos hpassed.1]
  exact hpassed.1

section
variable {lov : Nat × Nat} {t : WriteState}

theorem recordPage_last (hfits : overflows t = false)
    (hnext : (t.rel.page t.blk).bitmapNext = invalidBlockNumber) :
    recordPage (t.rel.page t.blk) (t.lastRecord lov) = t.ended.1 := by
  have hle : ¬hrlWordsPerPage - (t.rel.page t.blk).hrlWordsUsed < t.buf.curword - t.buf.startWordno :=
    of_decide_eq_false hfits
  by_cases hmore : t.buf.startWordno < t.buf.curword
  · have hended : t.ended = writeBitmapwords (t.rel.page t.blk) t.buf := if_pos hmore
    have hpos : 0 < wordsWritten (t.rel.page t.blk) t.buf := by
      unfold wordsWritten
      omega
    have hwritten : (t.lastRecord lov).wordsWritten = wordsWritten (t.rel.page t.blk) t.buf := by
      show t.ended.2 = _
      rw [hended]
      rfl
    rw [recordPage, hwritten, if_neg (Nat.ne_of_gt hpos), WriteState.lastRecord, writeBitmapwords_record hpos, hended]
    show BMPage.mk _ _ _ invalidBlockNumber _ = _
    rw [← hnext]
    rfl
  · have hended : t.ended = (t.rel.page t.blk, 0) := if_neg hmore
    have hwritten : (t.lastRecord lov).wordsWritten = 0 := by
      show t.ended.2 = _
      rw [hended]
    rw [recordPage, hwritten, if_pos rfl, hended]
    show BMPage.mk _ _ _ invalidBlockNumber _ = _
    rw [← hnext]

theorem recordPage_pass (hover : overflows t = true) :
    recordPage (t.rel.page t.blk) (t.passRecord lov) = {t.filled.1 with bitmapNext := t.rel.nblocks} := by
  have hlt : hrlWordsPerPage - (t.rel.page t.blk).hrlWordsUsed < t.buf.curword - t.buf.startWordno :=
    of_decide_eq_true hover
  have hwritten : (t.passRecord lov).wordsWritten = t.filled.2 := rfl
  by_cases hfree : (t.rel.page t.blk).hrlWordsUsed < hrlWordsPerPage
  · have hfilled : t.filled = writeBitmapwords (t.rel.page t.blk) t.buf := if_pos hfree
    have hpos : 0 < wordsWritten (t.rel.page t.blk) t.buf := by
      unfold wordsWritten
      omega
    have hsome : (t.passRecord lov).wordsWritten ≠ 0 := by
      rw [hwritten, hfilled]
      exact Nat.ne_of_gt hpos
    rw [recordPage, if_neg hsome, WriteState.passRecord, writeBitmapwords_record hpos, hfilled]
    rfl
  · have hfilled : t.filled = (t.rel.page t.blk, 0) := if_neg hfree
    rw [recordPage, hwritten, hfilled, if_pos rfl]
    rfl

theorem writeLast_lov : (writeLast lov t).1.lov = fun l =>
    if l = lov then lastRecordItem (t.lastRecord lov) (t.rel.lov lov) else t.rel.lov l :=
  congrArg Index.lov (log_toIndex ..)

theorem writeLast_page : (writeLast lov t).1.page = fun i => if i = t.blk then t.ended.1 else t.rel.page i :=
  congrArg Index.page (log_toIndex ..)

theorem writeLast_nblocks : (writeLast lov t).1.nblocks = t.rel.nblocks := by
  show (log _ _).toIndex.nblocks = _
  rw [log_toIndex]
  rfl

/-- Replay is as far as the write: what differs at most is the page being filled. -/
structure Follows (s : RedoState) (t : WriteState) : Prop where
  blk : t.blk ≤ s.nblocks
  nblocks : t.rel.nblocks = max s.nblocks (t.blk + 1)
  page : ∀ i, i ≠ t.blk → s.page i = t.rel.page i
  lov : s.lov = t.rel.lov

theorem redo_writeLast {lsn lsn' : Nat} {s : RedoState} (h : Settled lsn s) (hlt : lsn < lsn') (hf : Follows s t)
    (hlov : lov.1 < s.nblocks) :
    ∃ s', xlogInsertBitmapwords lsn (t.lastRecord lov) s = some s' ∧ Settled lsn' s' ∧
      s'.nblocks = (writeLast lov t).1.nblocks ∧ s'.lov = (writeLast lov t).1.lov ∧
      (s'.page = fun i => if i = t.blk then recordPage (loaded s t.blk) (t.lastRecord lov) else t.rel.page i) ∧
      s'.incomplete = forgetIncompleteInsertBitmapwords s.incomplete (t.lastRecord lov) := by
  obtain ⟨s', hredo, hsettled, hindex, hinc⟩ := redo_last (r := t.lastRecord lov) h hlt hf.blk hlov rfl
  refine ⟨s', hredo, hsettled, ?_, ?_, ?_, hinc⟩
  · rw [writeLast_nblocks, hf.nblocks]
    exact congrArg Index.nblocks hindex
  · rw [writeLast_lov, ← hf.lov]
    exact congrArg Index.lov hindex
  · have hpage := congrArg Index.page hindex
    refine hpage.trans (funext fun i => ?_)
    show (if i = t.blk then _ else s.page i) = _
    split
    · rfl
    · rename_i hne
      exact hf.page i hne

theorem redo_writePass {lsn lsn' : Nat} {s : RedoState} (h : Settled lsn s) (hlt : lsn < lsn') (hf : Follows s t)
    (hlov : lov.1 < s.nblocks) (hfirst : t.isFirst = false) :
    ∃ s', xlogInsertBitmapwords lsn (t.passRecord lov) s = some s' ∧ Settled lsn' s' ∧
      s'.nblocks = (writePass lov t).rel.nblocks ∧ s'.lov = (writePass lov t).rel.lov ∧
      (s'.page = fun i => if i = t.rel.nblocks then emptyPage
        else if i = t.blk then recordPage (loaded s t.blk) (t.passRecord lov) else t.rel.page i) ∧
      s'.cached t.rel.nblocks = true ∧
      s'.incomplete = logIncompleteInsertBitmapwords s.incomplete (t.passRecord lov) := by
  obtain ⟨s', hredo, hsettled, hindex, hcached, hinc⟩ :=
    redo_next (r := t.passRecord lov) h hlt hf.blk hlov rfl hf.nblocks
  refine ⟨s', hredo, hsettled, ?_, ?_, ?_, hcached, hinc⟩
  · rw [writePass_nblocks]
    exact congrArg Index.nblocks hindex
  · have hl := congrArg Index.lov hindex
    refine hl.trans ?_
    rw [writePass_index]
    show (if (t.isFirst || (t.rel.lov lov).lovHead == invalidBlockNumber) = true then _ else _) = _
    rw [hfirst, Bool.false_or]
    by_cases hnone : (t.rel.lov lov).lovHead = invalidBlockNumber
    · rw [if_pos (by simp [hnone]), if_pos hnone, hf.lov]
      rfl
    · rw [if_neg (by simp [hnone]), if_neg hnone]
      exact hf.lov
  · have hpage := congrArg Index.page hindex
    refine hpage.trans (funext fun i => ?_)
    show (if i = t.rel.nblocks then emptyPage else if i = t.blk then _ else s.page i) = _
    split
    · rfl
    · split
      · rfl
      · rename_i hne
        exact hf.page i hne

end

end PgStorage.Hrl
