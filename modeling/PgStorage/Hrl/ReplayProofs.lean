import PgStorage.Hrl.XlogProofs
import PgStorage.Hrl.InsertProofs

/-! Operations against their replay.

Each logged operation runs forward and leaves records; `bitmap_redo` applies them to the
pages as they were before. `Replays` says that both end with the same pages and LOV items,
whatever the records held on the stack before their fields were set. -/
namespace PgStorage.Hrl
open List Option Nat
open Nat (lt_succ_self)
open Relation (log_toIndex setPage_page_self setLov)

/-- The operations that log changes of a vector. -/
inductive LoggedOp where
  /-- `updatesetbit`, when the bit is in one of the last words -/
  | updateLast (tidnum : BitVec 64)
  /-- `updatesetbit_inpage` -/
  | updateInpage (tidnum : BitVec 64) (blk : Nat) (first : BitVec 64)
  /-- `insertsetbit`, when only the last words change -/
  | insertLast (tidnum : BitVec 64) (buf : TidBuffer)
  /-- `_bitmap_write_new_bitmapwords` -/
  | writeNew (buf : TidBuffer)

def LoggedOp.run (rel : Relation) (lov : Nat × Nat) : LoggedOp → Option Relation
  | .updateLast tidnum => updatesetbit rel lov tidnum
  | .updateInpage tidnum blk first => updatesetbitInpage rel tidnum lov blk first
  | .insertLast tidnum buf => insertsetbit rel lov tidnum buf
  | .writeNew buf => some (writeNewBitmapwords rel lov buf).1

/-- The first two cases of `updatesetbit` -/
def InLastWords (item : LovItem) (tidnum : BitVec 64) : Prop :=
  item.lastTidLocation < tidnum ∨
    item.lastTidLocation - wordBits (lastCompwordIsFill item) item.lastCompword < tidnum ∧
      (item.wordsHeader = lovWordsNoFill ∨ fillLength item.lastCompword = 1)

/-- The buffer that `insertsetbit` makes of its argument -/
def insertBuffer (item : LovItem) (buf : TidBuffer) : TidBuffer :=
  {buf with
    lastCompword := item.lastCompword, lastWord := item.lastWord, isLastCompwordFill := lastCompwordIsFill item
    startWordno := 0, lastTid := item.lastSetbit, cwords := fun _ => 0, lastTids := fun _ => 0
    hwords := fun i => if i * 16 < buf.numCwords then 0 else buf.hwords i, curword := 0}

/-- When a call is the operation: its branch is taken, its page is one of the vector and
reaches to the tid number, its buffer has header words for all its words. -/
def LoggedOp.Applies (rel : Relation) (lov : Nat × Nat) (blocks : List Nat) : LoggedOp → Prop
  | .updateLast tidnum => InLastWords (rel.lov lov) tidnum
  | .updateInpage tidnum blk first =>
    blk ∈ blocks ∧ (findWord (rel.page blk) first tidnum (rel.page blk).hrlWordsUsed 0 0).isSome
  | .insertLast tidnum buf =>
    (rel.lov lov).lastSetbit < tidnum ∧
      (bufAddTidWithFill rel lov (insertBuffer (rel.lov lov) buf) tidnum).2.numCwords = 0
  | .writeNew buf => buf.startWordno ≤ buf.curword ∧ buf.curword ≤ hrlWordsPerPage

/-- A well-formed vector: its chain ends with the tail, and header bits of unused words
are clear. -/
structure VectorAt (idx : Index) (lov : Nat × Nat) (blocks : List Nat) : Prop where
  chain : Chain idx.page (idx.lov lov).lovHead blocks
  tail : blocks = [] ∨ ∃ pre, blocks = pre ++ [(idx.lov lov).lovTail]
  inside : ∀ b ∈ blocks, b < idx.nblocks
  openPages : ∀ b ∈ blocks, PageOpen (idx.page b)
  lov : lov.1 < idx.nblocks

/-- A relation that logs. -/
def logging (idx : Index) (stack : XlUpdatewords) : Relation := {idx with useWal := true, stack, wal := []}

/-- Replay reproduces the operation, with `stack` what the records held before their fields
were set. Its records have LSNs from `start` on, in ascending order. -/
def ReplaysWith (stack : XlUpdatewords) (idx : Index) (lov : Nat × Nat) (op : LoggedOp) (start : Nat) (s : RedoState) :
    Prop :=
  ∃ rel', op.run (logging idx stack) lov = some rel' ∧
    ∀ lsns : List Nat, lsns.length = rel'.wal.length → lsns.Pairwise (· < ·) → (∀ lsn ∈ lsns, start ≤ lsn) →
      ∃ s', redoAll (lsns.zip rel'.wal) s = some s' ∧ s'.lov = rel'.lov ∧ ∀ b < rel'.nblocks, s'.page b = rel'.page b

/-- **Replay reproduces the operation**, whatever the stack held. -/
def Replays (idx : Index) (lov : Nat × Nat) (op : LoggedOp) (start : Nat) (s : RedoState) : Prop :=
  ∀ stack, ReplaysWith stack idx lov op start s

section
variable {idx : Index} {lov : Nat × Nat} {op : LoggedOp} {start : Nat} {s : RedoState} {stack : XlUpdatewords}
  {rel' : Relation} {r : XlRecord}

/-- An operation without records. -/
theorem replaysWith_none (hs : s.toIndex = idx) (hrun : op.run (logging idx stack) lov = some (logging idx stack)) :
    ReplaysWith stack idx lov op start s := by
  subst hs
  refine ⟨_, hrun, fun lsns hlen _ _ => ?_⟩
  obtain rfl := length_eq_zero_iff.mp hlen
  exact ⟨s, rfl, rfl, fun _ _ => rfl⟩

/-- An operation with one record. -/
theorem replaysWith_one (hrun : op.run (logging idx stack) lov = some rel') (hwal : rel'.wal = [r]) :
    ReplaysWith stack idx lov op start s ↔ ∀ lsn, start ≤ lsn → ∃ s', bitmapRedo lsn r s = some s' ∧
      s'.lov = rel'.lov ∧ ∀ b < rel'.nblocks, s'.page b = rel'.page b := by
  have hredo (lsn : Nat) : redoAll [(lsn, r)] s = bitmapRedo lsn r s := by
    simp only [redoAll, bind_eq_bind]
    cases bitmapRedo lsn r s <;> rfl
  constructor
  · rintro ⟨rel1, hrun1, hall⟩ lsn hlsn
    rw [hrun] at hrun1
    cases hrun1
    rw [hwal] at hall
    have h := hall [lsn] rfl (pairwise_singleton ..) (by simpa using hlsn)
    rw [zip_cons_cons, zip_nil_right, hredo] at h
    exact h
  · intro h
    refine ⟨rel', hrun, fun lsns hlen _ hstart => ?_⟩
    rw [hwal] at hlen ⊢
    obtain ⟨lsn, rfl⟩ := length_eq_one_iff.mp hlen
    rw [zip_cons_cons, zip_nil_right, hredo]
    exact h lsn (hstart lsn mem_cons_self)

end

variable {s : RedoState} {rel : Relation} {lov : Nat × Nat} {tidnum first : BitVec 64} {idx : Index}
  {blocks : List Nat} {start : Nat} {buf : TidBuffer}

theorem Settled.mono {lsn lsn' : Nat} (h : Settled lsn s) (hle : lsn ≤ lsn') : Settled lsn' s :=
  ⟨h.old, fun b => Nat.lt_of_lt_of_le (h.lsn b) hle⟩

/-- The last-words cases of `updatesetbit` change what their record has. -/
theorem updatesetbit_last (h : InLastWords (rel.lov lov) tidnum) :
    ∃ comp word header, updatesetbit rel lov tidnum =
      some (logBitmapLastwords
        (rel.setLov lov {rel.lov lov with lastCompword := comp, lastWord := word, wordsHeader := header}) lov
        {rel.lov lov with lastCompword := comp, lastWord := word, wordsHeader := header}) := by
  simp only [updatesetbit]
  by_cases hlast : (rel.lov lov).lastTidLocation < tidnum
  · rw [if_pos hlast]
    exact ⟨_, _, _, rfl⟩
  · rw [if_neg hlast, if_pos (h.resolve_left hlast)]
    exact ⟨_, _, _, rfl⟩

theorem replays_updateLast (hv : VectorAt idx lov blocks) (hs : s.toIndex = idx) (hset : Settled start s)
    (happ : InLastWords (idx.lov lov) tidnum) : Replays idx lov (.updateLast tidnum) start s := by
  subst hs
  intro stack
  have happ' : InLastWords ((logging s.toIndex stack).lov lov) tidnum := happ
  obtain ⟨comp, word, header, hrun⟩ := updatesetbit_last happ'
  have hop : LoggedOp.run (logging s.toIndex stack) lov (.updateLast tidnum) = some _ := hrun
  refine (replaysWith_one hop (log_wal _ _ rfl)).mpr fun lsn hlsn => ?_
  have hset' := hset.mono hlsn
  simp only [bitmapRedo, xlogInsertBitmapLastwords, read_old hset' hv.lov, bind_eq_bind, bind_some]
  rw [if_pos (show (s.setCached lov.1).lsn lov.1 < lsn from hset'.lsn _)]
  refine ⟨_, rfl, ?_, ?_⟩
  · rw [logBitmapLastwords, log_toIndex]
    rfl
  · intro b _
    rw [logBitmapLastwords, log_toIndex]
    rfl

/-! ### Updates in a page -/

/-- The word found is a run of zeros that becomes two or three words. -/
def splits (p : BMPage) (tidnum first : BitVec 64) : Bool :=
  match findWord p first tidnum p.hrlWordsUsed 0 0 with
  | none => false
  | some (wordNo, bitNo) =>
    let word := p.cwords wordNo
    let first := first + bitNo - BitVec.ofNat 64 (fillLength word * 16)
    isFillWord p.hwords wordNo && fillBit word != 1 &&
      (updatesetbitInword word (tidnum - first) first (bufExtend zeroBuffer)).curword != 1

/-- Pages that differ in one content word and its header word at most. -/
structure OneWord (p q : BMPage) (wordNo : Nat) : Prop where
  cwords : ∀ i, i ≠ wordNo → q.cwords i = p.cwords i
  hwords : ∀ i, i ≠ wordNo / 16 → q.hwords i = p.hwords i
  used : q.hrlWordsUsed = p.hrlWordsUsed
  next : q.bitmapNext = p.bitmapNext
  tid : q.lastTidLocation = p.lastTidLocation

/-- Replay sets the two words. -/
theorem OneWord.eq {p q : BMPage} {wordNo : Nat} (h : OneWord p q wordNo) :
    {p with
      cwords := fun i => if i = wordNo then q.cwords wordNo else p.cwords i
      hwords := fun i => if i = wordNo / 16 then q.hwords (wordNo / 16) else p.hwords i} = q := by
  have hc : (fun i => if i = wordNo then q.cwords wordNo else p.cwords i) = q.cwords := by
    funext i
    split
    · rename_i hi
      rw [hi]
    · rename_i hi
      exact (h.cwords i hi).symm
  have hh : (fun i => if i = wordNo / 16 then q.hwords (wordNo / 16) else p.hwords i) = q.hwords := by
    funext i
    split
    · rename_i hi
      rw [hi]
    · rename_i hi
      exact (h.hwords i hi).symm
  rw [hc, hh, ← h.used, ← h.next, ← h.tid]

theorem oneWord_setWord (p : BMPage) (wordNo : Nat) (w : Word) : OneWord p (p.setWord wordNo w) wordNo :=
  ⟨fun _ hi => if_neg hi, fun _ _ => rfl, rfl, rfl, rfl⟩

theorem oneWord_clearBit (p : BMPage) (wordNo : Nat) (w : Word) :
    OneWord p ((p.setWord wordNo w).clearBit wordNo) wordNo :=
  ⟨fun _ hi => if_neg hi, fun _ hi => if_neg hi, rfl, rfl, rfl⟩

/-- An update that splits nothing changes one word at most. -/
theorem updatesetbitInpage_one (lov : Nat × Nat) {blk : Nat}
    (h : (findWord (rel.page blk) first tidnum (rel.page blk).hrlWordsUsed 0 0).isSome)
    (hone : splits (rel.page blk) tidnum first = false) :
    updatesetbitInpage rel tidnum lov blk first = some rel ∨
      ∃ q wordNo, OneWord (rel.page blk) q wordNo ∧
        updatesetbitInpage rel tidnum lov blk first = some (logUpdateword (rel.setPage blk q) blk wordNo) := by
  obtain ⟨⟨wordNo, bitNo⟩, hfind⟩ := isSome_iff_exists.mp h
  simp only [splits, hfind] at hone
  simp only [updatesetbitInpage, hfind]
  cases hfill : isFillWord (rel.page blk).hwords wordNo with
  | false =>
    rw [if_pos rfl]
    exact .inr ⟨_, wordNo, oneWord_setWord .., rfl⟩
  | true =>
    rw [if_neg (by decide)]
    by_cases hbit : fillBit ((rel.page blk).cwords wordNo) = 1
    · rw [if_pos hbit]
      exact .inl rfl
    · rw [if_neg hbit]
      split
      · exact .inr ⟨_, wordNo, oneWord_clearBit .., rfl⟩
      · rename_i hcur
        rw [hfill, bne_iff_ne.mpr hbit, bne_iff_ne.mpr hcur] at hone
        exact absurd hone (by decide)

/-- An update that splits a run, on any relation with the page. -/
theorem updatesetbitInpage_split {p : BMPage} (h : splits p tidnum first = true) :
    ∃ wordNo literalFirst new, ∀ (rel : Relation) (lov : Nat × Nat) (blk : Nat), rel.page blk = p →
      updatesetbitInpage rel tidnum lov blk first = some (splitWord rel lov blk wordNo literalFirst new) := by
  unfold splits at h
  split at h
  · exact absurd h (by decide)
  · rename_i wordNo bitNo hfind
    simp only [Bool.and_eq_true, bne_iff_ne] at h
    obtain ⟨⟨hfill, hbit⟩, hcur⟩ := h
    generalize hstart : first + bitNo - BitVec.ofNat 64 (fillLength (p.cwords wordNo) * 16) = start at hcur
    refine ⟨wordNo, decide (tidnum - start + 1 ≤ 16),
      updatesetbitInword (p.cwords wordNo) (tidnum - start) start (bufExtend zeroBuffer), fun rel lov blk hp => ?_⟩
    subst hp
    subst hstart
    simp only [updatesetbitInpage, hfind, hfill, hbit, hcur, Bool.true_eq_false, if_false]

theorem replays_updateInpage {blk : Nat}
    (hv : VectorAt idx lov blocks) (hs : s.toIndex = idx) (hset : Settled start s) (hblk : blk ∈ blocks)
    (hfind : (findWord (idx.page blk) first tidnum (idx.page blk).hrlWordsUsed 0 0).isSome)
    (hone : splits (idx.page blk) tidnum first = false) : Replays idx lov (.updateInpage tidnum blk first) start s := by
  intro stack
  have hfind' : (findWord ((logging idx stack).page blk) first tidnum
      ((logging idx stack).page blk).hrlWordsUsed 0 0).isSome := hfind
  rcases updatesetbitInpage_one lov hfind' hone with hrun | ⟨q, wordNo, hq, hrun⟩
  · exact replaysWith_none hs hrun
  · subst hs
    have hop : LoggedOp.run (logging s.toIndex stack) lov (.updateInpage tidnum blk first) = some _ := hrun
    refine (replaysWith_one hop (log_wal _ _ rfl)).mpr fun lsn hlsn => ?_
    have hset' := hset.mono hlsn
    simp only [bitmapRedo, xlogUpdateword, read_old hset' (hv.inside blk hblk), bind_eq_bind, bind_some]
    rw [if_pos (show (s.setCached blk).lsn blk < lsn from hset'.lsn _)]
    refine ⟨_, rfl, ?_, ?_⟩
    · rw [logUpdateword, log_toIndex]
      rfl
    · intro b _
      rw [logUpdateword, log_toIndex]
      show (if b = blk then _ else s.page b) = if b = blk then q else s.page b
      split
      · have hself : ((logging s.toIndex stack).setPage blk q).page blk = q := setPage_page_self ..
        show {s.page blk with
          cwords := fun i => if i = wordNo then (((logging s.toIndex stack).setPage blk q).page blk).cwords wordNo
            else (s.page blk).cwords i
          hwords := fun i => if i = wordNo / 16 then
              (((logging s.toIndex stack).setPage blk q).page blk).hwords (wordNo / 16)
            else (s.page blk).hwords i} = q
        rw [hself]
        exact hq.eq
      · rfl

theorem splitFirst_next (p : BMPage) (wordNo : Nat) (literalFirst : Bool) (new : TidBuffer) :
    (splitFirst p wordNo literalFirst new).1.bitmapNext = p.bitmapNext := by
  cases literalFirst <;> rfl

section
variable {s : RedoState} {r : XlUpdatewords} {lsn : Nat}

theorem redo_onePage (h : Settled lsn s) (hfirst : r.firstBlkno < s.nblocks) (hone : r.twoPages = false)
    (hlast : r.newLastpage = false) :
    ∃ s', xlogUpdatewords lsn r s = some s' ∧ (s'.page r.firstBlkno).bitmapNext = r.secondBlkno := by
  simp only [xlogUpdatewords, read_old h hfirst, bind_eq_bind, bind_some, hone, hlast,
    Bool.false_eq_true, if_false, Bool.false_and]
  rw [if_pos (show (s.setCached r.firstBlkno).lsn r.firstBlkno < lsn from h.lsn _)]
  refine ⟨_, rfl, ?_⟩
  show (if r.firstBlkno = r.firstBlkno then _ else _ : BMPage).bitmapNext = _
  rw [if_pos rfl]

/-- With two pages, the LOV item changes only if the record says so. -/
theorem redo_twoPages (h : Settled lsn s) (hfirst : r.firstBlkno < s.nblocks) (hsecond : r.secondBlkno ≤ s.nblocks)
    (htwo : r.twoPages = true) :
    (r.newLastpage = false → ∃ s', xlogUpdatewords lsn r s = some s' ∧ s'.lov = s.lov) ∧
      (r.newLastpage = true → s.nblocks < r.lov.1 → xlogUpdatewords lsn r s = none) := by
  have hset : Settled lsn (s.setCached r.firstBlkno) := ⟨h.old, h.lsn⟩
  obtain ⟨s1, hread, hload⟩ := load_page hset hsecond
  simp only [xlogUpdatewords, read_old h hfirst, bind_eq_bind, bind_some, htwo, if_true, Bool.true_and,
    hread]
  rw [if_pos (show (s.setCached r.firstBlkno).lsn r.firstBlkno < lsn from h.lsn _)]
  generalize (if s1.isNew r.secondBlkno = true then s1.initBitmappage r.secondBlkno else s1) = s2 at hload ⊢
  have hblocks : s2.nblocks = max s.nblocks (r.secondBlkno + 1) := hload.nblocks
  have hlov : s2.lov = s.lov := hload.lov
  constructor
  · intro hlast
    rw [hlast, if_neg Bool.false_ne_true]
    exact ⟨_, rfl, hlov⟩
  · intro hlast hmissing
    rw [hlast, if_pos rfl]
    generalize hs3 : xlogSecondPage lsn r _ = s3
    have hmiss : s3.xlogReadBuffer r.lov.1 false = none := by
      have h3 : s3.nblocks = s2.nblocks := by rw [← hs3]; rfl
      rw [RedoState.xlogReadBuffer, if_neg (by rw [h3, hblocks]; omega), if_neg Bool.false_ne_true]
    rw [hmiss]
    rfl

end

theorem VectorAt.tail_lt (h : VectorAt idx lov blocks)
    (hne : blocks ≠ []) : (idx.lov lov).lovTail < idx.nblocks := by
  rcases h.tail with hnil | ⟨pre, hpre⟩
  · exact absurd hnil hne
  · exact h.inside _ (by rw [hpre]; exact mem_append_right _ mem_cons_self)

/-- The block behind a block of the vector is one of it, too. -/
theorem VectorAt.next_le (h : VectorAt idx lov blocks) {b : Nat}
    (hb : b ∈ blocks) (hne : (idx.page b).bitmapNext ≠ invalidBlockNumber) : (idx.page b).bitmapNext ≤ idx.nblocks := by
  obtain ⟨pre, post, rfl⟩ := append_of_mem hb
  obtain ⟨-, -, hrest⟩ := h.chain.suffix.cons_inv
  cases post with
  | nil =>
    generalize (idx.page b).bitmapNext = next at hrest hne
    cases hrest
    exact absurd rfl hne
  | cons c post =>
    obtain ⟨hc, -, -⟩ := hrest.cons_inv
    rw [hc]
    exact Nat.le_of_lt (h.inside c (by simp))

/-- The record of `_bitmap_log_updatewords` -/
def updatewordsRecord (rel : Relation) (first : Nat) (second : Option Nat) : XlUpdatewords :=
  let p := rel.page first
  let r := {rel.stack with
    twoPages := false, firstBlkno := first, firstCwords := p.cwords, firstHwords := p.hwords
    firstLastTid := p.lastTidLocation, firstNumCwords := p.hrlWordsUsed, nextBlkno := p.bitmapNext}
  match second with
  | none => r
  | some b =>
    let q := rel.page b
    {r with
      twoPages := true, secondBlkno := b, secondCwords := q.cwords, secondHwords := q.hwords
      secondLastTid := q.lastTidLocation, secondNumCwords := q.hrlWordsUsed, nextBlkno := q.bitmapNext}

section
variable (idx : Index) (lov : Nat × Nat) (blk wordNo : Nat) (literalFirst : Bool) (new : TidBuffer)

/-- The relation of a split that takes page `b`, before it logs. -/
def Spill.written (t : Spill) (b : Nat) : Relation :=
  let rel := if t.newLastpage then t.rel.setLov lov {t.rel.lov lov with lovTail := b} else t.rel
  let (p, left) := splitFirst (idx.page blk) wordNo literalFirst new
  let rel := rel.setPage b (splitSecond (rel.page b) t.newPage (idx.page blk) left)
  rel.setPage blk (if t.newPage then {p with bitmapNext := b} else p)

theorem Spill.written_log (t : Spill) (b : Nat) :
    (t.written idx lov blk wordNo literalFirst new b).useWal = t.rel.useWal ∧
      (t.written idx lov blk wordNo literalFirst new b).wal = t.rel.wal ∧
      (t.written idx lov blk wordNo literalFirst new b).stack = t.rel.stack := by
  unfold Spill.written
  cases t.newLastpage <;> exact ⟨rfl, rfl, rfl⟩

variable {blk wordNo literalFirst new}

/-- A split within a page. -/
theorem splitWord_fits (stack : XlUpdatewords) (hfits : new.curword - 1 ≤ hrlWordsPerPage - (idx.page blk).hrlWordsUsed) :
    ∃ rel' : Relation, splitWord (logging idx stack) lov blk wordNo literalFirst new =
        rel'.log (.updatewords (updatewordsRecord rel' blk none)) ∧ rel'.useWal = true ∧ rel'.wal = [] ∧
      rel'.stack = stack ∧ rel'.nblocks = idx.nblocks ∧ (rel'.page blk).bitmapNext = (idx.page blk).bitmapNext := by
  have hchoose : choosePage (logging idx stack) blk (new.curword - 1) = ⟨logging idx stack, none, false, false⟩ :=
    if_pos hfits
  refine ⟨(logging idx stack).setPage blk (splitFirst (idx.page blk) wordNo literalFirst new).1, ?_, rfl, rfl, rfl, rfl, ?_⟩
  · simp only [splitWord, hchoose]
    rfl
  · rw [setPage_page_self, splitFirst_next]

theorem splitWord_spill {stack : XlUpdatewords} {t : Spill} {b : Nat}
    (h : choosePage (logging idx stack) blk (new.curword - 1) = t) (hb : t.next = some b) :
    splitWord (logging idx stack) lov blk wordNo literalFirst new =
      (t.written idx lov blk wordNo literalFirst new b).log
        (.updatewords (updatewordsRecord (t.written idx lov blk wordNo literalFirst new b) blk (some b))) := by
  simp only [splitWord, h, hb]
  rfl

/-- A split that needs a second page, which is the next one or a new one. -/
theorem splitWord_spills (stack : XlUpdatewords)
    (hfits : ¬new.curword - 1 ≤ hrlWordsPerPage - (idx.page blk).hrlWordsUsed) :
    ∃ (rel' : Relation) (b : Nat), splitWord (logging idx stack) lov blk wordNo literalFirst new =
        rel'.log (.updatewords (updatewordsRecord rel' blk (some b))) ∧ rel'.useWal = true ∧ rel'.wal = [] ∧
      rel'.stack = stack ∧
      (b = (idx.page blk).bitmapNext ∧ (idx.page blk).bitmapNext ≠ invalidBlockNumber ∨ b = idx.nblocks) ∧
      ((idx.page blk).bitmapNext = invalidBlockNumber → (rel'.lov lov).lovTail = idx.nblocks) := by
  by_cases hnext : (idx.page blk).bitmapNext ≠ invalidBlockNumber ∧
      new.curword - 1 ≤ hrlWordsPerPage - (idx.page (idx.page blk).bitmapNext).hrlWordsUsed
  · have hchoose : choosePage (logging idx stack) blk (new.curword - 1) =
        ⟨logging idx stack, some (idx.page blk).bitmapNext, false, false⟩ :=
      (if_neg hfits).trans (if_pos hnext)
    obtain ⟨hwal, hnil, hstack⟩ := Spill.written_log idx lov blk wordNo literalFirst new
      ⟨logging idx stack, some (idx.page blk).bitmapNext, false, false⟩ (idx.page blk).bitmapNext
    exact ⟨_, _, splitWord_spill idx lov hchoose rfl, hwal, hnil, hstack, .inl ⟨rfl, hnext.1⟩,
      fun hc => absurd hc hnext.1⟩
  · have hchoose : choosePage (logging idx stack) blk (new.curword - 1) =
        ⟨(logging idx stack).newPage, some idx.nblocks, true, (idx.page blk).bitmapNext == invalidBlockNumber⟩ :=
      (if_neg hfits).trans (if_neg hnext)
    obtain ⟨hwal, hnil, hstack⟩ := Spill.written_log idx lov blk wordNo literalFirst new
      ⟨(logging idx stack).newPage, some idx.nblocks, true, (idx.page blk).bitmapNext == invalidBlockNumber⟩ idx.nblocks
    refine ⟨_, _, splitWord_spill idx lov hchoose rfl, hwal, hnil, hstack, .inr rfl, fun hlast => ?_⟩
    rw [hlast, beq_self_eq_true]
    show (((logging idx stack).newPage.setLov lov _).lov lov).lovTail = _
    rw [Relation.setLov_lov_self]

end

/-- A run that is split is never replayed for sure: the record is not complete. -/
theorem not_replays_split {blk : Nat}
    (hv : VectorAt idx lov blocks) (hs : s.toIndex = idx) (hset : Settled start s) (hblk : blk ∈ blocks)
    (hsplit : splits (idx.page blk) tidnum first = true) : ¬Replays idx lov (.updateInpage tidnum blk first) start s := by
  subst hs
  intro h
  obtain ⟨wordNo, literalFirst, new, hsome⟩ := updatesetbitInpage_split hsplit
  have hin := hv.inside blk hblk
  have hrun (stack : XlUpdatewords) : LoggedOp.run (logging s.toIndex stack) lov (.updateInpage tidnum blk first) =
      some (splitWord (logging s.toIndex stack) lov blk wordNo literalFirst new) := hsome _ lov blk rfl
  have hredo (stack : XlUpdatewords) {rel' : Relation} {second : Option Nat}
      (hword : splitWord (logging s.toIndex stack) lov blk wordNo literalFirst new =
        rel'.log (.updatewords (updatewordsRecord rel' blk second))) (hwal : rel'.useWal = true) (hnil : rel'.wal = []) :
      ∃ s', xlogUpdatewords start (updatewordsRecord rel' blk second) s = some s' ∧ s'.lov = rel'.lov ∧
        ∀ b < rel'.nblocks, s'.page b = rel'.page b := by
    have hw : (splitWord (logging s.toIndex stack) lov blk wordNo literalFirst new).wal =
        [.updatewords (updatewordsRecord rel' blk second)] := by
      rw [hword, log_wal _ _ hwal, hnil]
      rfl
    obtain ⟨s', hs', hlov, hpages⟩ := (replaysWith_one (hrun stack) hw).mp (h stack) start (Nat.le_refl _)
    rw [hword, log_toIndex] at hlov hpages
    exact ⟨s', hs', hlov, hpages⟩
  by_cases hfits : new.curword - 1 ≤ hrlWordsPerPage - (s.page blk).hrlWordsUsed
  · -- one page: the record does not have the block behind it
    obtain ⟨rel', hword, hwal, hnil, hstack, hblocks, hnext⟩ := splitWord_fits s.toIndex lov
      {freshRelation.stack with secondBlkno := (s.page blk).bitmapNext + 1, newLastpage := false} hfits
    obtain ⟨s', hs', -, hpages⟩ := hredo _ hword hwal hnil
    obtain ⟨s1, hs1, hsecond⟩ := redo_onePage (r := updatewordsRecord rel' blk none) hset hin rfl
      (by show rel'.stack.newLastpage = false; rw [hstack])
    rw [hs'] at hs1
    cases hs1
    have hbad : (rel'.page blk).bitmapNext = rel'.stack.secondBlkno := by
      rw [← hpages blk (by rw [hblocks]; exact hin)]
      exact hsecond
    rw [hnext, hstack] at hbad
    exact absurd hbad (Nat.ne_of_lt (lt_succ_self _))
  · by_cases hlast : (s.page blk).bitmapNext = invalidBlockNumber
    · -- a new last page: the record does not say so
      obtain ⟨rel', b, hword, hwal, hnil, hstack, hb, htail⟩ := splitWord_spills s.toIndex lov
        {freshRelation.stack with newLastpage := false} hfits
      obtain ⟨s', hs', hlov, -⟩ := hredo _ hword hwal hnil
      have hb' : b ≤ s.nblocks := by
        rcases hb with ⟨-, hc⟩ | rfl
        · exact absurd hlast hc
        · exact Nat.le_refl _
      obtain ⟨s1, hs1, hsame⟩ := (redo_twoPages (r := updatewordsRecord rel' blk (some b)) hset hin hb' rfl).1
        (by show rel'.stack.newLastpage = false; rw [hstack])
      rw [hs'] at hs1
      cases hs1
      have hlt := hv.tail_lt (ne_nil_of_mem hblk)
      rw [← hsame, hlov, htail hlast] at hlt
      exact absurd hlt (Nat.lt_irrefl _)
    · -- otherwise the record may name an LOV page that is not there
      obtain ⟨rel', b, hword, hwal, hnil, hstack, hb, -⟩ := splitWord_spills s.toIndex lov
        {freshRelation.stack with newLastpage := true, lov := (s.nblocks + 1, 0)} hfits
      obtain ⟨s', hs', -⟩ := hredo _ hword hwal hnil
      have hb' : b ≤ s.nblocks := by
        rcases hb with ⟨rfl, -⟩ | rfl
        · exact hv.next_le hblk hlast
        · exact Nat.le_refl _
      have hnone := (redo_twoPages (r := updatewordsRecord rel' blk (some b)) hset hin hb' rfl).2
        (by show rel'.stack.newLastpage = true; rw [hstack])
        (by show s.nblocks < rel'.stack.lov.1; rw [hstack]; exact lt_succ_self _)
      rw [hs'] at hnone
      exact absurd hnone (by simp)

/-! ### Inserts into the last words -/

theorem mergewords_none {fill : Bool} (h : (mergewords buf fill).numCwords = 0) :
    (mergewords buf fill).curword = buf.curword := by
  simp only [mergewords] at h ⊢
  split
  · rfl
  · rename_i h1
    rw [if_neg h1] at h
    split
    · rfl
    · rename_i h2
      rw [if_neg h2] at h
      split
      · rfl
      · rename_i h3
        rw [if_neg h3] at h
        exact absurd h (Nat.ne_of_gt (bufExtend_pos buf))

/-- A flush that leaves no room for words has written none. -/
theorem flushFrom_none {n i : Nat} (hcur : buf.curword = 0)
    (h : (flushFrom lov n i rel buf).2.numCwords = 0) : (flushFrom lov n i rel buf).1 = rel := by
  induction n generalizing i buf with
  | zero => rfl
  | succ n ih =>
    simp only [flushFrom] at h ⊢
    generalize hout : bufEnsureHeadSpace rel lov _ = out at h ⊢
    rw [bufEnsureHeadSpace, if_neg (by show ¬_ ≤ buf.curword; rw [hcur]; decide)] at hout
    subst hout
    split
    · rename_i hmore
      rw [if_pos hmore] at h
      generalize hm : mergewords _ _ = merged at h ⊢
      have hzero : merged.numCwords = 0 := by
        by_contra hpos
        have hp := flushFrom_pos lov n (i + 1) rel merged (Nat.pos_of_ne_zero hpos)
        dsimp only at h
        omega
      refine ih ?_ h
      rw [← hm] at hzero ⊢
      rw [mergewords_none hzero]
      exact hcur
    · rfl

/-- An insert that leaves no room for words has written none. -/
theorem bufAdd_none (hcur : buf.curword = 0)
    (h : (bufAddTidWithFill rel lov buf tidnum).2.numCwords = 0) : (bufAddTidWithFill rel lov buf tidnum).1 = rel := by
  simp only [bufAddTidWithFill, hotBufferFlush] at h ⊢
  split
  · rename_i hblock
    rw [if_pos hblock] at h
    split
    · rename_i hvalid
      rw [if_pos hvalid] at h
      have hcur' : ({buf with hotBufferLastOffset := maxHtupPerPage} : TidBuffer).curword = 0 := hcur
      exact flushFrom_none hcur' h
    · rfl
  · rfl

theorem insertsetbit_last (hlt : (rel.lov lov).lastSetbit < tidnum)
    (hnone : (bufAddTidWithFill rel lov (insertBuffer (rel.lov lov) buf) tidnum).2.numCwords = 0) :
    ∃ item : LovItem, item.lastSetbit = tidnum ∧
      insertsetbit rel lov tidnum buf = some (logBitmapLastwords (rel.setLov lov item) lov item) := by
  have hrel := bufAdd_none (rfl : (insertBuffer (rel.lov lov) buf).curword = 0) hnone
  generalize hout : bufAddTidWithFill rel lov (insertBuffer (rel.lov lov) buf) tidnum = out at hrel hnone
  have heq : insertsetbit rel lov tidnum buf = if tidnum ≤ (rel.lov lov).lastSetbit then updatesetbit rel lov tidnum
      else if out.2.numCwords = 0 then
        let item := {out.1.lov lov with
          lastCompword := out.2.lastCompword, lastWord := out.2.lastWord
          wordsHeader := (out.1.lov lov).wordsHeader &&& lastCompwordBit
          lastSetbit := tidnum, lastTidLocation := tidnum - tidnum % 16}
        some (logBitmapLastwords (out.1.setLov lov item) lov item)
      else some (writeNewBitmapwords out.1 lov out.2).1 := by
    rw [← hout]
    rfl
  rw [heq, if_neg (BitVec.not_le.mpr hlt), if_pos hnone, hrel]
  exact ⟨_, rfl, rfl⟩

/-- The last-words case of `insertsetbit` logs a record without the last set bit. -/
theorem not_replays_insertLast {stack : XlUpdatewords} (hv : VectorAt idx lov blocks) (hs : s.toIndex = idx)
    (hset : Settled start s) (happ : (LoggedOp.insertLast tidnum buf).Applies (logging idx stack) lov blocks) :
    ¬Replays idx lov (.insertLast tidnum buf) start s := by
  subst hs
  intro h
  obtain ⟨hlt, hnone⟩ := happ
  obtain ⟨item, hitem, hrun⟩ := insertsetbit_last hlt hnone
  have hop : LoggedOp.run (logging s.toIndex stack) lov (.insertLast tidnum buf) = some _ := hrun
  obtain ⟨s', hs', hlov, -⟩ := (replaysWith_one hop (log_wal _ _ rfl)).mp (h stack) start (Nat.le_refl _)
  simp only [bitmapRedo, xlogInsertBitmapLastwords, read_old hset hv.lov, bind_eq_bind, bind_some] at hs'
  rw [if_pos (show (s.setCached lov.1).lsn lov.1 < start from hset.lsn _)] at hs'
  cases hs'
  have hsame := congrArg (fun f => (f lov).lastSetbit) hlov
  rw [logBitmapLastwords, log_toIndex] at hsame
  have hold : (s.lov lov).lastSetbit = item.lastSetbit := by
    simpa [RedoState.setLov, RedoState.setLsn, RedoState.setCached, setLov] using hsame
  have hlt' : (s.lov lov).lastSetbit < tidnum := hlt
  rw [hold, hitem] at hlt'
  exact absurd hlt' (BitVec.lt_irrefl _)

/-! ### New words -/

/-- The state in which the loop of `_bitmap_write_new_bitmapwords` starts. -/
def startState (rel : Relation) (lov : Nat × Nat) (buf : TidBuffer) : WriteState :=
  if (rel.lov lov).lovHead ≠ invalidBlockNumber then ⟨rel, buf, (rel.lov lov).lovTail, false⟩
  else ⟨rel.newPage, buf, rel.nblocks, false⟩

/-- A buffer that has header words for its words fills one page at most before its last. -/
theorem writeNew_short {t : WriteState}
    (ht : startState rel lov buf = t) (hne : t.blk ≠ t.rel.nblocks) (hlen : buf.curword ≤ hrlWordsPerPage) :
    overflows t = false ∧ (writeNewBitmapwords rel lov buf).1 = (writeLast lov t).1 ∨
      overflows t = true ∧ overflows (writePass lov t) = false ∧
        (writeNewBitmapwords rel lov buf).1 = (writeLast lov (writePass lov t)).1 := by
  have hbuf : t.buf = buf := by
    rw [← ht, startState]
    split <;> rfl
  have hrun : writeNewBitmapwords rel lov buf = writeLast lov (Loop.whileN overflows (writePass lov) (buf.curword + 1) t) := by
    rw [← ht]
    rfl
  cases hover : overflows t with
  | false =>
    refine .inl ⟨rfl, ?_⟩
    rw [hrun, Loop.whileN, hover, if_neg Bool.false_ne_true]
  | true =>
    have hlt : hrlWordsPerPage - (t.rel.page t.blk).hrlWordsUsed < buf.curword - buf.startWordno := by
      rw [← hbuf]
      exact of_decide_eq_true hover
    have hnew : (writePass lov t).rel.page (writePass lov t).blk = emptyPage := by
      rw [writePass_page, writePass_blk]
      exact (if_neg (Ne.symm hne)).trans (if_pos rfl)
    have hfits : overflows (writePass lov t) = false := by
      refine decide_eq_false ?_
      rw [hnew, writePass_buf, hbuf]
      show ¬hrlWordsPerPage - 0 < buf.curword - _
      omega
    refine .inr ⟨rfl, hfits, ?_⟩
    obtain ⟨n, hn⟩ : ∃ n, buf.curword = n + 1 := ⟨buf.curword - 1, by omega⟩
    rw [hrun, hn, Loop.whileN, hover, if_pos rfl, Loop.whileN, hfits, if_neg Bool.false_ne_true]

section
variable {idx : Index} {lov : Nat × Nat} {op : LoggedOp} {start : Nat} {s : RedoState} {stack : XlUpdatewords}
  {rel' : Relation} {r₁ r₂ : XlRecord}

/-- An operation with two records. -/
theorem replaysWith_two (hrun : op.run (logging idx stack) lov = some rel') (hwal : rel'.wal = [r₁, r₂]) :
    ReplaysWith stack idx lov op start s ↔ ∀ a b, start ≤ a → a < b →
      ∃ s', (bitmapRedo a r₁ s).bind (bitmapRedo b r₂) = some s' ∧
        s'.lov = rel'.lov ∧ ∀ b < rel'.nblocks, s'.page b = rel'.page b := by
  have hredo (a b : Nat) : redoAll [(a, r₁), (b, r₂)] s = (bitmapRedo a r₁ s).bind (bitmapRedo b r₂) := by
    simp [redoAll]
  constructor
  · rintro ⟨rel1, hrun1, hall⟩ a b ha hab
    rw [hrun] at hrun1
    cases hrun1
    rw [hwal] at hall
    have h := hall [a, b] rfl (by simpa using hab) (by simp; omega)
    rw [zip_cons_cons, zip_cons_cons, zip_nil_right, hredo] at h
    exact h
  · intro h
    refine ⟨rel', hrun, fun lsns hlen hsorted hstart => ?_⟩
    rw [hwal] at hlen ⊢
    obtain ⟨a, b, rfl⟩ := length_eq_two.mp hlen
    rw [zip_cons_cons, zip_cons_cons, zip_nil_right, hredo]
    exact h a b (hstart a mem_cons_self) (by simpa using hsorted)

end

/-- Where a write starts, with replay in the state `s`. -/
structure StartsAt (s : RedoState) (buf : TidBuffer) (t : WriteState) : Prop where
  follows : Follows s t
  isFirst : t.isFirst = false
  useWal : t.rel.useWal = true
  wal : t.rel.wal = []
  blk : t.blk < t.rel.nblocks
  buf : t.buf = buf
  next : (t.rel.page t.blk).bitmapNext = invalidBlockNumber

/-- The pages of a vector that has some end with its tail. -/
theorem VectorAt.ends (h : VectorAt idx lov blocks)
    (hhead : (idx.lov lov).lovHead ≠ invalidBlockNumber) : ∃ pre, blocks = pre ++ [(idx.lov lov).lovTail] := by
  rcases h.tail with rfl | hpre
  · have hchain := h.chain
    generalize (idx.lov lov).lovHead = head at hchain hhead
    cases hchain
    exact absurd rfl hhead
  · exact hpre

theorem VectorAt.tail_last (h : VectorAt idx lov blocks) (hhead : (idx.lov lov).lovHead ≠ invalidBlockNumber) :
    (idx.lov lov).lovTail < idx.nblocks ∧ (idx.page (idx.lov lov).lovTail).bitmapNext = invalidBlockNumber := by
  obtain ⟨pre, rfl⟩ := h.ends hhead
  refine ⟨h.tail_lt (by simp), ?_⟩
  obtain ⟨-, -, hrest⟩ := h.chain.suffix.cons_inv
  generalize (idx.page _).bitmapNext = next at hrest ⊢
  cases hrest
  rfl

section
variable {lov : Nat × Nat} {blocks : List Nat} {s : RedoState} {buf : TidBuffer} {stack : XlUpdatewords} {start : Nat}

theorem startsAt (buf : TidBuffer) (stack : XlUpdatewords) (hv : VectorAt s.toIndex lov blocks) :
    StartsAt s buf (startState (logging s.toIndex stack) lov buf) ∧
      (loaded s (startState (logging s.toIndex stack) lov buf).blk =
          (startState (logging s.toIndex stack) lov buf).rel.page (startState (logging s.toIndex stack) lov buf).blk ↔
        (s.lov lov).lovHead = invalidBlockNumber ∨ s.cached (s.lov lov).lovTail = true ∨
          s.page (s.lov lov).lovTail = emptyPage) := by
  by_cases hhead : (s.lov lov).lovHead = invalidBlockNumber
  · have ht : startState (logging s.toIndex stack) lov buf =
        ⟨(logging s.toIndex stack).newPage, buf, s.nblocks, false⟩ := if_neg (not_not_intro hhead)
    have hpage : (logging s.toIndex stack).newPage.page s.nblocks = emptyPage := setPage_page_self ..
    rw [ht]
    refine ⟨⟨⟨Nat.le_refl _, ?_, fun i hi => ?_, rfl⟩, rfl, rfl, rfl, lt_succ_self _, rfl, ?_⟩, ?_⟩
    · exact (Nat.max_eq_right (Nat.le_succ _)).symm
    · exact (if_neg hi).symm
    · rw [hpage]
      rfl
    · rw [hpage]
      exact ⟨fun _ => .inl hhead, fun _ => if_neg fun hc => absurd hc.1 (Nat.lt_irrefl _)⟩
  · have ht : startState (logging s.toIndex stack) lov buf =
        ⟨logging s.toIndex stack, buf, (s.lov lov).lovTail, false⟩ := if_pos hhead
    obtain ⟨hlt, hnext⟩ := hv.tail_last hhead
    rw [ht]
    refine ⟨⟨⟨Nat.le_of_lt hlt, ?_, fun i hi => rfl, rfl⟩, rfl, rfl, rfl, hlt, rfl, hnext⟩, ?_⟩
    · exact (Nat.max_eq_left hlt).symm
    · show loaded s (s.lov lov).lovTail = s.page (s.lov lov).lovTail ↔ _
      unfold loaded
      cases hc : s.cached (s.lov lov).lovTail with
      | true => simp [hlt]
      | false => simp [hhead, eq_comm]

variable {t : WriteState}

theorem writeNew_wal (lov : Nat × Nat) (ht : StartsAt s buf t) :
    (writeLast lov t).1.wal = [.bitmapwords (t.lastRecord lov)] ∧
      (writeLast lov (writePass lov t)).1.wal =
        [.bitmapwords (t.passRecord lov), .bitmapwords ((writePass lov t).lastRecord lov)] := by
  obtain ⟨hpass, huse⟩ := writePass_wal lov ht.useWal
  constructor
  · rw [writeLast_wal ht.useWal, ht.wal]
    rfl
  · rw [writeLast_wal huse, hpass, ht.wal]
    rfl

/-- Replay of the record of a pass, when it finds the page as the pass did. -/
theorem redo_pass_follows {a b : Nat} (ht : StartsAt s buf t) (hset : Settled a s) (hab : a < b)
    (hlov : lov.1 < s.nblocks) (hload : loaded s t.blk = t.rel.page t.blk) (hover : overflows t = true) :
    ∃ s₁, xlogInsertBitmapwords a (t.passRecord lov) s = some s₁ ∧ Settled b s₁ ∧ Follows s₁ (writePass lov t) ∧
      lov.1 < s₁.nblocks ∧ loaded s₁ (writePass lov t).blk = (writePass lov t).rel.page (writePass lov t).blk ∧
      s₁.incomplete = logIncompleteInsertBitmapwords s.incomplete (t.passRecord lov) := by
  obtain ⟨s₁, hredo, hset₁, hblocks, hlov₁, hpage, hcached, hinc⟩ :=
    redo_writePass hset hab ht.follows hlov ht.isFirst
  have hn := writePass_nblocks lov t
  have hmax := ht.follows.nblocks
  have hpage₁ : s₁.page = (writePass lov t).rel.page := by
    rw [hpage, hload, recordPage_pass hover, writePass_page]
    funext i
    by_cases hi : i = t.blk
    · subst hi
      rw [if_neg (Nat.ne_of_lt ht.blk), if_pos rfl, if_pos rfl]
    · rw [if_neg hi, if_neg hi]
  have hlt : (writePass lov t).blk < s₁.nblocks := by
    rw [hblocks, hn, writePass_blk]
    exact lt_succ_self _
  refine ⟨s₁, hredo, hset₁, ⟨Nat.le_of_lt hlt, ?_, fun i _ => by rw [hpage₁], hlov₁⟩, ?_, ?_, hinc⟩
  · rw [hblocks, hn, writePass_blk]
    omega
  · rw [hblocks, hn]
    omega
  · rw [← hpage₁]
    exact if_pos ⟨hlt, hcached⟩

/-- **New words are replayed** if replay finds the page they start on. -/
theorem replaysWith_writeNew (hv : VectorAt s.toIndex lov blocks) (hset : Settled start s)
    (hlen : buf.curword ≤ hrlWordsPerPage) (heq : startState (logging s.toIndex stack) lov buf = t)
    (ht : StartsAt s buf t) (hload : loaded s t.blk = t.rel.page t.blk) :
    ReplaysWith stack s.toIndex lov (.writeNew buf) start s := by
  obtain ⟨hwal₁, hwal₂⟩ := writeNew_wal lov ht
  rcases writeNew_short heq (Nat.ne_of_lt ht.blk) hlen with ⟨hfits, hrun⟩ | ⟨hover, hfits, hrun⟩
  · have hop : LoggedOp.run (logging s.toIndex stack) lov (.writeNew buf) = some (writeLast lov t).1 := congrArg some hrun
    refine (replaysWith_one hop hwal₁).mpr fun a ha => ?_
    obtain ⟨s', hredo, -, -, hlov, hpage, -⟩ :=
      redo_writeLast (hset.mono ha) (lt_succ_self a) ht.follows hv.lov
    refine ⟨s', hredo, hlov, fun i _ => ?_⟩
    rw [hpage, hload, recordPage_last hfits ht.next, writeLast_page]
  · have hop : LoggedOp.run (logging s.toIndex stack) lov (.writeNew buf) = some (writeLast lov (writePass lov t)).1 :=
      congrArg some hrun
    refine (replaysWith_two hop hwal₂).mpr fun a b ha hab => ?_
    obtain ⟨s₁, hredo₁, hset₁, hf₁, hlt₁, hload₁, -⟩ :=
      redo_pass_follows ht (hset.mono ha) hab hv.lov hload hover
    obtain ⟨s', hredo, -, -, hlov, hpage, -⟩ := redo_writeLast hset₁ (lt_succ_self b) hf₁ hlt₁
    have hnext : ((writePass lov t).rel.page (writePass lov t).blk).bitmapNext = invalidBlockNumber := by
      rw [writePass_page, writePass_blk]
      show (if t.rel.nblocks = t.blk then _ else if t.rel.nblocks = t.rel.nblocks then emptyPage else _ : BMPage).bitmapNext = _
      rw [if_neg (Nat.ne_of_gt ht.blk), if_pos rfl]
      rfl
    have hbind : (bitmapRedo a (.bitmapwords (t.passRecord lov)) s).bind
        (bitmapRedo b (.bitmapwords ((writePass lov t).lastRecord lov))) = some s' := by
      simp only [bitmapRedo, hredo₁, bind_some]
      exact hredo
    refine ⟨s', hbind, hlov, fun i _ => ?_⟩
    rw [hpage, hload₁, recordPage_last hfits hnext, writeLast_page]

theorem recordPage_used (p : BMPage) (r : XlBitmapwords) :
    (recordPage p r).hrlWordsUsed = if r.wordsWritten = 0 then p.hrlWordsUsed
      else p.hrlWordsUsed + min (r.numCwords - r.startWordno) (hrlWordsPerPage - p.hrlWordsUsed) := by
  unfold recordPage
  split <;> rfl

theorem recordPage_tid (p : BMPage) {r : XlBitmapwords} (h : r.wordsWritten ≠ 0) :
    (recordPage p r).lastTidLocation =
      r.lastTids (r.startWordno + min (r.numCwords - r.startWordno) (hrlWordsPerPage - p.hrlWordsUsed) - 1) := by
  rw [recordPage, if_neg h]
  rfl

/-- The words of a last page do not go to an empty page in the same way. -/
theorem recordPage_last_used (hfits : overflows t = false)
    (h : recordPage emptyPage (t.lastRecord lov) = recordPage (t.rel.page t.blk) (t.lastRecord lov)) :
    (t.rel.page t.blk).hrlWordsUsed = 0 := by
  have hle : ¬hrlWordsPerPage - (t.rel.page t.blk).hrlWordsUsed < t.buf.curword - t.buf.startWordno :=
    of_decide_eq_false hfits
  have hused := congrArg BMPage.hrlWordsUsed h
  rw [recordPage_used, recordPage_used] at hused
  split at hused
  · exact hused.symm
  · have hn : (t.lastRecord lov).numCwords - (t.lastRecord lov).startWordno = t.buf.curword - t.buf.startWordno := rfl
    have hzero : emptyPage.hrlWordsUsed = 0 := rfl
    rw [hn, hzero] at hused
    omega

/-- Nor do those of a page before the last. -/
theorem recordPage_pass_ne (hover : overflows t = true) (hlen : t.buf.curword ≤ hrlWordsPerPage)
    (hdistinct : ∀ i j, i < j → j < t.buf.curword → t.buf.lastTids i ≠ t.buf.lastTids j) :
    recordPage emptyPage (t.passRecord lov) ≠ recordPage (t.rel.page t.blk) (t.passRecord lov) := by
  intro h
  have hlt : hrlWordsPerPage - (t.rel.page t.blk).hrlWordsUsed < t.buf.curword - t.buf.startWordno :=
    of_decide_eq_true hover
  have hn : (t.passRecord lov).numCwords = t.buf.curword := rfl
  have hs : (t.passRecord lov).startWordno = t.buf.startWordno := rfl
  have hzero : emptyPage.hrlWordsUsed = 0 := rfl
  have hused := congrArg BMPage.hrlWordsUsed h
  rw [recordPage_used, recordPage_used, hn, hs, hzero] at hused
  by_cases hnone : (t.passRecord lov).wordsWritten = 0
  · -- a full page gets no words
    rw [if_pos hnone, if_pos hnone] at hused
    omega
  · -- a buffer as long as a page: the last words of the two pages differ
    rw [if_neg hnone, if_neg hnone] at hused
    have htid := congrArg BMPage.lastTidLocation h
    rw [recordPage_tid _ hnone, recordPage_tid _ hnone, hn, hs, hzero] at htid
    have hlast (i : Nat) (hi : i < t.buf.curword) : (t.passRecord lov).lastTids i = t.buf.lastTids i := if_pos hi
    rw [hlast _ (by omega), hlast _ (by omega)] at htid
    refine hdistinct _ _ ?_ ?_ htid.symm
    · have hsize : hrlWordsPerPage = 3808 := rfl
      omega
    · omega

/-- Without the page they start on, new words are not replayed. -/
theorem used_of_replaysWith (hv : VectorAt s.toIndex lov blocks) (hset : Settled start s)
    (hlen : buf.curword ≤ hrlWordsPerPage) (heq : startState (logging s.toIndex stack) lov buf = t)
    (ht : StartsAt s buf t) (hload : loaded s t.blk = emptyPage)
    (hdistinct : ∀ i j, i < j → j < buf.curword → buf.lastTids i ≠ buf.lastTids j)
    (h : ReplaysWith stack s.toIndex lov (.writeNew buf) start s) : (t.rel.page t.blk).hrlWordsUsed = 0 := by
  obtain ⟨hwal₁, hwal₂⟩ := writeNew_wal lov ht
  rcases writeNew_short heq (Nat.ne_of_lt ht.blk) hlen with ⟨hfits, hrun⟩ | ⟨hover, -, hrun⟩
  · have hop : LoggedOp.run (logging s.toIndex stack) lov (.writeNew buf) = some (writeLast lov t).1 := congrArg some hrun
    obtain ⟨s', hs', -, hpages⟩ := (replaysWith_one hop hwal₁).mp h start (Nat.le_refl _)
    obtain ⟨s₁, hredo, -, -, -, hpage, -⟩ := redo_writeLast hset (lt_succ_self start) ht.follows hv.lov
    have heq' : s₁ = s' := some.inj (hredo.symm.trans hs')
    subst heq'
    have hsame := hpages t.blk (by rw [writeLast_nblocks]; exact ht.blk)
    rw [hpage, writeLast_page, hload] at hsame
    dsimp only at hsame
    rw [if_pos rfl, if_pos rfl, ← recordPage_last hfits ht.next] at hsame
    exact recordPage_last_used hfits hsame
  · have hop : LoggedOp.run (logging s.toIndex stack) lov (.writeNew buf) = some (writeLast lov (writePass lov t)).1 :=
      congrArg some hrun
    obtain ⟨s', hs', -, hpages⟩ :=
      (replaysWith_two hop hwal₂).mp h start (start + 1) (Nat.le_refl _) (lt_succ_self _)
    obtain ⟨s₁, hredo₁, hset₁, hblocks, -, hpage, -, -⟩ :=
      redo_writePass hset (lt_succ_self start) ht.follows hv.lov ht.isFirst
    have hn := writePass_nblocks lov t
    have hmax := ht.follows.nblocks
    have hlt := ht.blk
    have hlov := hv.lov
    obtain ⟨s₂, hredo₂, -, hindex, -⟩ := redo_last (r := (writePass lov t).lastRecord lov) hset₁
      (lt_succ_self (start + 1))
      (by show t.rel.nblocks ≤ s₁.nblocks; omega) (by show lov.1 < s₁.nblocks; omega) rfl
    have heq' : s₂ = s' := by
      refine some.inj (Eq.trans ?_ hs')
      simp only [bitmapRedo, hredo₁, bind_some]
      exact hredo₂.symm
    subst heq'
    have hsame := hpages t.blk (by rw [writeLast_nblocks, hn]; omega)
    have hleft : s₂.page t.blk = recordPage emptyPage (t.passRecord lov) := by
      rw [hindex]
      show (if t.blk = t.rel.nblocks then _ else s₁.page t.blk) = _
      rw [if_neg (Nat.ne_of_lt hlt), hpage, hload]
      exact (if_neg (Nat.ne_of_lt hlt)).trans (if_pos rfl)
    have hright : (writeLast lov (writePass lov t)).1.page t.blk = recordPage (t.rel.page t.blk) (t.passRecord lov) := by
      rw [writeLast_page, writePass_blk, writePass_page, recordPage_pass hover]
      exact (if_neg (Nat.ne_of_lt hlt)).trans (if_pos rfl)
    rw [hleft, hright] at hsame
    refine absurd hsame (recordPage_pass_ne hover ?_ ?_)
    · rw [ht.buf]
      exact hlen
    · rw [ht.buf]
      exact hdistinct

end

/-- When replay reproduces an operation: an update of a page splits no run, and new words
find the page they start on in the buffer cache, or it is empty or new. -/
def ReplayCond (idx : Index) (lov : Nat × Nat) (s : RedoState) : LoggedOp → Prop
  | .updateLast _ => True
  | .updateInpage tidnum blk first => splits (idx.page blk) tidnum first = false
  | .insertLast .. => False
  | .writeNew _ => (idx.lov lov).lovHead = invalidBlockNumber ∨ s.cached (idx.lov lov).lovTail = true ∨
      idx.page (idx.lov lov).lovTail = emptyPage

/-- The words of a buffer end at different tid numbers, and a tail without words is as it
was made. -/
def LoggedOp.Ordinary (idx : Index) (lov : Nat × Nat) : LoggedOp → Prop
  | .writeNew buf => (∀ i j, i < j → j < buf.curword → buf.lastTids i ≠ buf.lastTids j) ∧
      ((idx.page (idx.lov lov).lovTail).hrlWordsUsed = 0 → idx.page (idx.lov lov).lovTail = emptyPage)
  | _ => True

/-- **When replay reproduces an operation.** -/
theorem replays_iff (idx : Index) (lov : Nat × Nat) (blocks : List Nat) (hv : VectorAt idx lov blocks) (s : RedoState)
    (hs : s.toIndex = idx) (start : Nat) (hset : Settled start s) (op : LoggedOp) (stack : XlUpdatewords)
    (happ : op.Applies (logging idx stack) lov blocks) :
    (ReplayCond idx lov s op → Replays idx lov op start s) ∧
      (op.Ordinary idx lov → Replays idx lov op start s → ReplayCond idx lov s op) := by
  cases op with
  | updateLast tidnum => exact ⟨fun _ => replays_updateLast hv hs hset happ, fun _ _ => trivial⟩
  | updateInpage tidnum blk first =>
    refine ⟨replays_updateInpage hv hs hset happ.1 happ.2, fun _ h => ?_⟩
    show splits (idx.page blk) tidnum first = false
    cases hsplit : splits (idx.page blk) tidnum first with
    | false => rfl
    | true => exact absurd h (not_replays_split hv hs hset happ.1 hsplit)
  | insertLast tidnum buf => exact ⟨False.elim, fun _ h => not_replays_insertLast hv hs hset happ h⟩
  | writeNew buf =>
    subst hs
    refine ⟨fun hcond stack' => ?_, fun hord h => ?_⟩
    · obtain ⟨ht, hload⟩ := startsAt buf stack' hv
      exact replaysWith_writeNew hv hset happ.2 rfl ht (hload.mpr hcond)
    · obtain ⟨ht, hload⟩ := startsAt buf stack hv
      by_contra hcond
      simp only [ReplayCond, not_or] at hcond
      obtain ⟨hhead, hcached, hpage⟩ := hcond
      have hstart : startState (logging s.toIndex stack) lov buf =
          ⟨logging s.toIndex stack, buf, (s.lov lov).lovTail, false⟩ := if_pos hhead
      rw [hstart] at ht
      have hempty : loaded s (s.lov lov).lovTail = emptyPage := if_neg fun hc => hcached hc.2
      exact hpage (hord.2 (used_of_replaysWith hv hset happ.2 hstart ht hempty hord.1 (h stack)))

/-- A page with one word, a run of 64 zeros. -/
def runPage : BMPage where
  hwords := fun i => if i = 0 then 0x8000 else 0
  cwords := fun i => if i = 0 then 4 else 0
  hrlWordsUsed := 1
  bitmapNext := invalidBlockNumber
  lastTidLocation := 64

/-- An index with one vector of one page, when replay starts. -/
def runState : RedoState where
  nblocks := 3
  page := fun i => if i = 2 then runPage else emptyPage
  lov := fun _ =>
    { lovHead := 2, lovTail := 2, lastCompword := literalAllOne, lastWord := 1, lastTidLocation := 64, lastSetbit := 65
      wordsHeader := lovWordsNoFill }
  cached := fun _ => false
  isNew := fun _ => false
  lsn := fun _ => 0
  incomplete := []

theorem runState_settled : Settled 1 runState := ⟨fun _ _ => rfl, fun _ => Nat.zero_lt_one⟩

theorem runState_vector : VectorAt runState.toIndex (1, 1) [2] where
  chain := .single rfl (by decide) rfl
  tail := .inr ⟨[], rfl⟩
  inside := by decide
  openPages := by
    intro b hb
    obtain rfl := mem_singleton.mp hb
    refine ⟨by decide, fun n hn _ => ?_⟩
    have hn' : 1 ≤ n := hn
    rw [isFillWord_eq]
    show (if n / 16 = 0 then (0x8000 : Word) else 0).getLsbD (15 - n % 16) = false
    split
    · have hbits : ∀ k < 15, (0x8000 : Word).getLsbD k = false := by decide
      exact hbits _ (by omega)
    · exact BitVec.getLsbD_zero
  lov := by decide

/-- Bit 40 of the run. -/
theorem runState_applies : (LoggedOp.updateInpage 40 2 1).Applies (logging runState.toIndex freshRelation.stack) (1, 1) [2] :=
  ⟨by decide, by decide +kernel⟩

theorem replays_iff_run :
    (ReplayCond runState.toIndex (1, 1) runState (.updateInpage 40 2 1) →
        Replays runState.toIndex (1, 1) (.updateInpage 40 2 1) 1 runState) ∧
      (LoggedOp.Ordinary runState.toIndex (1, 1) (.updateInpage 40 2 1) →
        Replays runState.toIndex (1, 1) (.updateInpage 40 2 1) 1 runState →
          ReplayCond runState.toIndex (1, 1) runState (.updateInpage 40 2 1)) :=
  replays_iff runState.toIndex (1, 1) [2] runState_vector runState rfl 1 runState_settled _ _ runState_applies

/-- The run is split, and its page's next block after replay is what the stack held. -/
theorem split_not_replayed :
    (VectorAt runState.toIndex (1, 1) [2] ∧ Settled 1 runState ∧
      (LoggedOp.updateInpage 40 2 1).Applies (logging runState.toIndex freshRelation.stack) (1, 1) [2]) ∧
      ¬Replays runState.toIndex (1, 1) (.updateInpage 40 2 1) 1 runState :=
  ⟨⟨runState_vector, runState_settled, runState_applies⟩,
    not_replays_split runState_vector rfl runState_settled (by decide) (by decide +kernel)⟩

end PgStorage.Hrl
