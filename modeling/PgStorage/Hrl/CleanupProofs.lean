import PgStorage.Hrl.ReplayProofs

/-! A crash in the middle of a write.

A write that needs a new page logs a record for each page. When replay ends between two
of them, `bitmap_xlog_cleanup` finishes the write from the pending record. It sets
`num_cwords` of its buffer but not `curword`, the number of words that
`_bitmap_write_new_bitmapwords` writes, so what it writes depends on the stack. -/
namespace PgStorage.Hrl
open List

theorem recordPage_open {p : BMPage} {r : XlBitmapwords} (hopen : PageOpen p)
    (hpos : r.wordsWritten ≠ 0 → 0 < wordsWritten p (recordWords r)) : PageOpen (recordPage p r) := by
  unfold recordPage
  split
  · exact ⟨hopen.size, hopen.clear⟩
  · rename_i hne
    have h := writeBitmapwords_open hopen (hpos hne)
    exact ⟨h.size, h.clear⟩

section
variable {lov : Nat × Nat} {blocks : List Nat} {s : RedoState} {buf : TidBuffer} {stack : XlUpdatewords} {t : WriteState}

/-- The chain of the vector up to the page that a write starts on. -/
theorem startsAt_chain (hv : VectorAt s.toIndex lov blocks) (heq : startState (logging s.toIndex stack) lov buf = t)
    (hroom : s.nblocks < invalidBlockNumber) :
    ∃ pre, Chain t.rel.page ((writePass lov t).rel.lov lov).lovHead (pre ++ [t.blk]) ∧
      ((writePass lov t).rel.lov lov).lovTail = t.blk ∧ (∀ b ∈ pre, b < s.nblocks ∧ b ≠ t.blk) ∧
      PageOpen (loaded s t.blk) ∧ (loaded s t.blk = emptyPage ∨ loaded s t.blk = t.rel.page t.blk) := by
  by_cases hhead : (s.lov lov).lovHead = invalidBlockNumber
  · have ht : t = ⟨(logging s.toIndex stack).newPage, buf, s.nblocks, false⟩ := by
      rw [← heq]
      exact if_neg (not_not_intro hhead)
    have hpage : t.rel.page t.blk = emptyPage := by
      rw [ht]
      exact Relation.setPage_page_self ..
    have hitem : (writePass lov t).rel.lov lov = {t.rel.lov lov with lovHead := t.blk, lovTail := t.blk} := by
      rw [writePass_lov]
      exact if_pos (by rw [ht]; exact hhead)
    have hload : loaded s t.blk = emptyPage := by
      rw [ht]
      exact if_neg fun hc => absurd hc.1 (lt_irrefl _)
    rw [hitem, hload]
    refine ⟨[], .single rfl ?_ (by rw [hpage]; rfl), rfl, by simp, emptyPage_open, .inl rfl⟩
    rw [ht]
    exact Nat.ne_of_lt hroom
  · have ht : t = ⟨logging s.toIndex stack, buf, (s.lov lov).lovTail, false⟩ := by
      rw [← heq]
      exact if_pos hhead
    have hitem : (writePass lov t).rel.lov lov = s.lov lov := by
      rw [writePass_lov]
      exact (if_neg (by rw [ht]; exact hhead)).trans (by rw [ht]; rfl)
    obtain ⟨pre, rfl⟩ := hv.ends hhead
    have hnodup := hv.chain.nodup
    rw [nodup_append] at hnodup
    have hpage : t.rel.page = s.page := by rw [ht]; rfl
    have hblk : t.blk = (s.lov lov).lovTail := by rw [ht]
    rw [hitem, hpage, hblk]
    refine ⟨pre, hv.chain, rfl, fun b hb => ⟨hv.inside b (mem_append_left _ hb), ?_⟩, ?_, ?_⟩
    · exact hnodup.2.2 b hb _ mem_cons_self
    · unfold loaded
      split
      · exact hv.openPages _ (mem_append_right _ mem_cons_self)
      · exact emptyPage_open
    · unfold loaded
      split
      · exact .inr rfl
      · exact .inl rfl

/-- **The vector after the first record of a write**: a new page, without words, is behind
the page that the record filled. -/
theorem redo_pass_pages {a b : Nat} (hv : VectorAt s.toIndex lov blocks) (hset : Settled a s) (hab : a < b)
    (heq : startState (logging s.toIndex stack) lov buf = t) (ht : StartsAt s buf t) (hover : overflows t = true)
    (hroom : t.rel.nblocks < invalidBlockNumber) :
    ∃ s₁ pre, xlogInsertBitmapwords a (t.passRecord lov) s = some s₁ ∧ Settled b s₁ ∧
      s₁.nblocks = t.rel.nblocks + 1 ∧ s₁.lov = (writePass lov t).rel.lov ∧ s₁.page t.rel.nblocks = emptyPage ∧
      s₁.cached t.rel.nblocks = true ∧
      s₁.incomplete = logIncompleteInsertBitmapwords s.incomplete (t.passRecord lov) ∧
      Pages s₁.toIndex (s₁.lov lov).lovHead pre (s₁.lov lov).lovTail [t.rel.nblocks] := by
  obtain ⟨s₁, hredo, hset₁, hblocks, hlov, hpage, hcached, hinc⟩ :=
    redo_writePass hset hab ht.follows hv.lov ht.isFirst
  have hmax := ht.follows.nblocks
  have hlt := ht.blk
  obtain ⟨pre, hchain, htail, hpre, hopen, hload⟩ := startsAt_chain hv heq (by omega)
  rw [writePass_nblocks] at hblocks
  have hnew : s₁.page t.rel.nblocks = emptyPage := by
    rw [hpage]
    exact if_pos rfl
  have hfull : s₁.page t.blk = recordPage (loaded s t.blk) (t.passRecord lov) := by
    rw [hpage]
    exact (if_neg (Nat.ne_of_lt hlt)).trans (if_pos rfl)
  have hsame : ∀ i ∈ pre, s₁.page i = t.rel.page i := by
    intro i hi
    obtain ⟨hin, hne⟩ := hpre i hi
    rw [hpage]
    exact (if_neg (show i ≠ t.rel.nblocks by omega)).trans (if_neg hne)
  have hnext : (s₁.page t.blk).bitmapNext = t.rel.nblocks := by
    rw [hfull]
    rfl
  have hend : Chain s₁.page t.blk [t.blk, t.rel.nblocks] := by
    refine .page (Nat.ne_of_lt (by omega)) ?_
    rw [hnext]
    exact .single rfl (Nat.ne_of_lt hroom) (by rw [hnew]; rfl)
  refine ⟨s₁, pre, hredo, hset₁, hblocks, hlov, hnew, hcached, hinc, ?_⟩
  rw [hlov, htail]
  refine ⟨hchain.relink hsame hend, ?_, ?_, ?_⟩
  · intro i hi
    show i < s₁.nblocks
    rw [hblocks]
    rcases mem_append.mp hi with hi | hi
    · have := (hpre i hi).1
      omega
    · simp only [mem_cons, not_mem_nil, or_false] at hi
      omega
  · show PageOpen (s₁.page t.blk)
    rw [hfull]
    refine recordPage_open hopen fun hne => ?_
    have hk : hrlWordsPerPage - (t.rel.page t.blk).hrlWordsUsed < t.buf.curword - t.buf.startWordno :=
      of_decide_eq_true hover
    have hfree : (t.rel.page t.blk).hrlWordsUsed < hrlWordsPerPage := by
      by_contra hfree
      exact hne (congrArg Prod.snd (if_neg hfree))
    show 0 < min (t.buf.curword - t.buf.startWordno) (hrlWordsPerPage - _)
    rcases hload with hload | hload
    · rw [hload]
      show 0 < min _ (hrlWordsPerPage - 0)
      have hsize : hrlWordsPerPage = 3808 := rfl
      omega
    · rw [hload]
      omega
  · intro i hi
    obtain rfl := mem_singleton.mp hi
    show pageCells (s₁.page t.rel.nblocks) = []
    rw [hnew]
    rfl

end

/-! ### The other record, and the cleanup -/

variable {lov : Nat × Nat}

theorem lastRecord_congr {t w : WriteState} (hblk : w.blk = t.blk) (hbuf : w.buf = t.buf)
    (hfirst : w.isFirst = t.isFirst) (hpage : w.rel.page w.blk = t.rel.page t.blk) (hlov : w.rel.lov = t.rel.lov) :
    w.lastRecord lov = t.lastRecord lov := by
  have hended : w.ended = t.ended := by rw [WriteState.ended, WriteState.ended, hpage, hbuf]
  simp only [WriteState.lastRecord, wordsRecord, Relation.setPage_page_self, hended, hblk, hbuf, hfirst, hlov]

/-- The words of a vector depend only on the index. -/
theorem HasWords.congr {rel rel' : Relation} {ws : List Word} (h : HasWords rel lov ws)
    (heq : rel'.toIndex = rel.toIndex) : HasWords rel' lov ws := by
  unfold HasWords at h ⊢
  rw [heq]
  exact h

theorem HasWords.unique {rel : Relation} {ws ws' : List Word} (h : HasWords rel lov ws)
    (h' : HasWords rel lov ws') : ws = ws' := by
  obtain ⟨blocks, hchain, rfl⟩ := h
  obtain ⟨blocks', hchain', rfl⟩ := h'
  rw [hchain.unique hchain']

section
variable {lov : Nat × Nat} {s₁ : RedoState} {t : WriteState} {new : Nat} {pre : List Nat}

/-- **Replay of the last record** appends the words left. -/
theorem redo_rest_words {b : Nat} (rec : XlUpdatewords) (hset : Settled b s₁) (hlt : lov.1 < s₁.nblocks)
    (hpages : Pages s₁.toIndex (s₁.lov lov).lovHead pre (s₁.lov lov).lovTail [new]) (hnew : s₁.page new = emptyPage)
    (hcached : s₁.cached new = true) (hblk : t.blk = new) (hpage : t.rel.page new = emptyPage)
    (hlov : s₁.lov = t.rel.lov) (hfits : overflows t = false)
    (hroom : s₁.nblocks + t.buf.curword + 1 < invalidBlockNumber) :
    ∃ s₂, xlogInsertBitmapwords b (t.lastRecord lov) s₁ = some s₂ ∧
      HasWords (s₂.relation rec) lov
        (expand (chainCells s₁.page (pre ++ [(s₁.lov lov).lovTail, new]) ++ t.buf.rest ++ t.buf.compCells) ++
          [t.buf.lastWord]) ∧
      s₂.incomplete = forgetIncompleteInsertBitmapwords s₁.incomplete (t.lastRecord lov) := by
  let w : WriteState := ⟨s₁.relation rec, t.buf, new, t.isFirst⟩
  have hin : new < s₁.nblocks := hpages.inside new (by simp)
  have hrecord : w.lastRecord lov = t.lastRecord lov := by
    refine lastRecord_congr hblk.symm rfl rfl ?_ hlov
    rw [hblk, hpage]
    exact hnew
  have hfits' : overflows w = false := by
    have hsame : overflows w = overflows t := by
      unfold overflows
      rw [hblk, hpage]
      show decide (hrlWordsPerPage - (s₁.page new).hrlWordsUsed < _) = _
      rw [hnew]
    rw [hsame]
    exact hfits
  have hfollows : Follows s₁ w :=
    ⟨le_of_lt hin, (max_eq_left hin).symm, fun _ _ => rfl, rfl⟩
  obtain ⟨s₂, hredo, -, hblocks, hlov₂, hpage₂, hinc⟩ := redo_writeLast hset (Nat.lt_succ_self b) hfollows hlt
  have hload : loaded s₁ new = s₁.page new := if_pos ⟨hin, hcached⟩
  have hindex : s₂.toIndex = (writeLast lov w).1.toIndex := by
    have hlast : recordPage (w.rel.page w.blk) (w.lastRecord lov) = w.ended.1 :=
      recordPage_last hfits' (by show (s₁.page new).bitmapNext = _; rw [hnew]; rfl)
    have hpage' : s₂.page = (writeLast lov w).1.page := by
      rw [hpage₂, writeLast_page, ← hlast]
      show (fun i => if i = new then recordPage (loaded s₁ new) _ else _) = _
      rw [hload]
      rfl
    show Index.mk s₂.nblocks s₂.page s₂.lov = _
    rw [hblocks, hpage', hlov₂]
  have hwriting : Writing lov (chainCells s₁.page (pre ++ [(s₁.lov lov).lovTail, new]) ++ t.buf.rest) w := by
    refine ⟨⟨_, pre ++ [(s₁.lov lov).lovTail], [], ⟨?_, ?_, ?_, by simp⟩, .inl rfl, ?_⟩, ?_⟩
    · rw [append_assoc]
      exact hpages.chain
    · rw [append_assoc]
      exact hpages.inside
    · show PageOpen (s₁.page new)
      rw [hnew]
      exact emptyPage_open
    · show chainCells s₁.page (pre ++ [_]) ++ pageCells (s₁.page new) ++ _ = _
      rw [show pre ++ [(s₁.lov lov).lovTail, new] = (pre ++ [(s₁.lov lov).lovTail]) ++ [new] by simp,
        chainCells_append _ _ [new]]
      simp [chainCells]
      rfl
    · show s₁.nblocks + writeMeasure w < _
      have hm : writeMeasure w ≤ t.buf.curword + 1 := by
        unfold writeMeasure
        show t.buf.curword - _ + (if _ then 1 else 0) ≤ _
        split <;> omega
      omega
  rw [← hrecord]
  refine ⟨s₂, hredo, ?_, hinc⟩
  have hwords := PagesHold.words (.inr (hwriting.last hfits')) (writeLast_lastWords lov w)
  exact hwords.congr hindex

end

/-- The entry of `incomplete_actions` that a record leaves. -/
def pendingAction (r : XlBitmapwords) : XlBitmapwords :=
  {r with
    blkno := r.nextBlkno, nextBlkno := invalidBlockNumber, startWordno := r.startWordno + r.wordsWritten
    wordsWritten := 0}

/-- **The cleanup** appends the words up to what its stack had for `curword`. -/
theorem cleanup_words {s₁ : RedoState} {b : Nat} {t : WriteState} {cs : List Cell}
    (stack : TidBuffer) (rec : XlUpdatewords) (hset : Settled b s₁) (hlt : lov.1 < s₁.nblocks)
    (hinc : s₁.incomplete = [pendingAction (t.passRecord lov)]) (hpages : PagesHold s₁.toIndex lov cs)
    (hroom : s₁.nblocks + stack.curword + 2 < invalidBlockNumber) :
    ∃ s', bitmapXlogCleanup stack rec s₁ = some s' ∧
      HasWords (s'.relation rec) lov
        (expand (cs ++ (cleanupWords stack (pendingAction (t.passRecord lov))).rest ++ t.buf.compCells) ++
          [t.buf.lastWord]) := by
  have hlov : (pendingAction (t.passRecord lov)).lov = lov := rfl
  simp only [bitmapXlogCleanup, hinc, foldlM_cons, foldlM_nil, cleanupAction, hlov, read_old hset hlt,
    Option.bind_eq_bind, Option.bind_some, Option.pure_def]
  refine ⟨_, rfl, ?_⟩
  have hroom' : ((s₁.setCached lov.1).relation rec).nblocks +
      ((cleanupWords stack (pendingAction (t.passRecord lov))).curword -
        (cleanupWords stack (pendingAction (t.passRecord lov))).startWordno) + 2 < invalidBlockNumber := by
    show s₁.nblocks + (stack.curword - _) + 2 < _
    omega
  have hpages' : PagesHold ((s₁.setCached lov.1).relation rec).toIndex lov cs := hpages
  have hwords := writeNew_words hpages' hroom'
  have hcomp : (cleanupWords stack (pendingAction (t.passRecord lov))).compCells = t.buf.compCells := by
    show (if t.buf.lastCompword ≠ literalAllOne then [Cell.mk ((if t.buf.isLastCompwordFill then lastCompwordBit
      else lovWordsNoFill) == 2) t.buf.lastCompword] else []) = _
    unfold TidBuffer.compCells
    cases t.buf.isLastCompwordFill <;> rfl
  rw [hcomp] at hwords
  exact hwords.congr rfl

/-- Some value of `curword` leaves another number of words. -/
theorem cleanup_rest (action : XlBitmapwords) (n : Nat) :
    ∃ stack : TidBuffer, stack.curword ≤ max action.startWordno action.numCwords + 1 ∧
      (expand (cleanupWords stack action).rest).length ≠ n := by
  by_cases hn : n = 0
  · -- one word more than the record has
    obtain ⟨m, hm⟩ : ∃ m, max action.startWordno action.numCwords = action.startWordno + m :=
      ⟨max action.startWordno action.numCwords - action.startWordno, by omega⟩
    let stack := {zeroBuffer with curword := action.startWordno + m + 1, cwords := fun _ => 1}
    refine ⟨stack, le_of_eq (by rw [hm]), ?_⟩
    have hlast : (cleanupWords stack action).cwords (action.startWordno + m) = 1 := if_neg (by omega)
    have hone : ∀ fill, (Cell.mk fill 1).Valid := fun _ _ => (by decide : 1 ≤ fillLength 1)
    have hrest : (cleanupWords stack action).rest =
        cells (cleanupWords stack action).hwords (cleanupWords stack action).cwords action.startWordno m ++
          [⟨isFillWord (cleanupWords stack action).hwords (action.startWordno + m), 1⟩] := by
      rw [TidBuffer.rest]
      show cells _ _ action.startWordno (action.startWordno + m + 1 - action.startWordno) = _
      rw [show action.startWordno + m + 1 - action.startWordno = m + 1 by omega, cells_add, cells, hlast]
      rfl
    have hpos := Cell.words_pos (hone (isFillWord (cleanupWords stack action).hwords (action.startWordno + m)))
    rw [hrest, expand_append, expand_cons, expand_nil, append_nil, length_append]
    omega
  · -- the words written already
    refine ⟨{zeroBuffer with curword := action.startWordno}, ?_, ?_⟩
    · show action.startWordno ≤ _
      omega
    · have hrest : (cleanupWords {zeroBuffer with curword := action.startWordno} action).rest = [] := by
        rw [TidBuffer.rest]
        show cells _ _ _ (action.startWordno - action.startWordno) = []
        rw [Nat.sub_self]
        rfl
      rw [hrest]
      exact fun h => hn h.symm

/-! ### The whole write -/

/-- Replay of some of the records of a write, then cleanup, gives the words that replay of
all of them gives; `stack` is what the buffer of the cleanup held. -/
def CutRepaired (rec : XlUpdatewords) (lov : Nat × Nat) (buf : TidBuffer) (start : Nat) (s : RedoState) : Prop :=
  let wal := (writeNewBitmapwords (logging s.toIndex rec) lov buf).1.wal
  ∀ (stack : TidBuffer) (lsns : List Nat), lsns.length = wal.length → lsns.Pairwise (· < ·) →
    (∀ lsn ∈ lsns, start ≤ lsn) → ∀ k, 1 ≤ k → k < wal.length →
      ∃ cut all ws, (redoAll ((lsns.zip wal).take k) s).bind (bitmapXlogCleanup stack rec) = some cut ∧
        redoAll (lsns.zip wal) s = some all ∧ HasWords (cut.relation rec) lov ws ∧ HasWords (all.relation rec) lov ws

/-- Replay of all records of a write leaves no pending action of the vector. -/
def Forgotten (rec : XlUpdatewords) (lov : Nat × Nat) (buf : TidBuffer) (start : Nat) (s : RedoState) : Prop :=
  let wal := (writeNewBitmapwords (logging s.toIndex rec) lov buf).1.wal
  ∀ lsns : List Nat, lsns.length = wal.length → lsns.Pairwise (· < ·) → (∀ lsn ∈ lsns, start ≤ lsn) →
    ∃ all, redoAll (lsns.zip wal) s = some all ∧ ∀ action ∈ all.incomplete, action.lov ≠ lov

/-- A write of two records, with replay of each and with the cleanup between them. -/
theorem cut_runs {blocks : List Nat} {s : RedoState} {start : Nat} {buf : TidBuffer}
    {rec : XlUpdatewords} (hv : VectorAt s.toIndex lov blocks) (hset : Settled start s) (hnil : s.incomplete = [])
    (hlen : buf.curword ≤ hrlWordsPerPage) (hroom : s.nblocks + 2 * hrlWordsPerPage < invalidBlockNumber)
    (hn : 2 ≤ (writeNewBitmapwords (logging s.toIndex rec) lov buf).1.wal.length) :
    ∃ r₁ r₂ : XlBitmapwords,
      (writeNewBitmapwords (logging s.toIndex rec) lov buf).1.wal = [.bitmapwords r₁, .bitmapwords r₂] ∧
      max (pendingAction r₁).startWordno (pendingAction r₁).numCwords ≤ hrlWordsPerPage ∧
      ∀ a b, start ≤ a → a < b → ∃ s₁ s₂ cs rest tail, xlogInsertBitmapwords a r₁ s = some s₁ ∧
        xlogInsertBitmapwords b r₂ s₁ = some s₂ ∧ s₂.incomplete = [] ∧
        HasWords (s₂.relation rec) lov (expand (cs ++ rest) ++ tail) ∧
        ∀ stack : TidBuffer, stack.curword ≤ hrlWordsPerPage + 1 →
          ∃ s', bitmapXlogCleanup stack rec s₁ = some s' ∧
            HasWords (s'.relation rec) lov (expand (cs ++ (cleanupWords stack (pendingAction r₁)).rest) ++ tail) := by
  obtain ⟨ht, -⟩ := startsAt buf rec hv
  generalize heq : startState (logging s.toIndex rec) lov buf = t at ht
  obtain ⟨hwal₁, hwal₂⟩ := writeNew_wal lov ht
  have hsize : hrlWordsPerPage = 3808 := rfl
  have hmax := ht.follows.nblocks
  have hblk := ht.follows.blk
  have hlt := ht.blk
  rcases writeNew_short heq (Nat.ne_of_lt hlt) hlen with ⟨-, hrun⟩ | ⟨hover, hfits, hrun⟩
  · rw [hrun, hwal₁] at hn
    exact absurd hn (by simp)
  · have hk : hrlWordsPerPage - (t.rel.page t.blk).hrlWordsUsed < t.buf.curword - t.buf.startWordno :=
      of_decide_eq_true hover
    have hbuf := ht.buf
    refine ⟨_, _, by rw [hrun, hwal₂], ?_, fun a b ha hab => ?_⟩
    · show max (t.buf.startWordno + t.filled.2) t.buf.curword ≤ _
      have hwritten : t.filled.2 ≤ t.buf.curword - t.buf.startWordno := by
        unfold WriteState.filled
        split
        · exact Nat.min_le_left ..
        · exact Nat.zero_le _
      rw [hbuf] at hwritten ⊢
      rw [hbuf] at hk
      omega
    · obtain ⟨s₁, pre, hredo₁, hset₁, hblocks, hlov, hnew, hcached, hinc, hpages⟩ :=
        redo_pass_pages hv (hset.mono ha) hab heq ht hover (by omega)
      rw [hnil] at hinc
      have hinc' : s₁.incomplete = [pendingAction (t.passRecord lov)] := hinc
      have hlt₁ : lov.1 < s₁.nblocks := by
        have := hv.lov
        rw [hblocks]
        omega
      have hpage : (writePass lov t).rel.page t.rel.nblocks = emptyPage := by
        rw [writePass_page]
        exact (if_neg (Nat.ne_of_gt hlt)).trans (if_pos rfl)
      obtain ⟨s₂, hredo₂, hwords, hinc₂⟩ := redo_rest_words rec hset₁ hlt₁ hpages hnew hcached
        (writePass_blk lov t) hpage hlov hfits (by show _ + t.buf.curword + 1 < _; rw [hblocks, hbuf]; omega)
      refine ⟨s₁, s₂, chainCells s₁.page (pre ++ [(s₁.lov lov).lovTail, t.rel.nblocks]), (writePass lov t).buf.rest,
        expand t.buf.compCells ++ [t.buf.lastWord], hredo₁, hredo₂, ?_, ?_, fun stack hstack => ?_⟩
      · rw [hinc₂, hinc']
        show eraseP _ [_] = []
        simp [eraseP, continues, pendingAction, WriteState.passRecord, WriteState.lastRecord, wordsRecord,
          writePass_buf]
      · rw [expand_append, append_assoc] at hwords
        exact hwords
      · obtain ⟨s', hs', hw⟩ := cleanup_words stack rec hset₁ hlt₁ hinc' (.inr ⟨pre, _, hpages, rfl⟩)
          (by rw [hblocks]; omega)
        rw [expand_append, append_assoc] at hw
        exact ⟨s', hs', hw⟩

section
variable {lov : Nat × Nat} {blocks : List Nat} {s : RedoState} {start : Nat} {buf : TidBuffer} {rec : XlUpdatewords}

theorem redoAll_two {a : Nat} (b : Nat) {r₁ : XlBitmapwords} (r₂ : XlBitmapwords) {s₁ : RedoState}
    (h : xlogInsertBitmapwords a r₁ s = some s₁) :
    redoAll [(a, .bitmapwords r₁)] s = some s₁ ∧
      redoAll [(a, .bitmapwords r₁), (b, .bitmapwords r₂)] s = xlogInsertBitmapwords b r₂ s₁ := by
  simp [redoAll, bitmapRedo, h]

theorem not_cutRepaired (hv : VectorAt s.toIndex lov blocks) (hset : Settled start s) (hnil : s.incomplete = [])
    (hlen : buf.curword ≤ hrlWordsPerPage) (hroom : s.nblocks + 2 * hrlWordsPerPage < invalidBlockNumber)
    (hn : 2 ≤ (writeNewBitmapwords (logging s.toIndex rec) lov buf).1.wal.length) :
    ¬CutRepaired rec lov buf start s := by
  obtain ⟨r₁, r₂, hwal, hbound, hruns⟩ := cut_runs hv hset hnil hlen hroom hn
  intro h
  obtain ⟨s₁, s₂, cs, rest, tail, hredo₁, hredo₂, -, hwords, hcleanup⟩ :=
    hruns start (start + 1) (le_refl _) (Nat.lt_succ_self _)
  obtain ⟨hone, htwo⟩ := redoAll_two (start + 1) r₂ hredo₁
  obtain ⟨stack, hstack, hne⟩ := cleanup_rest (pendingAction r₁) (expand rest).length
  obtain ⟨s', hs', hwords'⟩ := hcleanup stack (by omega)
  have hcut := h stack [start, start + 1] (by rw [hwal]; rfl) (by simp) (by simp) 1 (le_refl _)
    (by rw [hwal]; exact Nat.lt_succ_self 1)
  rw [hwal] at hcut
  obtain ⟨cut, all, ws, hcut, hall, hw, hw'⟩ := hcut
  have hs₁ : redoAll (([start, start + 1].zip [.bitmapwords r₁, .bitmapwords r₂]).take 1) s = some s₁ := hone
  rw [hs₁, Option.bind_some, hs'] at hcut
  have hs₂ : redoAll ([start, start + 1].zip [.bitmapwords r₁, .bitmapwords r₂]) s = some s₂ := htwo.trans hredo₂
  rw [hs₂] at hall
  cases hcut
  cases hall
  have hsame := congrArg length ((hw.unique hwords').symm.trans (hw'.unique hwords))
  simp only [expand_append, length_append] at hsame
  omega

theorem forgotten (hv : VectorAt s.toIndex lov blocks) (hset : Settled start s) (hnil : s.incomplete = [])
    (hlen : buf.curword ≤ hrlWordsPerPage) (hroom : s.nblocks + 2 * hrlWordsPerPage < invalidBlockNumber)
    (hn : 2 ≤ (writeNewBitmapwords (logging s.toIndex rec) lov buf).1.wal.length) :
    Forgotten rec lov buf start s := by
  obtain ⟨r₁, r₂, hwal, -, hruns⟩ := cut_runs hv hset hnil hlen hroom hn
  intro lsns hlsns hsorted hstart
  rw [hwal] at hlsns ⊢
  obtain ⟨a, b, rfl⟩ := length_eq_two.mp hlsns
  obtain ⟨s₁, s₂, cs, rest, tail, hredo₁, hredo₂, hinc, -, -⟩ :=
    hruns a b (hstart a mem_cons_self) (by simpa using hsorted)
  refine ⟨s₂, (redoAll_two b r₂ hredo₁).2.trans hredo₂, ?_⟩
  rw [hinc]
  simp

end

/-- **A write of several records is never sure to be repaired**, whatever its vector and
its words; when all its records are replayed, nothing is left pending. -/
theorem cut_never_repaired (lov : Nat × Nat) (blocks : List Nat) (s : RedoState) (start : Nat) (buf : TidBuffer)
    (rec : XlUpdatewords) (hv : VectorAt s.toIndex lov blocks) (hset : Settled start s) (hnil : s.incomplete = [])
    (hlen : buf.curword ≤ hrlWordsPerPage) (hroom : s.nblocks + 2 * hrlWordsPerPage < invalidBlockNumber)
    (hn : 2 ≤ (writeNewBitmapwords (logging s.toIndex rec) lov buf).1.wal.length) :
    ¬CutRepaired rec lov buf start s ∧ Forgotten rec lov buf start s :=
  ⟨not_cutRepaired hv hset hnil hlen hroom hn, forgotten hv hset hnil hlen hroom hn⟩

/-- An index with one vector of one full page, when replay starts. -/
def fullState : RedoState :=
  {runState with page := fun i => if i = 2 then {emptyPage with hrlWordsUsed := hrlWordsPerPage} else emptyPage}

/-- A buffer with one literal word. -/
def oneWord : TidBuffer :=
  {zeroBuffer with lastCompword := literalAllOne, lastWord := 1, lastTid := 60945, curword := 1, cwords := fun _ => 5}

theorem fullState_vector : VectorAt fullState.toIndex (1, 1) [2] where
  chain := .single rfl (by decide) rfl
  tail := .inr ⟨[], rfl⟩
  inside := by decide
  openPages := by
    intro b hb
    obtain rfl := mem_singleton.mp hb
    exact ⟨le_refl _, fun n hn hlt => absurd hlt (Nat.not_lt.mpr hn)⟩
  lov := by decide

theorem fullState_settled : Settled 1 fullState := ⟨fun _ _ => rfl, fun _ => Nat.zero_lt_one⟩

theorem cut_never_repaired_full :
    ¬CutRepaired freshRelation.stack (1, 1) oneWord 1 fullState ∧ Forgotten freshRelation.stack (1, 1) oneWord 1 fullState :=
  cut_never_repaired (1, 1) [2] fullState 1 oneWord freshRelation.stack fullState_vector fullState_settled rfl (by decide)
    (by decide) (by decide +kernel)

/-- One word behind a full page: two records, and a crash between them. -/
theorem cut_loses_words :
    (VectorAt fullState.toIndex (1, 1) [2] ∧ Settled 1 fullState ∧
      2 ≤ (writeNewBitmapwords (logging fullState.toIndex freshRelation.stack) (1, 1) oneWord).1.wal.length) ∧
      ¬CutRepaired freshRelation.stack (1, 1) oneWord 1 fullState :=
  ⟨⟨fullState_vector, fullState_settled, by decide +kernel⟩,
    not_cutRepaired fullState_vector fullState_settled rfl (by decide) (by decide) (by decide +kernel)⟩

end PgStorage.Hrl
