import PgStorage.Hrl.XlogProofs

/-! Where `_bitmap_write_new_bitmapwords` puts its words.

A call fills the tail of a vector and as many new pages as it needs, one behind the other. Each page takes some words
of the buffer behind its own, and its last tid from the last of them. -/
namespace PgStorage.Hrl
open List

section
variable {lov : Nat × Nat} {s : WriteState} {head : Nat} {pre post : List Nat}

/-- A pass links a new page behind the page it fills. -/
theorem Pages.pass (lov : Nat × Nat) (h : Pages s.rel.toIndex head pre s.blk post)
    (hfree : s.rel.nblocks ≠ invalidBlockNumber) :
    Pages (writePass lov s).rel.toIndex head (pre ++ [s.blk]) s.rel.nblocks [] := by
  have htail := h.tail_lt
  have hnew : (writePass lov s).rel.page s.rel.nblocks = emptyPage := by
    rw [writePass_page]
    simp [Nat.ne_of_gt htail]
  have hpre : ∀ b ∈ pre, (writePass lov s).rel.page b = s.rel.page b := by
    intro b hb
    have hne := h.pre_ne b hb
    have hin := h.inside b (mem_append_left _ hb)
    rw [writePass_page]
    simp [hne, Nat.ne_of_lt hin]
  have hend : Chain (writePass lov s).rel.page s.blk (s.blk :: [s.rel.nblocks]) := by
    obtain ⟨-, hne, -⟩ := h.chain.suffix.cons_inv
    refine .page hne ?_
    rw [writePass_page]
    simp only [if_true]
    rw [← writePass_page lov s]
    exact .single rfl hfree (by rw [hnew]; rfl)
  refine ⟨?_, fun b hb => ?_, ?_, nofun⟩
  · rw [append_assoc]
    exact h.chain.relink hpre hend
  · rw [writePass_nblocks]
    rw [append_assoc, mem_append] at hb
    rcases hb with hb | hb
    · exact Nat.lt_succ_of_lt (h.inside b (mem_append_left _ hb))
    · simp only [singleton_append, mem_cons, not_mem_nil, or_false] at hb
      rcases hb with rfl | rfl
      · exact Nat.lt_succ_of_lt htail
      · exact Nat.lt_succ_self _
  · rw [hnew]
    exact emptyPage_open

/-- What a page was before the call. -/
def Relation.oldPage (rel : Relation) (b : Nat) : BMPage := if b < rel.nblocks then rel.page b else emptyPage

/-- Some words of the buffer have been put behind those of the page, and the page has its last tid from the last of
them. -/
def Placed (buf : TidBuffer) (old new : BMPage) : Prop :=
  ∃ i n, buf.startWordno ≤ i ∧ i + n ≤ buf.curword ∧ pageCells new = pageCells old ++ cells buf.hwords buf.cwords i n ∧
    new.lastTidLocation = if n = 0 then old.lastTidLocation else buf.lastTids (i + n - 1)

/-- The words of a call go to pages that are filled, and to the tail. -/
structure Appending (rel : Relation) (buf : TidBuffer) (lov : Nat × Nat) (pre post : List Nat) (first : Nat)
    (filled : List Nat) (s : WriteState) : Prop where
  pages : ∃ head, Pages s.rel.toIndex head (pre ++ filled) s.blk (if filled = [] then post else []) ∧
    ((s.rel.lov lov).lovHead = head ∨ (s.rel.lov lov).lovHead = invalidBlockNumber ∧ head = s.blk)
  room : s.rel.nblocks + writeMeasure s < invalidBlockNumber
  more : rel.nblocks ≤ s.rel.nblocks
  first : (filled ++ [s.blk]).head? = some first
  front : ∀ b ∈ pre, s.rel.page b = rel.page b
  current : s.rel.page s.blk = rel.oldPage s.blk
  full : ∀ b ∈ filled, (s.rel.page b).hrlWordsUsed = hrlWordsPerPage
  placed : ∀ b ∈ filled, Placed buf (rel.oldPage b) (s.rel.page b)
  buffer : s.buf = {buf with startWordno := s.buf.startWordno}
  start : buf.startWordno ≤ s.buf.startWordno ∧ s.buf.startWordno ≤ buf.curword

variable {rel : Relation} {buf : TidBuffer} {first : Nat} {filled : List Nat}

/-- A page that is filled takes the words that fit. -/
theorem filled_placed (hopen : PageOpen (s.rel.page s.blk)) (hover : overflows s = true)
    (hbuffer : s.buf = {buf with startWordno := s.buf.startWordno}) (hstart : buf.startWordno ≤ s.buf.startWordno) :
    Placed buf (s.rel.page s.blk) s.filled.1 ∧ s.filled.1.hrlWordsUsed = hrlWordsPerPage ∧
      s.buf.startWordno + s.filled.2 ≤ buf.curword := by
  obtain ⟨hwritten, -⟩ := filled_cells hopen hover
  have hlt : hrlWordsPerPage - (s.rel.page s.blk).hrlWordsUsed < s.buf.curword - s.buf.startWordno :=
    of_decide_eq_true hover
  have hsize := hopen.size
  have hcur : s.buf.curword = buf.curword := by rw [hbuffer]
  have hh : s.buf.hwords = buf.hwords := by rw [hbuffer]
  have hc : s.buf.cwords = buf.cwords := by rw [hbuffer]
  have ht : s.buf.lastTids = buf.lastTids := by rw [hbuffer]
  have hroom : s.buf.startWordno + s.filled.2 ≤ buf.curword := by omega
  refine ⟨⟨s.buf.startWordno, s.filled.2, hstart, hroom, ?_, ?_⟩, ?_, hroom⟩
  · unfold WriteState.filled
    split
    · next hfree =>
      have hn : wordsWritten (s.rel.page s.blk) s.buf = hrlWordsPerPage - (s.rel.page s.blk).hrlWordsUsed :=
        min_eq_right (le_of_lt hlt)
      rw [writeBitmapwords_cells hopen (by omega), hh, hc]
      rfl
    · exact (append_nil _).symm
  · unfold WriteState.filled at hwritten ⊢
    split
    · next hfree =>
      rw [if_pos hfree] at hwritten
      rw [if_neg (by omega), ← ht]
      rfl
    · rfl
  · unfold WriteState.filled at hwritten ⊢
    split
    · next hfree =>
      rw [if_pos hfree] at hwritten
      show (s.rel.page s.blk).hrlWordsUsed + (writeBitmapwords (s.rel.page s.blk) s.buf).2 = _
      omega
    · dsimp only
      omega

theorem Appending.step (h : Appending rel buf lov pre post first filled s) (hover : overflows s = true) :
    Appending rel buf lov pre post first (filled ++ [s.blk]) (writePass lov s) ∧
      writeMeasure (writePass lov s) < writeMeasure s := by
  obtain ⟨⟨head, hpages, hhead⟩, hroom, hmore, hfirst, hfront, hcurrent, hfull, hplaced, hbuffer, hstart⟩ := h
  have hcells := (show Writing lov _ s from ⟨⟨head, _, _, hpages, hhead, rfl⟩, hroom⟩).step hover
  obtain ⟨hnext, hless⟩ := hcells
  obtain ⟨hput, hused, hend⟩ := filled_placed hpages.openTail hover hbuffer hstart.1
  have hfree : s.rel.nblocks ≠ invalidBlockNumber := by omega
  have htail := hpages.tail_lt
  have hsame : ∀ b ∈ pre ++ filled, (writePass lov s).rel.page b = s.rel.page b := by
    intro b hb
    have hne := hpages.pre_ne b hb
    have hin := hpages.inside b (mem_append_left _ hb)
    rw [writePass_page]
    simp [hne, Nat.ne_of_lt hin]
  have hblk : (writePass lov s).rel.page s.blk = {s.filled.1 with bitmapNext := s.rel.nblocks} := by
    rw [writePass_page]
    simp
  refine ⟨⟨⟨head, ?_, ?_⟩, hnext.room, ?_, ?_, fun b hb => ?_, ?_, fun b hb => ?_, fun b hb => ?_, ?_, ?_⟩, hless⟩
  · have hpass := hpages.pass lov hfree
    rw [append_assoc] at hpass
    rw [if_neg (by simp)]
    exact hpass
  · rw [writePass_lov]
    rcases hhead with hh | ⟨hnone, hh⟩
    · rw [if_neg (hh ▸ hpages.head_ne)]
      exact .inl hh
    · rw [if_pos hnone, hh]
      exact .inl rfl
  · rw [writePass_nblocks]
    omega
  · rw [head?_append, hfirst]
    rfl
  · rw [hsame b (mem_append_left _ hb)]
    exact hfront b hb
  · rw [writePass_blk, Relation.oldPage, if_neg (by omega), writePass_page]
    simp [Nat.ne_of_gt htail]
  · rcases mem_append.mp hb with hb | hb
    · rw [hsame b (mem_append_right _ hb)]
      exact hfull b hb
    · rw [mem_singleton.mp hb, hblk]
      exact hused
  · rcases mem_append.mp hb with hb | hb
    · rw [hsame b (mem_append_right _ hb)]
      exact hplaced b hb
    · rw [mem_singleton.mp hb, hblk, ← hcurrent]
      exact hput
  · rw [writePass_buf]
    exact congrArg (fun b : TidBuffer => {b with startWordno := s.buf.startWordno + s.filled.2}) hbuffer
  · rw [writePass_buf]
    exact ⟨le_trans hstart.1 (Nat.le_add_right _ _), hend⟩

theorem writeLast_tail (lov : Nat × Nat) (s : WriteState) : ((writeLast lov s).1.lov lov).lovTail = s.blk := by
  rw [writeLast_lov]
  exact congrArg LovItem.lovTail (if_pos rfl)

theorem writeLast_head (lov : Nat × Nat) (s : WriteState) : ((writeLast lov s).1.lov lov).lovHead =
    if (s.rel.lov lov).lovHead = invalidBlockNumber then s.blk else (s.rel.lov lov).lovHead := by
  rw [writeLast_lov]
  exact congrArg LovItem.lovHead (if_pos rfl)

/-- The last page takes all words that are left. -/
theorem ended_placed (hopen : PageOpen (s.rel.page s.blk)) (hfits : overflows s = false)
    (hbuffer : s.buf = {buf with startWordno := s.buf.startWordno}) (hstart : buf.startWordno ≤ s.buf.startWordno)
    (hle : s.buf.startWordno ≤ buf.curword) :
    Placed buf (s.rel.page s.blk) s.ended.1 ∧ s.ended.1.bitmapNext = (s.rel.page s.blk).bitmapNext ∧
      s.buf.startWordno + s.ended.2 = buf.curword ∧
      pageCells s.ended.1 = pageCells (s.rel.page s.blk) ++ s.buf.rest := by
  have hnot : ¬ hrlWordsPerPage - (s.rel.page s.blk).hrlWordsUsed < s.buf.curword - s.buf.startWordno :=
    of_decide_eq_false hfits
  have hcur : s.buf.curword = buf.curword := by rw [hbuffer]
  have hh : s.buf.hwords = buf.hwords := by rw [hbuffer]
  have hc : s.buf.cwords = buf.cwords := by rw [hbuffer]
  have ht : s.buf.lastTids = buf.lastTids := by rw [hbuffer]
  unfold WriteState.ended
  split
  · next hlt =>
    have hn : wordsWritten (s.rel.page s.blk) s.buf = s.buf.curword - s.buf.startWordno :=
      min_eq_left (Nat.le_of_not_lt hnot)
    have hcells := writeBitmapwords_cells hopen (show 0 < wordsWritten (s.rel.page s.blk) s.buf by omega)
    rw [hn] at hcells
    refine ⟨⟨s.buf.startWordno, s.buf.curword - s.buf.startWordno, hstart, by omega, by rw [hcells, hh, hc], ?_⟩, rfl,
      ?_, hcells⟩
    · rw [if_neg (by omega), ← ht, ← hn]
      rfl
    · show s.buf.startWordno + wordsWritten (s.rel.page s.blk) s.buf = _
      omega
  · have hzero : s.buf.curword - s.buf.startWordno = 0 := by omega
    refine ⟨⟨s.buf.startWordno, 0, hstart, by omega, (append_nil _).symm, rfl⟩, rfl, ?_, ?_⟩
    · dsimp only
      omega
    · rw [TidBuffer.rest, hzero]
      exact (append_nil _).symm

/-! ### Appending words -/

/-- What a call leaves behind: the pages `pre` as they were, then the pages it filled, from `first` on, and the tail. -/
structure Appended (rel : Relation) (lov : Nat × Nat) (buf : TidBuffer) (pre post : List Nat) (first : Nat)
    (old : List Cell) (filled : List Nat) (out : Relation × TidBuffer) : Prop where
  chain : Chain out.1.page (out.1.lov lov).lovHead
    (pre ++ filled ++ (out.1.lov lov).lovTail :: if filled = [] then post else [])
  words : chainCells out.1.page (pre ++ filled ++ (out.1.lov lov).lovTail :: if filled = [] then post else []) =
    old ++ buf.rest
  first : (filled ++ [(out.1.lov lov).lovTail]).head? = some first
  front : ∀ b ∈ pre, out.1.page b = rel.page b
  full : ∀ b ∈ filled, (out.1.page b).hrlWordsUsed = hrlWordsPerPage
  placed : ∀ b ∈ filled ++ [(out.1.lov lov).lovTail], Placed buf (rel.oldPage b) (out.1.page b)
  done : out.2.startWordno = buf.curword

theorem Appending.last {old : List Cell} (h : Appending rel buf lov pre post first filled s) (hfits : overflows s = false)
    (hold : PagesHold (writeLast lov s).1.toIndex lov (old ++ buf.rest)) :
    Appended rel lov buf pre post first old filled (writeLast lov s) := by
  obtain ⟨⟨head, hpages, hhead⟩, -, -, hfirst, hfront, hcurrent, hfull, hplaced, hbuffer, hstart⟩ := h
  obtain ⟨hput, hnext, hdone, -⟩ := ended_placed hpages.openTail hfits hbuffer hstart.1 hstart.2
  have hsame (b : Nat) (hb : b ≠ s.blk) : (writeLast lov s).1.page b = s.rel.page b := by
    rw [writeLast_page]
    exact if_neg hb
  have hblk : (writeLast lov s).1.page s.blk = s.ended.1 := by
    rw [writeLast_page]
    exact if_pos rfl
  have hhead' : ((writeLast lov s).1.lov lov).lovHead = head := by
    rw [writeLast_head]
    rcases hhead with hh | ⟨hnone, hh⟩
    · rw [if_neg (hh ▸ hpages.head_ne)]
      exact hh
    · rw [if_pos hnone, hh]
  have hchain : Chain (writeLast lov s).1.page ((writeLast lov s).1.lov lov).lovHead
      (pre ++ filled ++ ((writeLast lov s).1.lov lov).lovTail :: if filled = [] then post else []) := by
    rw [hhead', writeLast_tail]
    obtain ⟨-, hne, hrest⟩ := hpages.chain.suffix.cons_inv
    refine hpages.chain.relink (fun b hb => hsame b (hpages.pre_ne b hb)) (.page hne ?_)
    rw [hblk, hnext]
    exact hrest.congr fun b hb => hsame b (hpages.post_ne b hb)
  refine ⟨hchain, ?_, ?_, fun b hb => ?_, fun b hb => ?_, fun b hb => ?_, hdone⟩
  · obtain ⟨blocks, hblocks, hcells⟩ := hold.chain
    rw [hchain.unique hblocks]
    exact hcells
  · rw [writeLast_tail]
    exact hfirst
  · rw [hsame b (hpages.pre_ne b (mem_append_left _ hb))]
    exact hfront b hb
  · rw [hsame b (hpages.pre_ne b (mem_append_right _ hb))]
    exact hfull b hb
  · rw [writeLast_tail] at hb
    rcases mem_append.mp hb with hb | hb
    · rw [hsame b (hpages.pre_ne b (mem_append_right _ hb))]
      exact hplaced b hb
    · rw [mem_singleton.mp hb, hblk, ← hcurrent]
      exact hput

/-- The loop fills pages until the words that are left fit. -/
theorem Appending.run (h : Appending rel buf lov pre post first [] s) (hbuf : s.buf = buf) :
    ∃ filled, Appending rel buf lov pre post first filled (Loop.whileN overflows (writePass lov) (buf.curword + 1) s) ∧
      overflows (Loop.whileN overflows (writePass lov) (buf.curword + 1) s) = false := by
  have hmeasure : writeMeasure s ≤ buf.curword + 1 := by
    rw [writeMeasure, hbuf]
    split <;> omega
  obtain ⟨⟨filled, hfill⟩, hfits⟩ := Loop.whileN_of_invariant
    (fun s => ∃ filled, Appending rel buf lov pre post first filled s) writeMeasure (fun t ht hover => by
      obtain ⟨filled, ht⟩ := ht
      exact ⟨⟨_, (ht.step hover).1⟩, (ht.step hover).2⟩) s ⟨[], h⟩ (buf.curword + 1) hmeasure
  exact ⟨filled, hfill, hfits⟩

/-- **`_bitmap_write_new_bitmapwords` appends the words of the buffer** to a vector, whether it has pages or not. -/
theorem writeNew_appended (rel : Relation) (lov : Nat × Nat) (buf : TidBuffer) (hstart : buf.startWordno ≤ buf.curword)
    (hroom : rel.nblocks + (buf.curword - buf.startWordno) + 2 < invalidBlockNumber) :
    ((rel.lov lov).lovHead = invalidBlockNumber →
      ∃ filled, Appended rel lov buf [] [] rel.nblocks [] filled (writeNewBitmapwords rel lov buf)) ∧
    ∀ pre post, Pages rel.toIndex (rel.lov lov).lovHead pre (rel.lov lov).lovTail post →
      ∃ filled, Appended rel lov buf pre post (rel.lov lov).lovTail
        (chainCells rel.page (pre ++ (rel.lov lov).lovTail :: post)) filled (writeNewBitmapwords rel lov buf) := by
  have hmeasure (s : WriteState) (hbuf : s.buf = buf) : writeMeasure s ≤ buf.curword - buf.startWordno + 1 := by
    rw [writeMeasure, hbuf]
    split <;> omega
  constructor
  · intro hnone
    have hold := writeNew_pages (show PagesHold rel.toIndex lov [] from .inl ⟨hnone, rfl⟩) hroom
    have hstate : writeNewBitmapwords rel lov buf =
        writeLast lov (Loop.whileN overflows (writePass lov) (buf.curword + 1)
          ⟨rel.newPage, buf, rel.nblocks, false⟩) := by
      simp only [writeNewBitmapwords]
      rw [if_neg (not_not_intro hnone)]
    have hpage : rel.newPage.page rel.nblocks = emptyPage := rel.setPage_page_self rel.nblocks emptyPage
    have hm := hmeasure ⟨rel.newPage, buf, rel.nblocks, false⟩ rfl
    have hfill : Appending rel buf lov [] [] rel.nblocks [] ⟨rel.newPage, buf, rel.nblocks, false⟩ := by
      refine ⟨⟨rel.nblocks, ⟨?_, fun b hb => ?_, ?_, by simp⟩, .inr ⟨hnone, rfl⟩⟩, ?_, Nat.le_succ _, rfl, by simp, ?_,
        by simp,
        by simp, rfl, le_refl _, hstart⟩
      · exact .single rfl (show rel.nblocks ≠ _ by omega) (by rw [hpage]; rfl)
      · rw [append_nil, nil_append, if_pos rfl, mem_singleton] at hb
        rw [hb]
        exact Nat.lt_succ_self _
      · rw [hpage]
        exact emptyPage_open
      · show rel.nblocks + 1 + _ < _
        omega
      · rw [Relation.oldPage, if_neg (lt_irrefl _)]
        exact hpage
    obtain ⟨filled, hrun, hfits⟩ := hfill.run rfl
    rw [hstate] at hold ⊢
    exact ⟨filled, hrun.last hfits hold⟩
  · intro pre post hpages
    have hold := writeNew_pages (.inr ⟨pre, post, hpages, rfl⟩) hroom
    have hstate : writeNewBitmapwords rel lov buf =
        writeLast lov (Loop.whileN overflows (writePass lov) (buf.curword + 1)
          ⟨rel, buf, (rel.lov lov).lovTail, false⟩) := by
      simp only [writeNewBitmapwords]
      rw [if_pos hpages.head_ne]
    have hm := hmeasure ⟨rel, buf, (rel.lov lov).lovTail, false⟩ rfl
    have hfill : Appending rel buf lov pre post (rel.lov lov).lovTail [] ⟨rel, buf, (rel.lov lov).lovTail, false⟩ := by
      refine ⟨⟨_, by rw [append_nil, if_pos rfl]; exact hpages, .inl rfl⟩, ?_, le_refl _, rfl, fun _ _ => rfl,
        ?_,
        by simp, by simp, rfl, le_refl _, hstart⟩
      · show rel.nblocks + _ < _
        omega
      · rw [Relation.oldPage, if_pos hpages.tail_lt]
    obtain ⟨filled, hrun, hfits⟩ := hfill.run rfl
    rw [hstate] at hold ⊢
    exact ⟨filled, hrun.last hfits hold⟩

end

/-- A vector with one word on its first page and none on its last one. -/
def sparse : Relation :=
  { nblocks := 2
    page := fun b => if b = 0 then {emptyPage with hrlWordsUsed := 1, bitmapNext := 1} else emptyPage
    lov := fun _ =>
      { lovHead := 0, lovTail := 1, lastCompword := 0, lastWord := 0, lastTidLocation := 0, lastSetbit := 0
        wordsHeader := 0 }
    useWal := false
    stack :=
      { lov := (0, 0), firstBlkno := 0, firstCwords := fun _ => 0, firstHwords := fun _ => 0, firstLastTid := 0
        firstNumCwords := 0, secondBlkno := 0, secondCwords := fun _ => 0, secondHwords := fun _ => 0
        secondLastTid := 0, secondNumCwords := 0, twoPages := false, nextBlkno := 0, newLastpage := false }
    wal := [] }

theorem sparse_pages : Pages sparse.toIndex 0 [0] 1 [] :=
  ⟨.page (by decide) (.page (by decide) .done), by decide, emptyPage_open, nofun⟩

theorem sparse_appended : ∃ filled, Appended sparse (0, 0) {zeroBuffer with curword := 1} [0] [] 1
    (chainCells sparse.page [0, 1]) filled (writeNewBitmapwords sparse (0, 0) {zeroBuffer with curword := 1}) :=
  (writeNew_appended sparse (0, 0) {zeroBuffer with curword := 1} (by decide) (by decide)).2 [0] [] sparse_pages

/-- The call does not fill the pages ahead of the tail. -/
theorem sparse_not_full :
    Chain (writeNewBitmapwords sparse (0, 0) zeroBuffer).1.page
        ((writeNewBitmapwords sparse (0, 0) zeroBuffer).1.lov (0, 0)).lovHead [0, 1] ∧
      ((writeNewBitmapwords sparse (0, 0) zeroBuffer).1.page 0).hrlWordsUsed ≠ hrlWordsPerPage :=
  ⟨.page (by decide) (.page (by decide) .done), by decide⟩

end PgStorage.Hrl
