import PgStorage.Hrl.SetBit

/-! `updatesetbit_inpage` on a chain of pages.

A page that has no room for the words of a split run gives the words beyond its end to the next page, or to a new one put
behind it. Each page's end stays the number of bits up to there. -/
namespace PgStorage.Hrl
open List
open BitVec (toNat_sub ofNat toNat_add toNat_ofNat le_def isLt)
open Relation (log_toIndex)

section
variable {p : BMPage} {base : Nat} {first tidnum : BitVec 64} {wordNo : Nat} {bitNo : BitVec 64}

def foundCell (p : BMPage) (wordNo : Nat) : Cell := ⟨isFillWord p.hwords wordNo, p.cwords wordNo⟩

/-- The number of words in front of the word found. -/
def wordsBefore (p : BMPage) (base wordNo : Nat) : Nat := base + (expand (cellsBefore p wordNo)).length

section
variable (h : Found p base tidnum wordNo bitNo)
include h

theorem Found.low' : 16 * wordsBefore p base wordNo < tidnum.toNat := h.low

theorem Found.high' :
    tidnum.toNat ≤ 16 * (wordsBefore p base wordNo + (foundCell p wordNo).words.length) := by
  have hhigh := h.high
  rw [cellsBefore_succ, expand_append, expand_cons, expand_nil, append_nil, length_append] at hhigh
  rw [wordsBefore, add_assoc]
  exact hhigh

/-- What replaces the word found. -/
theorem Found.expand_set {ds : List Cell}
    (hds : expand ds = setBit (foundCell p wordNo).words (tidnum.toNat - 16 * wordsBefore p base wordNo)) :
    expand (cellsBefore p wordNo ++ ds ++ cellsFrom p (wordNo + 1)) =
      setBit (expand (pageCells p)) (tidnum.toNat - 16 * base) := by
  have hlow := h.low'
  have hhigh := h.high'
  unfold wordsBefore at hlow hhigh hds
  have hwords : expand (pageCells p) = expand (cellsBefore p wordNo) ++ (foundCell p wordNo).words ++
      expand (cellsFrom p (wordNo + 1)) := by
    rw [pageCells_split h.inside, expand_append, expand_cons, append_assoc]
    rfl
  rw [hwords, setBit_append (by omega) (by omega), expand_append, expand_append, hds,
    show tidnum.toNat - 16 * base - 16 * (expand (cellsBefore p wordNo)).length =
      tidnum.toNat - 16 * (base + (expand (cellsBefore p wordNo)).length) by omega]

theorem Found.literal (hfill : isFillWord p.hwords wordNo = false) :
    expand [⟨false, p.cwords wordNo ||| (1 : Word) <<< ((tidnum - 1) % 16).toNat⟩] =
      setBit (foundCell p wordNo).words (tidnum.toNat - 16 * wordsBefore p base wordNo) := by
  have hlow := h.low'
  have hhigh := h.high'
  have hwords : (foundCell p wordNo).words = [p.cwords wordNo] := by rw [foundCell, hfill]; rfl
  rw [hwords] at hhigh ⊢
  have h1 : (1 : BitVec 64).toNat = 1 := rfl
  have h16 : (16 : BitVec 64).toNat = 16 := rfl
  have hbit : ((tidnum - 1) % 16).toNat = (tidnum.toNat - 1) % 16 := by
    rw [BitVec.toNat_umod, toNat_sub, h1, h16]
    omega
  rw [setBit_literal _ hlow hhigh, hbit]
  rfl

end

theorem Found.ones (hfill : isFillWord p.hwords wordNo = true) (hbit : fillBit (p.cwords wordNo) = 1) (t : Nat) :
    expand [foundCell p wordNo] = setBit (foundCell p wordNo).words t := by
  have hwords : (foundCell p wordNo).words = replicate (fillLength (p.cwords wordNo)) literalAllOne := by
    rw [foundCell, hfill, Cell.words, if_pos rfl, if_pos hbit]
  rw [expand_cons, expand_nil, append_nil, hwords, setBit_ones]

/-- The place of the bit in a run. -/
theorem Found.loc (h : Found p base tidnum wordNo bitNo) (hfirst : first.toNat = 16 * base + 1)
    (hfill : isFillWord p.hwords wordNo = true) :
    (tidnum - (first + bitNo - ofNat 64 (fillLength (p.cwords wordNo) * 16))).toNat =
        tidnum.toNat - 16 * wordsBefore p base wordNo - 1 ∧
      tidnum.toNat - 16 * wordsBefore p base wordNo - 1 < 16 * fillLength (p.cwords wordNo) := by
  have hlow := h.low'
  have hhigh := h.high'
  have hbits := h.bits
  have hlen : (foundCell p wordNo).words.length = fillLength (p.cwords wordNo) := by
    rw [foundCell, hfill, Cell.words, if_pos rfl, length_replicate]
  rw [cellsBefore_succ, expand_append, expand_cons, expand_nil, append_nil, length_append] at hbits
  change bitNo.toNat = 16 * ((expand (cellsBefore p wordNo)).length + (foundCell p wordNo).words.length) at hbits
  rw [hlen] at hhigh hbits
  have hfl := fillLength_lt (p.cwords wordNo)
  have htid := tidnum.isLt
  have hbn := bitNo.isLt
  have hstart : (first + bitNo - ofNat 64 (fillLength (p.cwords wordNo) * 16)).toNat =
      16 * wordsBefore p base wordNo + 1 := by
    rw [toNat_sub, toNat_add, toNat_ofNat, hfirst, hbits, wordsBefore]
    unfold wordsBefore at hlow
    omega
  constructor
  · rw [toNat_sub, hstart]
    omega
  · omega

theorem Found.zeros (h : Found p base tidnum wordNo bitNo) (hfirst : first.toNat = 16 * base + 1)
    (hfill : isFillWord p.hwords wordNo = true) (hbit : fillBit (p.cwords wordNo) ≠ 1) :
    expand (splitCells (fillLength (p.cwords wordNo)) (tidnum.toNat - 16 * wordsBefore p base wordNo - 1)) =
      setBit (foundCell p wordNo).words (tidnum.toNat - 16 * wordsBefore p base wordNo) := by
  obtain ⟨-, hloc⟩ := h.loc hfirst hfill
  have hlow := h.low'
  have hwords : (foundCell p wordNo).words = replicate (fillLength (p.cwords wordNo)) 0 := by
    rw [foundCell, hfill, Cell.words, if_pos rfl, if_neg hbit]
    rfl
  rw [hwords, expand_splitCells (Nat.le_of_lt_succ (fillLength_lt _)) hloc, ← setBit_zeros hloc]
  congr 1
  omega

end

/-! ### Splitting a run -/

theorem splitCells_cons (len loc : Nat) :
    ∃ d ds, splitCells len loc = d :: ds ∧ d.fill = decide (16 ≤ loc) ∧ (ds = [] → d.fill = false) := by
  unfold splitCells
  by_cases hlong : 16 ≤ loc
  · rw [if_pos hlong]
    exact ⟨_, _, rfl, (decide_eq_true hlong).symm, fun hc => absurd hc (cons_ne_nil _ _)⟩
  · rw [if_neg hlong]
    exact ⟨_, _, rfl, (decide_eq_false hlong).symm, fun _ => rfl⟩

/-- The first page of a split and the words left over. -/
structure SplitFirst (p : BMPage) (cs : List Cell) (extra : Nat) (q : BMPage) (rest : TidBuffer) : Prop where
  cells : pageCells q ++ rest.bufCells = cs
  used : q.hrlWordsUsed = min (p.hrlWordsUsed + extra) hrlWordsPerPage
  left : rest.curword = p.hrlWordsUsed + extra - hrlWordsPerPage
  next : q.bitmapNext = p.bitmapNext
  tid : q.lastTidLocation = p.lastTidLocation - ofNat 64 (16 * (expand rest.bufCells).length)

theorem splitFirst_cells {p : BMPage} {wordNo : Nat} {literalFirst : Bool} {new : TidBuffer} {d : Cell} {ds : List Cell}
    (hsize : p.hrlWordsUsed ≤ hrlWordsPerPage) (hlt : wordNo < p.hrlWordsUsed) (hfill : isFillWord p.hwords wordNo = true)
    (hnew : new.bufCells = d :: ds) (hk : new.curword ≤ 16) (hd : d.fill = !literalFirst) :
    SplitFirst p (cellsBefore p wordNo ++ d :: ds ++ cellsFrom p (wordNo + 1)) ds.length
      (splitFirst p wordNo literalFirst new).1 (splitFirst p wordNo literalFirst new).2 := by
  obtain ⟨hdrop, hcur, hcell⟩ := dropFirst_cells hnew hk
  obtain ⟨p1, hp1, hat, hnext, htid⟩ : ∃ p1 : BMPage,
      (if literalFirst then (p.setWord wordNo (new.cwords 0)).clearBit wordNo else p.setWord wordNo (new.cwords 0)) = p1 ∧
        WordAt p p1 wordNo d ∧ p1.bitmapNext = p.bitmapNext ∧ p1.lastTidLocation = p.lastTidLocation := by
    cases literalFirst with
    | true =>
      refine ⟨_, rfl, ?_, rfl, rfl⟩
      have hat := wordAt_clearBit p wordNo (new.cwords 0)
      rw [show d = ⟨false, new.cwords 0⟩ by rw [hcell] at hd ⊢; rw [show isFillWord new.hwords 0 = false from hd]]
      exact hat
    | false =>
      refine ⟨_, rfl, ?_, rfl, rfl⟩
      have hat := wordAt_setWord p wordNo (new.cwords 0)
      rw [show d = ⟨true, new.cwords 0⟩ by rw [hcell] at hd ⊢; rw [show isFillWord new.hwords 0 = true from hd]]
      rw [hfill] at hat
      exact hat
  have hshort : new.dropFirst.curword ≤ 16 := le_trans (Nat.sub_le ..) hk
  have hpos : wordNo + 1 ≤ p1.hrlWordsUsed := by rw [hat.used]; exact hlt
  obtain ⟨hcells, hused, hleft⟩ := pageInsert p1 (wordNo + 1) new.dropFirst (bufExtend zeroBuffer)
    (by rw [hat.used]; exact hsize) hpos hshort
  have hdef : splitFirst p wordNo literalFirst new =
      ({p1.setBuffer (insertNewwords (pageBuffer p1) (wordNo + 1) new.dropFirst (bufExtend zeroBuffer)).1 with
        lastTidLocation := p1.lastTidLocation -
          getnumbits (insertNewwords (pageBuffer p1) (wordNo + 1) new.dropFirst (bufExtend zeroBuffer)).2.cwords
            (insertNewwords (pageBuffer p1) (wordNo + 1) new.dropFirst (bufExtend zeroBuffer)).2.hwords
            (insertNewwords (pageBuffer p1) (wordNo + 1) new.dropFirst (bufExtend zeroBuffer)).2.curword},
        (insertNewwords (pageBuffer p1) (wordNo + 1) new.dropFirst (bufExtend zeroBuffer)).2) := by
    rw [← hp1]
    rfl
  rw [hat.used, hcur] at hused hleft
  rw [hdef]
  generalize insertNewwords (pageBuffer p1) (wordNo + 1) new.dropFirst (bufExtend zeroBuffer) = out at hcells hused hleft
  refine ⟨?_, hused, hleft, hnext, ?_⟩
  · refine hcells.trans ?_
    rw [cellsBefore_succ, hat.before, hat.cell, hat.behind, hdrop, append_assoc, append_assoc, append_assoc]
    rfl
  · show p1.lastTidLocation - _ = _
    rw [htid, getnumbits_eq]
    rfl

/-- The words left over go to the front of a page with room for them. -/
theorem insertFront_cells (q : BMPage) {rest : TidBuffer} (hk : rest.curword ≤ 16)
    (hroom : q.hrlWordsUsed + rest.curword ≤ hrlWordsPerPage) :
    let out := if 0 < rest.curword then q.setBuffer (insertNewwords (pageBuffer q) 0 rest zeroBuffer).1 else q
    pageCells out = rest.bufCells ++ pageCells q ∧ out.hrlWordsUsed = q.hrlWordsUsed + rest.curword ∧
      out.bitmapNext = q.bitmapNext ∧ out.lastTidLocation = q.lastTidLocation := by
  intro out
  by_cases hany : 0 < rest.curword
  · rw [show out = _ from if_pos hany]
    obtain ⟨hcells, hused, hleft⟩ := pageInsert q 0 rest zeroBuffer (by omega) (Nat.zero_le _) hk
    have hnone : (insertNewwords (pageBuffer q) 0 rest zeroBuffer).2.bufCells = [] := by
      rw [TidBuffer.bufCells, hleft, show q.hrlWordsUsed + rest.curword - hrlWordsPerPage = 0 by omega, cells]
    rw [hnone, append_nil] at hcells
    exact ⟨hcells, hused.trans (min_eq_left hroom), rfl, rfl⟩
  · have hzero : rest.curword = 0 := by omega
    rw [show out = q from if_neg hany]
    refine ⟨?_, by rw [hzero, add_zero], rfl, rfl⟩
    rw [TidBuffer.bufCells, hzero, cells, nil_append]

theorem splitSecond_cells (q first : BMPage) (newPage : Bool) (rest : TidBuffer) (hk : rest.curword ≤ 16)
    (hroom : q.hrlWordsUsed + rest.curword ≤ hrlWordsPerPage) :
    pageCells (splitSecond q newPage first rest) = rest.bufCells ++ pageCells q ∧
      (splitSecond q newPage first rest).hrlWordsUsed = q.hrlWordsUsed + rest.curword ∧
      (splitSecond q newPage first rest).bitmapNext = (if newPage then first.bitmapNext else q.bitmapNext) ∧
      (splitSecond q newPage first rest).lastTidLocation =
        (if newPage then first.lastTidLocation else q.lastTidLocation) := by
  cases newPage with
  | true =>
    exact insertFront_cells {q with lastTidLocation := first.lastTidLocation, bitmapNext := first.bitmapNext} hk hroom
  | false => exact insertFront_cells q hk hroom

def chainWords (page : Nat → BMPage) (blocks : List Nat) : List Word := expand (chainCells page blocks)

/-- The end of each page is the number of bits up to there, where the first page comes behind `n` words. -/
def EndsFrom (page : Nat → BMPage) : Nat → List Nat → Prop
  | _, [] => True
  | n, b :: bs =>
    (page b).lastTidLocation.toNat = 16 * (n + (expand (pageCells (page b))).length) ∧
      EndsFrom page (n + (expand (pageCells (page b))).length) bs

/-- A well-formed chain of pages. -/
structure Paged (idx : Index) (head : Nat) (blocks : List Nat) : Prop where
  chain : Chain idx.page head blocks
  inside : ∀ b ∈ blocks, b < idx.nblocks
  size : ∀ b ∈ blocks, (idx.page b).hrlWordsUsed ≤ hrlWordsPerPage
  ends : EndsFrom idx.page 0 blocks

section
variable {page page' : Nat → BMPage}

theorem chainWords_cons (page : Nat → BMPage) (b : Nat) (bs : List Nat) :
    chainWords page (b :: bs) = expand (pageCells (page b)) ++ chainWords page bs := by
  rw [chainWords, chainWords, chainCells, flatMap_cons, expand_append]
  rfl

theorem chainWords_append (page : Nat → BMPage) (bs cs : List Nat) :
    chainWords page (bs ++ cs) = chainWords page bs ++ chainWords page cs := by
  rw [chainWords, chainCells_append, expand_append]
  rfl

theorem chainWords_congr {blocks : List Nat} (h : ∀ b ∈ blocks, page' b = page b) :
    chainWords page' blocks = chainWords page blocks := by
  rw [chainWords, chainCells_congr fun b hb => congrArg pageCells (h b hb)]
  rfl

theorem endsFrom_append (n : Nat) (bs cs : List Nat) :
    EndsFrom page n (bs ++ cs) ↔ EndsFrom page n bs ∧ EndsFrom page (n + (chainWords page bs).length) cs := by
  induction bs generalizing n with
  | nil => exact ⟨fun h => ⟨trivial, h⟩, fun h => h.2⟩
  | cons b bs ih =>
    rw [cons_append, EndsFrom, EndsFrom, ih, and_assoc, chainWords_cons, length_append, add_assoc]

theorem EndsFrom.congr {n : Nat} {bs : List Nat} (h : EndsFrom page n bs) (hsame : ∀ b ∈ bs, page' b = page b) :
    EndsFrom page' n bs := by
  induction bs generalizing n with
  | nil => exact h
  | cons b bs ih =>
    obtain ⟨hend, hrest⟩ := h
    rw [EndsFrom, hsame b mem_cons_self]
    exact ⟨hend, ih hrest fun c hc => hsame c (mem_cons_of_mem _ hc)⟩

/-! ### Finding the page -/

theorem findbitmappageFrom_spec {rel : Relation} {tidnum : BitVec 64} {head : Nat} {blocks : List Nat}
    (hchain : Chain rel.page head blocks) {n : Nat} (hends : EndsFrom rel.page n blocks) {first : BitVec 64}
    (hfirst : first.toNat = 16 * n + 1) (hlow : 16 * n < tidnum.toNat)
    (hhigh : tidnum.toNat ≤ 16 * (n + (chainWords rel.page blocks).length)) {fuel : Nat} (hfuel : blocks.length ≤ fuel) :
    ∃ pre blk post, ∃ first' : BitVec 64, blocks = pre ++ blk :: post ∧
      findbitmappageFrom rel tidnum fuel head first = some (blk, first') ∧
      first'.toNat = 16 * (n + (chainWords rel.page pre).length) + 1 ∧
      16 * (n + (chainWords rel.page pre).length) < tidnum.toNat ∧
      tidnum.toNat ≤ 16 * (n + (chainWords rel.page pre).length + (expand (pageCells (rel.page blk))).length) := by
  induction hchain generalizing n first fuel with
  | done =>
    rw [show chainWords rel.page [] = [] from rfl, length_nil] at hhigh
    omega
  | @page b bs hne hrest ih =>
    obtain ⟨fuel, rfl⟩ : ∃ f, fuel = f + 1 := ⟨fuel - 1, by rw [length_cons] at hfuel; omega⟩
    obtain ⟨hend, hends⟩ := hends
    rw [chainWords_cons, length_append] at hhigh
    rw [findbitmappageFrom, if_neg hne]
    by_cases hhere : tidnum ≤ (rel.page b).lastTidLocation
    · rw [if_pos hhere]
      rw [le_def, hend] at hhere
      exact ⟨[], b, bs, first, rfl, rfl, hfirst, hlow, hhere⟩
    · rw [if_neg hhere]
      rw [le_def, hend] at hhere
      have hnext : ((rel.page b).lastTidLocation + 1).toNat = 16 * (n + (expand (pageCells (rel.page b))).length) + 1 := by
        have h1 : (1 : BitVec 64).toNat = 1 := rfl
        have htid := tidnum.isLt
        rw [toNat_add, hend, h1]
        omega
      obtain ⟨pre, blk, post, first', rfl, hfind, hf, hl, hh⟩ := ih hends hnext (by omega) (by omega)
        (Nat.le_of_succ_le_succ hfuel)
      refine ⟨b :: pre, blk, post, first', rfl, hfind, ?_⟩
      rw [chainWords_cons, length_append, ← add_assoc]
      exact ⟨hf, hl, hh⟩

end

section
variable {idx idx' : Index} {head blk : Nat} {pre post post' : List Nat}

theorem Paged.length_le {blocks : List Nat} (h : Paged idx head blocks) : blocks.length ≤ idx.nblocks := by
  have hsub : blocks ⊆ range idx.nblocks := fun b hb => mem_range.mpr (h.inside b hb)
  have hle := (h.chain.nodup.subperm hsub).length_le
  rwa [length_range] at hle

/-- The part of a chain from a block on is replaced. -/
theorem Paged.replace (h : Paged idx head (pre ++ blk :: post)) (hpre : ∀ b ∈ pre, idx'.page b = idx.page b)
    (hn : idx.nblocks ≤ idx'.nblocks) (hchain : Chain idx'.page blk (blk :: post'))
    (hinside : ∀ b ∈ post', b < idx'.nblocks)
    (hsize : ∀ b ∈ blk :: post', (idx'.page b).hrlWordsUsed ≤ hrlWordsPerPage)
    (hends : EndsFrom idx'.page (chainWords idx.page pre).length (blk :: post')) : Paged idx' head (pre ++ blk :: post') := by
  refine ⟨h.chain.relink hpre hchain, ?_, ?_, ?_⟩
  · intro b hb
    rcases mem_append.mp hb with hb | hb
    · exact lt_of_lt_of_le (h.inside b (mem_append_left _ hb)) hn
    · rcases mem_cons.mp hb with rfl | hb
      · exact lt_of_lt_of_le (h.inside b (mem_append_right _ mem_cons_self)) hn
      · exact hinside b hb
  · intro b hb
    rcases mem_append.mp hb with hb | hb
    · rw [hpre b hb]
      exact h.size b (mem_append_left _ hb)
    · exact hsize b hb
  · have hold := ((endsFrom_append ..).mp h.ends).1
    refine (endsFrom_append ..).mpr ⟨hold.congr hpre, ?_⟩
    rw [chainWords_congr hpre, zero_add]
    exact hends

/-- What follows a block of a well-formed chain. -/
structure Suffix (idx : Index) (n blk : Nat) (post : List Nat) : Prop where
  block : blk ≠ invalidBlockNumber
  tid : (idx.page blk).lastTidLocation.toNat = 16 * (n + (expand (pageCells (idx.page blk))).length)
  size : (idx.page blk).hrlWordsUsed ≤ hrlWordsPerPage
  next : Chain idx.page (idx.page blk).bitmapNext post
  ends : EndsFrom idx.page (n + (expand (pageCells (idx.page blk))).length) post
  other : ∀ b ∈ post, b ≠ blk

theorem Paged.suffix (h : Paged idx head (pre ++ blk :: post)) :
    Suffix idx (chainWords idx.page pre).length blk post := by
  obtain ⟨-, hne, hnext⟩ := h.chain.suffix.cons_inv
  obtain ⟨-, hend, hends⟩ := (endsFrom_append ..).mp h.ends
  rw [zero_add] at hend hends
  refine ⟨hne, hend, h.size blk (mem_append_right _ mem_cons_self), hnext, hends, fun b hb heq => ?_⟩
  have hnodup := (nodup_append.mp h.chain.nodup).2.1
  exact (nodup_cons.mp hnodup).1 (heq ▸ hb)

theorem Paged.pre_ne (h : Paged idx head (pre ++ blk :: post)) : ∀ b ∈ pre, b ≠ blk ∧ b ∉ post := by
  intro b hb
  have hnodup := (nodup_append.mp h.chain.nodup).2.2
  exact ⟨fun heq => hnodup b hb blk mem_cons_self heq, fun hc => hnodup b hb b (mem_cons_of_mem _ hc) rfl⟩

/-- A page replaced by one with as many words. -/
theorem Paged.onePage (h : Paged idx head (pre ++ blk :: post)) {q : BMPage}
    (hpage : idx'.page = fun i => if i = blk then q else idx.page i) (hn : idx'.nblocks = idx.nblocks)
    (hsize : q.hrlWordsUsed ≤ hrlWordsPerPage) (hnext : q.bitmapNext = (idx.page blk).bitmapNext)
    (htid : q.lastTidLocation = (idx.page blk).lastTidLocation)
    (hlen : (expand (pageCells q)).length = (expand (pageCells (idx.page blk))).length) :
    Paged idx' head (pre ++ blk :: post) ∧
      chainWords idx'.page (pre ++ blk :: post) =
        chainWords idx.page pre ++ expand (pageCells q) ++ chainWords idx.page post := by
  have hs := h.suffix
  have hself : idx'.page blk = q := by rw [hpage]; exact if_pos rfl
  have hpost : ∀ b ∈ post, idx'.page b = idx.page b := fun b hb => by rw [hpage]; exact if_neg (hs.other b hb)
  have hpre : ∀ b ∈ pre, idx'.page b = idx.page b := fun b hb => by rw [hpage]; exact if_neg (h.pre_ne b hb).1
  constructor
  · refine h.replace hpre (le_of_eq hn.symm) (.page hs.block ?_) ?_ ?_ ⟨?_, ?_⟩
    · rw [hself, hnext]
      exact hs.next.congr hpost
    · intro b hb
      rw [hn]
      exact h.inside b (mem_append_right _ (mem_cons_of_mem _ hb))
    · intro b hb
      rcases mem_cons.mp hb with rfl | hb
      · rw [hself]
        exact hsize
      · rw [hpost b hb]
        exact h.size b (mem_append_right _ (mem_cons_of_mem _ hb))
    · rw [hself, htid, hlen]
      exact hs.tid
    · rw [hself, hlen]
      exact hs.ends.congr hpost
  · rw [chainWords_append, chainWords_cons, hself, chainWords_congr hpre, chainWords_congr hpost, append_assoc]

/-- The pages behind a page replaced by one page and the rest. -/
structure Spilled (idx idx' : Index) (n : Nat) (blk b : Nat) (rest : List Nat) (q q' : BMPage) : Prop where
  page : idx'.page = fun i => if i = blk then q else if i = b then q' else idx.page i
  grows : idx.nblocks ≤ idx'.nblocks
  inside : b < idx'.nblocks
  block : b ≠ invalidBlockNumber
  other : b ≠ blk
  fresh : b ∉ rest
  next : q.bitmapNext = b
  chain : Chain idx.page q'.bitmapNext rest
  size : q.hrlWordsUsed ≤ hrlWordsPerPage
  size' : q'.hrlWordsUsed ≤ hrlWordsPerPage
  tid : q.lastTidLocation.toNat = 16 * (n + (expand (pageCells q)).length)
  tid' : q'.lastTidLocation.toNat = 16 * (n + (expand (pageCells q)).length + (expand (pageCells q')).length)
  ends : EndsFrom idx.page (n + (expand (pageCells q)).length + (expand (pageCells q')).length) rest

theorem Paged.twoPages {b : Nat} {rest : List Nat} {q q' : BMPage} (h : Paged idx head (pre ++ blk :: post))
    (hs : Spilled idx idx' (chainWords idx.page pre).length blk b rest q q') (hpre : b ∉ pre)
    (hrest : ∀ c ∈ rest, c ∈ post) :
    Paged idx' head (pre ++ blk :: b :: rest) ∧
      chainWords idx'.page (pre ++ blk :: b :: rest) =
        chainWords idx.page pre ++ (expand (pageCells q ++ pageCells q') ++ chainWords idx.page rest) := by
  have hsuffix := h.suffix
  have hself : idx'.page blk = q := by rw [hs.page]; exact if_pos rfl
  have hsecond : idx'.page b = q' := by
    rw [hs.page]
    exact (if_neg hs.other).trans (if_pos rfl)
  have hsame : ∀ c, c ≠ blk → c ≠ b → idx'.page c = idx.page c := fun c h1 h2 => by
    rw [hs.page]
    exact (if_neg h1).trans (if_neg h2)
  have hkeep : ∀ c ∈ pre, idx'.page c = idx.page c := fun c hc =>
    hsame c (h.pre_ne c hc).1 fun heq => hpre (heq ▸ hc)
  have hkeep' : ∀ c ∈ rest, idx'.page c = idx.page c := fun c hc =>
    hsame c (hsuffix.other c (hrest c hc)) fun heq => hs.fresh (heq ▸ hc)
  constructor
  · refine h.replace hkeep hs.grows (.page hsuffix.block ?_) ?_ ?_ ⟨?_, ?_, ?_⟩
    · rw [hself, hs.next]
      refine .page hs.block ?_
      rw [hsecond]
      exact hs.chain.congr hkeep'
    · intro c hc
      rcases mem_cons.mp hc with rfl | hc
      · exact hs.inside
      · exact lt_of_lt_of_le (h.inside c (mem_append_right _ (mem_cons_of_mem _ (hrest c hc)))) hs.grows
    · intro c hc
      rcases mem_cons.mp hc with rfl | hc
      · rw [hself]
        exact hs.size
      · rcases mem_cons.mp hc with rfl | hc
        · rw [hsecond]
          exact hs.size'
        · rw [hkeep' c hc]
          exact h.size c (mem_append_right _ (mem_cons_of_mem _ (hrest c hc)))
    · rw [hself]
      exact hs.tid
    · rw [hself, hsecond]
      exact hs.tid'
    · rw [hself, hsecond]
      exact hs.ends.congr hkeep'
  · rw [chainWords_append, chainWords_cons, chainWords_cons, hself, hsecond, chainWords_congr hkeep, chainWords_congr hkeep',
      expand_append, append_assoc]

end

/-! ### The update -/

/-- What setting a bit of a chain comes to: the blocks stay, or a new one comes behind the page with the bit, and then the
LOV item's tail is the new block if that page was the last. -/
structure BitSet (rel : Relation) (lov : Nat × Nat) (blocks : List Nat) (t blk : Nat) (rel' : Relation)
    (blocks' : List Nat) : Prop where
  paged : Paged rel'.toIndex (rel'.lov lov).lovHead blocks'
  words : chainWords rel'.page blocks' = setBit (chainWords rel.page blocks) t
  blocks : (blocks' = blocks ∧ rel'.lov = rel.lov) ∨
    ∃ pre post, blocks = pre ++ blk :: post ∧ blocks' = pre ++ blk :: rel.nblocks :: post ∧
      rel'.lov = if post = [] then (rel.setLov lov {rel.lov lov with lovTail := rel.nblocks}).lov else rel.lov

section
variable {rel : Relation} {lov : Nat × Nat} {pre post : List Nat} {blk : Nat} {first tidnum : BitVec 64}

/-- The bit in the words of the chain. -/
theorem chainWords_setBit {ws : List Word}
    (hlow : 16 * (chainWords rel.page pre).length < tidnum.toNat)
    (hhigh : tidnum.toNat ≤ 16 * ((chainWords rel.page pre).length + (expand (pageCells (rel.page blk))).length))
    (hws : ws = chainWords rel.page pre ++
      (setBit (expand (pageCells (rel.page blk))) (tidnum.toNat - 16 * (chainWords rel.page pre).length) ++
        chainWords rel.page post)) :
    ws = setBit (chainWords rel.page (pre ++ blk :: post)) tidnum.toNat := by
  rw [chainWords_append, chainWords_cons, ← append_assoc, setBit_append hlow hhigh, hws, append_assoc]

/-- One page changes. -/
theorem bitSet_onePage (h : Paged rel.toIndex (rel.lov lov).lovHead (pre ++ blk :: post))
    (hlow : 16 * (chainWords rel.page pre).length < tidnum.toNat)
    (hhigh : tidnum.toNat ≤ 16 * ((chainWords rel.page pre).length + (expand (pageCells (rel.page blk))).length))
    {q : BMPage} {rel' : Relation} (hrel : rel'.toIndex = (rel.setPage blk q).toIndex)
    (hsize : q.hrlWordsUsed ≤ hrlWordsPerPage) (hnext : q.bitmapNext = (rel.page blk).bitmapNext)
    (htid : q.lastTidLocation = (rel.page blk).lastTidLocation)
    (hset : expand (pageCells q) =
      setBit (expand (pageCells (rel.page blk))) (tidnum.toNat - 16 * (chainWords rel.page pre).length)) :
    BitSet rel lov (pre ++ blk :: post) tidnum.toNat blk rel' (pre ++ blk :: post) := by
  have hlov : rel'.lov = (rel.setPage blk q).lov := congrArg Index.lov hrel
  have hpage : rel'.page = (rel.setPage blk q).page := congrArg Index.page hrel
  have hn : rel'.nblocks = (rel.setPage blk q).nblocks := congrArg Index.nblocks hrel
  obtain ⟨hpaged, hwords⟩ := h.onePage hpage hn hsize hnext htid (by rw [hset, setBit_length])
  refine ⟨by rw [hlov]; exact hpaged, ?_, .inl ⟨rfl, hlov⟩⟩
  refine chainWords_setBit hlow hhigh (hwords.trans ?_)
  rw [hset, append_assoc]

/-- Two pages: the words left over from the first are at the front of the second. -/
theorem bitSet_twoPages {b : Nat} {rest : List Nat} {q q' : BMPage} {rel' : Relation} (cs : List Cell)
    (h : Paged rel.toIndex (rel.lov lov).lovHead (pre ++ blk :: post))
    (hlow : 16 * (chainWords rel.page pre).length < tidnum.toNat)
    (hhigh : tidnum.toNat ≤ 16 * ((chainWords rel.page pre).length + (expand (pageCells (rel.page blk))).length))
    (hs : Spilled rel.toIndex rel'.toIndex (chainWords rel.page pre).length blk b rest q q') (hpre : b ∉ pre)
    (hrest : ∀ c ∈ rest, c ∈ post) (hhead : (rel'.lov lov).lovHead = (rel.lov lov).lovHead)
    (hcells : pageCells q ++ pageCells q' = cs)
    (hset : expand cs ++ chainWords rel.page rest =
      setBit (expand (pageCells (rel.page blk))) (tidnum.toNat - 16 * (chainWords rel.page pre).length) ++
        chainWords rel.page post) :
    Paged rel'.toIndex (rel'.lov lov).lovHead (pre ++ blk :: b :: rest) ∧
      chainWords rel'.page (pre ++ blk :: b :: rest) = setBit (chainWords rel.page (pre ++ blk :: post)) tidnum.toNat := by
  obtain ⟨hpaged, hwords⟩ := h.twoPages hs hpre hrest
  rw [hhead]
  refine ⟨hpaged, chainWords_setBit hlow hhigh (hwords.trans ?_)⟩
  rw [hcells, hset]

variable {wordNo : Nat} {literalFirst : Bool} {new : TidBuffer}

theorem splitWord_onePage (hfit : new.curword - 1 ≤ hrlWordsPerPage - (rel.page blk).hrlWordsUsed) :
    (splitWord rel lov blk wordNo literalFirst new).toIndex =
      (rel.setPage blk (splitFirst (rel.page blk) wordNo literalFirst new).1).toIndex := by
  rw [splitWord]
  dsimp only
  rw [choosePage, if_pos hfit]
  exact log_toIndex ..

theorem splitWord_nextPage (hfull : ¬new.curword - 1 ≤ hrlWordsPerPage - (rel.page blk).hrlWordsUsed)
    (hnext : (rel.page blk).bitmapNext ≠ invalidBlockNumber ∧
      new.curword - 1 ≤ hrlWordsPerPage - (rel.page (rel.page blk).bitmapNext).hrlWordsUsed) :
    (splitWord rel lov blk wordNo literalFirst new).toIndex =
      ((rel.setPage (rel.page blk).bitmapNext (splitSecond (rel.page (rel.page blk).bitmapNext) false (rel.page blk)
        (splitFirst (rel.page blk) wordNo literalFirst new).2)).setPage blk
          (splitFirst (rel.page blk) wordNo literalFirst new).1).toIndex := by
  rw [splitWord]
  dsimp only
  rw [choosePage, if_neg hfull]
  dsimp only
  rw [if_pos hnext]
  exact log_toIndex ..

theorem splitWord_newPage (hfull : ¬new.curword - 1 ≤ hrlWordsPerPage - (rel.page blk).hrlWordsUsed)
    (hnext : ¬((rel.page blk).bitmapNext ≠ invalidBlockNumber ∧
      new.curword - 1 ≤ hrlWordsPerPage - (rel.page (rel.page blk).bitmapNext).hrlWordsUsed)) :
    (splitWord rel lov blk wordNo literalFirst new).toIndex =
      (((if (rel.page blk).bitmapNext == invalidBlockNumber then
          rel.newPage.setLov lov {rel.lov lov with lovTail := rel.nblocks} else rel.newPage).setPage rel.nblocks
        (splitSecond emptyPage true (rel.page blk) (splitFirst (rel.page blk) wordNo literalFirst new).2)).setPage blk
          {(splitFirst (rel.page blk) wordNo literalFirst new).1 with bitmapNext := rel.nblocks}).toIndex := by
  have hempty : rel.newPage.page rel.nblocks = emptyPage := Relation.setPage_page_self ..
  rw [splitWord]
  dsimp only
  rw [choosePage, if_neg hfull]
  dsimp only
  rw [if_neg hnext]
  dsimp only
  cases hlast : (rel.page blk).bitmapNext == invalidBlockNumber with
  | true =>
    rw [if_pos rfl, if_pos rfl, if_pos rfl, Relation.setLov_page, hempty]
    exact log_toIndex ..
  | false =>
    rw [if_neg Bool.false_ne_true, if_neg Bool.false_ne_true, if_pos rfl, hempty]
    exact log_toIndex ..

/-- A new page behind the first one, field by field. -/
theorem newPage_index (lov : Nat × Nat) (q q' : BMPage)
    (hlast : ((rel.page blk).bitmapNext == invalidBlockNumber) = decide (post = [])) :
    let idx := (((if (rel.page blk).bitmapNext == invalidBlockNumber then
        rel.newPage.setLov lov {rel.lov lov with lovTail := rel.nblocks} else rel.newPage).setPage rel.nblocks q').setPage blk
          {q with bitmapNext := rel.nblocks}).toIndex
    idx.page = (fun i => if i = blk then {q with bitmapNext := rel.nblocks} else if i = rel.nblocks then q' else rel.page i) ∧
      idx.nblocks = rel.nblocks + 1 ∧
      idx.lov = (if post = [] then (rel.setLov lov {rel.lov lov with lovTail := rel.nblocks}).lov else rel.lov) ∧
      (idx.lov lov).lovHead = (rel.lov lov).lovHead := by
  have hpage : (fun i => if i = blk then {q with bitmapNext := rel.nblocks} else if i = rel.nblocks then q' else
      if i = rel.nblocks then emptyPage else rel.page i) =
      fun i => if i = blk then {q with bitmapNext := rel.nblocks} else if i = rel.nblocks then q' else rel.page i := by
    funext i
    split
    · rfl
    · split <;> rfl
  by_cases hpost : post = []
  · rw [hlast, decide_eq_true hpost, if_pos rfl, if_pos hpost]
    refine ⟨hpage, rfl, rfl, ?_⟩
    show (if lov = lov then _ else _ : LovItem).lovHead = _
    rw [if_pos rfl]
  · rw [hlast, decide_eq_false hpost, if_neg Bool.false_ne_true, if_neg hpost]
    exact ⟨hpage, rfl, rfl, rfl⟩

/-- The ends of the two pages. -/
theorem SplitFirst.ends {p q : BMPage} {cs : List Cell} {extra n : Nat} {rest : TidBuffer} (h : SplitFirst p cs extra q rest)
    (hlen : (expand cs).length = (expand (pageCells p)).length)
    (htid : p.lastTidLocation.toNat = 16 * (n + (expand (pageCells p)).length)) :
    q.lastTidLocation.toNat = 16 * (n + (expand (pageCells q)).length) ∧
      (expand (pageCells q)).length + (expand rest.bufCells).length = (expand (pageCells p)).length := by
  have hsum : (expand (pageCells q)).length + (expand rest.bufCells).length = (expand (pageCells p)).length := by
    rw [← hlen, ← h.cells, expand_append, length_append]
  refine ⟨?_, hsum⟩
  have hlt := p.lastTidLocation.isLt
  rw [h.tid, toNat_sub, toNat_ofNat]
  omega

/-- A split run on a well-formed chain. -/
structure SplitAt (rel : Relation) (lov : Nat × Nat) (pre : List Nat) (blk : Nat) (post : List Nat) (tidnum : BitVec 64)
    (wordNo : Nat) (literalFirst : Bool) (new : TidBuffer) (cs : List Cell) : Prop where
  paged : Paged rel.toIndex (rel.lov lov).lovHead (pre ++ blk :: post)
  low : 16 * (chainWords rel.page pre).length < tidnum.toNat
  high : tidnum.toNat ≤ 16 * ((chainWords rel.page pre).length + (expand (pageCells (rel.page blk))).length)
  short : new.curword ≤ 16
  first : SplitFirst (rel.page blk) cs (new.curword - 1) (splitFirst (rel.page blk) wordNo literalFirst new).1
    (splitFirst (rel.page blk) wordNo literalFirst new).2
  set : expand cs =
    setBit (expand (pageCells (rel.page blk))) (tidnum.toNat - 16 * (chainWords rel.page pre).length)

section
variable {wordNo : Nat} {literalFirst : Bool} {new : TidBuffer} {cs : List Cell}
  (h : SplitAt rel lov pre blk post tidnum wordNo literalFirst new cs)
include h

theorem SplitAt.ends :
    (splitFirst (rel.page blk) wordNo literalFirst new).1.lastTidLocation.toNat =
        16 * ((chainWords rel.page pre).length +
          (expand (pageCells (splitFirst (rel.page blk) wordNo literalFirst new).1)).length) ∧
      (expand (pageCells (splitFirst (rel.page blk) wordNo literalFirst new).1)).length +
          (expand (splitFirst (rel.page blk) wordNo literalFirst new).2.bufCells).length =
        (expand (pageCells (rel.page blk))).length :=
  h.first.ends (by rw [h.set, setBit_length]) h.paged.suffix.tid

/-- The words fit. -/
theorem SplitAt.onePage (hfit : new.curword - 1 ≤ hrlWordsPerPage - (rel.page blk).hrlWordsUsed) :
    BitSet rel lov (pre ++ blk :: post) tidnum.toNat blk (splitWord rel lov blk wordNo literalFirst new)
      (pre ++ blk :: post) := by
  have hsize := h.paged.suffix.size
  have hfirst := h.first
  have hleft := hfirst.left
  have hrel : (splitWord rel lov blk wordNo literalFirst new).toIndex = _ := splitWord_onePage hfit
  generalize splitFirst (rel.page blk) wordNo literalFirst new = out at hfirst hleft hrel
  have hnone : out.2.bufCells = [] := by
    rw [TidBuffer.bufCells, hleft, show (rel.page blk).hrlWordsUsed + (new.curword - 1) - hrlWordsPerPage = 0 by omega,
      cells]
  have hcells := hfirst.cells
  rw [hnone, append_nil] at hcells
  refine bitSet_onePage h.paged h.low h.high hrel (by rw [hfirst.used]; exact min_le_right ..) hfirst.next ?_ ?_
  · rw [hfirst.tid, hnone]
    exact BitVec.sub_zero _
  · rw [hcells, h.set]

/-- The next page takes the words left over. -/
theorem SplitAt.nextPage (hfull : ¬new.curword - 1 ≤ hrlWordsPerPage - (rel.page blk).hrlWordsUsed)
    (hnext : (rel.page blk).bitmapNext ≠ invalidBlockNumber ∧
      new.curword - 1 ≤ hrlWordsPerPage - (rel.page (rel.page blk).bitmapNext).hrlWordsUsed) :
    BitSet rel lov (pre ++ blk :: post) tidnum.toNat blk (splitWord rel lov blk wordNo literalFirst new)
      (pre ++ blk :: post) := by
  have hs := h.paged.suffix
  have hsize := hs.size
  have hfirst := h.first
  have hleft := hfirst.left
  have hshort := h.short
  have hset := h.set
  obtain ⟨htid, hsum⟩ := h.ends
  have hrel : (splitWord rel lov blk wordNo literalFirst new).toIndex = _ := splitWord_nextPage hfull hnext
  generalize splitFirst (rel.page blk) wordNo literalFirst new = out at hfirst htid hsum hleft hrel
  obtain ⟨b, hb⟩ : ∃ b, b = (rel.page blk).bitmapNext := ⟨_, rfl⟩
  have hchain := hs.next
  rw [← hb] at hrel hnext hchain
  obtain ⟨rest, hpost⟩ : ∃ rest, post = b :: rest := by
    cases hchain with
    | done => exact absurd rfl hnext.1
    | page => exact ⟨_, rfl⟩
  subst hpost
  obtain ⟨-, hne, hchain⟩ := hchain.cons_inv
  obtain ⟨htidb, hends⟩ := hs.ends
  have hsizeb := h.paged.size b (by simp)
  obtain ⟨hcells', hused', hnext', htid'⟩ := splitSecond_cells (rel.page b) (rel.page blk) false out.2 (by omega)
    (by omega)
  generalize splitSecond (rel.page b) false (rel.page blk) out.2 = q' at hcells' hused' hnext' htid' hrel
  have hlen' : (expand (pageCells q')).length = (expand out.2.bufCells).length + (expand (pageCells (rel.page b))).length := by
    rw [hcells', expand_append, length_append]
  have hpage : (splitWord rel lov blk wordNo literalFirst new).page = ((rel.setPage b q').setPage blk out.1).page :=
    congrArg Index.page hrel
  have hn : (splitWord rel lov blk wordNo literalFirst new).nblocks = rel.nblocks := (congrArg Index.nblocks hrel).trans rfl
  have hlov : (splitWord rel lov blk wordNo literalFirst new).lov = rel.lov := (congrArg Index.lov hrel).trans rfl
  have hspilled : Spilled rel.toIndex (splitWord rel lov blk wordNo literalFirst new).toIndex
      (chainWords rel.page pre).length blk b rest out.1 q' := by
    refine ⟨hpage, le_of_eq hn.symm, ?_, hne, hs.other b mem_cons_self, ?_, hfirst.next.trans hb.symm, ?_, ?_, ?_,
      htid, ?_, ?_⟩
    · rw [hn]
      exact h.paged.inside b (by simp)
    · have hnodup := (nodup_append.mp h.paged.chain.nodup).2.1
      exact (nodup_cons.mp (nodup_cons.mp hnodup).2).1
    · rw [hnext']
      exact hchain
    · rw [hfirst.used]
      exact min_le_right ..
    · rw [hused']
      omega
    · rw [htid']
      refine htidb.trans ?_
      rw [hlen']
      show 16 * ((chainWords rel.page pre).length + (expand (pageCells (rel.page blk))).length + _) = _
      omega
    · rw [hlen', show (chainWords rel.page pre).length + (expand (pageCells out.1)).length +
        ((expand out.2.bufCells).length + (expand (pageCells (rel.page b))).length) =
        (chainWords rel.page pre).length + (expand (pageCells (rel.page blk))).length +
          (expand (pageCells (rel.page b))).length by omega]
      exact hends
  obtain ⟨hpaged, hwords⟩ := bitSet_twoPages (cs ++ pageCells (rel.page b)) h.paged h.low h.high hspilled
    (fun hc => (h.paged.pre_ne b hc).2 mem_cons_self) (fun c hc => mem_cons_of_mem _ hc) (by rw [hlov])
    (by rw [hcells', ← append_assoc, hfirst.cells])
    (by rw [expand_append, hset, chainWords_cons, append_assoc])
  exact ⟨hpaged, hwords, .inl ⟨rfl, hlov⟩⟩

/-- A new page takes the words left over. -/
theorem SplitAt.newPage (hroom : rel.nblocks ≠ invalidBlockNumber)
    (hfull : ¬new.curword - 1 ≤ hrlWordsPerPage - (rel.page blk).hrlWordsUsed)
    (hnext : ¬((rel.page blk).bitmapNext ≠ invalidBlockNumber ∧
      new.curword - 1 ≤ hrlWordsPerPage - (rel.page (rel.page blk).bitmapNext).hrlWordsUsed)) :
    BitSet rel lov (pre ++ blk :: post) tidnum.toNat blk (splitWord rel lov blk wordNo literalFirst new)
      (pre ++ blk :: rel.nblocks :: post) := by
  have hs := h.paged.suffix
  have hsize := hs.size
  have hfirst := h.first
  have hleft := hfirst.left
  have hshort := h.short
  have hset := h.set
  obtain ⟨htid, hsum⟩ := h.ends
  have hrel : (splitWord rel lov blk wordNo literalFirst new).toIndex = _ := splitWord_newPage hfull hnext
  generalize splitFirst (rel.page blk) wordNo literalFirst new = out at hfirst htid hsum hleft hrel
  have hpage : 16 ≤ hrlWordsPerPage := by decide
  obtain ⟨hcells', hused', hnext', htid'⟩ := splitSecond_cells emptyPage (rel.page blk) true out.2 (by omega)
    (by show 0 + _ ≤ hrlWordsPerPage; omega)
  have hempty : pageCells emptyPage = [] := rfl
  rw [hempty, append_nil] at hcells'
  generalize splitSecond emptyPage true (rel.page blk) out.2 = q' at hcells' hused' hnext' htid' hrel
  have hold : ∀ c ∈ pre ++ blk :: post, c ≠ rel.nblocks := fun c hc => Nat.ne_of_lt (h.paged.inside c hc)
  have hlast : ((rel.page blk).bitmapNext == invalidBlockNumber) = decide (post = []) := by
    have hchain := hs.next
    generalize (rel.page blk).bitmapNext = next at hchain
    cases hchain with
    | done => rfl
    | page hne => exact beq_eq_false_iff_ne.mpr hne
  obtain ⟨hp, hn, hlov, hhead⟩ := newPage_index lov out.1 q' hlast
  rw [← hrel] at hp hn hlov hhead
  have hlen' : (expand (pageCells q')).length = (expand out.2.bufCells).length := by rw [hcells']
  have hspilled : Spilled rel.toIndex (splitWord rel lov blk wordNo literalFirst new).toIndex
      (chainWords rel.page pre).length blk rel.nblocks post {out.1 with bitmapNext := rel.nblocks} q' := by
    refine ⟨hp, le_of_lt (hn ▸ Nat.lt_succ_self _), hn ▸ Nat.lt_succ_self _, hroom,
      (hold blk (mem_append_right _ mem_cons_self)).symm, fun hc => hold rel.nblocks
        (mem_append_right _ (mem_cons_of_mem _ hc)) rfl, rfl, ?_, ?_, ?_, htid, ?_, ?_⟩
    · rw [hnext']
      exact hs.next
    · show out.1.hrlWordsUsed ≤ _
      rw [hfirst.used]
      exact min_le_right ..
    · rw [hused']
      show 0 + _ ≤ _
      omega
    · rw [htid', hlen']
      refine hs.tid.trans ?_
      show _ = 16 * ((chainWords rel.page pre).length + (expand (pageCells out.1)).length + _)
      omega
    · rw [hlen']
      show EndsFrom rel.page ((chainWords rel.page pre).length + (expand (pageCells out.1)).length + _) post
      rw [add_assoc, hsum]
      exact hs.ends
  obtain ⟨hpaged, hwords⟩ := bitSet_twoPages cs h.paged h.low h.high hspilled
    (fun hc => hold rel.nblocks (mem_append_left _ hc) rfl) (fun c hc => hc) hhead
    (by rw [hcells']; exact hfirst.cells) (by rw [hset])
  exact ⟨hpaged, hwords, .inr ⟨pre, post, rfl, rfl, hlov⟩⟩

end

theorem Relation.setPage_self (rel : Relation) (b : Nat) : (rel.setPage b (rel.page b)).toIndex = rel.toIndex := by
  have hpage : (fun i => if i = b then rel.page b else rel.page i) = rel.page := by
    funext i
    split
    · next hi => rw [hi]
    · rfl
  show {rel.toIndex with page := fun i => if i = b then rel.page b else rel.page i} = _
  rw [hpage]

/-- **`updatesetbit_inpage`** sets the bit. -/
theorem updatesetbitInpage_set (h : Paged rel.toIndex (rel.lov lov).lovHead (pre ++ blk :: post))
    (hroom : rel.nblocks ≠ invalidBlockNumber) (hfirst : first.toNat = 16 * (chainWords rel.page pre).length + 1)
    (hlow : 16 * (chainWords rel.page pre).length < tidnum.toNat)
    (hhigh : tidnum.toNat ≤ 16 * ((chainWords rel.page pre).length + (expand (pageCells (rel.page blk))).length)) :
    ∃ rel' blocks', updatesetbitInpage rel tidnum lov blk first = some rel' ∧
      BitSet rel lov (pre ++ blk :: post) tidnum.toNat blk rel' blocks' := by
  have hs := h.suffix
  have hsize := hs.size
  obtain ⟨wordNo, bitNo, hfind, hfound⟩ := findWord_found hfirst hlow hhigh (hs.tid ▸ isLt _)
  have hlt := hfound.inside
  simp only [updatesetbitInpage, hfind]
  cases hfill : isFillWord (rel.page blk).hwords wordNo with
  | false =>
    rw [if_pos rfl]
    have hat := wordAt_setWord (rel.page blk) wordNo
      ((rel.page blk).cwords wordNo ||| (1 : Word) <<< ((tidnum - 1) % 16).toNat)
    rw [hfill] at hat
    refine ⟨_, _, rfl, bitSet_onePage h hlow hhigh (log_toIndex ..) hsize rfl rfl ?_⟩
    rw [hat.cells hlt, ← hfound.expand_set (hfound.literal hfill), append_assoc, singleton_append]
  | true =>
    rw [if_neg (by decide)]
    by_cases hbit : fillBit ((rel.page blk).cwords wordNo) = 1
    · rw [if_pos hbit]
      refine ⟨_, _, rfl, bitSet_onePage (q := rel.page blk) h hlow hhigh ?_ hsize rfl rfl ?_⟩
      · exact (rel.setPage_self blk).symm
      · rw [← hfound.expand_set (Found.ones hfill hbit _), pageCells_split hlt, append_assoc, singleton_append]
        rfl
    · rw [if_neg hbit]
      obtain ⟨hloc, hin⟩ := hfound.loc hfirst hfill
      have hset := hfound.zeros hfirst hfill hbit
      rw [← hloc] at hin hset
      generalize first + bitNo - ofNat 64 (fillLength ((rel.page blk).cwords wordNo) * 16) = start at hloc hin hset ⊢
      obtain ⟨hcells, hclean⟩ := updatesetbitInword_cells start hin
      generalize updatesetbitInword ((rel.page blk).cwords wordNo) (tidnum - start) start (bufExtend zeroBuffer) = new
        at hcells hclean ⊢
      obtain ⟨d, ds, hds, hd, hsingle⟩ := splitCells_cons (fillLength ((rel.page blk).cwords wordNo)) (tidnum - start).toNat
      have hlen := splitCells_length (fillLength ((rel.page blk).cwords wordNo)) (tidnum - start).toNat
      have hcur : new.curword = (splitCells (fillLength ((rel.page blk).cwords wordNo)) (tidnum - start).toNat).length := by
        rw [← hcells, TidBuffer.bufCells, cells_length]
      rw [hds] at hcells hcur hlen
      rw [hds] at hset
      obtain ⟨hdrop, -, hhead⟩ := dropFirst_cells hcells (by omega)
      by_cases hone : new.curword = 1
      · rw [if_pos hone]
        have hnil : ds = [] := eq_nil_of_length_eq_zero (by rw [length_cons] at hcur; omega)
        have hlit : d = ⟨false, new.cwords 0⟩ := by
          have hf := hsingle hnil
          rw [hhead] at hf ⊢
          rw [show isFillWord new.hwords 0 = false from hf]
        have hat := wordAt_clearBit (rel.page blk) wordNo (new.cwords 0)
        refine ⟨_, _, rfl, bitSet_onePage h hlow hhigh (log_toIndex ..) hsize rfl rfl ?_⟩
        rw [hnil, hlit] at hset
        rw [hat.cells hlt, ← hfound.expand_set hset, append_assoc, singleton_append]
      · rw [if_neg hone]
        have hextra : new.curword - 1 = ds.length := by rw [length_cons] at hcur; omega
        have hlit : d.fill = !decide (tidnum - start + 1 ≤ 16) := by
          have h1 : (1 : BitVec 64).toNat = 1 := rfl
          have h16 : (16 : BitVec 64).toNat = 16 := rfl
          have hfl := fillLength_lt ((rel.page blk).cwords wordNo)
          have hiff : tidnum - start + 1 ≤ 16 ↔ ¬16 ≤ (tidnum - start).toNat := by
            rw [le_def, toNat_add, h1, h16]
            omega
          rw [hd, decide_eq_decide.mpr hiff, decide_not, Bool.not_not]
        have hfirst' := splitFirst_cells hsize hlt hfill hcells (by omega) hlit
        rw [← hextra] at hfirst'
        have hat : SplitAt rel lov pre blk post tidnum wordNo (decide (tidnum - start + 1 ≤ 16)) new
            (cellsBefore (rel.page blk) wordNo ++ d :: ds ++ cellsFrom (rel.page blk) (wordNo + 1)) :=
          ⟨h, hlow, hhigh, by omega, hfirst', hfound.expand_set hset⟩
        by_cases hfit : new.curword - 1 ≤ hrlWordsPerPage - (rel.page blk).hrlWordsUsed
        · exact ⟨_, _, rfl, hat.onePage hfit⟩
        · by_cases hnext : (rel.page blk).bitmapNext ≠ invalidBlockNumber ∧
              new.curword - 1 ≤ hrlWordsPerPage - (rel.page (rel.page blk).bitmapNext).hrlWordsUsed
          · exact ⟨_, _, rfl, hat.nextPage hfit hnext⟩
          · exact ⟨_, _, rfl, hat.newPage hroom hfit hnext⟩

end

/-- **Setting a bit of the pages.** The page is found, and the chain after the update is well-formed and has the bits it had
and this one. -/
theorem updatesetbit_paged (rel : Relation) (lov : Nat × Nat) (blocks : List Nat)
    (h : Paged rel.toIndex (rel.lov lov).lovHead blocks) (hroom : rel.nblocks ≠ invalidBlockNumber) (tidnum : BitVec 64)
    (hpos : 1 ≤ tidnum.toNat) (hle : tidnum.toNat ≤ 16 * (chainWords rel.page blocks).length) :
    ∃ blk first rel' blocks', findbitmappage rel (rel.lov lov) tidnum = some (blk, first) ∧
      updatesetbitInpage rel tidnum lov blk first = some rel' ∧
      Paged rel'.toIndex (rel'.lov lov).lovHead blocks' ∧
      (chainWords rel'.page blocks').length = (chainWords rel.page blocks).length ∧
      (∀ p, 1 ≤ p → bitAt (chainWords rel'.page blocks') p =
        (bitAt (chainWords rel.page blocks) p || decide (p = tidnum.toNat))) ∧
      ((blocks' = blocks ∧ rel'.lov = rel.lov) ∨
        ∃ pre post, blocks = pre ++ blk :: post ∧ blocks' = pre ++ blk :: rel.nblocks :: post ∧
          rel'.lov = if post = [] then (rel.setLov lov {rel.lov lov with lovTail := rel.nblocks}).lov else rel.lov) := by
  have hstart : (1 : BitVec 64).toNat = 16 * 0 + 1 := rfl
  have hend : tidnum.toNat ≤ 16 * (0 + (chainWords rel.page blocks).length) := by
    rw [zero_add]
    exact hle
  obtain ⟨pre, blk, post, first, rfl, hfind, hfirst, hlow, hhigh⟩ :=
    findbitmappageFrom_spec h.chain h.ends hstart hpos hend (Nat.le_succ_of_le h.length_le)
  rw [zero_add] at hfirst hlow hhigh
  obtain ⟨rel', blocks', hrun, hset⟩ := updatesetbitInpage_set h hroom hfirst hlow hhigh
  refine ⟨blk, first, rel', blocks', hfind, hrun, hset.paged, ?_, fun p hp => ?_, hset.blocks⟩
  · rw [hset.words, setBit_length]
  · rw [hset.words, bitAt_setBit hpos hle hp]

/-- A page with a run of 48 zeros, the only one of its vector. -/
def zeroRunPage : BMPage :=
  {emptyPage with hwords := fun _ => headerBit 0, cwords := fun _ => makeFillWord 0 3, hrlWordsUsed := 1, lastTidLocation := 48}

def zeroRunRelation : Relation :=
  {freshRelation with nblocks := 2, page := fun _ => zeroRunPage, lov := fun _ => {formitem 1 with lovHead := 1, lovTail := 1}}

theorem paged_zeroRun : Paged zeroRunRelation.toIndex 1 [1] :=
  ⟨.single rfl (by decide) rfl, by decide, by decide, ⟨by decide, trivial⟩⟩

theorem updatesetbit_paged_zeroRun :
    ∃ (rel' : Relation) (blocks' : List Nat), Paged rel'.toIndex (rel'.lov (1, 1)).lovHead blocks' ∧
      bitAt (chainWords rel'.page blocks') 20 = true := by
  obtain ⟨-, -, rel', blocks', -, -, hpaged, -, hbits, -⟩ :=
    updatesetbit_paged zeroRunRelation (1, 1) [1] paged_zeroRun (by decide) 20 (by decide) (by decide)
  refine ⟨rel', blocks', hpaged, ?_⟩
  rw [hbits 20 (by decide)]
  decide

end PgStorage.Hrl
