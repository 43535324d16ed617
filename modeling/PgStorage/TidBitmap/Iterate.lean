import PgStorage.TidBitmap.Build

/-! The pages of a bitmap in block order.

What is left of an iteration is a list of lossy pages and a list of exact ones, both ascending. One call takes the
smaller of their heads, so the calls return the two lists merged. -/
namespace PgStorage.TidBitmap
open Option List

/-- The pages of a chunk from a bit on. -/
def pagesFrom (chunk : PagetableEntry) (bit : Nat) : List Nat :=
  ((List.range' bit (pagesPerChunk - bit)).filter chunk.words.bit).map (chunk.blockno + ·)

def lossyFrom : List PagetableEntry → Nat → List Nat
  | [], _ => []
  | chunk :: chunks, bit => pagesFrom chunk bit ++ chunks.flatMap fun chunk => pagesFrom chunk 0

variable {t : TIDBitmap} {it : Iteration} {chunk page e : PagetableEntry} {chunks : List PagetableEntry}
  {S A : Tuples} {bit ptr p o : Nat} {order : List Nat}

theorem lossyFrom_zero : lossyFrom chunks 0 = chunks.flatMap fun chunk => pagesFrom chunk 0 := by
  cases chunks <;> rfl

theorem pagesFrom_of_lt (h : bit < pagesPerChunk) : pagesFrom chunk bit =
    if chunk.words.bit bit then (chunk.blockno + bit) :: pagesFrom chunk (bit + 1) else pagesFrom chunk (bit + 1) := by
  have hlen : pagesPerChunk - bit = pagesPerChunk - (bit + 1) + 1 := by omega
  rw [pagesFrom, hlen, range'_succ]
  split
  next hb =>
    rw [filter_cons_of_pos hb]
    rfl
  next hb =>
    rw [filter_cons_of_neg hb]
    rfl

theorem pagesFrom_of_le (h : pagesPerChunk ≤ bit) : pagesFrom chunk bit = [] := by
  rw [pagesFrom, Nat.sub_eq_zero_of_le h]
  rfl

/-- The bits passed are of no page. -/
theorem pagesFrom_nextBit : pagesFrom chunk (nextBit chunk.words bit) = pagesFrom chunk bit := by
  induction bit using nextBit.induct chunk.words with
  | case1 bit hlt hb => rw [nextBit, if_pos hlt, if_pos hb]
  | case2 bit hlt hb ih =>
    rw [nextBit, if_pos hlt, if_neg hb, ih, pagesFrom_of_lt hlt, ← Words.testBit_eq, if_neg hb]
  | case3 bit hlt => rw [nextBit, if_neg hlt]

theorem bit_nextBit {words : Words} (h : nextBit words bit < pagesPerChunk) : words.bit (nextBit words bit) = true := by
  induction bit using nextBit.induct words with
  | case1 bit hlt hb =>
    rw [nextBit, if_pos hlt, if_pos hb, ← Words.testBit_eq]
    exact hb
  | case2 bit hlt hb ih =>
    rw [nextBit, if_pos hlt, if_neg hb] at h ⊢
    exact ih h
  | case3 bit hlt =>
    rw [nextBit, if_neg hlt] at h
    exact absurd h hlt

/-- The place is a set bit, or all chunks are passed. -/
def Settled (chunks : List PagetableEntry) (ptr bit : Nat) : Prop :=
  chunks.length ≤ ptr ∨ ∃ chunk, chunks[ptr]? = some chunk ∧ bit < pagesPerChunk ∧ chunk.words.bit bit = true

theorem lossyFrom_drop (bit : Nat) (h : chunks[ptr]? = some chunk) : lossyFrom (chunks.drop ptr) bit =
    pagesFrom chunk bit ++ lossyFrom (chunks.drop (ptr + 1)) 0 := by
  obtain ⟨hptr, rfl⟩ := List.getElem?_eq_some_iff.mp h
  rw [List.drop_eq_getElem_cons hptr, lossyFrom, lossyFrom_zero]

theorem advanceChunk_spec (chunks : List PagetableEntry) (ptr bit : Nat) :
    let next := advanceChunk chunks chunks.length ptr bit
    lossyFrom (chunks.drop next.1) next.2 = lossyFrom (chunks.drop ptr) bit ∧ Settled chunks next.1 next.2 := by
  induction ptr, bit using advanceChunk.induct chunks chunks.length with
  | case1 ptr bit hlt hnone =>
    exact absurd (getElem?_eq_none_iff.mp hnone) (not_le.mpr (by exact_mod_cast hlt))
  | case2 ptr bit hlt chunk hsome hnext =>
    have heq : advanceChunk chunks chunks.length ptr bit = (ptr, nextBit chunk.words bit) := by
      rw [advanceChunk, if_pos hlt]
      split
      next hnone => exact absurd (hsome.symm.trans hnone) nofun
      next chunk' hsome' =>
        cases hsome.symm.trans hsome'
        rw [if_pos hnext]
    rw [heq]
    refine ⟨?_, .inr ⟨chunk, hsome, hnext, bit_nextBit hnext⟩⟩
    rw [lossyFrom_drop _ hsome, lossyFrom_drop _ hsome, pagesFrom_nextBit]
  | case3 ptr bit hlt chunk hsome hnext ih =>
    have heq : advanceChunk chunks chunks.length ptr bit = advanceChunk chunks chunks.length (ptr + 1) 0 := by
      rw [advanceChunk, if_pos hlt]
      split
      next hnone => exact absurd (hsome.symm.trans hnone) nofun
      next chunk' hsome' =>
        cases hsome.symm.trans hsome'
        rw [if_neg hnext]
    rw [heq]
    refine ⟨ih.1.trans ?_, ih.2⟩
    rw [lossyFrom_drop bit hsome, ← pagesFrom_nextBit, pagesFrom_of_le (not_lt.mp hnext), nil_append]
  | case4 ptr bit hlt =>
    have heq : advanceChunk chunks chunks.length ptr bit = (ptr, bit) := by
      rw [advanceChunk, if_neg hlt]
    rw [heq]
    exact ⟨rfl, .inl (by exact_mod_cast not_lt.mp hlt)⟩

/-- The exact pages, in the one-page state the single entry. -/
def exactPages (it : Iteration) : List PagetableEntry :=
  if it.tbm.status = .onePage then [it.tbm.entry1] else it.spages

def lossyRest (it : Iteration) : List Nat := lossyFrom (it.schunks.drop it.schunkptr) it.schunkbit

def exactRest (it : Iteration) : List PagetableEntry := (exactPages it).drop it.spageptr

/-- The lists are as long as the counts say, and chunks are found in a hash table only. -/
structure Listing (it : Iteration) : Prop where
  chunks : it.tbm.nchunks = it.schunks.length
  pages : it.tbm.npages = (exactPages it).length
  hash : it.tbm.status = .onePage → it.schunks = []

/-- What is returned of an exact page. -/
def exactResult (page : PagetableEntry) : TBMIterateResult :=
  ⟨page.blockno, (page.words.setBits 1).length, page.words.setBits 1⟩

theorem nextPage_eq (h : Listing it) : nextPage it = (exactRest it).head? := by
  rw [nextPage, exactRest, head?_drop, h.pages]
  by_cases hlt : it.spageptr < (exactPages it).length
  · rw [if_pos (by exact_mod_cast hlt)]
    rw [exactPages] at hlt ⊢
    split at hlt
    next hs =>
      rw [if_pos hs, if_pos hs, Nat.lt_one_iff.mp hlt]
      rfl
    next hs => rw [if_neg hs, if_neg hs]
  · rw [if_neg (by exact_mod_cast hlt), getElem?_eq_none (not_lt.mp hlt)]

/-- In a settled place the next lossy page is the head of the rest, if it is before the next exact page. -/
theorem nextLossy_eq (h : Listing it) (hset : Settled it.schunks it.schunkptr it.schunkbit) : nextLossy it =
    (lossyRest it).head?.filter fun p => (exactRest it).head?.all fun page => p < page.blockno := by
  rw [nextLossy, lossyRest, h.chunks]
  rcases hset with hle | ⟨chunk, hsome, hlt, hb⟩
  · rw [if_neg (not_lt.mpr (by exact_mod_cast hle)), List.drop_eq_nil_of_le hle]
    rfl
  · have hptr := (List.getElem?_eq_some_iff.mp hsome).1
    rw [if_pos (by exact_mod_cast hptr), hsome, lossyFrom_drop _ hsome, pagesFrom_of_lt hlt, if_pos hb]
    have hs : ¬ it.tbm.status = .onePage := fun hs => by
      rw [h.hash hs] at hptr
      exact absurd hptr (Nat.not_lt_zero _)
    rw [exactRest, head?_drop, h.pages, exactPages, if_neg hs]
    dsimp only
    split
    next hge =>
      rw [getElem?_eq_none (by exact_mod_cast hge)]
      rfl
    next hge =>
      obtain ⟨page, hpage⟩ : ∃ page, it.spages[it.spageptr]? = some page :=
        ⟨_, getElem?_eq_getElem (by exact_mod_cast not_le.mp hge)⟩
      rw [hpage, cons_append, head?_cons, filter_some, all_some]
      simp only [decide_eq_true_eq]

/-- The iteration with its place at the next set bit. -/
def settle (it : Iteration) : Iteration :=
  let next := advanceChunk it.schunks it.tbm.nchunks it.schunkptr it.schunkbit
  { it with schunkptr := next.1, schunkbit := next.2 }

theorem settle_spec (h : Listing it) : Listing (settle it) ∧ lossyRest (settle it) = lossyRest it ∧
    exactRest (settle it) = exactRest it ∧ Settled (settle it).schunks (settle it).schunkptr (settle it).schunkbit := by
  have hadvance := advanceChunk_spec it.schunks it.schunkptr it.schunkbit
  rw [← h.chunks] at hadvance
  exact ⟨⟨h.chunks, h.pages, h.hash⟩, hadvance.1, rfl, hadvance.2⟩

/-- Behind a set bit the rest is what it was without its head. -/
theorem lossyRest_succ (hset : Settled it.schunks it.schunkptr it.schunkbit) {rest : List Nat}
    (hL : lossyRest it = p :: rest) : lossyFrom (it.schunks.drop it.schunkptr) (it.schunkbit + 1) = rest := by
  rw [lossyRest] at hL
  rcases hset with hle | ⟨chunk, hsome, hlt, hb⟩
  · rw [drop_eq_nil_of_le hle] at hL
    exact absurd hL nofun
  · rw [lossyFrom_drop _ hsome, pagesFrom_of_lt hlt, if_pos hb, cons_append] at hL
    rw [lossyFrom_drop _ hsome]
    exact (cons.inj hL).2

/-- What a call returns and leaves. -/
inductive Call (it : Iteration) : Prop
  | none : lossyRest it = [] → exactRest it = [] → (tbmIterate it).1 = none → Call it
  | lossy (p : Nat) (rest : List Nat) (r : TBMIterateResult) : lossyRest it = p :: rest →
    (∀ page ∈ (exactRest it).head?, p < page.blockno) → (tbmIterate it).1 = some r → r.blockno = p →
    r.ntuples = -1 → Listing (tbmIterate it).2 → lossyRest (tbmIterate it).2 = rest →
    exactRest (tbmIterate it).2 = exactRest it → Call it
  | exact (page : PagetableEntry) (rest : List PagetableEntry) : exactRest it = page :: rest →
    (∀ p ∈ (lossyRest it).head?, page.blockno ≤ p) → (tbmIterate it).1 = some (exactResult page) →
    Listing (tbmIterate it).2 → lossyRest (tbmIterate it).2 = lossyRest it →
    exactRest (tbmIterate it).2 = rest → Call it

/-- One call takes the smaller head of the two rests. -/
theorem call (h : Listing it) : Call it := by
  obtain ⟨hlist, hlossy, hexact, hset⟩ := settle_spec h
  have hnext := nextLossy_eq hlist hset
  have hpage := nextPage_eq hlist
  rw [hlossy, hexact] at hnext
  rw [hexact] at hpage
  have hcall : tbmIterate it = (nextLossy (settle it)).elim
      ((nextPage (settle it)).elim (none, settle it) fun page =>
        (some (exactResult page), { settle it with spageptr := (settle it).spageptr + 1, output := exactResult page }))
      fun p =>
        let output := { (settle it).output with blockno := p, ntuples := -1 }
        (some output, { settle it with schunkbit := (settle it).schunkbit + 1, output }) := by
    unfold tbmIterate settle
    dsimp only
    split
    next h => rw [h]; rfl
    next h =>
      rw [h]
      split
      next hpage => rw [hpage]; rfl
      next hpage => rw [hpage]; rfl
  cases hfilter : nextLossy (settle it) with
  | some p =>
    rw [hfilter] at hcall hnext
    dsimp only [Option.elim] at hcall
    obtain ⟨hhead, hbefore⟩ := filter_eq_some_iff.mp hnext.symm
    obtain ⟨rest, hL⟩ := head?_eq_some_iff.mp hhead
    have hbefore : ∀ page ∈ (exactRest it).head?, p < page.blockno := fun page hmem => by
      rw [mem_def.mp hmem, all_some, decide_eq_true_eq] at hbefore
      exact hbefore
    rw [hL] at hlossy
    refine .lossy p rest { (settle it).output with blockno := p, ntuples := -1 } hL hbefore ?_ rfl rfl ?_ ?_ ?_ <;>
      rw [hcall]
    · exact ⟨hlist.chunks, hlist.pages, hlist.hash⟩
    · exact lossyRest_succ hset hlossy
    · exact hexact
  | none =>
    rw [hfilter, hpage] at hcall
    rw [hfilter] at hnext
    dsimp only [Option.elim] at hcall
    cases hE : exactRest it with
    | nil =>
      rw [hE] at hcall hnext
      refine .none ?_ hE (by rw [hcall]; rfl)
      cases hL : lossyRest it with
      | nil => rfl
      | cons p rest =>
        rw [hL] at hnext
        cases hnext
    | cons page rest =>
      rw [hE] at hcall hnext hexact
      refine .exact page rest hE (fun p hp => ?_) (by rw [hcall]; rfl) ?_ ?_ ?_
      · rw [mem_def.mp hp] at hnext
        have hnot := filter_eq_none_iff.mp hnext.symm p rfl
        rw [head?_cons, all_some, decide_eq_true_eq] at hnot
        exact not_lt.mp hnot
      all_goals rw [hcall]
      · exact ⟨hlist.chunks, hlist.pages, hlist.hash⟩
      · exact hlossy
      · have htail := congrArg tail hexact
        rw [exactRest, tail_drop] at htail
        exact htail

/-! ### The whole iteration -/

/-- The results of repeated calls. -/
inductive Iterates : Iteration → List TBMIterateResult → Prop
  | done {it : Iteration} : (tbmIterate it).1 = none → Iterates it []
  | next {it : Iteration} {r : TBMIterateResult} {rs : List TBMIterateResult} : (tbmIterate it).1 = some r →
    Iterates (tbmIterate it).2 rs → Iterates it (r :: rs)

/-- The results are those of the two rests. -/
structure Merged (L : List Nat) (E : List PagetableEntry) (rs : List TBMIterateResult) : Prop where
  ascend : rs.Pairwise fun r r' => r.blockno < r'.blockno
  of_mem : ∀ r ∈ rs, r.blockno ∈ L ∧ r.ntuples = -1 ∨ ∃ page ∈ E, r = exactResult page
  lossy : ∀ p ∈ L, ∃ r ∈ rs, r.blockno = p
  exact : ∀ page ∈ E, exactResult page ∈ rs

theorem Merged.cons_lossy {L : List Nat} {E : List PagetableEntry} {rs : List TBMIterateResult} {r : TBMIterateResult}
    (h : Merged L E rs) (hp : r.blockno = p) (hr : r.ntuples = -1) (hL : ∀ q ∈ L, p < q)
    (hE : ∀ page ∈ E, p < page.blockno) : Merged (p :: L) E (r :: rs) where
  ascend := by
    refine pairwise_cons.mpr ⟨fun r' hr' => ?_, h.ascend⟩
    rw [hp]
    rcases h.of_mem r' hr' with ⟨hq, -⟩ | ⟨page, hpage, rfl⟩
    · exact hL _ hq
    · exact hE page hpage
  of_mem := by
    intro r' hr'
    rcases mem_cons.mp hr' with rfl | hr'
    · exact .inl ⟨hp ▸ mem_cons_self, hr⟩
    · exact (h.of_mem r' hr').imp_left fun hq => ⟨mem_cons_of_mem _ hq.1, hq.2⟩
  lossy := by
    intro q hq
    rcases mem_cons.mp hq with rfl | hq
    · exact ⟨r, mem_cons_self, hp⟩
    · obtain ⟨r', hr', hq'⟩ := h.lossy q hq
      exact ⟨r', mem_cons_of_mem _ hr', hq'⟩
  exact page hpage := mem_cons_of_mem _ (h.exact page hpage)

theorem Merged.cons_exact {L : List Nat} {E : List PagetableEntry} {rs : List TBMIterateResult} (h : Merged L E rs)
    (hL : ∀ q ∈ L, page.blockno < q) (hE : ∀ page' ∈ E, page.blockno < page'.blockno) :
    Merged L (page :: E) (exactResult page :: rs) where
  ascend := by
    refine pairwise_cons.mpr ⟨fun r' hr' => ?_, h.ascend⟩
    rcases h.of_mem r' hr' with ⟨hq, -⟩ | ⟨page', hpage, rfl⟩
    · exact hL _ hq
    · exact hE page' hpage
  of_mem := by
    intro r' hr'
    rcases mem_cons.mp hr' with rfl | hr'
    · exact .inr ⟨page, mem_cons_self, rfl⟩
    · refine (h.of_mem r' hr').imp_right ?_
      rintro ⟨page', hpage, rfl⟩
      exact ⟨page', mem_cons_of_mem _ hpage, rfl⟩
  lossy := by
    intro q hq
    obtain ⟨r', hr', hq'⟩ := h.lossy q hq
    exact ⟨r', mem_cons_of_mem _ hr', hq'⟩
  exact := by
    intro page' hpage
    rcases mem_cons.mp hpage with rfl | hpage
    · exact mem_cons_self
    · exact mem_cons_of_mem _ (h.exact page' hpage)

/-- Repeated calls end, and return the rests merged. The induction is on what is left of both. -/
theorem iterates (h : Listing it) (hL : (lossyRest it).Pairwise (· < ·))
    (hE : (exactRest it).Pairwise fun page page' => page.blockno < page'.blockno)
    (hapart : ∀ p ∈ lossyRest it, ∀ page ∈ exactRest it, p ≠ page.blockno) :
    ∃ rs, Iterates it rs ∧ Merged (lossyRest it) (exactRest it) rs := by
  obtain ⟨n, hn⟩ : ∃ n, n = (lossyRest it).length + (exactRest it).length := ⟨_, rfl⟩
  induction n generalizing it with
  | zero =>
    have hL0 := length_eq_zero_iff.mp (show (lossyRest it).length = 0 by omega)
    have hE0 := length_eq_zero_iff.mp (show (exactRest it).length = 0 by omega)
    cases call h with
    | none _ _ hnone =>
      rw [hL0, hE0]
      exact ⟨[], .done hnone, .nil, nofun, nofun, nofun⟩
    | lossy p rest r hL' => exact absurd (hL0.symm.trans hL') nofun
    | exact page rest hE' => exact absurd (hE0.symm.trans hE') nofun
  | succ n ih =>
    cases call h with
    | none hL0 hE0 =>
      rw [hL0, hE0] at hn
      exact absurd hn (Nat.succ_ne_zero n)
    | lossy p rest r hL' hbefore hr hp hr' hlist hrestL hrestE =>
      rw [hL'] at hL hapart hn ⊢
      obtain ⟨hfirst, hL⟩ := pairwise_cons.mp hL
      have hpages : ∀ page ∈ exactRest it, p < page.blockno := by
        cases hE' : exactRest it with
        | nil => exact nofun
        | cons page pages =>
          rw [hE'] at hbefore hE
          refine forall_mem_cons.mpr ⟨hbefore page rfl, fun page' hpage => ?_⟩
          exact (hbefore page rfl).trans ((pairwise_cons.mp hE).1 page' hpage)
      obtain ⟨rs, hrs, hmerged⟩ := ih hlist (by rw [hrestL]; exact hL) (by rw [hrestE]; exact hE)
        (by rw [hrestL, hrestE]; exact fun q hq => hapart q (mem_cons_of_mem _ hq))
        (by rw [hrestL, hrestE]; rw [length_cons] at hn; omega)
      rw [hrestL, hrestE] at hmerged
      exact ⟨r :: rs, .next hr hrs, hmerged.cons_lossy hp hr' hfirst hpages⟩
    | exact page rest hE' hbefore hr hlist hrestL hrestE =>
      rw [hE'] at hE hapart hn ⊢
      obtain ⟨hfirst, hE⟩ := pairwise_cons.mp hE
      have hpages : ∀ p ∈ lossyRest it, page.blockno < p := by
        intro p hp
        refine Nat.lt_of_le_of_ne ?_ (hapart p hp page mem_cons_self).symm
        cases hL' : lossyRest it with
        | nil =>
          rw [hL'] at hp
          exact absurd hp not_mem_nil
        | cons q rest' =>
          rw [hL'] at hp hbefore hL
          rcases mem_cons.mp hp with rfl | hp
          · exact hbefore p rfl
          · exact (hbefore q rfl).trans ((pairwise_cons.mp hL).1 p hp).le
      obtain ⟨rs, hrs, hmerged⟩ := ih hlist (by rw [hrestL]; exact hL) (by rw [hrestE]; exact hE)
        (by rw [hrestL, hrestE]; exact fun q hq page' hpage => hapart q hq page' (mem_cons_of_mem _ hpage))
        (by rw [hrestL, hrestE]; rw [length_cons] at hn; omega)
      rw [hrestL, hrestE] at hmerged
      exact ⟨exactResult page :: rs, .next hr hrs, hmerged.cons_exact hpages hfirst⟩

/-! ### The lists at the start -/

theorem sortPages_spec (pages : List PagetableEntry) (h : (pages.map PagetableEntry.blockno).Nodup) :
    (sortPages pages).Perm pages ∧ (sortPages pages).Pairwise fun page page' => page.blockno < page'.blockno := by
  have hperm : (sortPages pages).Perm pages := mergeSort_perm _ _
  have hle : (sortPages pages).Pairwise fun page page' => page.blockno ≤ page'.blockno := by
    refine (pairwise_mergeSort (fun a b c hab hbc => ?_) (fun a b => ?_) pages).imp of_decide_eq_true
    · exact decide_eq_true ((of_decide_eq_true hab).trans (of_decide_eq_true hbc))
    · rw [Bool.or_eq_true, decide_eq_true_eq, decide_eq_true_eq]
      exact le_total a.blockno b.blockno
  have hne : (sortPages pages).Pairwise fun page page' => page.blockno ≠ page'.blockno :=
    pairwise_map.mp ((hperm.map PagetableEntry.blockno).nodup_iff.mpr h)
  exact ⟨hperm, hle.imp₂ (fun _ _ hab hne => Nat.lt_of_le_of_ne hab hne) hne⟩

theorem mem_pagesFrom : p ∈ pagesFrom chunk 0 ↔ ∃ i < pagesPerChunk, chunk.words.bit i = true ∧ chunk.blockno + i = p := by
  rw [pagesFrom, List.mem_map]
  refine exists_congr fun i => ?_
  rw [mem_filter, mem_range'_1, zero_add, Nat.sub_zero, and_iff_right (Nat.zero_le i), and_assoc]

theorem pagesFrom_ascend : (pagesFrom chunk bit).Pairwise (· < ·) := by
  have hrange : (range' bit (pagesPerChunk - bit)).Pairwise (· < ·) := pairwise_lt_range'
  rw [pagesFrom, pairwise_map]
  exact (hrange.filter _).imp fun h => Nat.add_lt_add_left h _

/-- Chunks in order have their pages in order. -/
theorem lossyFrom_ascend (hgood : ∀ chunk ∈ chunks, header chunk.blockno = chunk.blockno)
    (hsort : chunks.Pairwise fun chunk chunk' => chunk.blockno < chunk'.blockno) :
    (lossyFrom chunks 0).Pairwise (· < ·) := by
  rw [lossyFrom_zero, pairwise_flatMap]
  refine ⟨fun _ _ => pagesFrom_ascend, hsort.imp_of_mem fun {c c'} hc hc' hlt p hp q hq => ?_⟩
  obtain ⟨i, hi, -, rfl⟩ := mem_pagesFrom.mp hp
  obtain ⟨j, hj, -, rfl⟩ := mem_pagesFrom.mp hq
  have h₁ := header_eq_self.mp (hgood c hc)
  have h₂ := header_eq_self.mp (hgood c' hc')
  rw [pagesPerChunk] at *
  omega

/-- The lists of the start are those of the table. -/
structure Lists (m : Table) (schunks spages : List PagetableEntry) : Prop where
  chunk_iff : ∀ page, page ∈ schunks ↔ (page.blockno, page) ∈ m.rows ∧ page.ischunk = true
  page_iff : ∀ page, page ∈ spages ↔ Exact m page.blockno page
  chunks : schunks.Pairwise fun page page' => page.blockno < page'.blockno
  pages : spages.Pairwise fun page page' => page.blockno < page'.blockno

theorem Lists.mem_lossy {m : Table} {schunks spages : List PagetableEntry} (h : Lists m schunks spages) (hwf : Wf m) :
    p ∈ lossyFrom schunks 0 ↔ Lossy m p := by
  rw [lossyFrom_zero, mem_flatMap]
  constructor
  · rintro ⟨chunk, hmem, hp⟩
    obtain ⟨hrow, hc⟩ := (h.chunk_iff chunk).mp hmem
    obtain ⟨i, hi, hb, rfl⟩ := mem_pagesFrom.mp hp
    obtain ⟨hhead, hmod⟩ := header_add ((hwf.good hrow).aligned hc) hi
    exact ⟨chunk, hhead.symm ▸ hrow, hc, hmod.symm ▸ hb⟩
  · rintro ⟨chunk, hrow, hc, hb⟩
    have hblock := (hwf.good hrow).blockno
    refine ⟨chunk, (h.chunk_iff chunk).mpr ⟨hblock.symm ▸ hrow, hc⟩, mem_pagesFrom.mpr ⟨_, ?_, hb, ?_⟩⟩
    · exact Nat.mod_lt _ (by decide)
    · rw [hblock, header_mod]

/-- A scan that visits each entry once fills the lists, as long as the counts say. -/
theorem lists_of_scan {pages : List PagetableEntry} {m : Table} (hwf : Wf m) (hpages : pages.Perm (m.rows.map Prod.snd)) :
    Lists m (sortPages (pages.filter fun page => page.ischunk)) (sortPages (pages.filter fun page => !page.ischunk)) ∧
      (sortPages (pages.filter fun page => page.ischunk)).length = m.count (fun e => e.ischunk) ∧
      (sortPages (pages.filter fun page => !page.ischunk)).length = m.count fun e => !e.ischunk := by
  have hkeys : (m.rows.map Prod.snd).map PagetableEntry.blockno = m.rows.map Prod.fst := by
    rw [List.map_map]
    exact List.map_congr_left fun r hr => (hwf.good (p := r.1) (e := r.2) hr).blockno
  have hnodup : (pages.map PagetableEntry.blockno).Nodup := by
    rw [(hpages.map PagetableEntry.blockno).nodup_iff, hkeys]
    exact List.pairwise_map.mpr (m.sorted.imp fun h => h.ne)
  have hmem : ∀ page, page ∈ pages ↔ (page.blockno, page) ∈ m.rows := fun page => by
    rw [hpages.mem_iff, List.mem_map]
    constructor
    · rintro ⟨r, hr, rfl⟩
      rw [(hwf.good (p := r.1) (e := r.2) hr).blockno]
      exact hr
    · exact fun hrow => ⟨_, hrow, rfl⟩
  have hsort := fun P : PagetableEntry → Bool =>
    sortPages_spec (pages.filter P) (hnodup.sublist (filter_sublist.map _))
  have hlen : ∀ P : PagetableEntry → Bool, (sortPages (pages.filter P)).length = m.count P := fun P => by
    rw [(hsort P).1.length_eq, (hpages.filter P).length_eq, ← countP_eq_length_filter, countP_map]
    rfl
  refine ⟨⟨fun page => ?_, fun page => ?_, (hsort _).2, (hsort _).2⟩, hlen _, hlen _⟩
  · rw [(hsort _).1.mem_iff, mem_filter, hmem]
  · rw [(hsort _).1.mem_iff, mem_filter, hmem, Bool.not_eq_true']
    rfl

theorem begin_spec (h : Inv t S A) (heq : tbmBeginIterate t order = some it) : Listing it ∧
    (lossyRest it).Pairwise (· < ·) ∧ ((exactRest it).Pairwise fun page page' => page.blockno < page'.blockno) ∧
    (∀ p, p ∈ lossyRest it ↔ Lossy t.table p) ∧ ∀ page, page ∈ exactRest it ↔ Exact t.table page.blockno page := by
  have htotal := h.counted.total
  have hentries := h.counted.entries
  have hpages := h.counted.pages
  have hchunks := h.counted.chunks
  rw [tbmBeginIterate] at heq
  split at heq
  next h0 =>
    obtain rfl := some.inj heq
    by_cases hs : t.status = .onePage
    · rw [table_onePage hs, OrderedMap.count_set_of_not_mem (fun _ => not_mem_nil),
        h.counted.single hs] at hpages hchunks
      have hrow := fun p e => mem_table_onePage (p := p) (e := e) hs
      have hexact : exactPages ⟨t, [], [], 0, 0, 0, ⟨0, 0, []⟩⟩ = [t.entry1] := if_pos hs
      refine ⟨⟨hchunks, by rw [hexact]; exact hpages, fun _ => rfl⟩, .nil, ?_, fun p => ⟨by rintro ⟨⟩, ?_⟩, fun page => ?_⟩
      · rw [exactRest, hexact]
        exact pairwise_singleton _ _
      · rintro ⟨e, he, hc, -⟩
        rw [((hrow _ _).mp he).2, h.counted.single hs] at hc
        exact absurd hc (by simp)
      · rw [exactRest, hexact, Exact, hrow, drop_zero, mem_singleton]
        constructor
        · rintro rfl
          exact ⟨⟨rfl, rfl⟩, h.counted.single hs⟩
        · exact fun hx => hx.1.2
    · have hexact : exactPages ⟨t, [], [], 0, 0, 0, ⟨0, 0, []⟩⟩ = [] := if_neg hs
      have hempty : t.table.rows = [] := by
        rcases h0 with h0 | h0
        · rw [h0, eq_comm, Int.natCast_eq_zero, length_eq_zero_iff] at htotal
          exact htotal
        · cases hst : t.status with
          | empty => rw [table_empty hst]; rfl
          | onePage => exact absurd hst hs
          | hash => exact absurd hst h0
      rw [OrderedMap.count, hempty] at hpages hchunks
      refine ⟨⟨hchunks, by rw [hexact]; exact hpages, fun _ => rfl⟩, .nil, ?_, fun p => ⟨by rintro ⟨⟩, ?_⟩, fun page => ?_⟩
      · rw [exactRest, hexact]
        exact .nil
      · rintro ⟨e, he, -⟩
        exact absurd (hempty ▸ he) not_mem_nil
      · rw [exactRest, hexact, Exact, hempty]
        exact ⟨by simp, fun hx => absurd hx.1 not_mem_nil⟩
  next h0 =>
    have hs : t.status = .hash := not_not.mp fun hs => h0 (.inr hs)
    obtain ⟨hscan, heq⟩ := ite_none_right_eq_some.mp heq
    obtain rfl := some.inj heq
    have hperm : (order.filterMap t.pagetable.get?).Perm (t.pagetable.rows.map Prod.snd) := by
      refine ((isPerm_iff.mp hscan).filterMap _).trans (.of_eq ?_)
      rw [filterMap_map]
      refine (filterMap_congr fun r hr => ?_).trans (congrFun filterMap_eq_map _)
      exact OrderedMap.get?_eq_some.mpr hr
    have hwf := h.wf
    rw [table_hash hs] at hwf hpages hchunks ⊢
    obtain ⟨hlists, hlenC, hlenP⟩ := lists_of_scan hwf hperm
    have hne : ¬ t.status = .onePage := by rw [hs]; rintro ⟨⟩
    refine ⟨⟨?_, ?_, fun hst => absurd hst hne⟩, lossyFrom_ascend (fun chunk hmem => ?_) hlists.chunks, ?_,
      fun p => hlists.mem_lossy hwf, ?_⟩
    · rw [hchunks, hlenC]
    · rw [exactPages, if_neg hne, hpages, hlenP]
    · obtain ⟨hrow, hc⟩ := (hlists.chunk_iff chunk).mp hmem
      exact (hwf.good hrow).aligned hc
    · rw [exactRest, exactPages, if_neg hne]
      exact hlists.pages
    · rw [exactRest, exactPages, if_neg hne]
      exact hlists.page_iff

/-- What the pages returned say of the tuples. -/
structure Pages (S A : Tuples) (rs : List TBMIterateResult) : Prop where
  ascend : rs.Pairwise fun r r' => r.blockno < r'.blockno
  exact : ∀ r ∈ rs, 0 ≤ r.ntuples → r.ntuples = r.offsets.length ∧ r.offsets.Pairwise (· < ·) ∧
    ∀ o, o ∈ r.offsets ↔ (r.blockno, o) ∈ S
  every : ∀ {p o}, (p, o) ∈ S → ∃ r ∈ rs, r.blockno = p
  lossy : ∀ r ∈ rs, r.ntuples < 0 → ∃ o, (r.blockno, o) ∈ A

theorem pages_spec (h : Inv t S A) (heq : tbmBeginIterate t order = some it) : ∃ rs, Iterates it rs ∧ Pages S A rs := by
  obtain ⟨hlist, hascendL, hascendE, hlossy, hexact⟩ := begin_spec h heq
  obtain ⟨rs, hrs, hmerged⟩ := iterates hlist hascendL hascendE fun p hp page hpage he =>
    h.wf.apart ((hlossy p).mp hp) (he ▸ (hexact page).mp hpage)
  refine ⟨rs, hrs, hmerged.ascend, fun r hr hn => ?_, fun {p o} hs => ?_, fun r hr hn => ?_⟩
  · rcases hmerged.of_mem r hr with ⟨-, hneg⟩ | ⟨page, hpage, rfl⟩
    · rw [hneg] at hn
      exact absurd hn (by decide)
    · have hx := (hexact page).mp hpage
      refine ⟨rfl, Words.setBits_ascend, fun o => ?_⟩
      rw [exactResult]
      dsimp only
      rw [Words.mem_setBits, h.rep.exact hx]
      refine exists_congr fun i => ⟨fun hi => ⟨hi.2.1, by omega⟩, fun hi => ⟨?_, hi.1, by omega⟩⟩
      exact (h.wf.good hx.1).page_lt i hi.1
  · rcases h.rep.cover hs with hl | ⟨page, hx⟩
    · exact hmerged.lossy p ((hlossy p).mpr hl)
    · have hblock := (h.wf.good hx.1).blockno
      exact ⟨_, hmerged.exact page ((hexact page).mpr (hblock.symm ▸ hx)), hblock⟩
  · rcases hmerged.of_mem r hr with ⟨hp, -⟩ | ⟨page, -, rfl⟩
    · exact h.rep.lossy ((hlossy _).mp hp)
    · exact absurd hn (not_lt.mpr (Int.natCast_nonneg _))

end PgStorage.TidBitmap
