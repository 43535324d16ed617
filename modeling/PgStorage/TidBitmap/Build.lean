import PgStorage.TidBitmap.Counted

/-! Tuples added, bitmaps united, and pages turned lossy when the table is full.

`Inv` says of a bitmap that its counts are right, its table is well formed and stands for the tuples. `Fits` is the
memory limit: every step that may break it ends with `lossifyIfFull`, which restores it. -/
namespace PgStorage.TidBitmap
open List OrderedMap

structure Inv (t : TIDBitmap) (S A : Tuples) : Prop where
  counted : Counted t
  wf : Wf t.table
  rep : Rep t.table S A
  max_ge : 16 ≤ t.maxentries
  max_le : t.maxentries ≤ intMax - 1

def Fits (t : TIDBitmap) : Prop := t.nentries ≤ t.maxentries

variable {t t' a b : TIDBitmap} {m : Table} {S S' A A' Sb Ab : Tuples} {e bpage : PagetableEntry} {k p o : Nat}
  {order : List Nat}

theorem Inv.written (h : Inv t S A) (hw : Written t t' m) (hwf : Wf m) (hrep : Rep m S' A') : Inv t' S' A' where
  counted := hw.counted
  wf := hw.table ▸ hwf
  rep := hw.table ▸ hrep
  max_ge := hw.max ▸ h.max_ge
  max_le := hw.max ▸ h.max_le

theorem inv_create (maxbytes : BitVec 64) : Inv (tbmCreate maxbytes) ∅ ∅ where
  counted := ⟨rfl, rfl, rfl, nofun⟩
  wf := ⟨fun h => absurd h not_mem_nil, fun ⟨_, h, _⟩ => absurd h not_mem_nil⟩
  rep := ⟨fun ⟨_, h, _⟩ => absurd h not_mem_nil, fun h => absurd h.1 not_mem_nil, nofun, subset_rfl⟩
  max_ge := le_max_right _ _
  max_le := max_le (min_le_right _ _) (by decide)

theorem Rep.mono (h : Rep m S A) (hA : A ⊆ A') : Rep m S A' where
  lossy hl := (h.lossy hl).imp fun _ ho => hA ho
  exact := h.exact
  cover := h.cover
  sub := h.sub.trans hA

theorem Inv.mono (h : Inv t S A) (hA : A ⊆ A') : Inv t S A' :=
  ⟨h.counted, h.wf, h.rep.mono hA, h.max_ge, h.max_le⟩

/-- An exact page has a tuple. -/
theorem Rep.exact_tuple (h : Rep m S A) (hwf : Wf m) (hx : Exact m p e) : ∃ o, (p, o) ∈ S := by
  obtain ⟨i, hi⟩ := (hwf.good hx.1).nonempty hx.2
  exact ⟨i + 1, (h.exact hx _).mpr ⟨i, hi, rfl⟩⟩

/-! ### What the steps do to the tuples of one page -/

theorem Inv.mark (h : Inv t S A) (hk : k ≤ maxBlockNumber) (hother : ∀ {p o}, p ≠ k → ((p, o) ∈ S' ↔ (p, o) ∈ S))
    (hsome : ∃ o, (k, o) ∈ A) (hsub : S' ⊆ A) : Inv (tbmMarkPageLossy t k) S' A :=
  h.written (written_mark h.counted h.wf).1 (h.wf.mark hk) (h.rep.mark h.wf hother hsome hsub)

/-- On a lossy page the tuples may change. -/
theorem Inv.change (h : Inv t S A) (hl : Lossy t.table k) (hother : ∀ {p o}, p ≠ k → ((p, o) ∈ S' ↔ (p, o) ∈ S))
    (hsub : S' ⊆ A) : Inv t S' A := by
  refine ⟨h.counted, h.wf, ⟨h.rep.lossy, fun {p _} hx o => ?_, fun {p o} hs => ?_, hsub⟩, h.max_ge, h.max_le⟩
  · have hp : p ≠ k := by
      rintro rfl
      exact h.wf.apart hl hx
    exact (hother hp).trans (h.rep.exact hx o)
  · by_cases hp : p = k
    · exact .inl (hp ▸ hl)
    · exact h.rep.cover ((hother hp).mp hs)

theorem entryAt_blockno (h : Wf m) : (entryAt m k).blockno = k := by
  cases he : m.get? k with
  | none => rw [entryAt, he]; rfl
  | some e => rw [entryAt, he]; exact (h.good (get?_eq_some.mp he)).blockno

theorem free_of_entryAt (hl : ¬ Lossy m k) (hc : (entryAt m k).ischunk = false) : Free m k :=
  ⟨hl, fun _ hrow => entryAt_of_mem hrow ▸ hc⟩

/-- The bits of an exact page that may be new. -/
theorem bits_entryAt (h : Rep m S A) (hfree : Free m k) (o : Nat) :
    (k, o) ∈ S ↔ ∃ i, (entryAt m k).words.bit i = true ∧ i + 1 = o := by
  cases he : m.get? k with
  | some e =>
    have hrow := get?_eq_some.mp he
    rw [entryAt_of_mem hrow]
    exact h.exact ⟨hrow, hfree.2 e hrow⟩ o
  | none =>
    have hrow := get?_eq_none.mp he
    rw [entryAt_of_not_mem hrow]
    refine ⟨fun hs => ?_, fun ⟨i, hi, _⟩ => absurd hi (by rw [Words.bit_zero]; exact nofun)⟩
    rcases h.cover hs with hl | ⟨e, hx⟩
    · exact absurd hl hfree.1
    · exact absurd hx.1 (hrow e)

theorem offsets_entryAt (h : Wf m) (hc : (entryAt m k).ischunk = false) (i : Nat)
    (hi : (entryAt m k).words.bit i = true) : i < maxTuplesPerPage := by
  cases he : m.get? k with
  | some e =>
    have hrow := get?_eq_some.mp he
    rw [entryAt_of_mem hrow] at hc hi
    exact (h.good hrow).offsets hc i hi
  | none =>
    rw [entryAt_of_not_mem (get?_eq_none.mp he), Words.bit_zero] at hi
    exact absurd hi nofun

/-- The entry of a page, found or made, is written with the words. -/
theorem Inv.writeExact (h : Inv t S A) (hk : k ≤ maxBlockNumber) (hl : ¬ Lossy t.table k)
    (hc : (tbmGetPageentry t k).2.ischunk = false) {words : Words}
    (hlt : ∀ i, words.bit i = true → i < maxTuplesPerPage) (hne : ∃ i, words.bit i = true)
    (hother : ∀ {p o}, p ≠ k → ((p, o) ∈ S' ↔ (p, o) ∈ S))
    (hpage : ∀ o, (k, o) ∈ S' ↔ ∃ i, words.bit i = true ∧ i + 1 = o) (hsub : S' ⊆ A) :
    Inv (store (tbmGetPageentry t k).1 { (tbmGetPageentry t k).2 with words }) S' A := by
  obtain ⟨hentry, hwritten⟩ := store_getPageentry h.counted (p := k) (fun hrow => (h.wf.good hrow).blockno) words
  rw [hentry] at hc
  have hfree := free_of_entryAt hl hc
  refine h.written hwritten (h.wf.setExact hfree hc ⟨entryAt_blockno h.wf, hk, ?_, ?_, fun _ => hlt, fun _ => hne⟩)
    (h.rep.setExact hfree hc hother hpage hsub)
  · exact fun hc' => absurd (hc.symm.trans hc') nofun
  · exact fun hc' => absurd (hc.symm.trans hc') nofun

/-- The page is its chunk's header: its own bit is set, which marks it. -/
theorem Inv.writeHeader (h : Inv t S A) (hk : k ≤ maxBlockNumber) (hc : (tbmGetPageentry t k).2.ischunk = true)
    (hother : ∀ {p o}, p ≠ k → ((p, o) ∈ S' ↔ (p, o) ∈ S)) (hsome : ∃ o, (k, o) ∈ A) (hsub : S' ⊆ A) :
    Inv (store (tbmGetPageentry t k).1
      { (tbmGetPageentry t k).2 with words := (tbmGetPageentry t k).2.words.setBit 0 }) S' A := by
  obtain ⟨hentry, hwritten⟩ := store_getPageentry h.counted (p := k) (fun hrow => (h.wf.good hrow).blockno)
    ((tbmGetPageentry t k).2.words.setBit 0)
  rw [hentry] at hc
  have hmark : t.table.set k { entryAt t.table k with words := (tbmGetPageentry t k).2.words.setBit 0 } =
      PgStorage.TidBitmap.mark t.table k := by
    rw [hentry]
    cases he : t.table.get? k with
    | none =>
      rw [entryAt_of_not_mem (get?_eq_none.mp he)] at hc
      exact absurd hc nofun
    | some e =>
      have hrow := get?_eq_some.mp he
      rw [entryAt_of_mem hrow] at hc ⊢
      have hgood := h.wf.good hrow
      have hhead := hgood.aligned hc
      have hzero := header_eq_self.mp hhead
      have hwords : chunkWords t.table k = e.words := by
        rw [chunkWords, he]
        exact if_pos hc
      rw [PgStorage.TidBitmap.mark, if_neg (not_not.mpr hzero), hhead, hzero, hwords]
      refine congrArg _ ?_
      dsimp only
      rw [hgood.blockno, hc]
  rw [hmark] at hwritten
  exact h.written hwritten (h.wf.mark hk) (h.rep.mark h.wf hother hsome hsub)

/-! ### Less than the limit -/

/-- Numbers that ascend below a bound are not more than it. -/
theorem length_le_of_ascend {l : List Nat} {n : Nat} (hl : l.Pairwise (· < ·)) (hn : ∀ x ∈ l, x < n) : l.length ≤ n := by
  have hsub : l ⊆ range n := fun x hx => mem_range.mpr (hn x hx)
  have hle := (subperm_of_subset (hl.imp fun h => h.ne) hsub).length_le
  rwa [length_range] at hle

/-- A table of chunks and chunk headers is small. -/
theorem length_le_of_headers (hwf : Wf m) (hhead : ∀ {p e}, Exact m p e → header p = p) :
    m.rows.length ≤ 16777216 := by
  have hrow : ∀ r ∈ m.rows, header r.1 = r.1 ∧ r.1 ≤ maxBlockNumber := fun r hr => by
    have hgood := hwf.good (p := r.1) (e := r.2) hr
    refine ⟨?_, hgood.block_le⟩
    cases hc : r.2.ischunk with
    | true => exact hgood.aligned hc
    | false => exact hhead ⟨hr, hc⟩
  have hlen := length_le_of_ascend (l := m.rows.map fun r => r.1 / pagesPerChunk) (n := 16777216) ?_ ?_
  · rwa [length_map] at hlen
  · rw [pairwise_map]
    refine m.sorted.imp_of_mem fun hr hr' hlt => ?_
    have h₁ := header_eq_self.mp (hrow _ hr).1
    have h₂ := header_eq_self.mp (hrow _ hr').1
    rw [pagesPerChunk] at *
    omega
  · intro x hx
    obtain ⟨r, hr, rfl⟩ := mem_map.mp hx
    have hle := (hrow r hr).2
    rw [maxBlockNumber] at hle
    rw [pagesPerChunk]
    omega

theorem lossifyLoop_spec (h : Inv t S A) (hs : t.status = .hash)
    (hvisit : ∀ {p e}, Exact t.table p e → header p ≠ p → p ∈ order) :
    Inv (lossifyLoop order t) S A ∧ (lossifyLoop order t).maxentries = t.maxentries ∧
      ((lossifyLoop order t).nentries ≤ t.maxentries / 2 ∨
        ∀ {p e}, Exact (lossifyLoop order t).table p e → header p = p) := by
  induction order generalizing t with
  | nil => exact ⟨h, rfl, .inr fun {p e} hx => by_contra fun hp => absurd (hvisit hx hp) not_mem_nil⟩
  | cons key order ih =>
    have hrest : (∀ {e}, Exact t.table key e → header key = key) →
        ∀ {p e}, Exact t.table p e → header p ≠ p → p ∈ order := by
      intro hkey p e hx hp
      refine (mem_cons.mp (hvisit hx hp)).resolve_left ?_
      rintro rfl
      exact hp (hkey hx)
    rw [lossifyLoop]
    split
    next hnone =>
      rw [← table_hash hs] at hnone
      exact ih h hs (hrest fun hx => absurd hx.1 (get?_eq_none.mp hnone _))
    next page hsome =>
      rw [← table_hash hs] at hsome
      have hrow := get?_eq_some.mp hsome
      have hgood := h.wf.good hrow
      split
      next hc => exact ih h hs (hrest fun _ => hgood.aligned hc)
      next hc =>
        rw [hgood.blockno]
        split
        next h0 => exact ih h hs (hrest fun _ => header_eq_self.mpr h0)
        next h0 =>
          have hx : Exact t.table key page := ⟨hrow, Bool.eq_false_iff.mpr hc⟩
          obtain ⟨o, ho⟩ := h.rep.exact_tuple h.wf hx
          have hmark : Inv (tbmMarkPageLossy t key) S A :=
            h.mark hgood.block_le (fun _ => Iff.rfl) ⟨o, h.rep.sub ho⟩ h.rep.sub
          obtain ⟨hwritten, hhash⟩ := written_mark (k := key) h.counted h.wf
          dsimp only
          rw [hwritten.max]
          split
          next hle => exact ⟨hmark, hwritten.max, .inl hle⟩
          next =>
            have hloop := ih hmark hhash fun {p e} hx' hp => by
              rw [hwritten.table, exact_mark] at hx'
              exact (mem_cons.mp (hvisit hx'.2.2 hp)).resolve_left hx'.1
            rw [hwritten.max] at hloop
            exact hloop

theorem lossify_spec (h : Inv t S A) (hs : t.status = .hash) (heq : tbmLossify order t = some t') :
    Inv t' S A ∧ Fits t' := by
  obtain ⟨hscan, heq⟩ := Option.ite_none_right_eq_some.mp heq
  cases heq
  rw [scans, all_eq_true] at hscan
  obtain ⟨hinv, hmax, hend⟩ := lossifyLoop_spec h hs fun {p e} hx _ => by
    rw [table_hash hs] at hx
    exact of_decide_eq_true (hscan (p, e) hx.1)
  have hge := hinv.max_ge
  have hle := hinv.max_le
  rw [← hmax] at hend
  split
  next hgt =>
    have hlen := length_le_of_headers hinv.wf (hend.resolve_left (not_le.mpr hgt))
    have htotal := hinv.counted.total
    have hcast : ((lossifyLoop order t).table.rows.length : Int) ≤ 16777216 := by exact_mod_cast hlen
    rw [intMax] at hle
    have hmin : min (lossifyLoop order t).nentries ((intMax - 1) / 2) = (lossifyLoop order t).nentries :=
      min_eq_left (by rw [intMax]; omega)
    refine ⟨⟨⟨hinv.counted.entries, hinv.counted.pages, hinv.counted.chunks, hinv.counted.single⟩, hinv.wf, hinv.rep,
      ?_, ?_⟩, ?_⟩
    · dsimp only
      rw [hmin]
      omega
    · dsimp only
      rw [hmin, intMax]
      omega
    · rw [Fits]
      dsimp only
      rw [hmin]
      omega
  next hgt => exact ⟨hinv, show _ ≤ _ by omega⟩

/-- More entries than the limit are in a hash table. -/
theorem Inv.status_of_full (h : Inv t S A) (hfull : t.nentries > t.maxentries) : t.status = .hash := by
  have hge := h.max_ge
  rw [h.counted.total] at hfull
  cases hs : t.status with
  | hash => rfl
  | empty =>
    rw [table_empty hs] at hfull
    have h0 : ((empty : Table).rows.length : Int) = 0 := rfl
    omega
  | onePage =>
    rw [table_onePage hs] at hfull
    have h1 : (((empty : Table).set t.entry1.blockno t.entry1).rows.length : Int) = 1 := rfl
    omega

theorem lossifyIfFull_spec (h : Inv t S A) (heq : lossifyIfFull order t = some t') : Inv t' S A ∧ Fits t' := by
  rw [lossifyIfFull] at heq
  split at heq
  next hfull => exact lossify_spec h (h.status_of_full hfull) heq
  next hfull =>
    cases heq
    exact ⟨h, not_lt.mp hfull⟩

theorem addTuple_spec {tid : ItemPointerData} (h : Inv t S A) (hfits : Fits t)
    (heq : tbmAddTuple t tid order = some t') :
    Inv t' (insert (tid.block, tid.offset) S) (insert (tid.block, tid.offset) A) ∧ Fits t' := by
  have hA : A ⊆ insert (tid.block, tid.offset) A := Set.subset_insert _ _
  have hsub : insert (tid.block, tid.offset) S ⊆ insert (tid.block, tid.offset) A := Set.insert_subset_insert h.rep.sub
  have hother : ∀ {p o}, p ≠ tid.block → ((p, o) ∈ insert (tid.block, tid.offset) S ↔ (p, o) ∈ S) := fun hp =>
    or_iff_right fun he => hp (congrArg Prod.fst he)
  have h := h.mono hA
  obtain ⟨hoff, heq⟩ := Option.ite_none_left_eq_some.mp heq
  rw [not_or, not_lt, not_lt] at hoff
  split at heq
  next hl =>
    cases heq
    exact ⟨h.change ((pageIsLossy_iff h.counted).mp hl) hother hsub, hfits⟩
  next hl =>
    rw [pageIsLossy_iff h.counted] at hl
    dsimp only at heq
    split at heq
    next hc =>
      exact lossifyIfFull_spec (h.writeHeader tid.block_le hc hother ⟨tid.offset, .inl rfl⟩ hsub) heq
    next hc =>
      have hc := Bool.eq_false_iff.mpr hc
      have hentry := (store_getPageentry h.counted (p := tid.block) (fun hrow => (h.wf.good hrow).blockno) .zero).1
      refine lossifyIfFull_spec (h.writeExact tid.block_le hl hc (fun i hi => ?_) ⟨tid.offset - 1, ?_⟩ hother
        (fun o => ?_) hsub) heq
      · rw [Words.bit_setBit, Bool.or_eq_true, decide_eq_true_eq] at hi
        rcases hi with rfl | hi
        · omega
        · rw [hentry] at hc hi
          exact offsets_entryAt h.wf hc i hi
      · rw [Words.bit_setBit, decide_eq_true rfl, Bool.true_or]
      · rw [hentry] at hc ⊢
        rw [Set.mem_insert_iff, bits_entryAt h.rep (free_of_entryAt hl hc), Prod.mk.injEq]
        simp only [Words.bit_setBit, Bool.or_eq_true, decide_eq_true_eq, or_and_right, exists_or, exists_eq_left]
        refine or_congr_left ?_
        rw [true_and]
        omega

theorem addTuples_spec {tids : List (ItemPointerData × List Nat)} (h : Inv t S A) (hfits : Fits t)
    (heq : tbmAddTuples t tids = some t') :
    Inv t' (S ∪ {x | ∃ r ∈ tids, x = (r.1.block, r.1.offset)}) (A ∪ {x | ∃ r ∈ tids, x = (r.1.block, r.1.offset)}) ∧
      Fits t' := by
  induction tids generalizing t S A with
  | nil =>
    cases heq
    have hnone : {x : Nat × Nat | ∃ r ∈ ([] : List (ItemPointerData × List Nat)), x = (r.1.block, r.1.offset)} = ∅ :=
      Set.eq_empty_of_forall_notMem fun x ⟨_, hr, _⟩ => not_mem_nil hr
    rw [hnone, Set.union_empty, Set.union_empty]
    exact ⟨h, hfits⟩
  | cons r tids ih =>
    rw [tbmAddTuples, foldlM_cons] at heq
    obtain ⟨t₁, h₁, heq⟩ := Option.bind_eq_some_iff.mp heq
    obtain ⟨hinv, hfits₁⟩ := addTuple_spec h hfits h₁
    have hcons : ∀ T : Tuples, T ∪ {x | ∃ r' ∈ r :: tids, x = (r'.1.block, r'.1.offset)} =
        insert (r.1.block, r.1.offset) T ∪ {x | ∃ r' ∈ tids, x = (r'.1.block, r'.1.offset)} := fun T => by
      ext x
      simp only [Set.mem_union, Set.mem_ofPred_eq, mem_cons, exists_eq_or_imp, Set.mem_insert_iff]
      rw [or_left_comm, or_assoc]
    rw [hcons, hcons]
    exact ih hinv hfits₁ heq

/-- The pages of an entry. -/
def Holds (e : PagetableEntry) (p : Nat) : Prop :=
  if e.ischunk then p ∈ e.words.setBits e.blockno else p = e.blockno

/-- The pages of a chunk are lossy. -/
theorem lossy_of_holds (h : Wf m) (hrow : (k, e) ∈ m.rows) (hc : e.ischunk = true) (hp : Holds e p) : Lossy m p := by
  rw [Holds, if_pos hc, Words.mem_setBits] at hp
  obtain ⟨i, -, hi, rfl⟩ := hp
  have hgood := h.good hrow
  obtain ⟨hhead, hmod⟩ := header_add (hgood.aligned hc) (hgood.pages hc i hi)
  rw [hgood.blockno]
  exact ⟨e, hhead.symm ▸ hrow, hc, hmod.symm ▸ hi⟩

theorem Lossy.holds (h : Wf m) (hl : Lossy m p) : ∃ k e, (k, e) ∈ m.rows ∧ Holds e p := by
  obtain ⟨e, hrow, hc, hb⟩ := hl
  have hgood := h.good hrow
  refine ⟨header p, e, hrow, ?_⟩
  rw [Holds, if_pos hc, Words.mem_setBits]
  exact ⟨_, hgood.page_lt _ hb, hb, by rw [hgood.blockno, header_mod]⟩

theorem Lossy.le (h : Wf m) (hl : Lossy m p) : p ≤ maxBlockNumber := by
  obtain ⟨e, hrow, -, -⟩ := hl
  have hle := (h.good hrow).block_le
  have hmod : p % pagesPerChunk < pagesPerChunk := Nat.mod_lt _ (by decide)
  rw [header, maxBlockNumber] at hle
  rw [pagesPerChunk] at hle hmod
  rw [maxBlockNumber]
  omega

/-- The tuples of `Sb` on some pages are added. -/
def uniteOn (S Sb : Tuples) (D : Nat → Prop) : Tuples := S ∪ {x | x ∈ Sb ∧ D x.1}

theorem uniteOn_other (Sb : Tuples) {D : Nat → Prop} (hD : ∀ p, D p ↔ p = k) (hp : p ≠ k) :
    (p, o) ∈ uniteOn S Sb D ↔ (p, o) ∈ S :=
  or_iff_left fun hx => hp ((hD p).mp hx.2)

theorem uniteOn_sub {D : Nat → Prop} (hS : S ⊆ A) (hb : Sb ⊆ A) : uniteOn S Sb D ⊆ A :=
  Set.union_subset hS fun _ hx => hb hx.1

theorem uniteOn_uniteOn {D D' : Nat → Prop} : uniteOn (uniteOn S Sb D) Sb D' = uniteOn S Sb fun p => D p ∨ D' p := by
  ext x
  simp only [uniteOn, Set.mem_union, Set.mem_ofPred_eq, and_or_left, or_assoc]

theorem uniteOn_none {D : Nat → Prop} (hD : ∀ p, ¬ D p) : uniteOn S Sb D = S :=
  Set.union_eq_left.mpr fun x hx => absurd hx.2 (hD x.1)

/-- The pages of a chunk are marked one after the other. -/
theorem foldl_mark_spec {l : List Nat} (h : Inv a S A) (hb : Sb ⊆ A) (hl : ∀ p ∈ l, p ≤ maxBlockNumber ∧ ∃ o, (p, o) ∈ A) :
    Inv (l.foldl tbmMarkPageLossy a) (uniteOn S Sb fun p => p ∈ l) A := by
  induction l generalizing a S with
  | nil =>
    rw [uniteOn_none fun p hp => not_mem_nil hp]
    exact h
  | cons k l ih =>
    obtain ⟨hk, hsome⟩ := hl k mem_cons_self
    have hmark := h.mark hk (uniteOn_other Sb (fun _ => Iff.rfl)) hsome
      (uniteOn_sub h.rep.sub hb)
    have hrest := ih hmark fun p hp => hl p (mem_cons_of_mem _ hp)
    rw [uniteOn_uniteOn] at hrest
    simp only [mem_cons]
    exact hrest

theorem unionPage_spec (h : Inv a S A) (hfits : Fits a) (hb : Inv b Sb Ab) (hA : Ab ⊆ A)
    (hrow : (k, bpage) ∈ b.table.rows) (heq : tbmUnionPage a bpage order = some t') :
    Inv t' (uniteOn S Sb (Holds bpage)) A ∧ Fits t' := by
  have hgood := hb.wf.good hrow
  have hsubA := hb.rep.sub.trans hA
  rw [tbmUnionPage] at heq
  split at heq
  next hc =>
    have hD : Holds bpage = fun p => p ∈ bpage.words.setBits bpage.blockno := funext fun p => if_pos hc
    refine lossifyIfFull_spec (hD ▸ foldl_mark_spec h hsubA fun p hp => ?_) heq
    have hl := lossy_of_holds hb.wf hrow hc (by rw [hD]; exact hp)
    exact ⟨hl.le hb.wf, (hb.rep.lossy hl).imp fun _ ho => hA ho⟩
  next hc =>
    have hc := Bool.eq_false_iff.mpr hc
    have hblock := hgood.blockno
    have hD : ∀ p, Holds bpage p ↔ p = k := fun p => by
      rw [Holds, hc, hblock]
      exact Iff.rfl
    have hother : ∀ {p o}, p ≠ k → ((p, o) ∈ uniteOn S Sb (Holds bpage) ↔ (p, o) ∈ S) := uniteOn_other Sb hD
    have hsub := uniteOn_sub (D := Holds bpage) h.rep.sub hsubA
    have hx : Exact b.table k bpage := ⟨hrow, hc⟩
    rw [hblock] at heq
    split at heq
    next hl =>
      cases heq
      exact ⟨h.change ((pageIsLossy_iff h.counted).mp hl) hother hsub, hfits⟩
    next hl =>
      rw [pageIsLossy_iff h.counted] at hl
      dsimp only at heq
      split at heq
      next hca =>
        have hsome : ∃ o, (k, o) ∈ A := (hb.rep.exact_tuple hb.wf hx).imp fun _ ho => hsubA ho
        exact lossifyIfFull_spec (h.writeHeader hgood.block_le hca hother hsome hsub) heq
      next hca =>
        have hca := Bool.eq_false_iff.mpr hca
        have hentry := (store_getPageentry h.counted (p := k) (fun hr => (h.wf.good hr).blockno) .zero).1
        have hmerge : ∀ i, ((tbmGetPageentry a k).2.words.merge bpage.words).bit i =
            ((tbmGetPageentry a k).2.words.bit i || bpage.words.bit i) := fun i => Words.bit_merge hgood.page_lt
        obtain ⟨i, hi⟩ := hgood.nonempty hc
        refine lossifyIfFull_spec (h.writeExact hgood.block_le hl hca (fun j hj => ?_) ⟨i, ?_⟩ hother (fun o => ?_)
          hsub) heq
        · rw [hmerge, Bool.or_eq_true] at hj
          rw [hentry] at hj hca
          exact hj.elim (offsets_entryAt h.wf hca j) (hgood.offsets hc j)
        · rw [hmerge, hi, Bool.or_true]
        · rw [hentry] at hca
          simp only [hmerge, Bool.or_eq_true, or_and_right, exists_or]
          rw [hentry, ← bits_entryAt h.rep (free_of_entryAt hl hca), ← hb.rep.exact hx]
          exact or_congr_right (and_iff_left ((hD k).mpr rfl))

/-- The pages of the entries a scan visits. -/
def Visited (m : Table) (keys : List Nat) (p : Nat) : Prop := ∃ k ∈ keys, ∃ e, (k, e) ∈ m.rows ∧ Holds e p

theorem unionLoop_spec {visits : List (Nat × List Nat)} (h : Inv a S A) (hfits : Fits a) (hb : Inv b Sb Ab) (hA : Ab ⊆ A)
    (hs : b.status = .hash) (heq : unionLoop b a visits = some t') :
    Inv t' (uniteOn S Sb (Visited b.table (visits.map Prod.fst))) A ∧ Fits t' := by
  induction visits generalizing a S with
  | nil =>
    cases heq
    rw [uniteOn_none fun p ⟨_, hk, _⟩ => not_mem_nil hk]
    exact ⟨h, hfits⟩
  | cons visit visits ih =>
    rw [unionLoop, foldlM_cons] at heq
    obtain ⟨t₁, h₁, heq⟩ := Option.bind_eq_some_iff.mp heq
    have hcons : ∀ D : Nat → Prop, (∀ p, D p ↔ ∃ e, (visit.1, e) ∈ b.table.rows ∧ Holds e p) →
        Visited b.table ((visit :: visits).map Prod.fst) = fun p => D p ∨ Visited b.table (visits.map Prod.fst) p :=
      fun D hD => funext fun p => propext <| by
        rw [hD, Visited, map_cons]
        simp only [mem_cons, exists_eq_or_imp]
        rfl
    rw [table_hash hs] at hcons
    split at h₁
    next hnone =>
      cases h₁
      rw [table_hash hs, hcons (fun _ => False) fun p => ⟨nofun, fun ⟨e, hrow, _⟩ =>
        absurd hrow (get?_eq_none.mp hnone e)⟩]
      simp only [false_or]
      rw [← table_hash hs]
      exact ih h hfits heq
    next bpage hsome =>
      have hrow := get?_eq_some.mp hsome
      obtain ⟨hinv, hfits₁⟩ := unionPage_spec h hfits hb hA (table_hash hs ▸ hrow) h₁
      have hrest := ih hinv hfits₁ heq
      rw [uniteOn_uniteOn, table_hash hs] at hrest
      rw [table_hash hs, hcons (Holds bpage) fun p => ⟨fun hp => ⟨bpage, hrow, hp⟩, fun ⟨e, he, hp⟩ =>
        value_unique b.pagetable.sorted he hrow ▸ hp⟩]
      exact hrest

/-- Every tuple is on a page of some entry. -/
theorem Rep.holds (h : Rep m S A) (hwf : Wf m) (hs : (p, o) ∈ S) : ∃ k e, (k, e) ∈ m.rows ∧ Holds e p := by
  rcases h.cover hs with hl | ⟨e, hrow, hc⟩
  · exact hl.holds hwf
  · refine ⟨p, e, hrow, ?_⟩
    rw [Holds, hc, (hwf.good hrow).blockno]
    rfl

theorem union_spec {visits : List (Nat × List Nat)} (ha : Inv a S A) (hfits : Fits a) (hb : Inv b Sb Ab)
    (heq : tbmUnion a b visits = some t') : Inv t' (S ∪ Sb) (A ∪ Ab) ∧ Fits t' := by
  have h : Inv a S (A ∪ Ab) := ha.mono Set.subset_union_left
  have hA : Ab ⊆ A ∪ Ab := Set.subset_union_right
  have hall : ∀ D : Nat → Prop, (∀ {p o}, (p, o) ∈ Sb → D p) → uniteOn S Sb D = S ∪ Sb := fun D hD => by
    rw [uniteOn]
    refine congrArg (S ∪ ·) (Set.ext fun x => and_iff_left_of_imp fun hx => hD (o := x.2) hx)
  rw [tbmUnion] at heq
  split at heq
  next h0 =>
    cases heq
    have hlen := hb.counted.total
    rw [h0, eq_comm, Int.natCast_eq_zero, length_eq_zero_iff] at hlen
    have hempty : Sb = ∅ := Set.eq_empty_of_forall_notMem fun x hx => by
      obtain ⟨k, e, hrow, -⟩ := hb.rep.holds hb.wf (p := x.1) (o := x.2) hx
      exact absurd (hlen ▸ hrow) not_mem_nil
    rw [hempty, Set.union_empty]
    exact ⟨h, hfits⟩
  next h0 =>
    split at heq
    next hs =>
      obtain ⟨visit, -, heq⟩ := Option.bind_eq_some_iff.mp heq
      have hrow : (b.entry1.blockno, b.entry1) ∈ b.table.rows := (mem_table_onePage hs).mpr ⟨rfl, rfl⟩
      have hpage := unionPage_spec h hfits hb hA hrow heq
      rwa [hall _ fun hx => ?_] at hpage
      obtain ⟨k, e, hrow', hp⟩ := hb.rep.holds hb.wf hx
      exact ((mem_table_onePage hs).mp hrow').2 ▸ hp
    next hs =>
      have hhash : b.status = .hash := by
        cases hst : b.status with
        | hash => rfl
        | onePage => exact absurd hst hs
        | empty =>
          rw [hb.counted.total, table_empty hst] at h0
          exact absurd rfl h0
      obtain ⟨hscan, heq⟩ := Option.ite_none_right_eq_some.mp heq
      rw [scans, all_eq_true] at hscan
      have hloop := unionLoop_spec h hfits hb hA hhash heq
      rwa [hall _ fun hx => ?_] at hloop
      obtain ⟨k, e, hrow, hp⟩ := hb.rep.holds hb.wf hx
      rw [table_hash hhash] at hrow ⊢
      exact ⟨k, of_decide_eq_true (hscan (k, e) hrow), e, hrow, hp⟩

end PgStorage.TidBitmap
