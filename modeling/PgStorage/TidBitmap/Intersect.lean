import PgStorage.TidBitmap.Build

/-! Bitmaps intersected.

Pages of `a` are visited one after the other while pages that are lossy in `b` change its table. `Mid` is the state
of the scan: the tuples are between the intersection and those of `a`, and a page whose entry is still to be visited
is all that keeps others. -/
namespace PgStorage.TidBitmap
open List OrderedMap

variable {t a b a' : TIDBitmap} {m m' : Table} {S Sa Sb A Ab : Tuples} {e f : PagetableEntry} {k p o : Nat}
  {order pending : List Nat}

/-- The page has an entry or a bit. -/
def inBitmap (b : TIDBitmap) (p : Nat) : Bool := tbmPageIsLossy b p || (tbmFindPageentry b p).isSome

theorem inBitmap_iff (h : Counted b) : inBitmap b p = true ↔ Lossy b.table p ∨ ∃ e, Exact b.table p e := by
  rw [inBitmap, Bool.or_eq_true, pageIsLossy_iff h, findPageentry_isSome h]

/-- The table after the visit of an entry, with the entry removed if it is empty. -/
def intersectTable (m : Table) (k : Nat) (e : PagetableEntry) (b : TIDBitmap) : Table :=
  if e.ischunk then
    let words := e.words.clearBits (inBitmap b) e.blockno
    if words.allZero then m.erase k else m.set k { e with words }
  else if tbmPageIsLossy b k then mark m k
  else
    match tbmFindPageentry b k with
    | none => m.erase k
    | some f =>
      let words := e.words.intersect f.words
      if words.allZero then m.erase k else m.set k { e with words }

theorem getPageentry_of_mem (hrow : (k, e) ∈ t.table.rows) : tbmGetPageentry t k = (t, e) := by
  rw [tbmGetPageentry]
  cases hs : t.status with
  | empty =>
    rw [table_empty hs] at hrow
    exact absurd hrow not_mem_nil
  | onePage =>
    obtain ⟨rfl, rfl⟩ := (mem_table_onePage hs).mp hrow
    exact if_pos rfl
  | hash =>
    rw [table_hash hs] at hrow
    dsimp only
    rw [enterPageentry, get?_eq_some.mpr hrow]

theorem store_written (h : Counted t) (hrow : (k, e) ∈ t.table.rows) (hblock : e.blockno = k) (words : Words) :
    Written t (store t { e with words }) (t.table.set k { e with words }) := by
  have hwritten := (store_getPageentry h (p := k) (fun hrow' =>
    value_unique t.table.sorted hrow hrow' ▸ hblock) words).2
  rw [getPageentry_of_mem hrow, entryAt_of_mem hrow] at hwritten
  exact hwritten

theorem status_store : (store t e).status = t.status := by
  rw [store]
  split <;> rfl

/-- A visit changes the table in one of a few ways, if an entry can be removed. -/
theorem written_intersect (remove : TIDBitmap → TIDBitmap) (h : Counted a) (hwf : Wf a.table)
    (hrow : (k, e) ∈ a.table.rows)
    (hremove : ∀ {t e'}, t.status = a.status → Counted t → (k, e') ∈ t.table.rows → e'.ischunk = e.ischunk →
      Written t (remove t) (t.table.erase k)) :
    Written a (if (tbmIntersectPage a e b).2 then remove (tbmIntersectPage a e b).1 else (tbmIntersectPage a e b).1)
      (intersectTable a.table k e b) := by
  obtain rfl : e.blockno = k := (hwf.good hrow).blockno
  have hstore : ∀ words : Words, Written a (if words.allZero then remove (store a { e with words })
      else store a { e with words }) (if words.allZero then a.table.erase e.blockno else a.table.set e.blockno { e with words }) := by
    intro words
    have hw := store_written h hrow rfl words
    split
    · refine hw.trans ?_
      have hmem : (e.blockno, { e with words }) ∈ (store a { e with words }).table.rows := by
        rw [hw.table]
        exact mem_set.mpr (.inl ⟨rfl, rfl⟩)
      have herase := hremove status_store hw.counted hmem rfl
      rw [hw.table, erase_set] at herase
      exact herase
    · exact hw
  rw [tbmIntersectPage, intersectTable]
  split
  next => exact hstore _
  next =>
    split
    next => exact (written_mark h hwf).1
    next =>
      cases tbmFindPageentry b e.blockno with
      | none => exact hremove rfl h hrow rfl
      | some f => exact hstore _

theorem written_removeEmpty (h : Counted t) (hs : t.status = .hash) (hrow : (k, e) ∈ t.table.rows)
    (hk : f.blockno = k) (hc : e.ischunk = f.ischunk) : Written t (removeEmpty t f) (t.table.erase k) := by
  have hentries := h.entries
  have hpages := h.pages
  have hchunks := h.chunks
  have hp := count_erase (P := fun e => !e.ischunk) hrow
  have hch := count_erase (P := fun e => e.ischunk) hrow
  rw [table_hash hs] at hpages hchunks hp hch ⊢
  subst hk
  rw [hc] at hp hch
  cases hf : f.ischunk <;> simp only [hf, Bool.not_true, Bool.not_false, Bool.false_eq_true, if_true, if_false] at hp hch
  · refine written_hash hs rfl rfl ?_ ?_ ?_ <;> simp only [removeEmpty, hf, Bool.false_eq_true, if_false] <;> omega
  · refine written_hash hs rfl rfl ?_ ?_ ?_ <;> simp only [removeEmpty, hf, if_true] <;> omega

/-! ### One visit -/

structure Mid (m : Table) (S Sa Sb A : Tuples) (pending : List Nat) : Prop where
  wf : Wf m
  rep : Rep m S A
  lower : Sa ∩ Sb ⊆ S
  upper : S ⊆ Sa
  lossy : ∀ {p}, Lossy m p → header p ∈ pending ∨ ∀ o, (p, o) ∈ S → (p, o) ∈ Sb
  exact : ∀ {p e}, Exact m p e → p ∈ pending ∨ ∀ o, (p, o) ∈ S → (p, o) ∈ Sb

/-- The pages visited keep the tuples of `Sb` only. -/
def keepOn (S Sb : Tuples) (D : Nat → Prop) : Tuples := {x | x ∈ S ∧ (D x.1 → x ∈ Sb)}

variable {D : Nat → Prop} {a₀ : TIDBitmap}

/-- A visit that is done with some pages: the entries left are others, that were there before. -/
theorem Mid.visit (h : Mid m S Sa Sb A (k :: pending)) (hwf : Wf m') (hrep : Rep m' (keepOn S Sb D) A)
    (hlossy : ∀ {p}, Lossy m' p → D p ∨ header p ≠ k ∧ Lossy m p ∨ p ≠ k ∧ header p = p ∧ ∃ e, Exact m p e)
    (hexact : ∀ {p e}, Exact m' p e → D p ∨ p ≠ k ∧ ∃ e, Exact m p e) : Mid m' (keepOn S Sb D) Sa Sb A pending where
  wf := hwf
  rep := hrep
  lower _ hx := ⟨h.lower hx, fun _ => hx.2⟩
  upper _ hx := h.upper hx.1
  lossy {p} hl := by
    rcases hlossy hl with hD | ⟨hne, hl⟩ | ⟨hne, hhead, e, hx⟩
    · exact .inr fun o hs => hs.2 hD
    · exact (h.lossy hl).imp (fun hp => (mem_cons.mp hp).resolve_left hne) fun hdone o hs => hdone o hs.1
    · rw [hhead]
      exact (h.exact hx).imp (fun hp => (mem_cons.mp hp).resolve_left hne) fun hdone o hs => hdone o hs.1
  exact hx := by
    rcases hexact hx with hD | ⟨hne, e, hx⟩
    · exact .inr fun o hs => hs.2 hD
    · exact (h.exact hx).imp (fun hp => (mem_cons.mp hp).resolve_left hne) fun hdone o hs => hdone o hs.1

theorem keepOn_other (hp : ¬ D p) : (p, o) ∈ keepOn S Sb D ↔ (p, o) ∈ S :=
  and_iff_left fun hD => absurd hD hp

theorem keepOn_page (hp : D p) : (p, o) ∈ keepOn S Sb D ↔ (p, o) ∈ S ∧ (p, o) ∈ Sb :=
  and_congr_right fun _ => ⟨fun h => h hp, fun h _ => h⟩

/-- A chunk whose pages outside of `b` are gone. -/
theorem rep_chunk (h : Rep m S A) (hwf : Wf m) (hb : Inv b Sb Ab)
    (hlossy : ∀ {p}, Lossy m' p ↔ Lossy m p ∧ (header p = k → inBitmap b p = true))
    (hexact : ∀ {p e}, Exact m' p e ↔ Exact m p e) :
    Rep m' (keepOn S Sb fun p => header p = k ∧ Lossy m p) A where
  lossy hl := h.lossy (hlossy.mp hl).1
  exact hx o := by
    rw [keepOn_other fun hD => hwf.apart hD.2 (hexact.mp hx)]
    exact h.exact (hexact.mp hx) o
  cover := by
    rintro p o ⟨hs, hD⟩
    rcases h.cover hs with hl | ⟨e, hx⟩
    · refine .inl (hlossy.mpr ⟨hl, fun hk => ?_⟩)
      rw [inBitmap_iff hb.counted]
      exact hb.rep.cover (hD ⟨hk, hl⟩)
    · exact .inr ⟨e, hexact.mpr hx⟩
  sub _ hx := h.sub hx.1

theorem lossy_erase_exact (hx : Exact m k e) : Lossy (m.erase k) p ↔ Lossy m p := by
  rw [lossy_erase, and_iff_right_iff_imp]
  rintro ⟨e', hrow, hc, -⟩ rfl
  rw [hx.unique hrow, hx.2] at hc
  exact absurd hc nofun

/-- An exact page without a tuple left is removed. -/
theorem rep_erase (h : Rep m S A) (hx : Exact m k e) (hnone : ∀ o, (k, o) ∈ S → (k, o) ∉ Sb) :
    Rep (m.erase k) (keepOn S Sb fun p => p = k) A where
  lossy hl := h.lossy ((lossy_erase_exact hx).mp hl)
  exact hx' o := by
    obtain ⟨hp, hx'⟩ := exact_erase.mp hx'
    rw [keepOn_other (D := fun p => p = k) hp]
    exact h.exact hx' o
  cover := by
    rintro p o ⟨hs, hD⟩
    have hp : p ≠ k := by
      rintro rfl
      exact hnone o hs (hD rfl)
    rcases h.cover hs with hl | ⟨e', hx'⟩
    · exact .inl ((lossy_erase_exact hx).mpr hl)
    · exact .inr ⟨e', exact_erase.mpr ⟨hp, hx'⟩⟩
  sub _ hs := h.sub hs.1

/-- The chunk of a lossy page is not an exact page. -/
theorem header_ne_of_exact (hx : Exact m k e) (hl : Lossy m p) : header p ≠ k := by
  rintro rfl
  obtain ⟨e', hrow, hc, -⟩ := hl
  rw [hx.unique hrow, hx.2] at hc
  exact absurd hc nofun

section
variable (h : Mid m S Sa Sb A (k :: pending))
include h

theorem mid_chunk (hb : Inv b Sb Ab) (hrow : (k, e) ∈ m.rows)
    (hc : e.ischunk = true) {words : Words} (hwords : ∀ i, words.bit i = (e.words.bit i && inBitmap b (k + i))) :
    Mid (if words.allZero then m.erase k else m.set k { e with words })
      (keepOn S Sb fun p => header p = k ∧ Lossy m p) Sa Sb A pending := by
  have hkey : ∀ {p e'}, Exact m p e' → p ≠ k := by
    rintro p e' hx rfl
    have hc' := hx.2
    rw [← hx.unique hrow, hc] at hc'
    exact absurd hc' nofun
  have hwf := h.wf.thin hrow hc hwords
  have hlossy := fun p => lossy_thin (p := p) hrow hc hwords
  have hexact : ∀ p e', Exact (m.set k { e with words }) p e' ↔ Exact m p e' := fun p e' => exact_thin hrow hc
  have hboth : ∃ m', m' = (if words.allZero then m.erase k else m.set k { e with words }) ∧ Wf m' ∧
      (∀ {p}, Lossy m' p ↔ Lossy m p ∧ (header p = k → inBitmap b p = true)) ∧
      ∀ {p e'}, Exact m' p e' ↔ Exact m p e' := by
    refine ⟨_, rfl, ?_⟩
    split
    next hzero =>
      have hthin : (m.set k { e with words }).erase k = m.erase k := erase_set
      have hbits : ∀ i, words.bit i = false := fun i => by
        by_cases hi : i < 320
        · exact Words.allZero_iff.mp hzero i hi
        · rw [hwords, Bool.eq_false_iff.mpr fun hb => hi ((h.wf.good hrow).page_lt i hb), Bool.false_and]
      rw [← hthin]
      refine ⟨hwf.erase, fun {p} => ?_, fun {p e'} => ?_⟩
      · rw [lossy_erase_zero (mem_set.mpr (.inl ⟨rfl, rfl⟩)) hbits]
        exact hlossy p
      · rw [exact_erase, hexact, and_iff_right_iff_imp]
        exact hkey
    next => exact ⟨hwf, fun {p} => hlossy p, fun {p e'} => hexact p e'⟩
  obtain ⟨m', rfl, hwf', hlossy', hexact'⟩ := hboth
  refine h.visit hwf' (rep_chunk h.rep h.wf hb hlossy' hexact') (fun {p} hl => ?_) fun hx => ?_
  · have hl := (hlossy'.mp hl).1
    by_cases hp : header p = k
    · exact .inl ⟨hp, hl⟩
    · exact .inr (.inl ⟨hp, hl⟩)
  · have hx := hexact'.mp hx
    exact .inr ⟨hkey hx, _, hx⟩

theorem mid_erase (hx : Exact m k e) (hnone : ∀ o, (k, o) ∈ S → (k, o) ∉ Sb) :
    Mid (m.erase k) (keepOn S Sb fun p => p = k) Sa Sb A pending := by
  refine h.visit h.wf.erase (rep_erase h.rep hx hnone) (fun hl => ?_) fun hx' => ?_
  · have hl := (lossy_erase_exact hx).mp hl
    exact .inr (.inl ⟨header_ne_of_exact hx hl, hl⟩)
  · obtain ⟨hp, hx'⟩ := exact_erase.mp hx'
    exact .inr ⟨hp, _, hx'⟩

theorem mid_mark (hx : Exact m k e) :
    Mid (mark m k) (keepOn S Sb fun p => p = k) Sa Sb A pending := by
  obtain ⟨o, ho⟩ := h.rep.exact_tuple h.wf hx
  refine h.visit (h.wf.mark (h.wf.good hx.1).block_le)
    (h.rep.mark h.wf (fun hp => keepOn_other hp) ⟨o, h.rep.sub ho⟩ fun _ hs => h.rep.sub hs.1) (fun {p} hl => ?_)
    fun {p _} hx' => ?_
  · rcases lossy_mark.mp hl with hp | hl | ⟨hp, e', hx'⟩
    · exact .inl hp
    · exact .inr (.inl ⟨header_ne_of_exact hx hl, hl⟩)
    · by_cases hpk : p = k
      · exact .inl hpk
      · refine .inr (.inr ⟨hpk, ?_, e', hx'⟩)
        rw [hp, header_header]
  · obtain ⟨hp, -, hx'⟩ := exact_mark.mp hx'
    exact .inr ⟨hp, _, hx'⟩

theorem mid_set (hx : Exact m k e) {words : Words}
    (hwords : ∀ i, words.bit i = true → e.words.bit i = true) (hne : ∃ i, words.bit i = true)
    (hpage : ∀ o, (k, o) ∈ S ∧ (k, o) ∈ Sb ↔ ∃ i, words.bit i = true ∧ i + 1 = o) :
    Mid (m.set k { e with words }) (keepOn S Sb fun p => p = k) Sa Sb A pending := by
  have hgood := h.wf.good hx.1
  have hfree : Free m k := ⟨fun hl => h.wf.apart hl hx, fun e' hrow => hx.unique hrow ▸ hx.2⟩
  have hchunk : ∀ {α : Prop}, e.ischunk = true → α := fun hc => absurd (hx.2.symm.trans hc) nofun
  have hexact : ({ e with words } : PagetableEntry).ischunk = false := hx.2
  refine h.visit (h.wf.setExact hfree hexact ⟨hgood.blockno, hgood.block_le, hchunk, hchunk,
    fun _ i hi => hgood.offsets hx.2 i (hwords i hi), fun _ => hne⟩)
    (h.rep.setExact hfree hexact (fun hp => keepOn_other hp) (fun o => (keepOn_page rfl).trans (hpage o))
      fun _ hs => h.rep.sub hs.1) (fun hl => ?_) fun {p _} hx' => ?_
  · have hl := (lossy_set_exact hfree hexact).mp hl
    exact .inr (.inl ⟨header_ne_of_exact hx hl, hl⟩)
  · rcases exact_set.mp hx' with ⟨hp, -⟩ | ⟨hp, hx'⟩
    · exact .inl hp
    · exact .inr ⟨hp, _, hx'⟩

/-- What a visit leaves pending. -/
theorem mid_visit (hb : Inv b Sb Ab) (hrow : (k, e) ∈ m.rows) :
    ∃ S', Mid (intersectTable m k e b) S' Sa Sb A pending := by
  have hgood := h.wf.good hrow
  rw [intersectTable]
  split
  next hc =>
    refine ⟨_, mid_chunk h hb hrow hc fun i => ?_⟩
    rw [Words.bit_clearBits hgood.page_lt, hgood.blockno]
  next hc =>
    have hx : Exact m k e := ⟨hrow, Bool.eq_false_iff.mpr hc⟩
    split
    next => exact ⟨_, mid_mark h hx⟩
    next hl =>
      rw [pageIsLossy_iff hb.counted] at hl
      cases hfind : tbmFindPageentry b k with
      | none =>
        refine ⟨_, mid_erase h hx fun o _ hs => ?_⟩
        rcases hb.rep.cover hs with hl' | ⟨f, hf⟩
        · exact hl hl'
        · rw [(findPageentry_eq_some hb.counted).mpr hf] at hfind
          exact absurd hfind nofun
      | some f =>
        have hf := (findPageentry_eq_some hb.counted).mp hfind
        have hbit : ∀ i, (e.words.intersect f.words).bit i = (e.words.bit i && f.words.bit i) := fun i =>
          Words.bit_intersect hgood.page_lt
        have hpage : ∀ o, (k, o) ∈ S ∧ (k, o) ∈ Sb ↔ ∃ i, (e.words.intersect f.words).bit i = true ∧ i + 1 = o := by
          intro o
          rw [h.rep.exact hx, hb.rep.exact hf]
          simp only [hbit, Bool.and_eq_true]
          constructor
          · rintro ⟨⟨i, hi, rfl⟩, j, hj, hij⟩
            exact ⟨i, ⟨hi, Nat.add_right_cancel hij ▸ hj⟩, rfl⟩
          · rintro ⟨i, ⟨hi, hj⟩, rfl⟩
            exact ⟨⟨i, hi, rfl⟩, i, hj, rfl⟩
        dsimp only
        split
        next hzero =>
          refine ⟨_, mid_erase h hx fun o hs hsb => ?_⟩
          obtain ⟨i, hi, -⟩ := (hpage o).mp ⟨hs, hsb⟩
          have hi' := hi
          rw [hbit, Bool.and_eq_true] at hi'
          rw [Words.allZero_iff.mp hzero i (hgood.page_lt i hi'.1)] at hi
          exact absurd hi nofun
        next hzero =>
          have hne : ∃ i, (e.words.intersect f.words).bit i = true := by
            by_contra hall
            exact hzero (Words.allZero_iff.mpr fun i _ => Bool.eq_false_iff.mpr fun hi => hall ⟨i, hi⟩)
          refine ⟨_, mid_set h hx (fun i hi => ?_) hne hpage⟩
          rw [hbit, Bool.and_eq_true] at hi
          exact hi.1

/-- A key that is gone is passed over. -/
theorem Mid.pass (hk : ∀ e, (k, e) ∉ m.rows) : Mid m S Sa Sb A pending where
  wf := h.wf
  rep := h.rep
  lower := h.lower
  upper := h.upper
  lossy {p} hl := by
    refine (h.lossy hl).imp_left fun hp => (mem_cons.mp hp).resolve_left ?_
    rintro rfl
    obtain ⟨e, hrow, -⟩ := hl
    exact hk e hrow
  exact {p e} hx := by
    refine (h.exact hx).imp_left fun hp => (mem_cons.mp hp).resolve_left ?_
    rintro rfl
    exact hk e hx.1

end

/-- With nothing pending the tuples are those of both. -/
theorem Mid.done (h : Mid m S Sa Sb A []) : S = Sa ∩ Sb := by
  refine Set.Subset.antisymm (fun x hx => ⟨h.upper hx, ?_⟩) h.lower
  rcases h.rep.cover (p := x.1) (o := x.2) hx with hl | ⟨e, he⟩
  · exact ((h.lossy hl).resolve_left not_mem_nil) x.2 hx
  · exact ((h.exact he).resolve_left not_mem_nil) x.2 hx

theorem length_intersectTable (hrow : (k, e) ∈ m.rows) : (intersectTable m k e b).rows.length ≤ m.rows.length := by
  have herase : (m.erase k).rows.length ≤ m.rows.length := length_filter_le _ _
  have hset : ∀ f, (m.set k f).rows.length ≤ m.rows.length := fun f => by
    have hcount := OrderedMap.count_set_of_mem (v := f) (P := fun _ => true) hrow
    rw [OrderedMap.count, OrderedMap.count, countP_true] at hcount
    exact (Nat.add_right_cancel hcount).le
  rw [intersectTable]
  split
  · dsimp only
    split
    · exact herase
    · exact hset _
  · split
    · exact length_mark hrow
    · split
      · exact herase
      · dsimp only
        split
        · exact herase
        · exact hset _

/-- A bitmap in the middle of a scan, no larger than at its start. -/
structure Scanning (a₀ a : TIDBitmap) (Sa Sb A : Tuples) (pending : List Nat) : Prop where
  counted : Counted a
  mid : ∃ S, Mid a.table S Sa Sb A pending
  max : a.maxentries = a₀.maxentries
  entries : a.nentries ≤ a₀.nentries

theorem Scanning.written (h : Scanning a₀ a Sa Sb A (k :: pending)) (hb : Inv b Sb Ab)
    (hrow : (k, e) ∈ a.table.rows) (hw : Written a a' (intersectTable a.table k e b)) :
    Scanning a₀ a' Sa Sb A pending := by
  obtain ⟨S, hmid⟩ := h.mid
  have hlen := length_intersectTable (b := b) hrow
  rw [← hw.table] at hlen
  refine ⟨hw.counted, hw.table ▸ mid_visit hmid hb hrow, hw.max.trans h.max, le_trans ?_ h.entries⟩
  rw [hw.counted.total, h.counted.total]
  exact_mod_cast hlen

theorem Scanning.start (h : Inv a Sa A) (hall : ∀ {p e}, (p, e) ∈ a.table.rows → p ∈ order) :
    Scanning a a Sa Sb A order := by
  refine ⟨h.counted, ⟨Sa, h.wf, h.rep, Set.inter_subset_left, subset_rfl, ?_, ?_⟩, rfl, le_rfl⟩
  · rintro p ⟨e, hrow, -⟩
    exact .inl (hall hrow)
  · exact fun hx => .inl (hall hx.1)

theorem Scanning.finish {Sa₀ : Tuples} (h : Scanning a₀ a Sa Sb A []) (h₀ : Inv a₀ Sa₀ A)
    (hfits : Fits a₀) : Inv a (Sa ∩ Sb) A ∧ Fits a := by
  obtain ⟨S, hmid⟩ := h.mid
  refine ⟨⟨h.counted, hmid.wf, hmid.done ▸ hmid.rep, h.max ▸ h₀.max_ge, h.max ▸ h₀.max_le⟩, ?_⟩
  rw [Fits, h.max]
  exact h.entries.trans hfits

/-- A scan so far, with the visits that are still to come. -/
theorem intersectLoop_spec (h : Scanning a₀ a Sa Sb A (order ++ pending)) (hb : Inv b Sb Ab)
    (hs : a.status = .hash) : Scanning a₀ (intersectLoop b a order) Sa Sb A pending := by
  induction order generalizing a with
  | nil => exact h
  | cons key order ih =>
    rw [intersectLoop, foldl_cons, ← intersectLoop]
    rw [cons_append] at h
    split
    next hnone =>
      rw [← table_hash hs] at hnone
      obtain ⟨S, hmid⟩ := h.mid
      exact ih ⟨h.counted, ⟨S, hmid.pass (get?_eq_none.mp hnone)⟩, h.max, h.entries⟩ hs
    next apage hsome =>
      rw [← table_hash hs] at hsome
      have hrow := get?_eq_some.mp hsome
      obtain ⟨S, hmid⟩ := h.mid
      have hw := written_intersect (b := b) (fun a => removeEmpty a apage) h.counted hmid.wf hrow
        fun hst hcount hrow' hc => written_removeEmpty hcount (hst.trans hs) hrow' (hmid.wf.good hrow).blockno hc
      have hstatus : (if (tbmIntersectPage a apage b).2 then removeEmpty (tbmIntersectPage a apage b).1 apage
          else (tbmIntersectPage a apage b).1).status = .hash := by
        have hpage : (tbmIntersectPage a apage b).1.status = .hash := by
          rw [tbmIntersectPage]
          split
          · exact status_store.trans hs
          · split
            · exact (written_mark h.counted hmid.wf).2
            · split
              · exact hs
              · exact status_store.trans hs
        split
        · exact hpage
        · exact hpage
      exact ih (h.written hb hrow hw) hstatus

theorem intersect_spec (ha : Inv a Sa A) (hfits : Fits a) (hb : Inv b Sb Ab) (heq : tbmIntersect a b order = some t) :
    Inv t (Sa ∩ Sb) (A ∪ Ab) ∧ Fits t := by
  have h : Inv a Sa (A ∪ Ab) := ha.mono Set.subset_union_left
  rw [tbmIntersect] at heq
  split at heq
  next h0 =>
    obtain rfl := Option.some.inj heq
    have hlen := ha.counted.total
    rw [h0, eq_comm, Int.natCast_eq_zero, length_eq_zero_iff] at hlen
    have hscan : Scanning a a Sa Sb (A ∪ Ab) [] := .start h fun hrow => absurd (hlen ▸ hrow) not_mem_nil
    exact hscan.finish h hfits
  next h0 =>
    split at heq
    next hs =>
      have hrow : (a.entry1.blockno, a.entry1) ∈ a.table.rows := (mem_table_onePage hs).mpr ⟨rfl, rfl⟩
      have hscan : Scanning a a Sa Sb (A ∪ Ab) [a.entry1.blockno] := .start h fun hrow' =>
        mem_singleton.mpr ((mem_table_onePage hs).mp hrow').1
      have hc := h.counted.single hs
      obtain rfl : (if (tbmIntersectPage a a.entry1 b).2 then removeEntry1 (tbmIntersectPage a a.entry1 b).1
        else (tbmIntersectPage a a.entry1 b).1) = t := Option.some.inj heq
      refine (hscan.written hb hrow (written_intersect _ h.counted h.wf hrow fun {t' e'} hst hcount hrow' hc' => ?_)).finish
        h hfits
      have hst := hst.trans hs
      have hpages := hcount.pages
      have hchunks := hcount.chunks
      have hentries := hcount.entries
      obtain ⟨hk, rfl⟩ := (mem_table_onePage hst).mp hrow'
      rw [hk, table_onePage hst, erase_set]
      rw [table_onePage hst, count_set_of_not_mem (fun _ => not_mem_nil), hcount.single hst]
        at hpages hchunks
      have hp1 : t'.npages = 1 := hpages
      have hc0 : t'.nchunks = 0 := hchunks
      have hempty : (empty : Table).erase t'.entry1.blockno = .empty :=
        erase_of_not_mem fun _ => not_mem_nil
      rw [hempty]
      refine ⟨table_empty rfl, ⟨?_, ?_, ?_, nofun⟩, rfl⟩
      · show t'.nentries - 1 = t'.npages - 1 + t'.nchunks
        omega
      · show t'.npages - 1 = _
        rw [hp1]
        rfl
      · exact hc0
    next hs =>
      have hhash : a.status = .hash := by
        cases hst : a.status with
        | hash => rfl
        | onePage => exact absurd hst hs
        | empty =>
          rw [ha.counted.total, table_empty hst] at h0
          exact absurd rfl h0
      obtain ⟨hscan, heq⟩ := Option.ite_none_right_eq_some.mp heq
      cases heq
      rw [scans, all_eq_true, ← table_hash hhash] at hscan
      have hstart : Scanning a a Sa Sb (A ∪ Ab) (order ++ []) := .start h fun {p e} hrow =>
        mem_append_left [] (of_decide_eq_true (hscan (p, e) hrow))
      exact (intersectLoop_spec hstart hb hhash).finish h hfits

end PgStorage.TidBitmap
