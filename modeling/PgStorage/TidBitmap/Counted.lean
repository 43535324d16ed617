import PgStorage.TidBitmap.Table

/-! The counts and the table behind the three states of a bitmap.

`TIDBitmap.table` is the table whatever the state keeps it in. Each primitive is a step on it: a lookup reads it, an
entry that is got and written is set in it, and a page that is made lossy is marked in it. -/
namespace PgStorage.TidBitmap
open List OrderedMap

def TIDBitmap.table (t : TIDBitmap) : Table :=
  match t.status with
  | .empty => .empty
  | .onePage => .set .empty t.entry1.blockno t.entry1
  | .hash => t.pagetable

/-- The counts are those of the table, and a single entry is exact. -/
structure Counted (t : TIDBitmap) : Prop where
  entries : t.nentries = t.npages + t.nchunks
  pages : t.npages = t.table.count fun e => !e.ischunk
  chunks : t.nchunks = t.table.count fun e => e.ischunk
  single : t.status = .onePage → t.entry1.ischunk = false

variable {t : TIDBitmap} {m : Table} {e page : PagetableEntry} {k p : Nat}

theorem table_empty (h : t.status = .empty) : t.table = .empty := by
  rw [TIDBitmap.table, h]

theorem table_onePage (h : t.status = .onePage) : t.table = .set .empty t.entry1.blockno t.entry1 := by
  rw [TIDBitmap.table, h]

theorem table_hash (h : t.status = .hash) : t.table = t.pagetable := by
  rw [TIDBitmap.table, h]

theorem mem_table_onePage (h : t.status = .onePage) : (p, e) ∈ t.table.rows ↔ p = t.entry1.blockno ∧ e = t.entry1 := by
  rw [table_onePage h, OrderedMap.mem_set]
  exact or_iff_left fun h => absurd h.2 not_mem_nil

theorem total_eq : (m.count fun e => !e.ischunk) + (m.count fun e => e.ischunk) = m.rows.length := by
  rw [add_comm, OrderedMap.count, OrderedMap.count, length_eq_countP_add_countP (fun r => r.2.ischunk)]
  simp only [Bool.not_eq_true, Bool.decide_eq_false]

theorem Counted.total (h : Counted t) : t.nentries = t.table.rows.length := by
  rw [h.entries, h.pages, h.chunks, ← total_eq, Nat.cast_add]

theorem Counted.status_of_chunk (h : Counted t) (hn : t.nchunks ≠ 0) : t.status = .hash := by
  cases hs : t.status with
  | hash => rfl
  | empty =>
    rw [h.chunks, table_empty hs] at hn
    exact absurd rfl hn
  | onePage =>
    rw [h.chunks, table_onePage hs, count_set_of_not_mem (fun _ => not_mem_nil), h.single hs] at hn
    exact absurd rfl hn

theorem pageIsLossy_iff (h : Counted t) : tbmPageIsLossy t p = true ↔ Lossy t.table p := by
  rw [tbmPageIsLossy]
  split
  next h0 =>
    refine ⟨nofun, ?_⟩
    rintro ⟨e, hrow, hc, -⟩
    have hcount := h.chunks
    rw [h0, eq_comm, Int.natCast_eq_zero, OrderedMap.count, countP_eq_zero] at hcount
    exact absurd hc (hcount _ hrow)
  next h0 =>
    rw [table_hash (h.status_of_chunk h0), Lossy]
    dsimp only
    split
    next hnone =>
      refine ⟨nofun, ?_⟩
      rintro ⟨e, hrow, -⟩
      exact absurd hrow (get?_eq_none.mp hnone e)
    next page hsome =>
      have hrow := get?_eq_some.mp hsome
      rw [Bool.and_eq_true, Words.testBit_eq]
      constructor
      · exact fun hb => ⟨page, hrow, hb⟩
      · rintro ⟨e, he, hb⟩
        exact value_unique t.pagetable.sorted he hrow ▸ hb

theorem findPageentry_eq_some (h : Counted t) : tbmFindPageentry t p = some e ↔ Exact t.table p e := by
  rw [tbmFindPageentry]
  split
  next h0 =>
    refine ⟨by simp, ?_⟩
    rintro ⟨hrow, -⟩
    have hlen := h.total
    rw [h0, eq_comm, Int.natCast_eq_zero, length_eq_zero_iff] at hlen
    exact absurd (hlen ▸ hrow) not_mem_nil
  next h0 =>
    split
    next hs =>
      rw [Exact, mem_table_onePage hs]
      split
      next hp => exact ⟨by simp, fun hx => absurd hx.1.1.symm hp⟩
      next hp =>
        rw [Option.some_inj]
        constructor
        · rintro rfl
          exact ⟨⟨(not_not.mp hp).symm, rfl⟩, h.single hs⟩
        · exact fun hx => hx.1.2.symm
    next hs =>
      have hhash : t.status = .hash := by
        cases hst : t.status with
        | hash => rfl
        | onePage => exact absurd hst hs
        | empty =>
          rw [h.total, table_empty hst] at h0
          exact absurd rfl h0
      rw [table_hash hhash, Exact]
      split
      next hnone => exact ⟨by simp, fun hx => absurd hx.1 (get?_eq_none.mp hnone e)⟩
      next page hsome =>
        have hrow := get?_eq_some.mp hsome
        split
        next hc =>
          refine ⟨by simp, fun hx => ?_⟩
          rw [← value_unique t.pagetable.sorted hrow hx.1, hc] at hx
          exact absurd hx.2 (by simp)
        next hc =>
          rw [Option.some_inj]
          constructor
          · rintro rfl
            exact ⟨hrow, Bool.eq_false_iff.mpr hc⟩
          · exact fun hx => value_unique t.pagetable.sorted hrow hx.1

theorem findPageentry_isSome (h : Counted t) : (tbmFindPageentry t p).isSome = true ↔ ∃ e, Exact t.table p e := by
  rw [Option.isSome_iff_exists]
  exact exists_congr fun e => findPageentry_eq_some h

/-! ### An entry found or made, and written -/

theorem table_create (h : t.status ≠ .hash) : (tbmCreatePagetable t).table = t.table := by
  rw [table_hash rfl, tbmCreatePagetable]
  cases hs : t.status with
  | empty => rw [table_empty hs]; rfl
  | onePage => rw [table_onePage hs]; rfl
  | hash => exact absurd hs h

theorem Counted.create (h : Counted t) (hs : t.status ≠ .hash) : Counted (tbmCreatePagetable t) where
  entries := h.entries
  pages := by rw [table_create hs]; exact h.pages
  chunks := by rw [table_create hs]; exact h.chunks
  single := nofun

def entryAt (m : Table) (p : Nat) : PagetableEntry := (m.get? p).getD ⟨p, false, .zero⟩

theorem entryAt_of_mem (h : (p, e) ∈ m.rows) : entryAt m p = e := by
  rw [entryAt, get?_eq_some.mpr h]
  rfl

theorem entryAt_of_not_mem (h : ∀ e, (p, e) ∉ m.rows) : entryAt m p = ⟨p, false, .zero⟩ := by
  rw [entryAt, get?_eq_none.mpr h]
  rfl

/-- What became of a bitmap whose entry at a page was got and written. -/
structure Written (t t' : TIDBitmap) (m : Table) : Prop where
  table : t'.table = m
  counted : Counted t'
  max : t'.maxentries = t.maxentries

/-- A bitmap kept in a hash table is counted when its counts are the table's. -/
theorem written_hash {t' : TIDBitmap} (hs : t'.status = .hash) (htable : t'.pagetable = m)
    (hmax : t'.maxentries = t.maxentries) (hentries : t'.nentries = t'.npages + t'.nchunks)
    (hpages : t'.npages = m.count fun e => !e.ischunk) (hchunks : t'.nchunks = m.count fun e => e.ischunk) :
    Written t t' m where
  table := (table_hash hs).trans htable
  counted := by
    subst htable
    exact ⟨hentries, by rw [table_hash hs]; exact hpages, by rw [table_hash hs]; exact hchunks,
      fun hst => absurd (hs.symm.trans hst) nofun⟩
  max := hmax

theorem written_onePage {t' : TIDBitmap} (hs : t'.status = .onePage) (hc : t'.entry1.ischunk = false)
    (hmax : t'.maxentries = t.maxentries) (hpages : t'.npages = 1) (hchunks : t'.nchunks = 0)
    (hentries : t'.nentries = 1) : Written t t' (.set .empty t'.entry1.blockno t'.entry1) where
  table := table_onePage hs
  counted := by
    refine ⟨by omega, ?_, ?_, fun _ => hc⟩
    · rw [table_onePage hs, count_set_of_not_mem (fun _ => not_mem_nil), hc, hpages]
      rfl
    · rw [table_onePage hs, count_set_of_not_mem (fun _ => not_mem_nil), hc, hchunks]
      rfl
  max := hmax

theorem store_enter (h : Counted t) (hs : t.status = .hash) (hblock : ∀ {e}, (p, e) ∈ t.table.rows → e.blockno = p)
    (words : Words) : (enterPageentry t p).2 = entryAt t.table p ∧
      Written t (store (enterPageentry t p).1 { (enterPageentry t p).2 with words })
        (t.table.set p { entryAt t.table p with words }) := by
  have hentries := h.entries
  have hpages := h.pages
  have hchunks := h.chunks
  have hnot : ¬ t.status = .onePage := by rw [hs]; exact nofun
  rw [table_hash hs] at hblock hpages hchunks ⊢
  rw [enterPageentry]
  split
  next e hsome =>
    have hrow := get?_eq_some.mp hsome
    rw [store, if_neg hnot, entryAt_of_mem hrow]
    dsimp only
    rw [hblock hrow]
    have hsame : ∀ P : PagetableEntry → Bool, P ⟨p, e.ischunk, words⟩ = P e →
        (t.pagetable.set p ⟨p, e.ischunk, words⟩).count P = t.pagetable.count P := fun P hP => by
      have hcount := count_set_of_mem (v := ⟨p, e.ischunk, words⟩) (P := P) hrow
      rw [hP] at hcount
      exact Nat.add_right_cancel hcount
    refine ⟨rfl, written_hash hs rfl rfl hentries ?_ ?_⟩
    · rw [hsame _ rfl]
      exact hpages
    · rw [hsame _ rfl]
      exact hchunks
  next hnone =>
    have hrow := get?_eq_none.mp hnone
    rw [store, entryAt_of_not_mem hrow]
    dsimp only
    rw [if_neg hnot, OrderedMap.set_set]
    refine ⟨rfl, written_hash hs rfl rfl (by dsimp only; omega) ?_ ?_⟩
    · rw [count_set_of_not_mem hrow, hpages]
      rfl
    · rw [count_set_of_not_mem hrow, hchunks]
      rfl

theorem store_getPageentry (h : Counted t) (hblock : ∀ {e}, (p, e) ∈ t.table.rows → e.blockno = p) (words : Words) :
    (tbmGetPageentry t p).2 = entryAt t.table p ∧
      Written t (store (tbmGetPageentry t p).1 { (tbmGetPageentry t p).2 with words })
        (t.table.set p { entryAt t.table p with words }) := by
  have hentries := h.entries
  have hpages := h.pages
  have hchunks := h.chunks
  rw [tbmGetPageentry]
  cases hs : t.status with
  | hash => exact store_enter h hs hblock words
  | empty =>
    rw [table_empty hs] at hpages hchunks ⊢
    have hrow : ∀ e, (p, e) ∉ (empty : Table).rows := fun _ => not_mem_nil
    rw [entryAt_of_not_mem hrow]
    have hp0 : t.npages = 0 := hpages
    have hc0 : t.nchunks = 0 := hchunks
    refine ⟨rfl, written_onePage rfl rfl rfl ?_ hc0 ?_⟩
    · show t.npages + 1 = 1
      omega
    · show t.nentries + 1 = 1
      omega
  | onePage =>
    dsimp only
    split
    next hp =>
      subst hp
      have hrow : (t.entry1.blockno, t.entry1) ∈ t.table.rows := (mem_table_onePage hs).mpr ⟨rfl, rfl⟩
      have hc := h.single hs
      rw [entryAt_of_mem hrow, store, if_pos hs]
      rw [table_onePage hs, OrderedMap.count_set_of_not_mem (fun _ => not_mem_nil), hc] at hpages hchunks
      rw [table_onePage hs, OrderedMap.set_set]
      have hp1 : t.npages = 1 := hpages
      have hc0 : t.nchunks = 0 := hchunks
      exact ⟨rfl, written_onePage hs hc rfl hp1 hc0 (by dsimp only; omega)⟩
    next =>
      have hne : t.status ≠ .hash := by rw [hs]; exact nofun
      have hstore := store_enter (h.create hne) rfl (p := p) (by rw [table_create hne]; exact hblock) words
      rw [table_create hne] at hstore
      exact ⟨hstore.1, hstore.2.table, hstore.2.counted, hstore.2.max⟩

theorem written_remove (h : Counted t) (hs : t.status = .hash) (hx : ∀ {e}, (k, e) ∈ t.table.rows → e.ischunk = false) :
    Written t (removePageentry t k) (t.table.erase k) := by
  have hentries := h.entries
  have hpages := h.pages
  have hchunks := h.chunks
  rw [table_hash hs] at hx hpages hchunks ⊢
  rw [removePageentry]
  split
  next hnone =>
    rw [erase_of_not_mem (get?_eq_none.mp hnone)]
    exact ⟨table_hash hs, h, rfl⟩
  next e hsome =>
    have hrow := get?_eq_some.mp hsome
    have hp := count_erase (P := fun e => !e.ischunk) hrow
    have hc := count_erase (P := fun e => e.ischunk) hrow
    simp only [hx hrow, Bool.not_false, if_true, Bool.false_eq_true, if_false] at hp hc
    refine written_hash hs rfl rfl ?_ ?_ ?_ <;> dsimp only <;> omega

theorem status_remove : (removePageentry t k).status = t.status := by
  rw [removePageentry]
  split <;> rfl

theorem written_setChunkBit {b : Nat} (h : Counted t) (hs : t.status = .hash)
    (hblock : ∀ {e}, (k, e) ∈ t.table.rows → e.blockno = k) :
    Written t (setChunkBit t k b) (t.table.set k ⟨k, true, (chunkWords t.table k).setBit b⟩) := by
  have hentries := h.entries
  have hpages := h.pages
  have hchunks := h.chunks
  rw [table_hash hs] at hblock hpages hchunks ⊢
  rw [setChunkBit]
  split
  next hnone =>
    have hrow := get?_eq_none.mp hnone
    have hwords : chunkWords t.pagetable k = .zero := by rw [chunkWords, hnone]
    rw [hwords]
    refine written_hash hs rfl rfl (by dsimp only; omega) ?_ ?_
    · rw [count_set_of_not_mem hrow]
      exact hpages
    · rw [count_set_of_not_mem hrow, hchunks]
      rfl
  next e hsome =>
    have hrow := get?_eq_some.mp hsome
    have hk := hblock hrow
    have hwords : chunkWords t.pagetable k = if e.ischunk then e.words else Words.zero.setBit 0 := by
      rw [chunkWords, hsome]
    have hp := fun words => count_set_of_mem (v := ⟨k, true, words⟩) (P := fun e => !e.ischunk) hrow
    have hc := fun words => count_set_of_mem (v := ⟨k, true, words⟩) (P := fun e => e.ischunk) hrow
    dsimp only at hp hc ⊢
    split
    next hchunk =>
      rw [if_pos hchunk] at hwords
      have hentry : ({ e with words := e.words.setBit b } : PagetableEntry) = ⟨k, true, e.words.setBit b⟩ := by
        rw [← hk, ← hchunk]
      rw [hentry, hwords]
      simp only [hchunk, Bool.not_true, Bool.false_eq_true, if_false, if_true, add_zero,
        Nat.add_right_cancel_iff] at hp hc
      refine written_hash hs rfl rfl hentries ?_ ?_
      · rw [hp]
        exact hpages
      · rw [hc]
        exact hchunks
    next hchunk =>
      rw [if_neg hchunk] at hwords
      rw [hwords]
      have hp := hp ((Words.zero.setBit 0).setBit b)
      have hc := hc ((Words.zero.setBit 0).setBit b)
      simp only [Bool.not_eq_true] at hchunk
      simp only [hchunk, Bool.not_false, Bool.not_true, Bool.false_eq_true, if_false, if_true, add_zero] at hp hc
      refine written_hash hs rfl rfl ?_ ?_ ?_ <;> dsimp only <;> omega

theorem status_setChunkBit {b : Nat} : (setChunkBit t k b).status = t.status := by
  rw [setChunkBit]
  split
  · rfl
  · split <;> rfl

theorem Written.trans {t₁ t₂ : TIDBitmap} {m₁ m₂ : Table} (h₁ : Written t t₁ m₁) (h₂ : Written t₁ t₂ m₂) :
    Written t t₂ m₂ :=
  ⟨h₂.table, h₂.counted, h₂.max.trans h₁.max⟩

/-- Making a page lossy marks it in the table, which is a hash table from then on. -/
theorem written_mark (h : Counted t) (hwf : Wf t.table) : Written t (tbmMarkPageLossy t k) (mark t.table k) ∧
    (tbmMarkPageLossy t k).status = .hash := by
  rw [tbmMarkPageLossy]
  obtain ⟨t₁, h₁, hs₁⟩ : ∃ t₁, Written t t₁ t.table ∧ t₁.status = .hash ∧
      (if t.status ≠ .hash then tbmCreatePagetable t else t) = t₁ := by
    split
    next hs => exact ⟨_, ⟨table_create hs, h.create hs, rfl⟩, rfl, rfl⟩
    next hs => exact ⟨_, ⟨rfl, h, rfl⟩, not_not.mp hs, rfl⟩
  rw [hs₁.2]
  have hs₁ := hs₁.1
  obtain ⟨t₂, h₂, hs₂, he₂⟩ : ∃ t₂, Written t₁ t₂ (if k % pagesPerChunk ≠ 0 then t.table.erase k else t.table) ∧
      t₂.status = .hash ∧ (if k % pagesPerChunk ≠ 0 then removePageentry t₁ k else t₁) = t₂ := by
    split
    next hk =>
      have hwritten := written_remove h₁.counted hs₁ (k := k) fun hrow =>
        (hwf.not_chunk (fun hp => hk (header_eq_self.mp hp)) (h₁.table ▸ hrow)).2
      rw [h₁.table] at hwritten
      exact ⟨_, hwritten, status_remove.trans hs₁, rfl⟩
    next => exact ⟨_, ⟨h₁.table, h₁.counted, rfl⟩, hs₁, rfl⟩
  rw [he₂]
  refine ⟨h₁.trans (h₂.trans ?_), status_setChunkBit.trans hs₂⟩
  have hwritten := written_setChunkBit h₂.counted hs₂ (k := header k) (b := k % pagesPerChunk) fun hrow => by
    rw [h₂.table] at hrow
    split at hrow
    · exact (hwf.good (mem_erase.mp hrow).2).blockno
    · exact (hwf.good hrow).blockno
  rw [h₂.table] at hwritten
  exact hwritten

/-- Where the page had an entry of its own, the table does not grow. -/
theorem length_mark (hrow : (k, e) ∈ m.rows) : (mark m k).rows.length ≤ m.rows.length := by
  have hlen : ∀ m : Table, m.rows.length = m.count fun _ => true := fun m => by
    rw [OrderedMap.count, countP_true]
  rw [hlen, hlen, mark]
  split
  next hk =>
    have herase := OrderedMap.count_erase (P := fun _ => true) hrow
    rw [if_pos rfl] at herase
    rw [OrderedMap.count_set, if_pos rfl, ← herase]
    refine Nat.add_le_add_right ?_ 1
    rw [OrderedMap.count, OrderedMap.count]
    exact filter_sublist.countP_le
  next hk =>
    rw [header_eq_self.mpr (not_not.mp hk)]
    exact (Nat.add_right_cancel (count_set_of_mem (P := fun _ => true) hrow)).le

end PgStorage.TidBitmap
