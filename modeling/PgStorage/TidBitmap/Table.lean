import PgStorage.TidBitmap.Tidbitmap

/-! What a table of pages and chunks stands for.

A page is lossy when its bit is set in its chunk, and exact when it has an entry of its own. `Rep` compares the pages
with the tuples: an exact page has just the tuples there are, a lossy one some tuple that was added, and no tuple is
on a page that is neither. -/
namespace PgStorage.TidBitmap
open OrderedMap

abbrev Table := OrderedMap PagetableEntry

/-- The chunk header of a page. -/
def header (p : Nat) : Nat := p - p % pagesPerChunk

def Lossy (m : Table) (p : Nat) : Prop :=
  ∃ e, (header p, e) ∈ m.rows ∧ e.ischunk = true ∧ e.words.bit (p % pagesPerChunk) = true

def Exact (m : Table) (p : Nat) (e : PagetableEntry) : Prop := (p, e) ∈ m.rows ∧ e.ischunk = false

/-- An entry that may stand under a key. -/
structure Good (p : Nat) (e : PagetableEntry) : Prop where
  blockno : e.blockno = p
  block_le : p ≤ maxBlockNumber
  aligned : e.ischunk = true → header p = p
  pages : e.ischunk = true → ∀ i, e.words.bit i = true → i < pagesPerChunk
  offsets : e.ischunk = false → ∀ i, e.words.bit i = true → i < maxTuplesPerPage
  nonempty : e.ischunk = false → ∃ i, e.words.bit i = true

structure Wf (m : Table) : Prop where
  good : ∀ {p e}, (p, e) ∈ m.rows → Good p e
  apart : ∀ {p e}, Lossy m p → ¬ Exact m p e

/-- The tuples as pages and offsets. -/
abbrev Tuples := Set (Nat × Nat)

structure Rep (m : Table) (S A : Tuples) : Prop where
  lossy : ∀ {p}, Lossy m p → ∃ o, (p, o) ∈ A
  exact : ∀ {p e}, Exact m p e → ∀ o, (p, o) ∈ S ↔ ∃ i, e.words.bit i = true ∧ i + 1 = o
  cover : ∀ {p o}, (p, o) ∈ S → Lossy m p ∨ ∃ e, Exact m p e
  sub : S ⊆ A

variable {m : Table} {S S' A : Tuples} {e e' : PagetableEntry} {k p q o : Nat}

theorem header_header : header (header p) = header p := by
  rw [header, header, pagesPerChunk]
  omega

theorem header_add (hk : header k = k) (hi : p < pagesPerChunk) : header (k + p) = k ∧ (k + p) % pagesPerChunk = p := by
  rw [header, pagesPerChunk] at *
  omega

theorem header_eq_self : header p = p ↔ p % pagesPerChunk = 0 := by
  rw [header, pagesPerChunk]
  omega

theorem header_mod : header p + p % pagesPerChunk = p := by
  rw [header, pagesPerChunk]
  omega

theorem Good.page_lt (h : Good p e) (i : Nat) (hi : e.words.bit i = true) : i < 320 := by
  cases hc : e.ischunk
  · exact (h.offsets hc i hi).trans (by decide)
  · exact (h.pages hc i hi).trans (by decide)

theorem Exact.unique (h : Exact m p e) (h' : (p, e') ∈ m.rows) : e' = e :=
  value_unique m.sorted h' h.1

theorem lossy_set : Lossy (m.set k e) p ↔
    header p = k ∧ e.ischunk = true ∧ e.words.bit (p % pagesPerChunk) = true ∨ header p ≠ k ∧ Lossy m p := by
  rw [Lossy]
  constructor
  · rintro ⟨e', hrow, hc, hb⟩
    rcases mem_set.mp hrow with ⟨hk, rfl⟩ | ⟨hk, hrow⟩
    · exact .inl ⟨hk, hc, hb⟩
    · exact .inr ⟨hk, e', hrow, hc, hb⟩
  · rintro (⟨hk, hc, hb⟩ | ⟨hk, e', hrow, hc, hb⟩)
    · exact ⟨e, mem_set.mpr (.inl ⟨hk, rfl⟩), hc, hb⟩
    · exact ⟨e', mem_set.mpr (.inr ⟨hk, hrow⟩), hc, hb⟩

theorem exact_set : Exact (m.set k e) p e' ↔ p = k ∧ e' = e ∧ e.ischunk = false ∨ p ≠ k ∧ Exact m p e' := by
  rw [Exact, mem_set, or_and_right, and_assoc, and_assoc]
  exact or_congr_left (and_congr_right fun _ => and_congr_right fun he => by rw [he])

theorem lossy_erase : Lossy (m.erase k) p ↔ header p ≠ k ∧ Lossy m p := by
  rw [Lossy, Lossy, ← exists_and_left]
  refine exists_congr fun e => ?_
  rw [mem_erase, and_assoc]

theorem exact_erase : Exact (m.erase k) p e ↔ p ≠ k ∧ Exact m p e := by
  rw [Exact, mem_erase, and_assoc]
  rfl

theorem Wf.set (h : Wf m) (he : Good k e) (hapart : ∀ {p e'}, Lossy (m.set k e) p → ¬ Exact (m.set k e) p e') :
    Wf (m.set k e) where
  good hrow := by
    rcases mem_set.mp hrow with ⟨rfl, rfl⟩ | ⟨-, hrow⟩
    · exact he
    · exact h.good hrow
  apart := hapart

theorem Wf.erase (h : Wf m) : Wf (m.erase k) where
  good hrow := h.good (mem_erase.mp hrow).2
  apart hl he := h.apart (lossy_erase.mp hl).2 (exact_erase.mp he).2

/-- A page other than its header has no chunk. -/
theorem Wf.not_chunk (h : Wf m) (hp : header p ≠ p) (hrow : (p, e) ∈ m.rows) : Exact m p e :=
  ⟨hrow, Bool.eq_false_iff.mpr fun hc => hp ((h.good hrow).aligned hc)⟩

/-- The page is no chunk and not lossy. -/
def Free (m : Table) (p : Nat) : Prop := ¬ Lossy m p ∧ ∀ e, (p, e) ∈ m.rows → e.ischunk = false

theorem lossy_set_exact (h : Free m k) (hc : e.ischunk = false) : Lossy (m.set k e) p ↔ Lossy m p := by
  rw [lossy_set]
  constructor
  · rintro (⟨-, hc', -⟩ | ⟨-, hl⟩)
    · exact absurd hc' (by rw [hc]; exact nofun)
    · exact hl
  · intro hl
    refine .inr ⟨fun hk => ?_, hl⟩
    obtain ⟨e', hrow, hc', -⟩ := hl
    exact absurd (h.2 e' (hk ▸ hrow)) (by rw [hc']; exact nofun)

theorem Wf.setExact (h : Wf m) (hfree : Free m k) (hc : e.ischunk = false) (he : Good k e) : Wf (m.set k e) := by
  refine h.set he fun hl hx => ?_
  rw [lossy_set_exact hfree hc] at hl
  rcases exact_set.mp hx with ⟨rfl, -, -⟩ | ⟨-, hx⟩
  · exact hfree.1 hl
  · exact h.apart hl hx

/-- The tuples change on the written page only. -/
theorem Rep.setExact (h : Rep m S A) (hfree : Free m k) (hc : e.ischunk = false)
    (hother : ∀ {p o}, p ≠ k → ((p, o) ∈ S' ↔ (p, o) ∈ S))
    (hpage : ∀ o, (k, o) ∈ S' ↔ ∃ i, e.words.bit i = true ∧ i + 1 = o) (hsub : S' ⊆ A) : Rep (m.set k e) S' A where
  lossy hl := h.lossy ((lossy_set_exact hfree hc).mp hl)
  exact hx := by
    rcases exact_set.mp hx with ⟨rfl, rfl, -⟩ | ⟨hp, hx⟩
    · exact hpage
    · exact fun o => (hother hp).trans (h.exact hx o)
  cover := by
    intro p o hs
    rw [lossy_set_exact hfree hc]
    by_cases hp : p = k
    · exact .inr ⟨e, exact_set.mpr (.inl ⟨hp, rfl, hc⟩)⟩
    · refine (h.cover ((hother hp).mp hs)).imp_right ?_
      rintro ⟨e', hx⟩
      exact ⟨e', exact_set.mpr (.inr ⟨hp, hx⟩)⟩
  sub := hsub

/-! ### A page made lossy -/

/-- The words of the chunk a page is to be marked in. -/
def chunkWords (m : Table) (k : Nat) : Words :=
  match m.get? k with
  | none => .zero
  | some e => if e.ischunk then e.words else Words.zero.setBit 0

def mark (m : Table) (k : Nat) : Table :=
  let m := if k % pagesPerChunk ≠ 0 then m.erase k else m
  m.set (header k) ⟨header k, true, (chunkWords m (header k)).setBit (k % pagesPerChunk)⟩

/-- The header's own bit is set if it was exact. -/
theorem bit_chunkWords {i : Nat} : (chunkWords m k).bit i = true ↔
    (∃ e, (k, e) ∈ m.rows ∧ e.ischunk = true ∧ e.words.bit i = true) ∨ i = 0 ∧ ∃ e, Exact m k e := by
  rw [chunkWords]
  split
  next hnone =>
    have hrow := get?_eq_none.mp hnone
    rw [Words.bit_zero]
    refine ⟨nofun, ?_⟩
    rintro (⟨e, he, -⟩ | ⟨-, e, he, -⟩) <;> exact absurd he (hrow e)
  next e hsome =>
    have hrow := get?_eq_some.mp hsome
    have hunique : ∀ {e'}, (k, e') ∈ m.rows → e' = e := fun h => value_unique m.sorted h hrow
    split
    next hc =>
      constructor
      · exact fun hb => .inl ⟨e, hrow, hc, hb⟩
      · rintro (⟨e', he', -, hb⟩ | ⟨-, e', he', hc'⟩)
        · exact hunique he' ▸ hb
        · exact absurd (hunique he' ▸ hc') (by rw [hc]; exact nofun)
    next hc =>
      rw [Words.bit_setBit, Words.bit_zero, Bool.or_false, decide_eq_true_eq]
      constructor
      · exact fun hi => .inr ⟨hi, e, hrow, Bool.eq_false_iff.mpr hc⟩
      · rintro (⟨e', he', hc', -⟩ | ⟨hi, -⟩)
        · exact absurd (hunique he' ▸ hc') hc
        · exact hi

theorem exact_mark : Exact (mark m k) p e ↔ p ≠ k ∧ p ≠ header k ∧ Exact m p e := by
  rw [mark, exact_set]
  constructor
  · rintro (⟨-, -, hc⟩ | ⟨hp, hx⟩)
    · exact absurd hc nofun
    · split at hx
      next => exact ⟨(exact_erase.mp hx).1, hp, (exact_erase.mp hx).2⟩
      next hk => exact ⟨header_eq_self.mpr (not_not.mp hk) ▸ hp, hp, hx⟩
  · rintro ⟨hpk, hp, hx⟩
    refine .inr ⟨hp, ?_⟩
    split
    · exact exact_erase.mpr ⟨hpk, hx⟩
    · exact hx

/-- A mark makes the page lossy, and its header with it if that was exact. -/
theorem lossy_mark : Lossy (mark m k) p ↔ p = k ∨ Lossy m p ∨ p = header k ∧ ∃ e, Exact m p e := by
  have herase : ∀ {p e}, header p = p → ((p, e) ∈ (if k % pagesPerChunk ≠ 0 then m.erase k else m).rows ↔
      (p, e) ∈ m.rows) := by
    intro p e hp
    split
    next hk =>
      rw [mem_erase, and_iff_right_iff_imp]
      rintro - rfl
      exact hk (header_eq_self.mp hp)
    next => rfl
  have hlossy : ∀ p, Lossy (if k % pagesPerChunk ≠ 0 then m.erase k else m) p ↔ Lossy m p := fun p =>
    exists_congr fun e => and_congr_left fun _ => herase header_header
  rw [mark, lossy_set, hlossy, Words.bit_setBit, Bool.or_eq_true, decide_eq_true_eq, bit_chunkWords]
  simp only [Exact, herase header_header]
  by_cases hp : header p = header k
  · have hpk : p % pagesPerChunk = k % pagesPerChunk ↔ p = k := by
      constructor
      · intro hm
        rw [← header_mod (p := p), hp, hm, header_mod]
      · exact fun h => by rw [h]
    have hp0 : p % pagesPerChunk = 0 ↔ p = header k := by
      rw [← header_eq_self, hp, eq_comm]
    rw [hpk, hp0]
    simp only [hp, true_and, ne_eq, not_true_eq_false, false_and, or_false]
    refine or_congr_right (or_congr ?_ ?_)
    · rw [Lossy, hp]
    · refine and_congr_right ?_
      rintro rfl
      rfl
  · have hk : p ≠ k := fun he => hp (by rw [he])
    have hk' : p ≠ header k := fun he => hp (by rw [he, header_header])
    simp [hp, hk, hk']

theorem Wf.mark (h : Wf m) (hk : k ≤ maxBlockNumber) : Wf (mark m k) := by
  have herase : Wf (if k % pagesPerChunk ≠ 0 then m.erase k else m) := by
    split
    · exact h.erase
    · exact h
  refine herase.set ⟨rfl, (Nat.sub_le _ _).trans hk, fun _ => header_header, fun _ i hi => ?_, nofun, nofun⟩
    fun {p e'} hl hx => ?_
  · rw [Words.bit_setBit, Bool.or_eq_true, decide_eq_true_eq, bit_chunkWords] at hi
    rcases hi with rfl | ⟨e, hrow, hc, hb⟩ | ⟨rfl, -⟩
    · exact Nat.mod_lt _ (by decide)
    · exact (herase.good hrow).pages hc i hb
    · decide
  · obtain ⟨hpk, hph, hx⟩ := exact_mark.mp hx
    rcases lossy_mark.mp hl with rfl | hl | ⟨rfl, -⟩
    · exact hpk rfl
    · exact h.apart hl hx
    · exact hph rfl

/-- The tuples may change on the marked page: nothing is said of them. -/
theorem Rep.mark (h : Rep m S A) (hwf : Wf m) (hother : ∀ {p o}, p ≠ k → ((p, o) ∈ S' ↔ (p, o) ∈ S))
    (hsome : ∃ o, (k, o) ∈ A) (hsub : S' ⊆ A) : Rep (mark m k) S' A where
  lossy hl := by
    rcases lossy_mark.mp hl with rfl | hl | ⟨-, e, hx⟩
    · exact hsome
    · exact h.lossy hl
    · obtain ⟨i, hi⟩ := (hwf.good hx.1).nonempty hx.2
      exact ⟨i + 1, h.sub ((h.exact hx _).mpr ⟨i, hi, rfl⟩)⟩
  exact hx o := by
    obtain ⟨hpk, -, hx⟩ := exact_mark.mp hx
    exact (hother hpk).trans (h.exact hx o)
  cover := by
    intro p o hs
    rw [lossy_mark]
    by_cases hpk : p = k
    · exact .inl (.inl hpk)
    · rcases h.cover ((hother hpk).mp hs) with hl | ⟨e, hx⟩
      · exact .inl (.inr (.inl hl))
      · by_cases hph : p = header k
        · exact .inl (.inr (.inr ⟨hph, e, hx⟩))
        · exact .inr ⟨e, exact_mark.mpr ⟨hpk, hph, hx⟩⟩
  sub := hsub

theorem lossy_thin (he : (k, e) ∈ m.rows) (hc : e.ischunk = true) {words : Words} {stays : Nat → Bool}
    (hwords : ∀ i, words.bit i = (e.words.bit i && stays (k + i))) :
    Lossy (m.set k { e with words }) p ↔ Lossy m p ∧ (header p = k → stays p = true) := by
  rw [lossy_set]
  by_cases hp : header p = k
  · subst hp
    simp only [hwords, header_mod, true_and, ne_eq, not_true_eq_false, false_and, or_false, forall_const, hc,
      Bool.and_eq_true]
    refine and_congr_left fun _ => ?_
    exact ⟨fun hb => ⟨e, he, hc, hb⟩, fun ⟨e', he', _, hb⟩ => value_unique m.sorted he' he ▸ hb⟩
  · simp [hp]

theorem exact_thin (he : (k, e) ∈ m.rows) (hc : e.ischunk = true) {words : Words} :
    Exact (m.set k { e with words }) p e' ↔ Exact m p e' := by
  rw [exact_set]
  constructor
  · rintro (⟨-, -, hc'⟩ | ⟨-, hx⟩)
    · exact absurd hc' (by rw [hc]; exact nofun)
    · exact hx
  · refine fun hx => .inr ⟨?_, hx⟩
    rintro rfl
    exact absurd hc (by rw [hx.unique he, hx.2]; exact nofun)

theorem Wf.thin (h : Wf m) (he : (k, e) ∈ m.rows) (hc : e.ischunk = true) {words : Words} {stays : Nat → Bool}
    (hwords : ∀ i, words.bit i = (e.words.bit i && stays (k + i))) : Wf (m.set k { e with words }) := by
  have hgood := h.good he
  refine h.set ⟨hgood.blockno, hgood.block_le, hgood.aligned, fun _ i hi => hgood.pages hc i ?_,
    fun hc' => absurd hc' (by rw [hc]; exact nofun), fun hc' => absurd hc' (by rw [hc]; exact nofun)⟩
    fun hl hx => h.apart ((lossy_thin he hc hwords).mp hl).1 ((exact_thin he hc).mp hx)
  rw [hwords, Bool.and_eq_true] at hi
  exact hi.1

/-- An entry without bits stands for nothing. -/
theorem lossy_erase_zero (he : (k, e) ∈ m.rows) (hzero : ∀ i, e.words.bit i = false) :
    Lossy (m.erase k) p ↔ Lossy m p := by
  rw [lossy_erase, and_iff_right_iff_imp]
  rintro ⟨e', hrow, -, hb⟩ rfl
  rw [value_unique m.sorted hrow he, hzero] at hb
  exact absurd hb nofun

end PgStorage.TidBitmap
