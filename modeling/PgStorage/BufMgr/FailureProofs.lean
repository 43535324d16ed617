import PgStorage.BufMgr.SystemProofs

/-! Reads and writes that fail.

`BM_IO_ERROR` marks a buffer whose last read or victim write has failed. A backend that
wakes up in `WaitIO` takes it for a failed read and reads the block again: over the dirty
contents after a failed write, and into a buffer that has left the lookup table after a
failed read. As long as no wait ends on such a buffer, and the free list is not empty when a
buffer is needed, nothing is lost or duplicated. -/
namespace PgStorage.BufMgr
open Function Pool
variable {β Page : Type}

/-- What a section of `BufferAlloc` does to contents, flags and pins. -/
structure AllocSpec (p : Pool Page) (q : Pins) (c : Section Page) : Prop where
  data : c.pool.data = p.data
  disk : c.pool.disk = p.disk
  dirty : c.pool.dirty = p.dirty
  ioError : c.pool.ioError = p.ioError
  deleted : ∀ i, c.pool.deleted i = true → p.deleted i = true
  held : ∀ i, c.pins.Holds i → q.Holds i ∨ c.pool.deleted i = false
  reading : ∀ i r own d, c.pc = .read i r own d → own = true ∧ p.dirty i = false ∧ c.pins.priv i = 1
  flushing : ∀ i r d, c.pc = .flush i r d → p.dirty i = true
  last : c.pins.last = q.last

section Alloc
variable {p : Pool Page} {q : Pins} {buf : Buffer} {r : Request}

theorem allocFound_spec (hd : p.deleted buf = false) : AllocSpec p q (allocFound p q buf r) := by
  have hrel := relisted_pinBuffer p q buf
  have hpc (i : Buffer) (r' : Request) (own : Bool) (d : Option Bool) :
      (allocFound p q buf r).pc ≠ .read i r' own d ∧ (allocFound p q buf r).pc ≠ .flush i r' d := by
    dsimp only [allocFound, returnFound]
    split_ifs <;> exact ⟨nofun, nofun⟩
  refine ⟨hrel.data, hrel.disk, hrel.dirty, hrel.ioError, fun i hi => ?_, fun i hi => ?_,
    fun i r' own d h => absurd h (hpc i r' own d).1, fun i r' d h => absurd h (hpc i r' true d).2, rfl⟩
  · rw [← hrel.deleted]; exact hi
  · by_cases hib : i = buf
    · subst hib
      exact .inr ((congrFun hrel.deleted i).trans hd)
    · exact .inl ((Pins.holds_update hib).mp hi)

theorem allocRename_spec (ht : Tabled p) (hin : p.InPool buf) (hnew : p.table r.tag = none)
    (hdirty : p.dirty buf = false) (hpriv : q.priv buf = 1) : AllocSpec p q (allocRename p q buf r) := by
  rw [allocRename_eq ht hin hnew]
  refine ⟨rfl, rfl, rfl, rfl, fun i hi => ?_, fun i hi => .inl hi, fun i r' own d h => ?_, nofun, rfl⟩
  · have hib : i ≠ buf := by rintro rfl; simp [renamed] at hi
    simpa [renamed, hib] using hi
  · cases h
    exact ⟨rfl, hdirty, hpriv⟩

theorem allocVictim_spec (hl : FreeList p) (ht : Tabled p) (hnew : p.table r.tag = none)
    (hclean : ∀ i, p.InPool i → p.deleted i = true → p.dirty i = false) : AllocSpec p q (allocVictim p q r) := by
  rcases freeList_get hl with ⟨hget, -⟩ | ⟨buf, hget, hin, -⟩
  · rw [allocVictim, hget]
    exact ⟨rfl, rfl, rfl, rfl, fun _ => id, fun _ => .inl, by simp, by simp, rfl⟩
  · rw [allocVictim, hget]
    have hheld (i : Buffer) (hi : Pins.Holds {q with priv := update q.priv buf 1} i) :
        q.Holds i ∨ i = buf := by
      by_cases hib : i = buf
      · exact .inr hib
      · exact .inl ((Pins.holds_update hib).mp hi)
    dsimp only
    cases hdirty : p.dirty buf with
    | true =>
      rw [if_pos (show (p.unlink buf).dirty buf = true from hdirty)]
      refine ⟨rfl, rfl, rfl, rfl, fun _ => id, fun i hi => ?_, by simp, fun i r' d h => ?_, rfl⟩
      · refine (hheld i hi).imp_right fun e => ?_
        cases hdel : p.deleted buf with
        | false => exact e ▸ hdel
        | true => rw [hclean buf hin hdel] at hdirty; cases hdirty
      · cases h
        exact hdirty
    | false =>
      rw [if_neg (show ¬ (p.unlink buf).dirty buf = true by simp [unlink, hdirty])]
      have hs := allocRename_spec (q := {q with priv := update q.priv buf 1})
        (p := {p.unlink buf with refcount := update (p.unlink buf).refcount buf 1}) (r := r)
        ⟨ht.maps, ht.mapped⟩ hin hnew hdirty (update_self ..)
      refine ⟨hs.data, hs.disk, hs.dirty, hs.ioError, hs.deleted, fun i hi => ?_, hs.reading, hs.flushing, hs.last⟩
      rcases hs.held i hi with h | h
      · refine (hheld i h).imp_right ?_
        rintro rfl
        rw [allocRename_eq (p := {p.unlink i with refcount := update (p.unlink i).refcount i 1})
          ⟨ht.maps, ht.mapped⟩ hin hnew]
        exact update_self ..
      · exact .inr h

theorem bufferAlloc_spec (hl : FreeList p) (ht : Tabled p)
    (hclean : ∀ i, p.InPool i → p.deleted i = true → p.dirty i = false) : AllocSpec p q (bufferAlloc p q r) := by
  have hlookup : p.bufTableLookup r.tag = p.table r.tag := if_neg (by simp [Request.tag])
  rw [bufferAlloc, hlookup]
  cases hm : p.table r.tag with
  | some buf => exact allocFound_spec (ht.maps _ _ hm).2.1
  | none => exact allocVictim_spec hl ht hm hclean

end Alloc

/-! ### No buffer outside the table -/

/-- What the place of a backend says about the dirty bit. -/
def PcClean (p : Pool Page) (q : Pins) : Pc → Prop
  | .read i _ own _ => own = true ∧ p.dirty i = false ∧ q.priv i = 1
  | .flush i _ _ => p.dirty i = true
  | _ => True

theorem PcClean.congr {p p' : Pool Page} {q : Pins} {pc : Pc} (hs : ∀ i, pc.Owns i → p'.dirty i = p.dirty i)
    (h : PcClean p q pc) : PcClean p' q pc := by
  cases pc with
  | flush i r d => exact (hs i rfl).trans h
  | read i r own d =>
    obtain ⟨rfl, hd, hp⟩ := h
    exact ⟨rfl, (hs i rfl).trans hd, hp⟩
  | _ => trivial

/-- A deleted buffer is clean, and who holds one waits for a read that has failed. -/
structure NoOrphans (p : Pool Page) (pins : β → Pins) (pc : β → Pc) : Prop where
  clean : ∀ i, p.InPool i → p.deleted i = true → p.dirty i = false
  orphan : ∀ b i, p.InPool i → (pins b).Holds i → p.deleted i = true → (pc b).Waits i ∧ p.ioError i = true
  pcs : ∀ b, PcClean p (pins b) (pc b)
  last : ∀ b i, (pins b).last i = 0

section Orphans
variable [DecidableEq β] {p p' : Pool Page} {pins : β → Pins} {pc : β → Pc} {b : β} {buf : Buffer} {r : Request}

variable {q' : Pins} {pc' : Pc}

theorem NoOrphans.move (h : NoOrphans p pins pc) (hn : p'.nbuffers = p.nbuffers)
    (hclean : ∀ i, p.InPool i → p'.deleted i = true → p'.dirty i = false)
    (horphan : ∀ b', b' ≠ b → ∀ i, p.InPool i → (pins b').Holds i → p'.deleted i = true →
      (pc b').Waits i ∧ p'.ioError i = true)
    (hmine : ∀ i, p.InPool i → q'.Holds i → p'.deleted i = true → pc'.Waits i ∧ p'.ioError i = true)
    (hdirty : ∀ b', b' ≠ b → ∀ i, (pc b').Owns i → p'.dirty i = p.dirty i) (hpc : PcClean p' q' pc')
    (hlast : q'.last = (pins b).last) : NoOrphans p' (update pins b q') (update pc b pc') := by
  have hin (i : Buffer) : p'.InPool i ↔ p.InPool i := by rw [Pool.InPool, hn]; rfl
  refine ⟨fun i hi => hclean i ((hin i).mp hi), fun b' i hi => ?_, fun b' => ?_, fun b' i => ?_⟩
  · by_cases hb : b' = b
    · subst hb
      rw [update_self, update_self]
      exact hmine i ((hin i).mp hi)
    · rw [update_of_ne hb, update_of_ne hb]
      exact horphan b' hb i ((hin i).mp hi)
  · by_cases hb : b' = b
    · subst hb
      rw [update_self, update_self]
      exact hpc
    · rw [update_of_ne hb, update_of_ne hb]
      exact (h.pcs b').congr (hdirty b' hb)
  · by_cases hb : b' = b
    · subst hb
      rw [update_self, hlast]
      exact h.last b' i
    · rw [update_of_ne hb]
      exact h.last b' i

/-- The invariant after a section of backend `b`. -/
def Tidy (pins : β → Pins) (pc : β → Pc) (b : β) (c : Section Page) : Prop :=
  NoOrphans c.pool (Function.update pins b c.pins) (Function.update pc b c.pc)

/-- `BufferAlloc` from a pool that differs in dirty bits of buffers that nobody else owns. -/
theorem tidy_alloc {c : Section Page} (h : NoOrphans p pins pc) (hw : ∀ i, ¬ (pc b).Waits i)
    (hn : c.pool.nbuffers = p.nbuffers) (hp : p'.deleted = p.deleted) (he : p'.ioError = p.ioError)
    (hclean : ∀ i, p.InPool i → p.deleted i = true → p'.dirty i = false)
    (hdirty : ∀ b', b' ≠ b → ∀ i, (pc b').Owns i → p'.dirty i = p.dirty i)
    (hs : AllocSpec p' (pins b) c) : Tidy pins pc b c := by
  have hdel (i : Buffer) (hi : c.pool.deleted i = true) : p.deleted i = true := hp ▸ hs.deleted i hi
  refine h.move hn (fun i hi hd => ?_) (fun b' _ i hi hb hd => ?_) (fun i hi hb hd => ?_) (fun b' hne i ho => ?_) ?_
    hs.last
  · rw [hs.dirty]
    exact hclean i hi (hdel i hd)
  · rw [hs.ioError, he]
    exact h.orphan b' i hi hb (hdel i hd)
  · rcases hs.held i hb with hold | hnew
    · exact absurd (h.orphan b i hi hold (hdel i hd)).1 (hw i)
    · rw [hnew] at hd; cases hd
  · rw [hs.dirty]
    exact hdirty b' hne i ho
  · cases hpc : c.pc with
    | read i r own d =>
      obtain ⟨h1, h2, h3⟩ := hs.reading i r own d hpc
      exact ⟨h1, by rw [hs.dirty]; exact h2, h3⟩
    | flush i r d =>
      show c.pool.dirty i = true
      rw [hs.dirty]
      exact hs.flushing i r d hpc
    | _ => trivial

theorem Tidy.then_ {q : Pins} {c : Section Page}
    (h : Tidy (update pins b q) (update pc b pc') b c) : Tidy pins pc b c := by
  simpa only [Tidy, update_idem] using h

omit [DecidableEq β] in
/-- What a backend holds without waiting is in the table. -/
theorem NoOrphans.held (h : NoOrphans p pins pc) {i : Buffer} (hin : p.InPool i) (hb : (pins b).Holds i)
    (hw : ¬ (pc b).Waits i) : p.deleted i = false := by
  cases hd : p.deleted i with
  | false => rfl
  | true => exact absurd (h.orphan b i hin hb hd).1 hw

/-- A backend that gives up buffers only, while the flags that matter stay. -/
theorem tidy_fewer {lock : Bool} (g : NoOrphans p pins pc)
    (hw : ∀ i, ¬ (pc b).Waits i) (hn : p'.nbuffers = p.nbuffers) (hdel : p'.deleted = p.deleted)
    (herr : ∀ i, p.ioError i = true → p'.ioError i = true)
    (hclean : ∀ i, p.InPool i → p.deleted i = true → p'.dirty i = false)
    (hdirty : ∀ b', b' ≠ b → ∀ i, (pc b').Owns i → p'.dirty i = p.dirty i)
    (hq : ∀ i, q'.Holds i → (pins b).Holds i) (hpc : PcClean p' q' pc') (hlast : q'.last = (pins b).last) :
    Tidy pins pc b ⟨p', q', pc', lock⟩ := by
  refine g.move hn (fun i hi hd => hclean i hi (hdel ▸ hd)) (fun b' _ i hi hb hd => ?_) (fun i hi hb hd => ?_) hdirty
    hpc hlast
  · obtain ⟨h1, h2⟩ := g.orphan b' i hi hb (hdel ▸ hd)
    exact ⟨h1, herr i h2⟩
  · exact absurd (g.orphan b i hi (hq i hb) (hdel ▸ hd)).1 (hw i)

theorem tidy_relisted {lock : Bool} (g : NoOrphans p pins pc)
    (hw : ∀ i, ¬ (pc b).Waits i) (hrel : Relisted p p') (hq : ∀ i, q'.Holds i → (pins b).Holds i)
    (hpc : PcClean p' q' pc') (hlast : q'.last = (pins b).last) : Tidy pins pc b ⟨p', q', pc', lock⟩ :=
  tidy_fewer g hw hrel.nbuffers hrel.deleted (fun _ he => hrel.ioError ▸ he)
    (fun i hi hd => hrel.dirty ▸ g.clean i hi hd) (fun _ _ i _ => congrFun hrel.dirty i) hq hpc hlast

/-- A wait that ends without an error. -/
theorem tidy_allocWaited (g : NoOrphans p pins pc) (hpc : pc b = .waitIo buf r) (herr : p.ioError buf = false) :
    Tidy pins pc b (allocWaited p (pins b) buf r) := by
  refine g.move rfl g.clean (fun b' _ => g.orphan b') (fun i hi hb hd => ?_) (fun _ _ _ _ => rfl) ?_ rfl
  · obtain ⟨hw, he⟩ := g.orphan b i hi hb hd
    rw [hpc] at hw
    obtain rfl : buf = i := hw
    rw [herr] at he
    cases he
  · dsimp only [allocWaited, returnFound]
    rw [herr, if_neg Bool.false_ne_true]
    split_ifs <;> trivial

end Orphans

section Sections
variable [Fintype β] [DecidableEq β] {p p' : Pool Page} {pins : β → Pins} {pc : β → Pc} {b : β} {buf : Buffer}
  {r : Request}

theorem tidy_bufferAlloc (h : SysInv p pins pc) (g : NoOrphans p pins pc) (hd : (pc b).Detached) :
    Tidy pins pc b (bufferAlloc p (pins b) r) :=
  tidy_alloc g (fun i => (hd i).2) steady_bufferAlloc.nbuffers rfl rfl g.clean (fun _ _ _ _ => rfl)
    (bufferAlloc_spec h.counted.list h.tabled g.clean)

theorem tidy_unpinVictim {d : Option Bool} (error dirty : Buffer → Bool) (h : SysInv p pins pc)
    (g : NoOrphans p pins pc) (hpc : pc b = .flush buf r d) (herr : ∀ i, p.ioError i = true → error i = true)
    (hdirty : ∀ i, i ≠ buf → dirty i = p.dirty i) :
    Tidy pins pc b ⟨(unpinVictim {p with ioError := error, dirty := dirty} (pins b) buf).1,
      (unpinVictim {p with ioError := error, dirty := dirty} (pins b) buf).2, .alloc r, false⟩ := by
  have hok := h.pcs b
  have hcl := g.pcs b
  rw [hpc] at hok hcl
  have hholds : (pins b).Holds buf := Pins.holds_of_priv (by rw [hok.2.1]; exact Nat.one_pos)
  have hwait (i : Buffer) : ¬ (pc b).Waits i := by rw [hpc]; exact id
  have hrel := relisted_dropRef (endIo {p with ioError := error, dirty := dirty} buf) buf
  have hdel : p.deleted buf = false := g.held hok.1 hholds (hwait buf)
  refine tidy_fewer g hwait hrel.nbuffers hrel.deleted (fun i hi => ?_) (fun i hi hd => ?_) (fun b' hne i ho => ?_)
    (holds_of_update hholds) trivial rfl
  · rw [show (unpinVictim {p with ioError := error, dirty := dirty} (pins b) buf).1.ioError = _ from hrel.ioError]
    exact herr i hi
  · have hib : i ≠ buf := by rintro rfl; rw [hdel] at hd; cases hd
    rw [show (unpinVictim {p with ioError := error, dirty := dirty} (pins b) buf).1.dirty = _ from hrel.dirty]
    exact (hdirty i hib).trans (g.clean i hi hd)
  · have hib : i ≠ buf := by rintro rfl; exact h.not_owns hholds (hwait i) hne ho
    rw [show (unpinVictim {p with ioError := error, dirty := dirty} (pins b) buf).1.dirty = _ from hrel.dirty]
    exact hdirty i hib

theorem Tidy.bufferAlloc {q : Pins} (h : After pins pc b ⟨p', q, .alloc r, false⟩)
    (g : Tidy pins pc b ⟨p', q, .alloc r, false⟩) : Tidy pins pc b (bufferAlloc p' q r) := by
  have ha := tidy_bufferAlloc (b := b) (r := r) h g (by rw [update_self]; exact detached_alloc)
  rw [update_self] at ha
  exact ha.then_

theorem tidy_allocFlushed {ok : Bool} (h : SysInv p pins pc) (g : NoOrphans p pins pc)
    (hpc : pc b = .flush buf r (some ok)) : Tidy pins pc b (allocFlushed p (pins b) buf r ok) := by
  have hok := h.pcs b
  rw [hpc] at hok
  obtain ⟨hin, hpriv, -, -, hjust, -⟩ := hok
  have hwait (i : Buffer) : ¬ (pc b).Waits i := by rw [hpc]; exact id
  have hholds : (pins b).Holds buf := Pins.holds_of_priv (by omega)
  cases ok with
  | false =>
    rw [allocFlushed, if_pos rfl]
    refine Tidy.bufferAlloc (after_unpinVictim _ _ h hpc) (tidy_unpinVictim _ _ h g hpc (fun i hi => ?_) fun _ _ => rfl)
    by_cases hib : i = buf
    · subst hib; simp
    · simpa [hib] using hi
  | true =>
    rw [allocFlushed, if_neg (by simp), if_neg (by simp [hjust])]
    dsimp only
    have hclean (i : Buffer) (hi : i ≠ buf) : update p.dirty buf false i = p.dirty i :=
      update_of_ne hi ..
    have hu := after_unpinVictim p.ioError (update p.dirty buf false) h hpc
    have gu := tidy_unpinVictim p.ioError (update p.dirty buf false) h g hpc
      (fun _ => id) hclean
    by_cases hmany : 1 < p.refcount buf
    · rw [if_pos hmany]
      exact Tidy.bufferAlloc hu gu
    · rw [if_neg hmany]
      rw [show bufTableLookup {p with dirty := update p.dirty buf false} r.tag = p.table r.tag from
        h.lookup]
      cases ht : p.table r.tag with
      | some buf2 =>
        have hrel := relisted_dropRef (endIo {p with dirty := update p.dirty buf false} buf) buf
        have hd : ((endIo {p with dirty := update p.dirty buf false} buf).dropRef buf).deleted buf2 = false := by
          rw [hrel.deleted]
          exact (h.tabled.maps _ _ ht).2.1
        have ha := tidy_alloc (b := b) gu (by rw [update_self]; exact fun _ => id)
          steady_allocFound.nbuffers rfl rfl gu.clean (fun _ _ _ _ => rfl) (allocFound_spec (r := r) hd)
        rw [update_self] at ha
        exact ha.then_
      | none =>
        have hs := allocRename_spec (p := {p with dirty := update p.dirty buf false})
          ⟨h.tabled.maps, h.tabled.mapped⟩ hin ht (update_self ..) hpriv
        refine tidy_alloc g hwait steady_allocRename.nbuffers ?_ ?_ (fun i hi hd => ?_) (fun b' hne i ho => ?_) hs
        · rfl
        · rfl
        · by_cases hib : i = buf
          · subst hib; simp
          · exact (hclean i hib).trans (g.clean i hi hd)
        · have hib : i ≠ buf := by rintro rfl; exact h.not_owns hholds (hwait i) hne ho
          exact hclean i hib

end Sections

/-! ### The other steps -/

section Steps
variable [Fintype β] [DecidableEq β] {p p' : Pool Page} {pins : β → Pins} {pc : β → Pc} {b : β} {buf : Buffer}
  {r : Request}

section
variable (h : SysInv p pins pc) (g : NoOrphans p pins pc)
include h g

theorem tidy_readDone {own ok : Bool}
    (hpc : pc b = .read buf r own (some ok)) : Tidy pins pc b (readDone p (pins b) buf r ok) := by
  have hok := h.pcs b
  have hcl := g.pcs b
  rw [hpc] at hok hcl
  obtain ⟨rfl, hdirty, hpriv⟩ := hcl
  obtain ⟨hin, -, -, hdel, -⟩ := hok
  have hwait (i : Buffer) : ¬ (pc b).Waits i := by rw [hpc]; exact id
  cases ok with
  | true =>
    refine g.move rfl g.clean (fun b' _ i hi hb hd => ?_) (fun i hi hb hd => ?_) (fun _ _ _ _ => rfl) trivial rfl
    · -- the buffer itself is in the table
      have hib : i ≠ buf := by rintro rfl; rw [show p.deleted i = true from hd] at hdel; cases hdel
      obtain ⟨h1, h2⟩ := g.orphan b' i hi hb hd
      exact ⟨h1, (update_of_ne hib _ _).trans h2⟩
    · exact absurd (g.orphan b i hi hb hd).1 (hwait i)
  | false =>
    have hfound := (h.tabled.delete hin).1
    have heq := bufTableDelete_eq p buf
    have hd₁ := bufTableDelete_deleted p buf
    rw [readDone, if_neg (by simp)]
    generalize p.bufTableDelete buf = d at *
    obtain ⟨found, p₁⟩ := d
    dsimp only at hfound heq hd₁ ⊢
    subst hfound
    rw [if_neg (by simp)]
    have hrel := relisted_unpinBuffer p₁ (pins b) buf
    have hdeleted : (endIo (p₁.unpinBuffer (pins b) buf).1 buf).deleted = update p.deleted buf true := by
      rw [← hd₁]; exact hrel.deleted
    have hdirty' : (endIo (p₁.unpinBuffer (pins b) buf).1 buf).dirty = p.dirty := by
      refine hrel.dirty.trans ?_
      rw [heq]
    have herror : (p₁.unpinBuffer (pins b) buf).1.ioError = p.ioError := by
      rw [hrel.ioError, heq]
    refine g.move ?_ (fun i hi hd => ?_) (fun b' hne i hi hb hd => ?_) (fun i hi hb hd => ?_) (fun _ _ i _ => ?_)
      trivial rfl
    · refine hrel.nbuffers.trans ?_
      rw [heq]
    · rw [show (endIo (p₁.unpinBuffer (pins b) buf).1 buf).dirty i = p.dirty i from congrFun hdirty' i]
      by_cases hib : i = buf
      · exact hib ▸ hdirty
      · refine g.clean i hi ?_
        have := congrFun hdeleted i
        rw [update_of_ne hib] at this
        exact this.symm.trans hd
    · -- who else holds the buffer waits for this read
      by_cases hib : i = buf
      · subst hib
        refine ⟨(h.others b b' i (by rw [hpc]; exact rfl) hb).resolve_left hne, update_self ..⟩
      · have hold : p.deleted i = true := by
          have := congrFun hdeleted i
          rw [update_of_ne hib] at this
          exact this.symm.trans hd
        obtain ⟨h1, h2⟩ := g.orphan b' i hi hb hold
        refine ⟨h1, ?_⟩
        show update (p₁.unpinBuffer (pins b) buf).1.ioError buf true i = true
        rw [herror, update_of_ne hib]
        exact h2
    · have hib : i ≠ buf := by
        rintro rfl
        refine absurd hb (Pins.not_holds.mpr ⟨?_, g.last b i⟩)
        show update (pins b).priv i ((pins b).priv i - 1) i = 0
        rw [update_self, hpriv]
      have hold : p.deleted i = true := by
        have := congrFun hdeleted i
        rw [update_of_ne hib] at this
        exact this.symm.trans hd
      exact absurd (g.orphan b i hi ((Pins.holds_update hib).mp hb) hold).1 (hwait i)
    · exact congrFun hdirty' i

theorem tidy_writeBuffer {ret : Option (Buffer × Request)}
    (hd : (pc b).Detached) (hin : p.InPool buf) (hpriv : 0 < (pins b).priv buf) :
    Tidy pins pc b ⟨(writeBuffer p (pins b) buf).1, (writeBuffer p (pins b) buf).2, .idle ret, false⟩ := by
  have hholds := Pins.holds_of_priv hpriv
  have hrel := relisted_unpinBuffer {p with
    dirty := update p.dirty buf true
    justDirtied := update p.justDirtied buf true} (pins b) buf
  have hdel := g.held hin hholds (hd buf).2
  have hdirty (i : Buffer) (hib : i ≠ buf) : (writeBuffer p (pins b) buf).1.dirty i = p.dirty i :=
    (congrFun hrel.dirty i).trans (update_of_ne hib ..)
  refine tidy_fewer g (fun i => (hd i).2) hrel.nbuffers hrel.deleted (fun i hi => ?_) (fun i hi hd' => ?_)
    (fun b' hne i ho => hdirty i ?_) (holds_of_update hholds) trivial rfl
  · rw [show (writeBuffer p (pins b) buf).1.ioError = p.ioError from hrel.ioError]
    exact hi
  · have hib : i ≠ buf := by rintro rfl; rw [hdel] at hd'; cases hd'
    exact (hdirty i hib).trans (g.clean i hi hd')
  · rintro rfl
    exact h.detached_holds hd hne ho hholds

theorem tidy_releaseAndReadBuffer {rel : Relation} {blockNum : Option Nat}
    (hd : (pc b).Detached) :
    Tidy pins pc b (releaseAndReadBuffer p (pins b) buf rel blockNum) := by
  have hw (i : Buffer) := (hd i).2
  have henter {q : Pins} (hq : ∀ i, q.Holds i → (pins b).Holds i) (hlast : q.last = (pins b).last) :
      Tidy pins pc b (if rel.rdIslocal then ⟨p, q, .idle none, false⟩
        else ⟨p, q, .alloc (request p rel blockNum), false⟩) := by
    split
    · exact tidy_relisted g hw (.refl p) hq trivial hlast
    · exact tidy_relisted g hw (.refl p) hq trivial hlast
  unfold releaseAndReadBuffer
  dsimp only
  by_cases hval : p.InPool buf ∧ 0 < (pins b).priv buf
  · rw [if_pos hval]
    have hself : update (pins b).priv buf ((pins b).priv buf - 1) buf = (pins b).priv buf - 1 :=
      update_self ..
    have hholds := Pins.holds_of_priv hval.2
    have hc := h.counted.release (n := (pins b).priv buf - 1) hval.1 hholds
    by_cases hlast : (pins b).priv buf - 1 = 0 ∧ (pins b).last buf = 0
    · rw [if_pos hlast] at hc
      rw [if_pos ⟨hself.trans hlast.1, hlast.2⟩]
      split
      · exact tidy_relisted g hw (relisted_dropRef p buf) (holds_of_update hholds) trivial rfl
      · exact Tidy.bufferAlloc
          (after_relisted h hd (relisted_dropRef p buf) hc (holds_of_update hholds) trivial detached_alloc)
          (tidy_relisted g hw (relisted_dropRef p buf) (holds_of_update hholds) trivial rfl)
    · rw [if_neg fun e => hlast ⟨hself.symm.trans e.1, e.2⟩]
      exact henter (holds_of_update hholds) rfl
  · rw [if_neg hval]
    exact henter (fun _ => id) rfl

end

end Steps

/-- The calls on shared buffers, with reads and writes that may fail. -/
def Act.fallible : Act Page → Bool
  | .ioFail _ => true
  | a => a.plain

/-- Somewhere to put the block: a buffer that has it, or one on the free list. -/
def Supplied (p : Pool Page) (t : BufferTag) : Prop :=
  (p.table t).isSome = true ∨ p.freeNext p.freeListDescriptor ≠ p.freeListDescriptor

instance (p : Pool Page) (t : BufferTag) : Decidable (Supplied p t) := inferInstanceAs (Decidable (_ ∨ _))

/-- No wait ends on a buffer with `BM_IO_ERROR`, and there is a buffer when one is needed. The
victim of a write, and the buffer that `ReleaseAndReadBuffer` releases, may be that buffer. -/
def SafeStep (p : Pool Page) (q : Pins) : Pc → Act Page → Prop
  | .waitIo buf _, .resume => p.ioError buf = false
  | .alloc r, .resume => Supplied p r.tag
  | .flush buf r (some _), .resume => Supplied p r.tag ∨ p.refcount buf = 1
  | .idle _, .releaseAndReadBuffer buf rel blockNum =>
    q.priv buf = 1 → Supplied p (request p rel blockNum).tag ∨ p.refcount buf = 1
  | _, _ => True

section Safe
variable {p : Pool Page} {q : Pins} {buf : Buffer} {r : Request}

theorem freeList_supplied (h : FreeList p) {i : Buffer} (hin : p.InPool i) (hfree : p.free i = true) :
    p.freeNext p.freeListDescriptor ≠ p.freeListDescriptor := by
  rcases freeList_get h with ⟨-, hnone⟩ | ⟨buf, hget, -⟩
  · rw [hnone i hin] at hfree; cases hfree
  · intro hself
    rw [getFreeBuffer, if_pos hself] at hget
    cases hget

theorem allocRename_unlocks : (allocRename p q buf r).lock = false := by
  unfold allocRename
  dsimp only
  split_ifs <;> rfl

theorem bufferAlloc_unlocks (h : Supplied p r.tag) : (bufferAlloc p q r).lock = false := by
  have hlookup : p.bufTableLookup r.tag = p.table r.tag := if_neg (by simp [Request.tag])
  rw [bufferAlloc, hlookup]
  cases hm : p.table r.tag with
  | some buf => rfl
  | none =>
    have hget := h.resolve_left (by rw [hm]; exact Bool.false_ne_true)
    rw [allocVictim, getFreeBuffer, if_neg hget]
    dsimp only
    split_ifs
    · rfl
    · exact allocRename_unlocks

/-- A buffer on its way to the free list helps. -/
theorem supplied_dropRef (hl : FreeList p) (hl' : FreeList (p.dropRef buf)) (hin : p.InPool buf)
    (h : Supplied p r.tag ∨ p.refcount buf = 1) : Supplied (p.dropRef buf) r.tag := by
  have hrel := relisted_dropRef p buf
  rcases h with (ht | hg) | hone
  · exact .inl (by rw [hrel.table]; exact ht)
  · rcases freeList_get hl with ⟨hnone, -⟩ | ⟨i, -, hi, hfree⟩
    · rw [getFreeBuffer, if_neg hg] at hnone; cases hnone
    · refine .inr (freeList_supplied hl' (hrel.inPool.mpr hi) ?_)
      unfold dropRef freeIfUnpinned
      dsimp only
      split
      · by_cases hib : i = buf
        · subst hib; simp
        · simpa [hib] using hfree
      · exact hfree
  · refine .inr (freeList_supplied hl' (hrel.inPool.mpr hin) ?_)
    simp [dropRef, freeIfUnpinned, hone]

end Safe

/-- A section that leaves the contents and the dirty bits alone. -/
def SamePages (p : Pool Page) (c : Section Page) : Prop := c.pool.data = p.data ∧ c.pool.dirty = p.dirty

section Pages
variable {p p' : Pool Page} {q q' : Pins} {buf : Buffer} {r : Request} {c : Section Page}

theorem SamePages.of (h : SamePages p' c) (hdata : p'.data = p.data) (hdirty : p'.dirty = p.dirty) :
    SamePages p c := ⟨h.1.trans hdata, h.2.trans hdirty⟩

theorem samePages_allocFound : SamePages p (allocFound p q buf r) :=
  ⟨(relisted_pinBuffer p q buf).data, (relisted_pinBuffer p q buf).dirty⟩

theorem samePages_allocRename : SamePages p (allocRename p q buf r) := by
  unfold allocRename bufTableDelete bufTableInsert
  dsimp only
  split_ifs <;> (try split) <;> exact ⟨rfl, rfl⟩

theorem samePages_bufferAlloc : SamePages p (bufferAlloc p q r) := by
  unfold bufferAlloc allocVictim getFreeBuffer
  split
  · exact samePages_allocFound
  · split_ifs
    · exact ⟨rfl, rfl⟩
    · dsimp only
      split_ifs
      · exact ⟨rfl, rfl⟩
      · exact samePages_allocRename.of rfl rfl

theorem unpinVictim_pages : (unpinVictim p q buf).1.data = p.data ∧ (unpinVictim p q buf).1.dirty = p.dirty :=
  ⟨(relisted_dropRef (endIo p buf) buf).data, (relisted_dropRef (endIo p buf) buf).dirty⟩

/-- The end of a victim's write clears the dirty bit when it has succeeded. -/
theorem allocFlushed_pages {ok : Bool} : (allocFlushed p q buf r ok).pool.data = p.data ∧
    ∀ i, i ≠ buf ∨ ok = false → (allocFlushed p q buf r ok).pool.dirty i = p.dirty i := by
  have hof {p' : Pool Page} {c : Section Page} (h : SamePages p' c) (hdata : p'.data = p.data)
      (hdirty : ∀ i, i ≠ buf ∨ ok = false → p'.dirty i = p.dirty i) : c.pool.data = p.data ∧
      ∀ i, i ≠ buf ∨ ok = false → c.pool.dirty i = p.dirty i :=
    ⟨h.1.trans hdata, fun i hi => (congrFun h.2 i).trans (hdirty i hi)⟩
  unfold allocFlushed
  dsimp only
  cases ok with
  | false => exact hof samePages_bufferAlloc unpinVictim_pages.1 fun i _ => congrFun unpinVictim_pages.2 i
  | true =>
    have hclean (i : Buffer) (hi : i ≠ buf ∨ true = false) : update p.dirty buf false i = p.dirty i :=
      update_of_ne (hi.resolve_right (by simp)) ..
    have hu : (unpinVictim {p with dirty := update p.dirty buf false} q buf).1.data = p.data ∧
        (unpinVictim {p with dirty := update p.dirty buf false} q buf).1.dirty =
          update p.dirty buf false := unpinVictim_pages
    have hdirty (i : Buffer) (hi : i ≠ buf ∨ true = false) := (congrFun hu.2 i).trans (hclean i hi)
    rw [if_neg (by simp)]
    by_cases hjust : p.justDirtied buf = true
    · rw [if_pos hjust]
      exact ⟨rfl, fun _ _ => rfl⟩
    rw [if_neg hjust]
    by_cases hmany : 1 < p.refcount buf
    · rw [if_pos hmany]
      exact hof samePages_bufferAlloc hu.1 hdirty
    rw [if_neg hmany]
    split
    · exact hof samePages_allocFound hu.1 hdirty
    · exact hof samePages_allocRename rfl hclean

theorem readDone_pages {ok : Bool} : SamePages p (readDone p q buf r ok) := by
  have hd : (p.bufTableDelete buf).2.data = p.data ∧ (p.bufTableDelete buf).2.dirty = p.dirty := by
    unfold bufTableDelete
    split <;> exact ⟨rfl, rfl⟩
  unfold readDone
  dsimp only
  split_ifs
  · exact ⟨rfl, rfl⟩
  · exact hd
  · exact ⟨(relisted_unpinBuffer _ q buf).data.trans hd.1, (relisted_unpinBuffer _ q buf).dirty.trans hd.2⟩

theorem samePages_releaseAndReadBuffer {rel : Relation} {blockNum : Option Nat} :
    SamePages p (releaseAndReadBuffer p q buf rel blockNum) := by
  have hrel := relisted_dropRef p buf
  unfold releaseAndReadBuffer
  dsimp only
  split_ifs
  · exact ⟨hrel.data, hrel.dirty⟩
  · exact samePages_bufferAlloc.of hrel.data hrel.dirty
  all_goals exact ⟨rfl, rfl⟩

end Pages

section Acts
variable [Fintype β] [DecidableEq β] [Zero Page] {p p' : Pool Page} {pins : β → Pins} {pc : β → Pc} {b : β}
  {a : Act Page} {c : Section Page}

omit [Fintype β] [Zero Page] in
theorem tidy_rewritten {pc' : Pc} (g : NoOrphans p pins pc) (hr : Rewritten p p') (hw : ∀ i, ¬ (pc b).Waits i)
    (hpc : PcClean p (pins b) pc') : Tidy pins pc b ⟨p', pins b, pc', false⟩ := by
  obtain ⟨data, disk, rfl⟩ := hr
  exact tidy_fewer g hw rfl rfl (fun _ => id) g.clean (fun _ _ _ _ => rfl) (fun _ => id)
    (hpc.congr fun _ _ => rfl) rfl

theorem act_tidy (h : SysInv p pins pc) (g : NoOrphans p pins pc) (ha : a.fallible = true)
    (hsafe : SafeStep p (pins b) (pc b) a) (hs : act p (pins b) (pc b) a = some c) : Tidy pins pc b c := by
  have hcl := g.pcs b
  cases hpc : pc b with
  | idle ret =>
    have hd : (pc b).Detached := hpc ▸ detached_idle
    have hw (i : Buffer) := (hd i).2
    rw [hpc] at hs
    cases a with
    | readBuffer rel blockNum =>
      simp only [act, call] at hs
      split_ifs at hs <;> cases hs
      · exact tidy_relisted g hw (.refl p) (fun _ => id) trivial rfl
      · exact tidy_relisted g hw (.refl p) (fun _ => id) trivial rfl
    | releaseAndReadBuffer buf rel blockNum =>
      cases hs
      exact tidy_releaseAndReadBuffer h g hd
    | releaseBuffer buf =>
      simp only [act, call] at hs
      split_ifs at hs with hin hpriv <;> cases hs
      · exact tidy_relisted g hw (relisted_releaseBuffer p (pins b) buf)
          (holds_of_update (Pins.holds_of_priv hpriv)) trivial rfl
      · exact tidy_relisted g hw (.refl p) (fun _ => id) trivial rfl
    | writeBuffer buf =>
      simp only [act, call] at hs
      split_ifs at hs with hin hpriv <;> cases hs
      · exact tidy_writeBuffer h g hd hin hpriv
      · exact tidy_relisted g hw (.refl p) (fun _ => id) trivial rfl
    | modify buf page =>
      simp only [act, call] at hs
      split_ifs at hs
      cases hs
      exact tidy_rewritten g ⟨_, _, rfl⟩ hw trivial
    | incrBufferRefCount | bufferRefCountReset | bufferRefCountRestore | resetBufferPool => cases ha
    | ioOk | ioFail | resume => cases hs
  | exited => rw [hpc] at hs; cases a <;> cases hs
  | alloc r =>
    rw [hpc] at hs
    cases a <;> cases hs
    exact tidy_bufferAlloc h g (hpc ▸ detached_alloc)
  | waitIo buf r =>
    rw [hpc] at hs hsafe
    cases a <;> simp only [act, proceed, reduceCtorEq] at hs
    split_ifs at hs
    cases hs
    exact tidy_allocWaited g hpc hsafe
  | flush buf r done =>
    rw [hpc] at hs hcl
    have hw (i : Buffer) : ¬ (pc b).Waits i := by rw [hpc]; exact id
    cases done with
    | none =>
      cases a <;> cases hs
      · exact tidy_rewritten g (rewritten_writeOut ..) hw hcl
      · exact tidy_rewritten g (rewritten_writeOut ..) hw hcl
    | some ok =>
      cases a <;> cases hs
      exact tidy_allocFlushed h g hpc
  | read buf r own done =>
    rw [hpc] at hs hcl
    have hw (i : Buffer) : ¬ (pc b).Waits i := by rw [hpc]; exact id
    cases done with
    | none =>
      cases a <;> cases hs
      · exact tidy_rewritten g (rewritten_readIn ..) hw hcl
      · exact tidy_rewritten g (rewritten_readFails ..) hw hcl
    | some ok =>
      cases a <;> cases hs
      exact tidy_readDone h g hpc
  | refill buf r =>
    rw [hpc] at hs
    have hw (i : Buffer) : ¬ (pc b).Waits i := by rw [hpc]; exact id
    cases a <;> cases hs
    · exact tidy_rewritten g (rewritten_readIn ..) hw trivial
    · exact tidy_rewritten g (rewritten_readFails ..) hw trivial

omit [DecidableEq β] in
/-- A section changes the contents and the dirty bit of buffers that its backend holds, and
does not wait for. -/
theorem act_contents (h : SysInv p pins pc) (ha : a.fallible = true)
    (hs : act p (pins b) (pc b) a = some c) (i : Buffer) :
    c.pool.data i = p.data i ∧ c.pool.dirty i = p.dirty i ∨ (pins b).Holds i ∧ ¬ (pc b).Waits i := by
  have hok := h.pcs b
  have hsame {c : Section Page} (hc : SamePages p c) : c.pool.data i = p.data i ∧ c.pool.dirty i = p.dirty i ∨
      (pins b).Holds i ∧ ¬ (pc b).Waits i := .inl ⟨congrFun hc.1 i, congrFun hc.2 i⟩
  have hone {p' : Pool Page} {buf : Buffer} (hdata : i ≠ buf → p'.data i = p.data i)
      (hdirty : i ≠ buf → p'.dirty i = p.dirty i) (hpriv : 0 < (pins b).priv buf) (hw : ¬ (pc b).Waits buf) :
      p'.data i = p.data i ∧ p'.dirty i = p.dirty i ∨ (pins b).Holds i ∧ ¬ (pc b).Waits i := by
    by_cases hib : i = buf
    · exact .inr (hib ▸ ⟨Pins.holds_of_priv hpriv, hw⟩)
    · exact .inl ⟨hdata hib, hdirty hib⟩
  cases hpc : pc b with
  | idle ret =>
    have hw (i : Buffer) : ¬ (pc b).Waits i := by rw [hpc]; exact id
    rw [hpc] at hs
    rw [← hpc]
    cases a with
    | readBuffer rel blockNum =>
      simp only [act, call] at hs
      split_ifs at hs <;> cases hs <;> exact hsame ⟨rfl, rfl⟩
    | releaseAndReadBuffer buf rel blockNum =>
      cases hs
      exact hsame samePages_releaseAndReadBuffer
    | releaseBuffer buf =>
      simp only [act, call] at hs
      split_ifs at hs <;> cases hs
      · exact hsame ⟨(relisted_releaseBuffer p (pins b) buf).data, (relisted_releaseBuffer p (pins b) buf).dirty⟩
      · exact hsame ⟨rfl, rfl⟩
    | writeBuffer buf =>
      simp only [act, call] at hs
      split_ifs at hs with hin hpriv <;> cases hs
      · have hrel := relisted_unpinBuffer {p with
          dirty := update p.dirty buf true
          justDirtied := update p.justDirtied buf true} (pins b) buf
        exact hone (fun _ => congrFun hrel.data i)
          (fun hib => (congrFun hrel.dirty i).trans (update_of_ne hib ..)) hpriv (hw buf)
      · exact hsame ⟨rfl, rfl⟩
    | modify buf page =>
      simp only [act, call] at hs
      split_ifs at hs with hin
      cases hs
      exact hone (fun hib => update_of_ne hib ..) (fun _ => rfl) hin.2 (hw buf)
    | incrBufferRefCount | bufferRefCountReset | bufferRefCountRestore | resetBufferPool => cases ha
    | ioOk | ioFail | resume => cases hs
  | exited => rw [hpc] at hs; cases a <;> cases hs
  | alloc r =>
    rw [hpc] at hs
    rw [← hpc]
    cases a <;> cases hs
    exact hsame samePages_bufferAlloc
  | waitIo buf r =>
    rw [hpc] at hs
    rw [← hpc]
    cases a <;> simp only [act, proceed, reduceCtorEq] at hs
    split_ifs at hs
    cases hs
    exact hsame ⟨rfl, rfl⟩
  | flush buf r done =>
    have hw (i : Buffer) : ¬ (pc b).Waits i := by rw [hpc]; exact id
    rw [hpc] at hs hok
    rw [← hpc]
    have hwrite (page : Page) : (p.writeOut buf page).data = p.data ∧ (p.writeOut buf page).dirty = p.dirty := by
      unfold writeOut
      split <;> exact ⟨rfl, rfl⟩
    cases done with
    | none => cases a <;> cases hs <;> exact hsame (hwrite _)
    | some ok =>
      cases a <;> cases hs
      exact hone (fun _ => congrFun allocFlushed_pages.1 i) (fun hib => allocFlushed_pages.2 i (.inl hib))
        (by rw [hok.2.1]; exact Nat.one_pos) (hw buf)
  | read buf r own done =>
    have hw (i : Buffer) : ¬ (pc b).Waits i := by rw [hpc]; exact id
    rw [hpc] at hs hok
    rw [← hpc]
    have hpriv : 0 < (pins b).priv buf := by
      cases own with
      | false => exact hok.2
      | true => exact hok.2.1
    have hread : i ≠ buf → (p.readIn buf r).data i = p.data i ∧ (p.readIn buf r).dirty i = p.dirty i := by
      intro hib
      unfold readIn
      split <;> exact ⟨update_of_ne hib .., rfl⟩
    cases done with
    | none =>
      cases a <;> cases hs
      · exact hone (fun hib => (hread hib).1) (fun hib => (hread hib).2) hpriv (hw buf)
      · exact hone (fun hib => update_of_ne hib ..) (fun _ => rfl) hpriv (hw buf)
    | some ok =>
      cases a <;> cases hs
      exact hsame readDone_pages
  | refill buf r =>
    have hw (i : Buffer) : ¬ (pc b).Waits i := by rw [hpc]; exact id
    rw [hpc] at hs hok
    rw [← hpc]
    have hread : i ≠ buf → (p.readIn buf r).data i = p.data i ∧ (p.readIn buf r).dirty i = p.dirty i := by
      intro hib
      unfold readIn
      split <;> exact ⟨update_of_ne hib .., rfl⟩
    cases a <;> cases hs
    · exact hone (fun hib => (hread hib).1) (fun hib => (hread hib).2) hok.2 (hw buf)
    · exact hone (fun hib => update_of_ne hib ..) (fun _ => rfl) hok.2 (hw buf)

/-! ### The lock -/

/-- `ReleaseAndReadBuffer` on a local relation, which does not reach `BufferAlloc`. -/
def Act.readsLocal : Act Page → Bool
  | .releaseAndReadBuffer _ rel _ => rel.rdIslocal
  | _ => false

omit [DecidableEq β] [Zero Page] in
theorem allocFlushed_unlocks [DecidableEq β] {buf : Buffer} {r : Request} {ok : Bool} (h : SysInv p pins pc)
    (hpc : pc b = .flush buf r (some ok)) (hsup : Supplied p r.tag ∨ p.refcount buf = 1) :
    (allocFlushed p (pins b) buf r ok).lock = false := by
  have hok := h.pcs b
  rw [hpc] at hok
  have hin : p.InPool buf := hok.1
  have hloop (error dirty : Buffer → Bool) :
      (bufferAlloc (unpinVictim {p with ioError := error, dirty := dirty} (pins b) buf).1
        (unpinVictim {p with ioError := error, dirty := dirty} (pins b) buf).2 r).lock = false := by
    have hu := after_unpinVictim error dirty h hpc
    exact bufferAlloc_unlocks (supplied_dropRef h.counted.list hu.counted.list hin hsup)
  unfold allocFlushed
  dsimp only
  split_ifs
  · exact hloop ..
  · rfl
  · exact hloop ..
  · split
    · rfl
    · exact allocRename_unlocks

omit [DecidableEq β] [Zero Page] in
theorem releaseAndReadBuffer_unlocks [DecidableEq β] {buf : Buffer} {rel : Relation} {blockNum : Option Nat}
    (h : SysInv p pins pc) (hrel : rel.rdIslocal = false)
    (hsup : (pins b).priv buf = 1 → Supplied p (request p rel blockNum).tag ∨ p.refcount buf = 1) :
    (releaseAndReadBuffer p (pins b) buf rel blockNum).lock = false := by
  have hself : update (pins b).priv buf ((pins b).priv buf - 1) buf = (pins b).priv buf - 1 :=
    update_self ..
  unfold releaseAndReadBuffer
  dsimp only
  rw [hrel]
  by_cases hval : p.InPool buf ∧ 0 < (pins b).priv buf
  · rw [if_pos hval]
    have hholds := Pins.holds_of_priv hval.2
    by_cases hlast : (pins b).priv buf - 1 = 0 ∧ (pins b).last buf = 0
    · have hc := h.counted.release (n := (pins b).priv buf - 1) hval.1 hholds
      rw [if_pos hlast] at hc
      rw [if_pos ⟨hself.trans hlast.1, hlast.2⟩, if_neg Bool.false_ne_true]
      have hreq : request (p.dropRef buf) rel blockNum = request p rel blockNum := by
        unfold request
        rw [(relisted_dropRef p buf).disk]
      rw [hreq]
      exact bufferAlloc_unlocks (supplied_dropRef h.counted.list hc.list hval.1 (hsup (by omega)))
    · rw [if_neg fun e => hlast ⟨hself.symm.trans e.1, e.2⟩]
      rfl
  · rw [if_neg hval]
    rfl

theorem act_unlocks (h : SysInv p pins pc) (ha : a.fallible = true) (hsafe : SafeStep p (pins b) (pc b) a)
    (hlocal : a.readsLocal = false) (hs : act p (pins b) (pc b) a = some c) : c.lock = false := by
  cases hpc : pc b with
  | idle ret =>
    rw [hpc] at hs hsafe
    cases a with
    | releaseAndReadBuffer buf rel blockNum =>
      cases hs
      exact releaseAndReadBuffer_unlocks h hlocal hsafe
    | readBuffer | releaseBuffer | writeBuffer | modify =>
      simp only [act, call] at hs
      split_ifs at hs <;> cases hs <;> rfl
    | incrBufferRefCount | bufferRefCountReset | bufferRefCountRestore | resetBufferPool => cases ha
    | ioOk | ioFail | resume => cases hs
  | exited => rw [hpc] at hs; cases a <;> cases hs
  | alloc r =>
    rw [hpc] at hs hsafe
    cases a <;> cases hs
    exact bufferAlloc_unlocks hsafe
  | waitIo buf r =>
    rw [hpc] at hs
    cases a <;> simp only [act, proceed, reduceCtorEq] at hs
    split_ifs at hs
    cases hs
    rfl
  | flush buf r done =>
    rw [hpc] at hs hsafe
    cases done <;> cases a <;> cases hs
    · rfl
    · rfl
    · exact allocFlushed_unlocks h hpc hsafe
  | read buf r own done =>
    rw [hpc] at hs
    cases done <;> cases a <;> cases hs
    · rfl
    · rfl
    · unfold readDone
      dsimp only
      split_ifs <;> rfl
  | refill buf r =>
    rw [hpc] at hs
    cases a <;> cases hs <;> rfl

end Acts

section Properties
variable [DecidableEq β] [Zero Page]

/-- The write of a victim leaves its contents alone, and the dirty bit unless it succeeds. -/
def Sys.VictimKept (Ok : Sys β Page → β → Act Page → Prop) (s : Sys β Page) : Prop :=
  ∀ b buf r done, s.pc b = .flush buf r done → ∀ b' a t, Ok s b' a → step s b' a = some t →
    t.pool.data buf = s.pool.data buf ∧ (t.pool.dirty buf = true ∨ b' = b ∧ done = some true)

/-- Who wakes up in `WaitIO` returns the buffer with the contents that it has. -/
def Sys.WaiterServed (Ok : Sys β Page → β → Act Page → Prop) (s : Sys β Page) : Prop :=
  ∀ b buf r, s.pc b = .waitIo buf r → ∀ a t, Ok s b a → step s b a = some t →
    t.pool.data = s.pool.data ∧ t.pc b = returnFound buf r

/-- No step returns with `BufMgrLock` held. -/
def Sys.Unlocked (Ok : Sys β Page → β → Act Page → Prop) (s : Sys β Page) : Prop :=
  ∀ b a t, Ok s b a → a.readsLocal = false → step s b a = some t → t.lock = false

end Properties

/-- What the backends have got is in the table, and no block is in two of these buffers. -/
def Sys.HeldKnown (s : Sys β Page) : Prop :=
  (∀ b i, s.pool.InPool i → (s.pins b).Holds i → ¬ (s.pc b).Waits i → s.pool.table (s.pool.tag i) = some i) ∧
    ∀ b b' i j, s.pool.InPool i → s.pool.InPool j → (s.pins b).Holds i → (s.pins b').Holds j →
      ¬ (s.pc b).Waits i → ¬ (s.pc b').Waits j → s.pool.tag i = s.pool.tag j → i = j

/-- A step in which reads and writes may fail. -/
def Sys.Fallible (_ : Sys β Page) (_ : β) (a : Act Page) : Prop := a.fallible = true

/-- A step that wakes up on no failed buffer and finds a free one. -/
def Sys.Safe (s : Sys β Page) (b : β) (a : Act Page) : Prop :=
  a.fallible = true ∧ SafeStep s.pool (s.pins b) (s.pc b) a

section Runs
variable [Fintype β] [DecidableEq β] [Zero Page] {s t : Sys β Page}

omit [Fintype β] [DecidableEq β] [Zero Page] in
theorem noOrphans_start {N : Nat} (disk : Disk Page) (memory : Buffer → Page) :
    NoOrphans (start β N disk memory).pool (start β N disk memory).pins (start β N disk memory).pc :=
  ⟨fun _ _ _ => rfl, fun _ _ _ hb => absurd hb (lt_irrefl 0), fun _ => trivial, fun _ _ => rfl⟩

omit [Zero Page] in
theorem fallible_levels {p : Pool Page} {q : Pins} {a : Act Page} (h : a.fallible = true) : LevelsMet p q a := by
  cases a <;> trivial

theorem run_noOrphans {N : Nat} (hN : 0 < N) {disk : Disk Page} {memory : Buffer → Page}
    (h : Run Sys.Safe (start β N disk memory) s) : Inv N s ∧ NoOrphans s.pool s.pins s.pc := by
  induction h with
  | refl => exact ⟨inv_start hN disk memory, noOrphans_start disk memory⟩
  | tail _ hok hs ih =>
    obtain ⟨hinv, hno⟩ := ih
    refine ⟨step_inv hinv (fallible_levels hok.1) hs, ?_⟩
    obtain ⟨-, c, hc, rfl⟩ := step_eq hs
    exact act_tidy hinv.sys hno hok.1 hok.2 hc

omit [Fintype β] [DecidableEq β] in
/-- The steps of the backend that writes a victim. -/
theorem flush_keeps {p : Pool Page} {q : Pins} {buf : Buffer} {r : Request} {done : Option Bool} {a : Act Page}
    {c : Section Page} (hdirty : p.dirty buf = true) (hs : act p q (.flush buf r done) a = some c) :
    c.pool.data buf = p.data buf ∧ (c.pool.dirty buf = true ∨ done = some true) := by
  have hwrite (page : Page) : (p.writeOut buf page).data = p.data ∧ (p.writeOut buf page).dirty = p.dirty := by
    unfold writeOut
    split <;> exact ⟨rfl, rfl⟩
  cases done with
  | none =>
    cases a <;> cases hs
    · exact ⟨congrFun (hwrite _).1 buf, .inl ((congrFun (hwrite _).2 buf).trans hdirty)⟩
    · exact ⟨congrFun (hwrite _).1 buf, .inl ((congrFun (hwrite _).2 buf).trans hdirty)⟩
  | some ok =>
    cases a <;> cases hs
    refine ⟨congrFun allocFlushed_pages.1 buf, ?_⟩
    cases ok with
    | false => exact .inl ((allocFlushed_pages.2 buf (.inr rfl)).trans hdirty)
    | true => exact .inr rfl

/-- **Failed reads and writes lose and duplicate nothing while no wait ends on a buffer with
`BM_IO_ERROR` and there is a free buffer for every `BufferAlloc`.** -/
theorem failed_io_safe {N : Nat} (hN : 0 < N) {disk : Disk Page} {memory : Buffer → Page}
    (h : Run Sys.Safe (start β N disk memory) s) :
    s.VictimKept Sys.Safe ∧ s.WaiterServed Sys.Safe ∧ s.HeldKnown ∧ s.Unlocked Sys.Safe := by
  obtain ⟨hinv, hno⟩ := run_noOrphans hN h
  have hknown (b : β) (i : Buffer) (hi : s.pool.InPool i) (hb : (s.pins b).Holds i) (hw : ¬ (s.pc b).Waits i) :
      s.pool.deleted i = false := hno.held hi hb hw
  refine ⟨fun b buf r done hpc b' a t hok hs => ?_, fun b buf r hpc a t hok hs => ?_,
    ⟨fun b i hi hb hw => hinv.sys.tabled.mapped i hi (hknown b i hi hb hw),
      fun b b' i j hi hj hb hb' hw hw' htag =>
        hinv.sys.tabled.inj hi hj (hknown b i hi hb hw) (hknown b' j hj hb' hw') htag⟩,
    fun b a t hok hlocal hs => ?_⟩
  · obtain ⟨-, c, hc, rfl⟩ := step_eq hs
    have hdirty := hno.pcs b
    rw [hpc] at hdirty
    by_cases hb : b' = b
    · subst hb
      rw [hpc] at hc
      obtain ⟨hdata, hstill⟩ := flush_keeps hdirty hc
      exact ⟨hdata, hstill.imp_right fun e => ⟨rfl, e⟩⟩
    · -- nobody else touches a buffer under I/O
      rcases act_contents hinv.sys hok.1 hc buf with ⟨hdata, hsame⟩ | ⟨hholds, hwaits⟩
      · exact ⟨hdata, .inl (hsame.trans hdirty)⟩
      · exact absurd (by rw [hpc]; exact rfl) (hinv.sys.not_owns hholds hwaits (Ne.symm hb))
  · obtain ⟨-, c, hc, rfl⟩ := step_eq hs
    obtain ⟨-, hsafe⟩ := hok
    rw [hpc] at hc hsafe
    cases a <;> simp only [act, proceed, reduceCtorEq] at hc
    split_ifs at hc
    cases hc
    refine ⟨rfl, (update_self ..).trans ?_⟩
    exact if_neg (by rw [show s.pool.ioError buf = false from hsafe]; exact Bool.false_ne_true)
  · obtain ⟨-, c, hc, rfl⟩ := step_eq hs
    exact act_unlocks hinv.sys hok.1 hok.2 hlocal hc

end Runs

instance (p : Pool Page) (q : Pins) (pc : Pc) (a : Act Page) : Decidable (SafeStep p q pc a) := by
  unfold SafeStep
  split <;> infer_instance

instance (s : Sys β Page) (b : β) (a : Act Page) : Decidable (s.Safe b a) := inferInstanceAs (Decidable (_ ∧ _))

instance (s : Sys β Page) (b : β) (a : Act Page) : Decidable (s.Fallible b a) := inferInstanceAs (Decidable (_ = _))

/-- Until the write of a changed page, on three buffers: the first backend has changed block 0
in buffer 1, and the second takes that buffer for a new block. -/
def victimWrite : List (Bool × Act Nat) :=
  [(false, .readBuffer hellos (some 0)), (false, .resume), (false, .ioOk), (false, .resume),
    (false, .modify 1 42), (false, .writeBuffer 1),
    (true, .readBuffer hellos (some 1)), (true, .resume), (true, .ioOk), (true, .resume),
    (true, .readBuffer hellos (some 2)), (true, .resume), (true, .ioOk), (true, .resume),
    (true, .releaseBuffer 0), (true, .readBuffer hellos none), (true, .resume)]

/-- The write fails, and the changed page is read from its buffer later on. -/
def failedWrite : List (Bool × Act Nat) :=
  victimWrite ++ [(true, .ioFail 7), (true, .resume), (false, .readBuffer hellos (some 0)), (false, .resume)]

theorem failed_io_safe_failedWrite : ∃ s : Sys Bool Nat,
    steps Sys.Safe (start Bool 3 (fun _ => [7, 8, 9]) fun _ => 0) failedWrite = some s ∧
      s.pool.data 1 = 42 ∧ s.pool.dirty 1 = true ∧ s.HeldKnown := by
  have heval : (steps Sys.Safe (start Bool 3 (fun _ => [7, 8, 9]) fun _ => 0) failedWrite).map
      (fun s => (s.pool.data 1, s.pool.dirty 1)) = some (42, true) := by decide +kernel
  obtain ⟨s, hs, hvals⟩ := Option.map_eq_some_iff.mp heval
  simp only [Prod.mk.injEq] at hvals
  exact ⟨s, hs, hvals.1, hvals.2, (failed_io_safe (by decide) (Run.refl.of_steps hs)).2.2.1⟩

/-- The first backend asks for the page while it is written, and the write fails. -/
def failedWait : List (Bool × Act Nat) :=
  victimWrite ++ [(false, .readBuffer hellos (some 0)), (false, .resume), (true, .ioFail 7), (true, .resume)]

/-- A read that fails with a waiter. -/
def failedRead : List (Bool × Act Nat) :=
  [(false, .readBuffer hellos (some 0)), (false, .resume), (true, .readBuffer hellos (some 0)), (true, .resume),
    (false, .ioFail 0), (false, .resume), (true, .resume), (true, .ioOk), (true, .resume),
    (false, .readBuffer hellos (some 0)), (false, .resume), (false, .ioOk), (false, .resume)]

/-- Two pages asked for in a pool of one buffer, before the second lookup. -/
def allPinned : List (Bool × Act Nat) :=
  [(false, .readBuffer hellos (some 0)), (false, .resume), (false, .ioOk), (false, .resume),
    (true, .readBuffer hellos (some 1))]

deriving instance DecidableEq for Pc

/-- With a waiter the three of them happen: it reads the old block over the changed page, it
gets a buffer that the table does not know, and without a free buffer the lock stays held. -/
theorem failed_io_harms :
    (¬ ∀ s : Sys Bool Nat, Run Sys.Fallible (start Bool 3 (fun _ => [7, 8, 9]) fun _ => 0) s →
        s.WaiterServed Sys.Fallible) ∧
      (∃ s : Sys Bool Nat, steps Sys.Fallible (start Bool 3 (fun _ => [7, 8, 9]) fun _ => 0)
          (failedWait ++ [(false, .resume), (false, .ioOk), (false, .resume)]) = some s ∧
        s.pc false = .idle (some (1, ⟨hellos, 0, false⟩)) ∧ s.pool.data 1 = 7) ∧
      (¬ ∀ s : Sys Bool Nat, Run Sys.Fallible (start Bool 3 (fun _ => [7, 8, 9]) fun _ => 0) s → s.HeldKnown) ∧
      ¬ ∀ s : Sys Bool Nat, Run Sys.Fallible (start Bool 1 (fun _ => [7, 8, 9]) fun _ => 0) s →
        s.Unlocked Sys.Fallible := by
  refine ⟨fun h => ?_, ?_, fun h => ?_, fun h => ?_⟩
  · have heval : (steps Sys.Fallible (start Bool 3 (fun _ => [7, 8, 9]) fun _ => 0) failedWait).bind
        (fun s => (step s false .resume).map fun t => (s.pc false, t.pc false)) =
          some (.waitIo 1 ⟨hellos, 0, false⟩, .read 1 ⟨hellos, 0, false⟩ false none) := by decide +kernel
    obtain ⟨s, hs, hmap⟩ := Option.bind_eq_some_iff.mp heval
    obtain ⟨t, ht, hvals⟩ := Option.map_eq_some_iff.mp hmap
    simp only [Prod.mk.injEq] at hvals
    have hret := (h s (Run.refl.of_steps hs) false 1 _ hvals.1 .resume t rfl ht).2
    rw [hvals.2] at hret
    cases hret
  · have heval : (steps Sys.Fallible (start Bool 3 (fun _ => [7, 8, 9]) fun _ => 0)
        (failedWait ++ [(false, .resume), (false, .ioOk), (false, .resume)])).map
        (fun s => (s.pc false, s.pool.data 1)) = some (.idle (some (1, ⟨hellos, 0, false⟩)), 7) := by decide +kernel
    obtain ⟨s, hs, hvals⟩ := Option.map_eq_some_iff.mp heval
    simp only [Prod.mk.injEq] at hvals
    exact ⟨s, hs, hvals⟩
  · have heval : (steps Sys.Fallible (start Bool 3 (fun _ => [7, 8, 9]) fun _ => 0) failedRead).map
        (fun s => (s.pool.nbuffers, (s.pins true).priv 1, s.pc true, s.pool.table (s.pool.tag 1))) =
          some (3, 1, .idle (some (1, ⟨hellos, 0, false⟩)), some 2) := by decide +kernel
    obtain ⟨s, hs, hvals⟩ := Option.map_eq_some_iff.mp heval
    simp only [Prod.mk.injEq] at hvals
    obtain ⟨hn, hpriv, hpc, htable⟩ := hvals
    have hknown := (h s (Run.refl.of_steps hs)).1 true 1 ⟨by decide, by rw [hn]; decide⟩
      (Pins.holds_of_priv (by rw [hpriv]; exact Nat.one_pos)) (by rw [hpc]; exact id)
    rw [htable] at hknown
    cases hknown
  · have heval : (steps Sys.Fallible (start Bool 1 (fun _ => [7, 8, 9]) fun _ => 0) allPinned).bind
        (fun s => (step s true .resume).map (·.lock)) = some true := by decide +kernel
    obtain ⟨s, hs, hmap⟩ := Option.bind_eq_some_iff.mp heval
    obtain ⟨t, ht, hlock⟩ := Option.map_eq_some_iff.mp hmap
    have hfree := h s (Run.refl.of_steps hs) true .resume t rfl rfl ht
    rw [hlock] at hfree
    cases hfree

end PgStorage.BufMgr
