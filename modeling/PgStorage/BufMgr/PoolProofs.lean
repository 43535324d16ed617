import PgStorage.BufMgr.System
import PgStorage.Lib.Ring

/-! What the primitives of the pool keep.

The free list, the reference counts and the lookup table each have an invariant of their
own, and each primitive changes the fields of one or two of them. -/
namespace PgStorage.BufMgr
open Function List Pool
variable {β Page : Type} {p : Pool Page}

/-- The free list is a ring through exactly the buffers marked `BM_FREE`. -/
def FreeList (p : Pool Page) : Prop :=
  ∃ l, Ring.Anchored p.freeNext p.freePrev p.freeListDescriptor l ∧
    ∀ i, i ∈ l ↔ p.InPool i ∧ p.free i = true

theorem not_inPool_freeListDescriptor : ¬ p.InPool p.freeListDescriptor := fun h => absurd h.2 (lt_irrefl _)

theorem freeList_unlink (h : FreeList p) {buf : Buffer} (hin : p.InPool buf) (hfree : p.free buf = true) :
    FreeList (p.unlink buf) := by
  obtain ⟨l, hring, hmem⟩ := h
  obtain ⟨l₁, l₂, rfl⟩ := append_of_mem ((hmem buf).mpr ⟨hin, hfree⟩)
  refine ⟨l₁ ++ l₂, Ring.anchored_remove hring, fun i => ?_⟩
  have hnd : (buf :: (l₁ ++ l₂)).Nodup :=
    (perm_middle.nodup_iff).mp (nodup_cons.mp hring.1).2
  have hi := hmem i
  by_cases hib : i = buf
  · subst hib
    have hnot := (nodup_cons.mp hnd).1
    simp [hnot, unlink]
  · simp only [mem_append, mem_cons, hib, false_or] at hi
    rw [mem_append, hi]
    simp [unlink, Pool.InPool, update_of_ne hib]

theorem freeList_add (h : FreeList p) {buf : Buffer} (hin : p.InPool buf) (hfree : p.free buf = false) :
    FreeList {p.addBufferToFreelist buf with free := update p.free buf true} := by
  obtain ⟨l, hring, hmem⟩ := h
  have hnot : buf ∉ p.freeListDescriptor :: l := by
    rw [mem_cons, hmem buf]
    rintro (e | ⟨-, e⟩)
    · exact not_inPool_freeListDescriptor (e ▸ hin)
    · rw [hfree] at e; cases e
  refine ⟨l ++ [buf], Ring.anchored_insert hring hnot, fun i => ?_⟩
  rw [mem_append, mem_singleton, hmem i]
  by_cases hib : i = buf
  · subst hib
    exact ⟨fun _ => ⟨hin, update_self ..⟩, fun _ => .inr rfl⟩
  · simp [addBufferToFreelist, Pool.InPool, hib]

/-- `GetFreeBuffer` gives a buffer of the list, or there is none. -/
theorem freeList_get (h : FreeList p) :
    (p.getFreeBuffer = none ∧ ∀ i, p.InPool i → p.free i = false) ∨
      ∃ buf, p.getFreeBuffer = some (buf, p.unlink buf) ∧ p.InPool buf ∧ p.free buf = true := by
  obtain ⟨l, hring, hmem⟩ := h
  by_cases hempty : p.freeNext p.freeListDescriptor = p.freeListDescriptor
  · obtain rfl := (Ring.anchored_next_eq hring).mp hempty
    refine .inl ⟨if_pos hempty, fun i hi => ?_⟩
    cases hf : p.free i with
    | false => rfl
    | true => exact absurd ((hmem i).mpr ⟨hi, hf⟩) not_mem_nil
  · refine .inr ⟨p.freeNext p.freeListDescriptor, if_neg hempty, (hmem _).mp ?_⟩
    rcases Ring.chain_next_mem hring.2 with hin | he
    · exact hin
    · exact absurd he hempty

section Counts
variable [Fintype β] {pins : β → Pins}

/-- The free buffers are the ones without references, and the references of a buffer are the
backends that hold it. -/
structure Counted (p : Pool Page) (pins : β → Pins) : Prop where
  list : FreeList p
  free : ∀ i, p.InPool i → (p.free i = true ↔ p.refcount i = 0)
  count : ∀ i, p.InPool i → p.refcount i = Count.count (fun q : Pins => q.Holds i) pins

theorem Counted.not_holds (h : Counted p pins) {i : Buffer} (hin : p.InPool i) (hfree : p.free i = true) (b : β) :
    ¬ (pins b).Holds i := by
  have h0 := (h.free i hin).mp hfree
  rw [h.count i hin] at h0
  exact Count.count_eq_zero.mp h0 b

theorem Counted.not_free (h : Counted p pins) {i : Buffer} (hin : p.InPool i) {b : β} (hb : (pins b).Holds i) :
    p.free i = false := by
  cases hf : p.free i with
  | false => rfl
  | true => exact absurd hb (h.not_holds hin hf b)

/-- A buffer with one reference is held by one backend. -/
theorem Counted.sole (h : Counted p pins) {i : Buffer} (hin : p.InPool i) (hone : p.refcount i ≤ 1) {b b' : β}
    (hb : (pins b).Holds i) (hb' : (pins b').Holds i) : b' = b :=
  Count.count_eq_one (P := fun q : Pins => q.Holds i) (h.count i hin ▸ hone) hb hb'

variable [DecidableEq β]

/-- Pins that change without a buffer being gained or lost. -/
theorem Counted.keep (h : Counted p pins) {b : β} {q : Pins}
    (hq : ∀ i, p.InPool i → (q.Holds i ↔ (pins b).Holds i)) : Counted p (update pins b q) where
  list := h.list
  free := h.free
  count i hin := by
    have hu := Count.count_update (fun q : Pins => q.Holds i) pins b q
    rw [h.count i hin]
    simp only [hq i hin] at hu
    omega

/-- The number of backends that hold a buffer, after one backend's pins of it changed. -/
theorem Counted.recount (h : Counted p pins) {b : β} {q : Pins} {buf : Buffer} {n : Nat}
    (hq : ∀ i, i ≠ buf → (q.Holds i ↔ (pins b).Holds i))
    (hn : p.InPool buf → n + (if (pins b).Holds buf then 1 else 0) = p.refcount buf + if q.Holds buf then 1 else 0)
    (i : Buffer) (hi : p.InPool i) :
    update p.refcount buf n i = Count.count (fun q : Pins => q.Holds i) (update pins b q) := by
  have hu := Count.count_update (fun q : Pins => q.Holds i) pins b q
  rw [← h.count i hi] at hu
  by_cases hib : i = buf
  · subst hib
    have := hn hi
    rw [update_self]
    omega
  · simp only [hq i hib] at hu
    rw [update_of_ne hib]
    omega

/-- A buffer without references taken by backend `b`: out of the list, with one reference. -/
theorem Counted.take (h : Counted p pins) {b : β} {q : Pins} {buf : Buffer} (hin : p.InPool buf)
    (hfree : p.free buf = true) (hbuf : q.Holds buf) (hq : ∀ i, i ≠ buf → (q.Holds i ↔ (pins b).Holds i)) :
    Counted {p.unlink buf with refcount := update p.refcount buf 1} (update pins b q) := by
  have hzero := (h.free buf hin).mp hfree
  have hcount := h.recount (n := 1) hq fun _ => by rw [if_neg (h.not_holds hin hfree b), if_pos hbuf, hzero]
  refine ⟨freeList_unlink h.list hin hfree, fun i hi => ?_, hcount⟩
  by_cases hib : i = buf
  · subst hib; simp [unlink]
  · simpa [unlink, hib] using h.free i hi

/-- One more backend holds a buffer that has references already. -/
theorem Counted.join (h : Counted p pins) {b : β} {q : Pins} {buf : Buffer}
    (hpos : p.refcount buf ≠ 0) (hbuf : q.Holds buf) (hnot : ¬ (pins b).Holds buf)
    (hq : ∀ i, i ≠ buf → (q.Holds i ↔ (pins b).Holds i)) :
    Counted {p with refcount := update p.refcount buf (p.refcount buf + 1)}
      (update pins b q) := by
  have hcount := h.recount (n := p.refcount buf + 1) hq fun _ => by rw [if_neg hnot, if_pos hbuf]
  refine ⟨h.list, fun i hi => ?_, hcount⟩
  have hfree := h.free i hi
  by_cases hib : i = buf
  · subst hib
    simp [hfree, hpos]
  · simpa [hib] using hfree

/-- A backend gives a buffer up. -/
theorem Counted.drop (h : Counted p pins) {b : β} {q : Pins} {buf : Buffer} (hin : p.InPool buf)
    (hbuf : (pins b).Holds buf) (hnot : ¬ q.Holds buf)
    (hq : ∀ i, i ≠ buf → (q.Holds i ↔ (pins b).Holds i)) :
    Counted (p.dropRef buf) (update pins b q) := by
  have hfree := h.not_free hin hbuf
  have hpos : 0 < p.refcount buf := by
    rw [h.count buf hin]; exact Count.count_pos (P := fun q : Pins => q.Holds buf) hbuf
  have hcount := h.recount (n := p.refcount buf - 1) hq fun _ => by
    rw [if_pos hbuf, if_neg hnot]
    omega
  by_cases hlast : p.refcount buf - 1 = 0
  · have hdrop : p.dropRef buf = {p.addBufferToFreelist buf with
        free := update p.free buf true
        refcount := update p.refcount buf (p.refcount buf - 1)} := by
      simp [dropRef, freeIfUnpinned, hlast, addBufferToFreelist, freeListDescriptor]
    rw [hdrop]
    refine ⟨freeList_add h.list hin hfree, fun i hi => ?_, hcount⟩
    by_cases hib : i = buf
    · subst hib; simp [hlast]
    · simpa [hib] using h.free i hi
  · have hdrop : p.dropRef buf = {p with
        refcount := update p.refcount buf (p.refcount buf - 1)} := by
      simp [dropRef, freeIfUnpinned, hlast]
    rw [hdrop]
    refine ⟨h.list, fun i hi => ?_, hcount⟩
    by_cases hib : i = buf
    · subst hib; simp [hlast, hfree]
    · simpa [hib] using h.free i hi

end Counts

/-! ### Pinning and unpinning -/

section Pinning
variable {q : Pins} {buf : Buffer}

theorem Pins.not_holds : ¬ q.Holds buf ↔ q.priv buf = 0 ∧ q.last buf = 0 := by
  unfold Pins.Holds
  omega

theorem Pins.holds_of_priv (h : 0 < q.priv buf) : q.Holds buf := Nat.add_pos_left h _

/-- Changing one private count. -/
theorem Pins.holds_update {n : Nat} {i : Buffer} (hi : i ≠ buf) :
    Pins.Holds {q with priv := update q.priv buf n} i ↔ q.Holds i := by
  simp only [Pins.Holds, update_of_ne hi]

theorem pinBuffer_pins (p : Pool Page) (q : Pins) (buf : Buffer) :
    (p.pinBuffer q buf).2 = {q with priv := update q.priv buf (q.priv buf + 1)} := rfl

variable [Fintype β] [DecidableEq β] {pins : β → Pins} {b : β}

theorem Counted.pinBuffer (h : Counted p pins) (hin : p.InPool buf) :
    Counted (p.pinBuffer (pins b) buf).1 (update pins b (p.pinBuffer (pins b) buf).2) := by
  have hafter : Pins.Holds (p.pinBuffer (pins b) buf).2 buf := by
    refine Pins.holds_of_priv ?_
    simp [pinBuffer_pins]
  have hother (i : Buffer) (hi : i ≠ buf) : Pins.Holds (p.pinBuffer (pins b) buf).2 i ↔ (pins b).Holds i :=
    Pins.holds_update hi
  by_cases hzero : p.refcount buf = 0
  · have hfree := (h.free buf hin).mpr hzero
    have hnot := Pins.not_holds.mp (h.not_holds hin hfree b)
    have hpool : (p.pinBuffer (pins b) buf).1 =
        {p.unlink buf with refcount := update p.refcount buf 1} := by
      simp [Pool.pinBuffer, hzero, hnot, Pool.unlink]
    rw [hpool]
    exact h.take hin hfree hafter hother
  · by_cases hold : (pins b).Holds buf
    · have hpool : (p.pinBuffer (pins b) buf).1 = p := by
        have : ¬ ((pins b).priv buf = 0 ∧ (pins b).last buf = 0) := fun e => Pins.not_holds.mpr e hold
        simp [Pool.pinBuffer, hzero, this]
      rw [hpool]
      refine h.keep fun i _ => ?_
      by_cases hi : i = buf
      · subst hi; exact iff_of_true hafter hold
      · exact hother i hi
    · have hpool : (p.pinBuffer (pins b) buf).1 =
          {p with refcount := update p.refcount buf (p.refcount buf + 1)} := by
        simp [Pool.pinBuffer, hzero, Pins.not_holds.mp hold]
      rw [hpool]
      exact h.join hzero hafter hold hother

/-- A pin taken back: at the last one the backend gives the buffer up. -/
theorem Counted.release (h : Counted p pins) (hin : p.InPool buf) {n : Nat} (hpin : (pins b).Holds buf) :
    Counted (if n = 0 ∧ (pins b).last buf = 0 then p.dropRef buf else p)
      (update pins b {pins b with priv := update (pins b).priv buf n}) := by
  by_cases hlast : n = 0 ∧ (pins b).last buf = 0
  · rw [if_pos hlast]
    refine h.drop hin hpin ?_ fun i hi => Pins.holds_update hi
    rw [Pins.not_holds]
    simpa using hlast
  · rw [if_neg hlast]
    refine h.keep fun i _ => ?_
    by_cases hi : i = buf
    · subst hi
      refine iff_of_true (not_not.mp fun hn => hlast ?_) hpin
      simpa using Pins.not_holds.mp hn
    · exact Pins.holds_update hi

theorem releaseBuffer_eq (p : Pool Page) (q : Pins) (buf : Buffer) : p.releaseBuffer q buf =
    (if q.priv buf - 1 = 0 ∧ q.last buf = 0 then p.dropRef buf else p,
      {q with priv := update q.priv buf (q.priv buf - 1)}) := by
  simp [releaseBuffer]

theorem Counted.releaseBuffer (h : Counted p pins) (hin : p.InPool buf) (hpin : 0 < (pins b).priv buf) :
    Counted (p.releaseBuffer (pins b) buf).1 (update pins b (p.releaseBuffer (pins b) buf).2) := by
  rw [releaseBuffer_eq]
  exact h.release hin (Pins.holds_of_priv hpin)

omit [DecidableEq β] in
/-- On a buffer that is held `UnpinBuffer` does what `ReleaseBuffer` does. -/
theorem Counted.unpinBuffer_eq (h : Counted p pins) (hin : p.InPool buf) (hpin : 0 < (pins b).priv buf) :
    p.unpinBuffer (pins b) buf = p.releaseBuffer (pins b) buf := by
  have hpos : p.refcount buf ≠ 0 := by
    rw [h.count buf hin]
    exact (Count.count_pos (P := fun q : Pins => q.Holds buf) (Pins.holds_of_priv hpin)).ne'
  rw [releaseBuffer_eq]
  by_cases hlast : (pins b).priv buf - 1 = 0 ∧ (pins b).last buf = 0
  · simp [unpinBuffer, hlast, dropRef]
  · simp [unpinBuffer, hlast, freeIfUnpinned, hpos]

theorem Counted.unpinBuffer (h : Counted p pins) (hin : p.InPool buf) (hpin : 0 < (pins b).priv buf) :
    Counted (p.unpinBuffer (pins b) buf).1 (update pins b (p.unpinBuffer (pins b) buf).2) := by
  rw [h.unpinBuffer_eq hin hpin]
  exact h.releaseBuffer hin hpin

end Pinning

/-- The table maps the tag of every buffer that is not `BM_DELETED` to that buffer, and
nothing else. -/
structure Tabled (p : Pool Page) : Prop where
  maps : ∀ t i, p.table t = some i → p.InPool i ∧ p.deleted i = false ∧ p.tag i = t
  mapped : ∀ i, p.InPool i → p.deleted i = false → p.table (p.tag i) = some i

/-- Two buffers that are not deleted have different tags. -/
theorem Tabled.inj (h : Tabled p) {i j : Buffer} (hi : p.InPool i) (hj : p.InPool j) (hdi : p.deleted i = false)
    (hdj : p.deleted j = false) (ht : p.tag i = p.tag j) : i = j := by
  have hti := h.mapped i hi hdi
  have htj := h.mapped j hj hdj
  rw [ht] at hti
  exact Option.some.inj (hti.symm.trans htj)

theorem Tabled.delete (h : Tabled p) {buf : Buffer} (hin : p.InPool buf) :
    (p.bufTableDelete buf).1 = true ∧ Tabled (p.bufTableDelete buf).2 := by
  cases hd : p.deleted buf with
  | true =>
    rw [show p.bufTableDelete buf = (true, p) from if_pos hd]
    exact ⟨rfl, h⟩
  | false =>
    have hmap := h.mapped buf hin hd
    rw [show p.bufTableDelete buf = ((p.table (p.tag buf)).isSome, {p with
      deleted := update p.deleted buf true
      table := update p.table (p.tag buf) none}) from if_neg (by simp [hd])]
    refine ⟨by simp [hmap], fun t i ht => ?_, fun i hi hdi => ?_⟩
    · have htag : t ≠ p.tag buf := by rintro rfl; simp at ht
      obtain ⟨hin, hdi, rfl⟩ := h.maps t i (by simpa [htag] using ht)
      have hib : i ≠ buf := fun e => htag (e ▸ rfl)
      exact ⟨hin, (update_of_ne hib _ _).trans hdi, rfl⟩
    · have hib : i ≠ buf := by rintro rfl; simp at hdi
      replace hdi : p.deleted i = false := by simpa [hib] using hdi
      have htag : p.tag i ≠ p.tag buf := fun e => hib (h.inj hi hin hdi hd e)
      exact (update_of_ne htag _ _).trans (h.mapped i hi hdi)

theorem bufTableDelete_deleted (p : Pool Page) (buf : Buffer) :
    (p.bufTableDelete buf).2.deleted = update p.deleted buf true := by
  unfold bufTableDelete
  split
  · rename_i hd
    exact (update_eq_self_iff.mpr hd.symm).symm
  · rfl

/-- A deleted buffer entered under a tag that the table does not have. -/
theorem Tabled.rename (h : Tabled p) {buf : Buffer} {t : BufferTag} (hin : p.InPool buf)
    (hd : p.deleted buf = true) (hfree : p.table t = none) :
    Tabled {p with
      tag := update p.tag buf t
      deleted := update p.deleted buf false
      table := update p.table t (some buf)} := by
  refine ⟨fun u i hu => ?_, fun i hi hdi => ?_⟩
  · by_cases hut : u = t
    · subst hut
      obtain rfl : buf = i := by simpa using hu
      exact ⟨hin, update_self .., update_self ..⟩
    · obtain ⟨hi, hdi, htag⟩ := h.maps u i (by simpa [hut] using hu)
      have hib : i ≠ buf := by rintro rfl; rw [hd] at hdi; cases hdi
      exact ⟨hi, (update_of_ne hib _ _).trans hdi, (update_of_ne hib _ _).trans htag⟩
  · by_cases hib : i = buf
    · subst hib; simp
    · have hmap := h.mapped i hi (by simpa [hib] using hdi)
      have htag : p.tag i ≠ t := by rintro rfl; rw [hfree] at hmap; cases hmap
      simpa [hib, htag] using hmap

/-- `p'` differs from `p` in the free list and the reference counts at most. -/
structure Relisted (p p' : Pool Page) : Prop where
  nbuffers : p'.nbuffers = p.nbuffers
  tag : p'.tag = p.tag
  dirty : p'.dirty = p.dirty
  valid : p'.valid = p.valid
  deleted : p'.deleted = p.deleted
  ioInProgress : p'.ioInProgress = p.ioInProgress
  ioError : p'.ioError = p.ioError
  justDirtied : p'.justDirtied = p.justDirtied
  ioLock : p'.ioLock = p.ioLock
  sbRelname : p'.sbRelname = p.sbRelname
  data : p'.data = p.data
  table : p'.table = p.table
  disk : p'.disk = p.disk

namespace Relisted
variable {p' p'' : Pool Page}

theorem refl (p : Pool Page) : Relisted p p := by constructor <;> rfl

theorem trans (h : Relisted p p') (h' : Relisted p' p'') : Relisted p p'' where
  nbuffers := h'.nbuffers.trans h.nbuffers
  tag := h'.tag.trans h.tag
  dirty := h'.dirty.trans h.dirty
  valid := h'.valid.trans h.valid
  deleted := h'.deleted.trans h.deleted
  ioInProgress := h'.ioInProgress.trans h.ioInProgress
  ioError := h'.ioError.trans h.ioError
  justDirtied := h'.justDirtied.trans h.justDirtied
  ioLock := h'.ioLock.trans h.ioLock
  sbRelname := h'.sbRelname.trans h.sbRelname
  data := h'.data.trans h.data
  table := h'.table.trans h.table
  disk := h'.disk.trans h.disk

theorem inPool (h : Relisted p p') {i : Buffer} : p'.InPool i ↔ p.InPool i := by
  rw [Pool.InPool, h.nbuffers]; rfl

theorem tabled (h : Relisted p p') (ht : Tabled p) : Tabled p' where
  maps t i := by
    rw [h.table, h.inPool, h.deleted, h.tag]
    exact ht.maps t i
  mapped i := by
    rw [h.table, h.inPool, h.deleted, h.tag]
    exact ht.mapped i

end Relisted

theorem relisted_freeIfUnpinned (p : Pool Page) (buf : Buffer) : Relisted p (p.freeIfUnpinned buf) := by
  unfold freeIfUnpinned
  split <;> constructor <;> rfl

theorem relisted_dropRef (p : Pool Page) (buf : Buffer) : Relisted p (p.dropRef buf) :=
  (show Relisted p {p with refcount := _} by constructor <;> rfl).trans (relisted_freeIfUnpinned _ buf)

theorem relisted_pinBuffer (p : Pool Page) (q : Pins) (buf : Buffer) : Relisted p (p.pinBuffer q buf).1 := by
  unfold pinBuffer
  dsimp only
  split <;> split <;> constructor <;> rfl

theorem relisted_releaseBuffer (p : Pool Page) (q : Pins) (buf : Buffer) :
    Relisted p (p.releaseBuffer q buf).1 := by
  rw [releaseBuffer_eq]
  dsimp only
  split
  · exact relisted_dropRef p buf
  · exact .refl p

theorem relisted_unpinBuffer (p : Pool Page) (q : Pins) (buf : Buffer) :
    Relisted p (p.unpinBuffer q buf).1 := by
  unfold unpinBuffer
  dsimp only
  split
  · exact relisted_dropRef p buf
  · exact relisted_freeIfUnpinned p buf

/-! ### Blocks of files

A block beyond the end reads as zeros, so that a file extended by a block of zeros reads as before. -/

section Files
variable [Zero Page] {disk : Disk Page} {f g : File} {b : Nat} {page : Page}

theorem mdread_beyond (h : mdnblocks disk f ≤ b) : mdread disk f b = 0 := getD_eq_default _ _ h

theorem mdwrite_unnamed (h : f.relname = "") : mdwrite disk f b page = disk := if_pos h

section
variable (hname : f.relname ≠ "") (hb : b < mdnblocks disk f)
include hname hb

/-- A write to an existing block. -/
theorem mdwrite_eq :
    mdwrite disk f b page = update disk f ((disk f).set b page) := by
  rw [mdwrite, if_neg hname]
  exact if_pos hb

theorem mdnblocks_mdwrite :
    mdnblocks (mdwrite disk f b page) g = mdnblocks disk g := by
  rw [mdwrite_eq hname hb, mdnblocks, mdnblocks]
  by_cases hg : g = f
  · subst hg
    rw [update_self, length_set]
  · rw [update_of_ne hg]

theorem mdread_mdwrite_self :
    mdread (mdwrite disk f b page) f b = page := by
  have hlt : b < ((disk f).set b page).length := by rwa [length_set]
  rw [mdwrite_eq hname hb, mdread, update_self, getD_eq_getElem _ _ hlt, getElem_set_self]

theorem mdread_mdwrite_of_ne {b' : Nat} (hne : g ≠ f ∨ b' ≠ b) :
    mdread (mdwrite disk f b page) g b' = mdread disk g b' := by
  rw [mdwrite_eq hname hb, mdread, mdread]
  by_cases hg : g = f
  · subst hg
    have hbb : b ≠ b' := (hne.resolve_left fun e => e rfl).symm
    rw [update_self, getD_eq_getElem?_getD, getElem?_set_ne hbb, getD_eq_getElem?_getD]
  · rw [update_of_ne hg]

end

omit [Zero Page] in
theorem mdnblocks_mdextend : mdnblocks (mdextend disk f page) g = mdnblocks disk g + if g = f then 1 else 0 := by
  unfold mdnblocks mdextend
  by_cases hg : g = f
  · subst hg; simp
  · rw [update_of_ne hg, if_neg hg, add_zero]

/-- A block of zeros at the end changes no block that can be read. -/
theorem mdread_mdextend (disk : Disk Page) (f g : File) (b : Nat) : mdread (mdextend disk f 0) g b = mdread disk g b := by
  unfold mdread mdextend
  by_cases hg : g = f
  · subst hg
    rw [update_self]
    rcases lt_trichotomy b (disk g).length with hb | rfl | hb
    · rw [getD_append _ _ _ _ hb]
    · simp
    · rw [getD_append_right _ _ _ _ (le_of_lt hb), getD_eq_default _ _ (le_of_lt hb),
        getD_eq_default _ _ (by simp; omega)]
  · rw [update_of_ne hg]

end Files
end PgStorage.BufMgr
