import PgStorage.BufMgr.PoolProofs

/-! The invariant of the system of backends.

A backend that reads a block in or writes a victim owns the buffer: it has the I/O lock, and
whoever else holds the buffer waits for it. The invariant ties the places of the backends to
the pool; every section keeps it, also when reads and writes fail. -/
namespace PgStorage.BufMgr
open Function Pool
variable {β Page : Type}

/-- The backend does I/O on the buffer and has marked it so. -/
def Pc.Owns : Pc → Buffer → Prop
  | .flush i _ _, buf => i = buf
  | .read i _ true _, buf => i = buf
  | _, _ => False

/-- The backend waits for the I/O on the buffer. -/
def Pc.Waits : Pc → Buffer → Prop
  | .waitIo i _, buf => i = buf
  | _, _ => False

/-- The backend is outside any I/O: in no call, or before its lookup. -/
def Pc.Detached (pc : Pc) : Prop := ∀ i, ¬ pc.Owns i ∧ ¬ pc.Waits i

theorem detached_idle {ret : Option (Buffer × Request)} : (Pc.idle ret).Detached := fun _ => ⟨id, id⟩

theorem detached_alloc {r : Request} : (Pc.alloc r).Detached := fun _ => ⟨id, id⟩

/-- The fields that an I/O works on. -/
def Pool.ioState (p : Pool Page) (i : Buffer) : Bool × Bool × Bool × BufferTag :=
  (p.ioLock i, p.justDirtied i, p.deleted i, p.tag i)

/-- What the place of a backend says about the pool and its pins. -/
def PcOk (p : Pool Page) (q : Pins) : Pc → Prop
  | .idle _ | .alloc _ => True
  | .waitIo i _ | .refill i _ | .read i _ false _ => p.InPool i ∧ 0 < q.priv i
  | .flush i r _ => p.InPool i ∧ q.priv i = 1 ∧ q.last i = 0 ∧ p.ioLock i = true ∧
      p.justDirtied i = false ∧ (p.deleted i = true ∨ p.tag i ≠ r.tag)
  | .read i r true _ => p.InPool i ∧ 0 < q.priv i ∧ p.ioLock i = true ∧ p.deleted i = false ∧ p.tag i = r.tag
  | .exited => False

variable {p : Pool Page}

theorem PcOk.congr {p' : Pool Page} {q : Pins} {pc : Pc} (hn : p'.nbuffers = p.nbuffers)
    (hs : ∀ i, pc.Owns i → p'.ioState i = p.ioState i) (h : PcOk p q pc) : PcOk p' q pc := by
  have hin (i : Buffer) : p'.InPool i ↔ p.InPool i := by rw [Pool.InPool, hn]; rfl
  have hfields {i : Buffer} (hi : pc.Owns i) : p'.ioLock i = p.ioLock i ∧
      p'.justDirtied i = p.justDirtied i ∧ p'.deleted i = p.deleted i ∧ p'.tag i = p.tag i := by
    simpa [ioState] using hs i hi
  cases pc with
  | idle | alloc => trivial
  | exited => exact h
  | waitIo i | refill i => exact ⟨(hin i).mpr h.1, h.2⟩
  | flush i r d =>
    obtain ⟨h1, h2, h3, h4⟩ := hfields (i := i) rfl
    simp only [PcOk, hin, h1, h2, h3, h4] at h ⊢
    exact h
  | read i r own d =>
    cases own with
    | false => exact ⟨(hin i).mpr h.1, h.2⟩
    | true =>
      obtain ⟨h1, h2, h3, h4⟩ := hfields (i := i) rfl
      simp only [PcOk, hin, h1, h3, h4] at h ⊢
      exact h

/-- An owner has the buffer pinned and its I/O lock. -/
theorem PcOk.of_owns {q : Pins} {pc : Pc} {i : Buffer} (h : PcOk p q pc) (ho : pc.Owns i) :
    p.InPool i ∧ 0 < q.priv i ∧ p.ioLock i = true := by
  cases pc with
  | flush j r d =>
    obtain rfl : j = i := ho
    exact ⟨h.1, by rw [h.2.1]; exact Nat.one_pos, h.2.2.2.1⟩
  | read j r own d =>
    cases own with
    | false => exact ho.elim
    | true =>
      obtain rfl : j = i := ho
      exact ⟨h.1, h.2.1, h.2.2.1⟩
  | _ => exact ho.elim

section Inv
variable [Fintype β]

/-- The invariant of the backends and the pool. -/
structure SysInv (p : Pool Page) (pins : β → Pins) (pc : β → Pc) : Prop where
  counted : Counted p pins
  tabled : Tabled p
  pcs : ∀ b, PcOk p (pins b) (pc b)
  io : ∀ i, p.InPool i → p.ioInProgress i = p.ioLock i
  owner : ∀ i, p.InPool i → p.ioLock i = true → ∃ b, (pc b).Owns i
  others : ∀ b b' i, (pc b).Owns i → (pins b').Holds i → b' = b ∨ (pc b').Waits i

namespace SysInv
variable {p : Pool Page} {pins : β → Pins} {pc : β → Pc} {b : β} {buf : Buffer} {r : Request}

/-- A backend that holds a buffer and does not wait keeps all others from owning it. -/
theorem not_owns (h : SysInv p pins pc) (hb : (pins b).Holds buf) (hw : ¬ (pc b).Waits buf) {b' : β}
    (hne : b' ≠ b) : ¬ (pc b').Owns buf := fun ho =>
  (h.others b' b buf ho hb).elim (fun e => hne e.symm) hw

/-- What a detached backend holds nobody else owns. -/
theorem detached_holds (h : SysInv p pins pc) (hd : (pc b).Detached) {b' : β} (hne : b' ≠ b) {i : Buffer}
    (ho : (pc b').Owns i) : ¬ (pins b).Holds i := fun hb =>
  h.not_owns hb (hd i).2 hne ho

/-- Nobody owns a free buffer. -/
theorem not_owns_of_free (h : SysInv p pins pc) (hin : p.InPool buf) (hfree : p.free buf = true) (b : β) :
    ¬ (pc b).Owns buf := fun ho =>
  h.counted.not_holds hin hfree b (Pins.holds_of_priv ((h.pcs b).of_owns ho).2.1)

/-- The lookup of a request finds what the table has. -/
theorem lookup (_ : SysInv p pins pc) : p.bufTableLookup r.tag = p.table r.tag := if_neg (by simp [Request.tag])

variable [DecidableEq β]

/-- A section of backend `b`: what has to be shown of the others is that the buffers they own
are as before, and that `b` holds none of them unless it waits. -/
theorem move {p' : Pool Page} {q' : Pins} {pc' : Pc} (h : SysInv p pins pc) (hn : p'.nbuffers = p.nbuffers)
    (hcount : Counted p' (update pins b q')) (htab : Tabled p') (hpc : PcOk p' q' pc')
    (hstate : ∀ b', b' ≠ b → ∀ i, (pc b').Owns i → p'.ioState i = p.ioState i)
    (hio : ∀ i, p.InPool i → p'.ioInProgress i = p'.ioLock i)
    (howner : ∀ i, p.InPool i → p'.ioLock i = true → pc'.Owns i ∨ p.ioLock i = true ∧ ¬ (pc b).Owns i)
    (hmine : ∀ b', b' ≠ b → ∀ i, pc'.Owns i → (pins b').Holds i → (pc b').Waits i)
    (hothers : ∀ b', b' ≠ b → ∀ i, (pc b').Owns i → q'.Holds i → pc'.Waits i) :
    SysInv p' (update pins b q') (update pc b pc') := by
  have hin (i : Buffer) : p'.InPool i ↔ p.InPool i := by rw [Pool.InPool, hn]; rfl
  refine ⟨hcount, htab, fun b' => ?_, fun i hi => hio i ((hin i).mp hi), fun i hi hlock => ?_, ?_⟩
  · by_cases hb : b' = b
    · subst hb
      rw [update_self, update_self]
      exact hpc
    · rw [update_of_ne hb, update_of_ne hb]
      exact (h.pcs b').congr hn (hstate b' hb)
  · rcases howner i ((hin i).mp hi) hlock with ho | ⟨hold, hnot⟩
    · exact ⟨b, by rwa [update_self]⟩
    · obtain ⟨b', hb'⟩ := h.owner i ((hin i).mp hi) hold
      have hne : b' ≠ b := by rintro rfl; exact hnot hb'
      exact ⟨b', by rwa [update_of_ne hne]⟩
  · intro b₁ b₂ i ho hh
    by_cases h1 : b₁ = b <;> by_cases h2 : b₂ = b
    · exact .inl (h2.trans h1.symm)
    · subst h1
      rw [update_self] at ho
      rw [update_of_ne h2] at hh ⊢
      exact .inr (hmine b₂ h2 i ho hh)
    · subst h2
      rw [update_of_ne h1] at ho
      rw [update_self] at hh ⊢
      exact .inr (hothers b₁ h1 i ho hh)
    · rw [update_of_ne h1] at ho
      rw [update_of_ne h2] at hh ⊢
      exact h.others b₁ b₂ i ho hh

end SysInv

end Inv

theorem Relisted.ioState {p' : Pool Page} (h : Relisted p p') : p'.ioState = p.ioState := by
  funext i
  simp only [Pool.ioState, h.ioLock, h.justDirtied, h.deleted, h.tag]

/-! ### The sections of BufferAlloc -/

section Sections
variable [Fintype β] [DecidableEq β] {p : Pool Page} {pins : β → Pins} {pc : β → Pc} {b : β}
  {buf : Buffer} {r : Request}

/-- The invariant after a section of backend `b`. -/
def After (pins : β → Pins) (pc : β → Pc) (b : β) (c : Section Page) : Prop :=
  SysInv c.pool (Function.update pins b c.pins) (Function.update pc b c.pc)

variable {q q' : Pins} {ret : Option (Buffer × Request)}

/-- A second section of the same backend, after one that the invariant holds after. -/
theorem After.then_ {k : Pc} {c : Section Page}
    (h : After (update pins b q) (update pc b k) b c) : After pins pc b c := by
  simpa only [After, update_idem] using h

theorem after_allocFound (h : SysInv p pins pc) (hd : (pc b).Detached) (hin : p.InPool buf) :
    After pins pc b (allocFound p (pins b) buf r) := by
  have hrel := relisted_pinBuffer p (pins b) buf
  have hpriv : 0 < (p.pinBuffer (pins b) buf).2.priv buf := by simp [pinBuffer_pins]
  refine h.move hrel.nbuffers (h.counted.pinBuffer hin) (hrel.tabled h.tabled) ?_
    (fun _ _ i _ => congrFun hrel.ioState i) (fun i hi => ?_) (fun i _ hl => .inr ⟨?_, (hd i).1⟩) ?_ ?_
  · dsimp only [allocFound, returnFound]
    split_ifs
    · exact ⟨hrel.inPool.mpr hin, hpriv⟩
    · exact ⟨hrel.inPool.mpr hin, hpriv⟩
    · trivial
  · show (p.pinBuffer (pins b) buf).1.ioInProgress i = (p.pinBuffer (pins b) buf).1.ioLock i
    rw [hrel.ioInProgress, hrel.ioLock]
    exact h.io i hi
  · rw [← hrel.ioLock]; exact hl
  · intro b' _ i ho
    dsimp only [allocFound, returnFound] at ho
    split_ifs at ho <;> exact ho.elim
  · -- an owner of this very buffer makes us wait
    intro b' hne i ho hh
    have hi : i = buf := by
      by_contra hi
      exact h.detached_holds hd hne ho ((Pins.holds_update hi).mp hh)
    subst hi
    have hlock := ((h.pcs b').of_owns ho).2.2
    dsimp only [allocFound]
    rw [hrel.ioInProgress, h.io i hin, hlock]
    rfl

/-- The pool after a buffer has been renamed, with its old entry out of the table. -/
def Pool.renamed (p : Pool Page) (buf : Buffer) (r : Request) : Pool Page :=
  {p with
    sbRelname := Function.update p.sbRelname buf r.rel.relname
    tag := Function.update p.tag buf r.tag
    deleted := Function.update p.deleted buf false
    table := Function.update (p.bufTableDelete buf).2.table r.tag (some buf)
    ioInProgress := Function.update p.ioInProgress buf true
    ioLock := Function.update p.ioLock buf true}

/-- Deleting an entry changes the table and the mark. -/
theorem bufTableDelete_eq (p : Pool Page) (buf : Buffer) : (p.bufTableDelete buf).2 =
    {p with deleted := (p.bufTableDelete buf).2.deleted, table := (p.bufTableDelete buf).2.table} := by
  unfold bufTableDelete
  split <;> rfl

theorem bufTableDelete_table {t : BufferTag} (p : Pool Page) (buf : Buffer) (ht : p.table t = none) :
    (p.bufTableDelete buf).2.table t = none := by
  unfold bufTableDelete
  split
  · exact ht
  · by_cases he : t = p.tag buf
    · subst he; simp
    · simpa [he] using ht

/-- `BufferAlloc` does not exit at the table. -/
theorem allocRename_eq (h : Tabled p) (hin : p.InPool buf) (hnew : p.table r.tag = none) :
    allocRename p q buf r = ⟨p.renamed buf r, q, .read buf r true none, false⟩ := by
  have htable := bufTableDelete_table p buf hnew
  cases hd : p.deleted buf with
  | true =>
    have hdel : p.bufTableDelete buf = (true, p) := if_pos hd
    simp [allocRename, renamed, bufTableInsert, hdel, hnew]
  | false =>
    have hdel : p.bufTableDelete buf = (true, {p with
        deleted := update p.deleted buf true
        table := update p.table (p.tag buf) none}) := by
      simp [bufTableDelete, hd, h.mapped buf hin hd]
    rw [hdel] at htable
    dsimp only at htable
    simp [allocRename, renamed, bufTableInsert, hdel, htable]

theorem tabled_renamed (h : Tabled p) (hin : p.InPool buf) (hnew : p.table r.tag = none) :
    Tabled (p.renamed buf r) := by
  have htable := bufTableDelete_table p buf hnew
  have hd := bufTableDelete_deleted p buf
  have hdel := (h.delete hin).2
  rw [bufTableDelete_eq p buf, hd] at hdel
  have hren := hdel.rename (t := r.tag) hin (update_self ..) htable
  simp only [update_idem] at hren
  exact ⟨hren.maps, hren.mapped⟩

/-- Renaming a buffer that only backend `b` holds. -/
theorem after_allocRename (h : SysInv p pins pc) (hin : p.InPool buf) (hpriv : 0 < (pins b).priv buf)
    (hsole : ∀ b', b' ≠ b → ¬ (pins b').Holds buf) (hmine : ∀ i, (pc b).Owns i → i = buf)
    (hwait : ∀ i, ¬ (pc b).Waits i) (hnew : p.table r.tag = none) :
    After pins pc b (allocRename p (pins b) buf r) := by
  rw [allocRename_eq h.tabled hin hnew]
  have hown (b' : β) (hne : b' ≠ b) : ¬ (pc b').Owns buf := h.not_owns (Pins.holds_of_priv hpriv) (hwait buf) hne
  refine h.move rfl ?_ (tabled_renamed h.tabled hin hnew) ?_ (fun b' hne i ho => ?_) (fun i hi => ?_)
    (fun i hi hl => ?_) ?_ ?_
  · rw [update_eq_self]
    exact ⟨h.counted.list, h.counted.free, h.counted.count⟩
  · exact ⟨hin, hpriv, update_self .., update_self .., update_self ..⟩
  · have hi : i ≠ buf := by rintro rfl; exact hown b' hne ho
    simp [ioState, renamed, hi]
  · by_cases hib : i = buf
    · subst hib; simp [renamed]
    · simpa [renamed, hib] using h.io i hi
  · by_cases hib : i = buf
    · exact .inl hib.symm
    · exact .inr ⟨by simpa [renamed, hib] using hl, fun ho => hib (hmine i ho)⟩
  · rintro b' hne i rfl hh
    exact absurd hh (hsole b' hne)
  · intro b' hne i ho hh
    exact absurd ho (h.not_owns hh (hwait i) hne)

section
variable (h : SysInv p pins pc) (hd : (pc b).Detached)
include h hd

/-- Another place for a backend that holds what it held, with the pool as it was. -/
theorem SysInv.goto {pc' : Pc} (hpc : PcOk p (pins b) pc')
    (hd' : ∀ i, ¬ pc'.Owns i) : After pins pc b ⟨p, pins b, pc', false⟩ :=
  h.move rfl (by rw [update_eq_self]; exact h.counted)
    h.tabled hpc (fun _ _ _ _ => rfl) h.io (fun i _ hl => .inr ⟨hl, (hd i).1⟩)
    (fun _ _ i ho => absurd ho (hd' i)) (fun _ hne _ ho hh => absurd hh (h.detached_holds hd hne ho))

/-- A free buffer taken by a detached backend. -/
theorem SysInv.take (hin : p.InPool buf) (hfree : p.free buf = true) :
    After pins pc b ⟨{p.unlink buf with refcount := update p.refcount buf 1},
      {pins b with priv := update (pins b).priv buf 1}, .alloc r, false⟩ := by
  refine h.move rfl
    (h.counted.take hin hfree (Pins.holds_of_priv (by simp)) fun i hi => Pins.holds_update hi)
    ⟨h.tabled.maps, h.tabled.mapped⟩ trivial (fun _ _ _ _ => rfl) h.io (fun i _ hl => .inr ⟨hl, (hd i).1⟩)
    (fun _ _ _ ho => ho.elim) ?_
  intro b' hne i ho hh
  have hi : i ≠ buf := by rintro rfl; exact h.not_owns_of_free hin hfree b' ho
  exact absurd ((Pins.holds_update hi).mp hh) (h.detached_holds hd hne ho)

theorem after_allocVictim (hnew : p.table r.tag = none) :
    After pins pc b (allocVictim p (pins b) r) := by
  rcases freeList_get h.counted.list with ⟨hget, -⟩ | ⟨buf, hget, hin, hfree⟩
  · rw [allocVictim, hget]
    exact h.goto hd trivial fun _ => id
  · rw [allocVictim, hget]
    have ht := h.take (r := r) hd hin hfree
    have hnone := h.counted.not_holds hin hfree
    have hsole (b' : β) (hne : b' ≠ b) : ¬ (update pins b {pins b with
        priv := update (pins b).priv buf 1} b').Holds buf := by
      rw [update_of_ne hne]; exact hnone b'
    dsimp only
    by_cases hdirty : p.dirty buf = true
    · -- a dirty victim: the I/O lock is taken for the write
      rw [if_pos (show (p.unlink buf).dirty buf = true from hdirty)]
      refine h.move rfl ⟨ht.counted.list, ht.counted.free, ht.counted.count⟩
        ⟨h.tabled.maps, h.tabled.mapped⟩ ?_ ?_ ?_ ?_ ?_ ?_
      · refine ⟨hin, by simp, (Pins.not_holds.mp (hnone b)).2, by simp, by simp, ?_⟩
        cases hdel : p.deleted buf with
        | true => exact .inl hdel
        | false =>
          refine .inr fun htag => ?_
          have hmap := h.tabled.mapped buf hin hdel
          rw [show p.tag buf = r.tag from htag, hnew] at hmap
          cases hmap
      · intro b' _ i ho
        have hi : i ≠ buf := by rintro rfl; exact h.not_owns_of_free hin hfree b' ho
        simp [ioState, unlink, hi]
      · intro i hi
        by_cases hib : i = buf
        · subst hib; simp
        · simpa [unlink, hib] using h.io i hi
      · intro i _ hl
        by_cases hib : i = buf
        · exact .inl hib.symm
        · exact .inr ⟨by simpa [unlink, hib] using hl, (hd i).1⟩
      · rintro b' - i rfl hh
        exact absurd hh (hnone b')
      · intro b' hne i ho hh
        have hi : i ≠ buf := by rintro rfl; exact h.not_owns_of_free hin hfree b' ho
        exact absurd ((Pins.holds_update hi).mp hh) (h.detached_holds hd hne ho)
    · rw [if_neg (show ¬ (p.unlink buf).dirty buf = true from hdirty)]
      refine After.then_ (q := {pins b with priv := update (pins b).priv buf 1}) (k := .alloc r) ?_
      have hre := after_allocRename (r := r) (b := b) ht hin (by simp) hsole (by simp [Pc.Owns])
        (by simp [Pc.Waits]) hnew
      rw [update_self] at hre
      exact hre

/-- `BufferAlloc` from a backend that is detached. -/
theorem after_bufferAlloc :
    After pins pc b (bufferAlloc p (pins b) r) := by
  rw [bufferAlloc, h.lookup]
  cases ht : p.table r.tag with
  | some buf => exact after_allocFound h hd (h.tabled.maps _ _ ht).1
  | none => exact after_allocVictim h hd ht

end

/-- The I/O of an owner ended and its pin taken back, whatever the write has come to. -/
theorem after_unpinVictim {d : Option Bool} (error dirty : Buffer → Bool) (h : SysInv p pins pc)
    (hpc : pc b = .flush buf r d) :
    After pins pc b ⟨(unpinVictim {p with ioError := error, dirty := dirty} (pins b) buf).1,
      (unpinVictim {p with ioError := error, dirty := dirty} (pins b) buf).2, .alloc r, false⟩ := by
  have hok := h.pcs b
  rw [hpc] at hok
  obtain ⟨hin, hpriv, hlast, -⟩ := hok
  have hown : (pc b).Owns buf := by rw [hpc]; exact rfl
  have hholds : (pins b).Holds buf := Pins.holds_of_priv (by omega)
  have hrel := relisted_dropRef (endIo {p with ioError := error, dirty := dirty} buf) buf
  have hothers (b' : β) (hne : b' ≠ b) : ¬ (pc b').Owns buf :=
    h.not_owns hholds (by rw [hpc]; exact id) hne
  refine h.move hrel.nbuffers ?_ (hrel.tabled ⟨h.tabled.maps, h.tabled.mapped⟩) trivial ?_ ?_ ?_ ?_ ?_
  · have hc : Counted (endIo {p with ioError := error, dirty := dirty} buf) pins :=
      ⟨h.counted.list, h.counted.free, h.counted.count⟩
    refine hc.drop hin hholds ?_ fun i hi => Pins.holds_update hi
    rw [Pins.not_holds]
    exact ⟨update_self .., hlast⟩
  · intro b' hne i ho
    have hi : i ≠ buf := by rintro rfl; exact hothers b' hne ho
    rw [show (unpinVictim {p with ioError := error, dirty := dirty} (pins b) buf).1.ioState i = _ from
      congrFun hrel.ioState i]
    simp [ioState, endIo, hi]
  · intro i hi
    show ((endIo {p with ioError := error, dirty := dirty} buf).dropRef buf).ioInProgress i =
      ((endIo {p with ioError := error, dirty := dirty} buf).dropRef buf).ioLock i
    rw [hrel.ioInProgress, hrel.ioLock]
    by_cases hib : i = buf
    · subst hib; simp [endIo]
    · simpa [endIo, hib] using h.io i hi
  · intro i _ hl
    replace hl : ((endIo {p with ioError := error, dirty := dirty} buf).dropRef buf).ioLock i = true := hl
    rw [hrel.ioLock] at hl
    have hib : i ≠ buf := by rintro rfl; simp [endIo] at hl
    refine .inr ⟨by simpa [endIo, hib] using hl, ?_⟩
    rw [hpc]
    exact fun e => hib e.symm
  · exact fun _ _ _ ho => ho.elim
  · intro b' hne i ho hh
    have hi : i ≠ buf := by rintro rfl; exact hothers b' hne ho
    refine absurd ho (h.not_owns ((Pins.holds_update hi).mp hh) ?_ hne)
    rw [hpc]; exact id

variable {p' : Pool Page}

theorem After.bufferAlloc (h : After pins pc b ⟨p', q, .alloc r, false⟩) :
    After pins pc b (bufferAlloc p' q r) := by
  have ha := after_bufferAlloc (b := b) (r := r) h (by rw [update_self]; exact detached_alloc)
  rw [update_self] at ha
  exact ha.then_

theorem After.allocFound (h : After pins pc b ⟨p', q, .alloc r, false⟩)
    (hin : p'.InPool buf) : After pins pc b (allocFound p' q buf r) := by
  have ha := after_allocFound (b := b) (r := r) h (by rw [update_self]; exact detached_alloc) hin
  rw [update_self] at ha
  exact ha.then_

/-- `BufferAlloc` after the write of a victim. -/
theorem after_allocFlushed {ok : Bool} (h : SysInv p pins pc) (hpc : pc b = .flush buf r (some ok)) :
    After pins pc b (allocFlushed p (pins b) buf r ok) := by
  have hok := h.pcs b
  rw [hpc] at hok
  obtain ⟨hin, hpriv, hlast, hlock, hjust, htag⟩ := hok
  have hholds : (pins b).Holds buf := Pins.holds_of_priv (by omega)
  cases ok with
  | false =>
    rw [allocFlushed, if_pos rfl]
    exact After.bufferAlloc (after_unpinVictim _ _ h hpc)
  | true =>
    rw [allocFlushed, if_neg (by simp), if_neg (by simp [hjust])]
    dsimp only
    have hu := after_unpinVictim p.ioError (update p.dirty buf false) h hpc
    by_cases hmany : 1 < p.refcount buf
    · rw [if_pos hmany]
      exact hu.bufferAlloc
    · rw [if_neg hmany]
      rw [show bufTableLookup {p with dirty := update p.dirty buf false} r.tag = p.table r.tag from
        h.lookup]
      cases ht : p.table r.tag with
      | some buf2 =>
        have hrel := relisted_dropRef (endIo {p with dirty := update p.dirty buf false} buf) buf
        exact hu.allocFound (hrel.inPool.mpr (h.tabled.maps _ _ ht).1)
      | none =>
        have hclean : SysInv {p with dirty := update p.dirty buf false} pins pc :=
          ⟨⟨h.counted.list, h.counted.free, h.counted.count⟩, ⟨h.tabled.maps, h.tabled.mapped⟩,
            fun b' => (h.pcs b').congr rfl fun _ _ => rfl, h.io, h.owner, h.others⟩
        refine after_allocRename hclean hin (by omega) (fun b' hne hb' => ?_) ?_ ?_ ht
        · exact hne (h.counted.sole hin (Nat.le_of_not_lt hmany) hholds hb')
        · rw [hpc]; exact fun i hi => hi.symm
        · rw [hpc]; exact fun _ => id

/-- `BufferAlloc` after a wait. -/
theorem after_allocWaited (h : SysInv p pins pc) (hpc : pc b = .waitIo buf r) (hlock : p.ioLock buf = false) :
    After pins pc b (allocWaited p (pins b) buf r) := by
  have hok := h.pcs b
  rw [hpc] at hok
  have hnot (i : Buffer) : ¬ (allocWaited p (pins b) buf r).pc.Owns i := by
    dsimp only [allocWaited, returnFound]
    split_ifs <;> exact id
  refine h.move rfl (by rw [allocWaited, update_eq_self]; exact h.counted) h.tabled ?_
    (fun _ _ _ _ => rfl) h.io (fun i _ hl => .inr ⟨hl, by rw [hpc]; exact id⟩)
    (fun _ _ i ho => absurd ho (hnot i)) ?_
  · dsimp only [allocWaited, returnFound]
    split_ifs
    · exact hok
    · exact hok
    · trivial
  · -- nobody owns the buffer any more
    intro b' hne i ho hh
    rcases h.others b' b i ho hh with e | hw
    · exact absurd e.symm hne
    · rw [hpc] at hw
      obtain rfl : buf = i := hw
      have := ((h.pcs b').of_owns ho).2.2
      rw [hlock] at this
      cases this

/-- A backend that holds a buffer and does not wait for it ends the I/O on it. -/
theorem after_endIo (h : SysInv p pins pc)
    (hholds : (pins b).Holds buf) (hwait : ∀ i, ¬ (pc b).Waits i) (hmine : ∀ i, (pc b).Owns i → i = buf)
    (hn : p'.nbuffers = p.nbuffers) (hcount : Counted p' (update pins b q')) (htab : Tabled p')
    (hstate : ∀ i, i ≠ buf → p'.ioState i = p.ioState i) (hio : p'.ioInProgress = update p.ioInProgress buf false)
    (hlock : p'.ioLock = update p.ioLock buf false)
    (hq : ∀ i, q'.Holds i → (pins b).Holds i) : After pins pc b ⟨p', q', .idle ret, false⟩ := by
  have hown (b' : β) (hne : b' ≠ b) : ¬ (pc b').Owns buf := h.not_owns hholds (hwait buf) hne
  refine h.move hn hcount htab trivial (fun b' hne i ho => hstate i ?_) (fun i hi => ?_) (fun i _ hl => ?_)
    (fun _ _ _ ho => ho.elim) (fun b' hne i ho hh => absurd ho (h.not_owns (hq i hh) (hwait i) hne))
  · rintro rfl; exact hown b' hne ho
  · rw [hio, hlock]
    by_cases hib : i = buf
    · subst hib; simp
    · simpa [hib] using h.io i hi
  · rw [hlock] at hl
    have hib : i ≠ buf := by rintro rfl; simp at hl
    exact .inr ⟨by simpa [hib] using hl, fun ho => hib (hmine i ho)⟩

theorem after_readDone {own ok : Bool} (h : SysInv p pins pc) (hpc : pc b = .read buf r own (some ok)) :
    After pins pc b (readDone p (pins b) buf r ok) := by
  have hok := h.pcs b
  rw [hpc] at hok
  obtain ⟨hin, hpriv⟩ : p.InPool buf ∧ 0 < (pins b).priv buf := by
    cases own with
    | false => exact hok
    | true => exact ⟨hok.1, hok.2.1⟩
  have hholds := Pins.holds_of_priv hpriv
  have hwait (i : Buffer) : ¬ (pc b).Waits i := by rw [hpc]; exact id
  have hmine (i : Buffer) (ho : (pc b).Owns i) : i = buf := by
    rw [hpc] at ho
    cases own with
    | false => exact ho.elim
    | true => exact ho.symm
  cases ok with
  | true =>
    refine after_endIo h hholds hwait hmine rfl ?_ ⟨h.tabled.maps, h.tabled.mapped⟩ (fun i hi => ?_) rfl rfl
      fun _ => id
    · rw [update_eq_self]
      exact ⟨h.counted.list, h.counted.free, h.counted.count⟩
    · simp [ioState, endIo, hi]
  | false =>
    obtain ⟨hfound, htab⟩ := h.tabled.delete hin
    have heq := bufTableDelete_eq p buf
    have hdel := bufTableDelete_deleted p buf
    rw [readDone, if_neg (by simp)]
    generalize p.bufTableDelete buf = d at *
    obtain ⟨found, p₁⟩ := d
    dsimp only at hfound htab heq hdel ⊢
    subst hfound
    rw [if_neg (by simp)]
    have hc : Counted p₁ pins := by
      rw [heq]; exact ⟨h.counted.list, h.counted.free, h.counted.count⟩
    have hin₁ : p₁.InPool buf := by rw [heq]; exact hin
    have hrel := relisted_unpinBuffer p₁ (pins b) buf
    have hunpin := hc.unpinBuffer (b := b) hin₁ hpriv
    refine after_endIo h hholds hwait hmine ?_ ⟨hunpin.list, hunpin.free, hunpin.count⟩ ?_ (fun i hi => ?_) ?_ ?_ ?_
    · show (p₁.unpinBuffer (pins b) buf).1.nbuffers = p.nbuffers
      rw [hrel.nbuffers, heq]
    · have := hrel.tabled htab
      exact ⟨this.maps, this.mapped⟩
    · have hs := congrFun hrel.ioState i
      simp only [ioState, Prod.mk.injEq] at hs ⊢
      simp only [endIo, update_of_ne hi, hs]
      rw [heq, hdel]
      simp [hi]
    · show update (p₁.unpinBuffer (pins b) buf).1.ioInProgress buf false = _
      rw [hrel.ioInProgress, heq]
    · show update (p₁.unpinBuffer (pins b) buf).1.ioLock buf false = _
      rw [hrel.ioLock, heq]
    · intro i hi
      by_cases hib : i = buf
      · exact hib ▸ hholds
      · exact (Pins.holds_update hib).mp hi

/-- A detached backend that moves counts only, and gains no buffer. -/
theorem after_relisted {pc' : Pc} {lock : Bool} (h : SysInv p pins pc)
    (hd : (pc b).Detached) (hrel : Relisted p p') (hcount : Counted p' (update pins b q'))
    (hq : ∀ i, q'.Holds i → (pins b).Holds i) (hpc : PcOk p' q' pc') (hd' : pc'.Detached) :
    After pins pc b ⟨p', q', pc', lock⟩ := by
  refine h.move hrel.nbuffers hcount (hrel.tabled h.tabled) hpc (fun _ _ i _ => congrFun hrel.ioState i)
    (fun i hi => ?_) (fun i _ hl => .inr ⟨?_, (hd i).1⟩) (fun _ _ i ho => absurd ho (hd' i).1)
    (fun b' hne i ho hh => absurd (hq i hh) (h.detached_holds hd hne ho))
  · dsimp only
    rw [hrel.ioInProgress, hrel.ioLock]
    exact h.io i hi
  · dsimp only at hl
    rwa [hrel.ioLock] at hl

/-- Fewer pins on a buffer that is held. -/
theorem holds_of_update {n : Nat} (hb : q.Holds buf) (i : Buffer)
    (hi : Pins.Holds {q with priv := update q.priv buf n} i) : q.Holds i := by
  by_cases hib : i = buf
  · exact hib ▸ hb
  · exact (Pins.holds_update hib).mp hi

section
variable (h : SysInv p pins pc) (hd : (pc b).Detached)
include h hd

theorem after_releaseBuffer
    (hin : p.InPool buf) (hpriv : 0 < (pins b).priv buf) :
    After pins pc b ⟨(p.releaseBuffer (pins b) buf).1, (p.releaseBuffer (pins b) buf).2, .idle ret, false⟩ :=
  after_relisted h hd (relisted_releaseBuffer p (pins b) buf) (h.counted.releaseBuffer hin hpriv)
    (holds_of_update (Pins.holds_of_priv hpriv)) trivial detached_idle

/-- A page that is held marked dirty. -/
theorem SysInv.setDirty (hb : (pins b).Holds buf) :
    SysInv {p with
      dirty := update p.dirty buf true
      justDirtied := update p.justDirtied buf true} pins pc where
  counted := ⟨h.counted.list, h.counted.free, h.counted.count⟩
  tabled := ⟨h.tabled.maps, h.tabled.mapped⟩
  pcs b' := by
    refine PcOk.congr (p := p) rfl (fun i ho => ?_) (h.pcs b')
    have hi : i ≠ buf := by
      rintro rfl
      by_cases hbb : b' = b
      · exact (hd i).1 (hbb ▸ ho)
      · exact h.detached_holds hd hbb ho hb
    simp [ioState, hi]
  io := h.io
  owner := h.owner
  others := h.others

theorem after_writeBuffer
    (hin : p.InPool buf) (hpriv : 0 < (pins b).priv buf) :
    After pins pc b ⟨(writeBuffer p (pins b) buf).1, (writeBuffer p (pins b) buf).2, .idle ret, false⟩ := by
  have hs := h.setDirty hd (Pins.holds_of_priv hpriv)
  exact after_relisted hs hd (relisted_unpinBuffer _ (pins b) buf) (hs.counted.unpinBuffer hin hpriv)
    (holds_of_update (Pins.holds_of_priv hpriv)) trivial detached_idle

theorem after_releaseAndReadBuffer {rel : Relation} {blockNum : Option Nat}
    : After pins pc b (releaseAndReadBuffer p (pins b) buf rel blockNum) := by
  have henter {p' : Pool Page} {q : Pins} (hrel : Relisted p p') (hc : Counted p' (update pins b q))
      (hq : ∀ i, q.Holds i → (pins b).Holds i) : After pins pc b (if rel.rdIslocal then ⟨p', q, .idle none, false⟩
        else ⟨p', q, .alloc (request p' rel blockNum), false⟩) := by
    split
    · exact after_relisted h hd hrel hc hq trivial detached_idle
    · exact after_relisted h hd hrel hc hq trivial detached_alloc
  unfold releaseAndReadBuffer
  dsimp only
  by_cases hval : p.InPool buf ∧ 0 < (pins b).priv buf
  · rw [if_pos hval]
    have hself : update (pins b).priv buf ((pins b).priv buf - 1) buf = (pins b).priv buf - 1 :=
      update_self ..
    have hholds := Pins.holds_of_priv hval.2
    have hc := h.counted.release (n := (pins b).priv buf - 1) hval.1 hholds
    by_cases hlast : (pins b).priv buf - 1 = 0 ∧ (pins b).last buf = 0
    · rw [if_pos hlast] at hc
      rw [if_pos ⟨hself.trans hlast.1, hlast.2⟩]
      split
      · exact after_relisted h hd (relisted_dropRef p buf) hc (holds_of_update hholds) trivial detached_idle
      · exact After.bufferAlloc
          (after_relisted h hd (relisted_dropRef p buf) hc (holds_of_update hholds) trivial detached_alloc)
    · rw [if_neg hlast] at hc
      rw [if_neg fun e => hlast ⟨hself.symm.trans e.1, e.2⟩]
      exact henter (.refl p) hc (holds_of_update hholds)
  · rw [if_neg hval]
    refine henter (.refl p) ?_ fun _ => id
    rw [update_eq_self]
    exact h.counted

end

/-! ### Nested executor levels -/

/-- The `LastRefCount` of a backend is what its outer levels have saved. -/
def Levels (p : Pool Page) (q : Pins) : Prop := ∀ i, p.InPool i → q.last i = (q.saves.map (· i)).sum

/-- What the calls for executor levels need: `IncrBufferRefCount` of a buffer that is held,
`BufferRefCountRestore` when the inner level has no buffer of its own left, and
`ResetBufferPool` outside all levels. -/
def LevelsMet (p : Pool Page) (q : Pins) : Act Page → Prop
  | .incrBufferRefCount buf => q.Holds buf
  | .bufferRefCountRestore => ∀ i, p.InPool i → 0 < q.priv i → 0 < q.last i
  | .resetBufferPool => ∀ i, p.InPool i → q.last i = 0
  | _ => True

theorem after_pins (h : SysInv p pins pc) (hd : (pc b).Detached)
    (hq : ∀ i, p.InPool i → (q'.Holds i ↔ (pins b).Holds i)) : After pins pc b ⟨p, q', .idle ret, false⟩ := by
  refine h.move rfl (h.counted.keep hq) h.tabled trivial (fun _ _ _ _ => rfl) h.io
    (fun i _ hl => .inr ⟨hl, (hd i).1⟩) (fun _ _ _ ho => ho.elim) fun b' hne i ho hh => ?_
  exact absurd ((hq i ((h.pcs b').of_owns ho).1).mp hh) (h.detached_holds hd hne ho)

/-- `releaseAll` with enough passes takes every pin of the buffer back. -/
theorem releaseAll_spec (h : Counted p pins) (hin : p.InPool buf) {n : Nat} (hle : (pins b).priv buf ≤ n) :
    (releaseAll p (pins b) buf n).2 = {pins b with priv := update (pins b).priv buf 0} ∧
      Relisted p (releaseAll p (pins b) buf n).1 ∧
      Counted (releaseAll p (pins b) buf n).1 (update pins b (releaseAll p (pins b) buf n).2) := by
  induction n generalizing p pins with
  | zero =>
    have hzero : (pins b).priv buf = 0 := by omega
    have hsame : update (pins b).priv buf 0 = (pins b).priv := by
      rw [← hzero]; exact update_eq_self ..
    refine ⟨?_, .refl p, ?_⟩
    · rw [hsame]; rfl
    · rw [releaseAll, update_eq_self]; exact h
  | succ n ih =>
    by_cases hpos : 0 < (pins b).priv buf
    · have hrel := relisted_releaseBuffer p (pins b) buf
      have hc := h.releaseBuffer (b := b) hin hpos
      have hpins : (p.releaseBuffer (pins b) buf).2 =
          {pins b with priv := update (pins b).priv buf ((pins b).priv buf - 1)} := by
        rw [releaseBuffer_eq]
      have hself : update pins b (p.releaseBuffer (pins b) buf).2 b = (p.releaseBuffer (pins b) buf).2 :=
        update_self ..
      have hstep := ih hc (hrel.inPool.mpr hin) (by rw [hself, hpins]; simp; omega)
      rw [hself] at hstep
      have heq : releaseAll p (pins b) buf (n + 1) =
          releaseAll (p.releaseBuffer (pins b) buf).1 (p.releaseBuffer (pins b) buf).2 buf n := if_pos hpos
      rw [heq]
      obtain ⟨h1, h2, h3⟩ := hstep
      refine ⟨?_, hrel.trans h2, ?_⟩
      · rw [h1, hpins]; simp
      · rwa [update_idem] at h3
    · have hzero : (pins b).priv buf = 0 := by omega
      have hsame : update (pins b).priv buf 0 = (pins b).priv := by
        rw [← hzero]; exact update_eq_self ..
      rw [show releaseAll p (pins b) buf (n + 1) = (p, pins b) from if_neg hpos, hsame]
      exact ⟨rfl, .refl p, by rw [update_eq_self]; exact h⟩

/-- `ResetBufferPool` outside all levels takes every pin back. -/
theorem resetBuffers_spec (h : Counted p pins) (hlast : ∀ i, p.InPool i → (pins b).last i = 0) {n : Nat}
    (hn : n ≤ p.nbuffers) :
    (∀ i : Int, p.InPool i → (resetBuffers p (pins b) n).2.priv i = if i < n then 0 else (pins b).priv i) ∧
      (resetBuffers p (pins b) n).2.last = (pins b).last ∧
      Relisted p (resetBuffers p (pins b) n).1 ∧
      Counted (resetBuffers p (pins b) n).1 (update pins b (resetBuffers p (pins b) n).2) := by
  induction n with
  | zero =>
    refine ⟨fun i hi => ?_, rfl, .refl p, ?_⟩
    · rw [if_neg (by exact_mod_cast not_lt.mpr hi.1)]; rfl
    · rw [resetBuffers, update_eq_self]; exact h
  | succ n ih =>
    obtain ⟨hpriv, hsame, hrel, hc⟩ := ih (by omega)
    rw [resetBuffers]
    generalize resetBuffers p (pins b) n = c at *
    obtain ⟨p₁, q₁⟩ := c
    dsimp only at hpriv hsame hrel hc ⊢
    have hin : p.InPool n := ⟨Int.natCast_nonneg n, by omega⟩
    have hself : update pins b q₁ b = q₁ := update_self ..
    have hall := releaseAll_spec (b := b) (n := q₁.priv n) hc (hrel.inPool.mpr hin) (by rw [hself])
    rw [hself, update_idem] at hall
    obtain ⟨hp, hr, hcnt⟩ := hall
    generalize releaseAll p₁ q₁ n (q₁.priv n) = c at *
    obtain ⟨p₂, q₂⟩ := c
    dsimp only at hp hr hcnt ⊢
    have hzero : update q₂.last n 0 = q₂.last := by
      rw [update_eq_self_iff, hp, hsame]
      exact (hlast n hin).symm
    rw [hzero]
    refine ⟨fun i hi => ?_, by rw [hp, hsame], hrel.trans hr, hcnt⟩
    rw [hp]
    by_cases hi' : i = n
    · subst hi'; simp
    · have hlt : i < ((n + 1 : Nat) : Int) ↔ i < n := by
        omega
      simp only [update_of_ne hi', hlt]
      exact hpriv i hi

theorem after_resetBufferPool (ret : Option (Buffer × Request)) (h : SysInv p pins pc) (hd : (pc b).Detached)
    (hlast : ∀ i, p.InPool i → (pins b).last i = 0) :
    After pins pc b ⟨(resetBufferPool p (pins b)).1, (resetBufferPool p (pins b)).2, .idle ret, false⟩ ∧
      ∀ i, p.InPool i → ¬ (resetBufferPool p (pins b)).2.Holds i := by
  obtain ⟨hpriv, hsame, hrel, hc⟩ := resetBuffers_spec (b := b) h.counted hlast le_rfl
  rw [resetBufferPool]
  generalize resetBuffers p (pins b) p.nbuffers = c at *
  obtain ⟨p₁, q₁⟩ := c
  dsimp only at hpriv hsame hrel hc ⊢
  have hnot (i : Buffer) (hi : p.InPool i) : ¬ q₁.Holds i := by
    rw [Pins.not_holds, hpriv i hi, if_pos hi.2, hsame]
    exact ⟨rfl, hlast i hi⟩
  refine ⟨?_, hnot⟩
  refine h.move hrel.nbuffers ⟨hc.list, hc.free, fun i hi => ?_⟩ (hrel.tabled h.tabled) trivial
    (fun _ _ i _ => congrFun hrel.ioState i) (fun i hi => ?_) (fun i _ hl => .inr ⟨?_, (hd i).1⟩)
    (fun _ _ _ ho => ho.elim) fun b' hne i ho hh => absurd hh (hnot i ((h.pcs b').of_owns ho).1)
  · have hu := Count.count_update (fun q : Pins => q.Holds i) pins b q₁
    have hu' := Count.count_update (fun q : Pins => q.Holds i) pins b {q₁ with saves := []}
    have hheq : Pins.Holds {q₁ with saves := []} i ↔ q₁.Holds i := Iff.rfl
    simp only [hheq] at hu'
    rw [hc.count i hi]
    dsimp only
    omega
  · dsimp only
    rw [hrel.ioInProgress, hrel.ioLock]
    exact h.io i hi
  · dsimp only at hl
    rwa [hrel.ioLock] at hl

end Sections

end PgStorage.BufMgr
