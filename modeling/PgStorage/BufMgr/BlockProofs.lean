import PgStorage.BufMgr.BlockMap
import PgStorage.BufMgr.SystemProofs
import PgStorage.Lib.Trace
import PgStorage.Lib.WriteBack

/-! The shared buffers as a cache of blocks.

For one backend a call of `ReadBuffer` comes to one of three ends: the block has a buffer,
there is no free buffer, or a victim is written if it is dirty and gets the block. The pool
then shows each block as it was written last. -/
namespace PgStorage.BufMgr
open WriteBack Trace
open Function Option BlockTrace Pool

variable {Page : Type} [Zero Page]

section Calls
variable {s : Sys Unit Page} {n : Nat} {r : Request} {buf : Buffer}

omit [Zero Page] in
theorem leave_pc (s : Sys Unit Page) (c : Section Page) : (s.leave () c).pc () = c.pc := rfl

omit [Zero Page] in
theorem leave_pins (s : Sys Unit Page) (c : Section Page) : (s.leave () c).pins () = c.pins := rfl

theorem drive_idle {ret : Option (Buffer × Request)} (h : s.pc () = .idle ret) : drive n s = some s := by
  cases n with
  | zero => rfl
  | succ n => rw [drive, h]

/-- One step of a call. -/
theorem drive_step (pc : Pc) {c : Section Page} (hpc : s.pc () = pc) (hidle : ∀ ret, pc ≠ .idle ret)
    (hlock : s.lock = false) (hc : act s.pool (s.pins ()) pc pc.advance = some c) :
    drive (n + 1) s = drive n (s.leave () c) := by
  have hstep : step s () pc.advance = some (s.leave () c) := by
    rw [step, hlock, hpc, hc]
    rfl
  rw [drive, hpc]
  cases pc with
  | idle ret => exact absurd rfl (hidle ret)
  | _ => exact congrArg (fun o => bind o (drive n)) hstep

/-- The files after the victim has been written, if it is dirty. -/
def Pool.evict (p : Pool Page) (buf : Buffer) : Disk Page :=
  if p.dirty buf then (p.writeOut buf (p.data buf)).disk else p.disk

/-- The pool after a victim has got the block of the request. -/
structure Loaded (p : Pool Page) (r : Request) (buf : Buffer) (p' : Pool Page) : Prop where
  nbuffers : p'.nbuffers = p.nbuffers
  tag : p'.tag = Function.update p.tag buf r.tag
  sbRelname : p'.sbRelname = Function.update p.sbRelname buf r.rel.relname
  deleted : p'.deleted = Function.update p.deleted buf false
  dirty : p'.dirty = Function.update p.dirty buf false
  data : p'.data = Function.update p.data buf
    (if r.extend then 0 else mdread (p.evict buf) r.rel.file r.blockNum)
  disk : p'.disk = if r.extend then mdextend (p.evict buf) r.rel.file 0 else p.evict buf

theorem writeOut_eq (p : Pool Page) (buf : Buffer) (page : Page) :
    p.writeOut buf page = {p with disk := (p.writeOut buf page).disk} := by
  unfold writeOut
  split <;> rfl

theorem readIn_eq (p : Pool Page) (buf : Buffer) (r : Request) :
    p.readIn buf r = {p with
      data := update p.data buf (if r.extend then 0 else mdread p.disk r.rel.file r.blockNum)
      disk := if r.extend then mdextend p.disk r.rel.file 0 else p.disk} := by
  unfold readIn
  split <;> rfl

variable {p : Pool Page}

/-- The read at the end of a call. -/
theorem drive_read (hpc : s.pc () = .read buf r true none) (hlock : s.lock = false)
    (hpool : s.pool = p.renamed buf r) :
    ∃ t, drive (n + 2) s = some t ∧ t.pc () = .idle (some (buf, r)) ∧ t.lock = false ∧ t.pins () = s.pins () ∧
      t.pool = {endIo ((p.renamed buf r).readIn buf r) buf with
        ioError := update ((p.renamed buf r).readIn buf r).ioError buf false} := by
  let c : Section Page := ⟨s.pool.readIn buf r, s.pins (), .read buf r true (some true), false⟩
  have h1 : drive (n + 2) s = drive (n + 1) (s.leave () c) := drive_step _ hpc nofun hlock rfl
  have h2 : drive (n + 1) (s.leave () c) = drive n ((s.leave () c).leave () (readDone c.pool c.pins buf r true)) :=
    drive_step (.read buf r true (some true)) (leave_pc s c) nofun rfl (by rw [leave_pins]; rfl)
  refine ⟨_, (h1.trans h2).trans (drive_idle (leave_pc ..)), leave_pc .., rfl, leave_pins .., ?_⟩
  rw [← hpool]
  rfl

/-- How a call of `ReadBuffer` ends. -/
inductive ReadEnd (p : Pool Page) (q : Pins) (r : Request) (t : Sys Unit Page) : Prop
  /-- The block has a buffer. -/
  | found (buf : Buffer) (hfound : p.table r.tag = some buf) (hpc : t.pc () = .idle (some (buf, r)))
      (hlock : t.lock = false) (hpool : Relisted p t.pool)
      (hpins : t.pins () = {q with priv := Function.update q.priv buf (q.priv buf + 1)})
  /-- No buffer is free. -/
  | full (hnone : ∀ i, p.InPool i → p.free i = false) (hpc : t.pc () = .idle none) (hpool : t.pool = p)
      (hpins : t.pins () = q)
  /-- A victim has got the block. -/
  | loaded (buf : Buffer) (hnew : p.table r.tag = none) (hin : p.InPool buf) (hfree : p.free buf = true)
      (hpc : t.pc () = .idle (some (buf, r))) (hlock : t.lock = false) (hpool : Loaded p r buf t.pool)
      (hpins : t.pins () = {q with priv := Function.update q.priv buf 1})

/-- The last two steps of a call, after the victim has been written if it had to be. -/
theorem loaded_renamed {p₁ : Pool Page} (hn : p₁.nbuffers = p.nbuffers) (htag : p₁.tag = p.tag)
    (hname : p₁.sbRelname = p.sbRelname) (hdel : p₁.deleted = p.deleted) (hdata : p₁.data = p.data)
    (hdirty : p₁.dirty = update p.dirty buf false) (hdisk : p₁.disk = p.evict buf) :
    Loaded p r buf {endIo ((p₁.renamed buf r).readIn buf r) buf with
      ioError := update ((p₁.renamed buf r).readIn buf r).ioError buf false} := by
  rw [readIn_eq]
  refine ⟨hn, ?_, ?_, ?_, hdirty, ?_, ?_⟩
  · rw [← htag]
    rfl
  · rw [← hname]
    rfl
  · rw [← hdel]
    rfl
  · rw [← hdisk, ← hdata]
    rfl
  · rw [← hdisk]
    rfl

/-- The call from a clean victim on. -/
theorem drive_clean {q : Pins} (hin : p.InPool buf) (hfree : p.free buf = true)
    (hnew : p.table r.tag = none) (hdirty : p.dirty buf = false)
    (hs : s.pc () = .read buf r true none ∧ s.lock = false ∧
      s.pins () = {q with priv := update q.priv buf 1} ∧
      s.pool = {p.unlink buf with refcount := update p.refcount buf 1}.renamed buf r) :
    ∃ t, drive (n + 2) s = some t ∧ ReadEnd p q r t := by
  obtain ⟨hpc, hlock, hpins, hpool⟩ := hs
  obtain ⟨t, hdrive, htpc, htlock, htpins, htpool⟩ := drive_read (n := n) hpc hlock hpool
  refine ⟨t, hdrive, .loaded buf hnew hin hfree htpc htlock ?_ (htpins.trans hpins)⟩
  have hevict : p.evict buf = p.disk := if_neg (by rw [hdirty]; exact Bool.false_ne_true)
  rw [htpool]
  exact loaded_renamed rfl rfl rfl rfl rfl (update_eq_self_iff.mpr hdirty.symm).symm hevict.symm

/-- The call from a dirty victim on: it is written, and then as clean as the others. -/
theorem drive_dirty {q : Pins} (ht : Tabled p) (hin : p.InPool buf) (hfree : p.free buf = true)
    (hnew : p.table r.tag = none) (hdirty : p.dirty buf = true)
    (hs : s.pc () = .flush buf r none ∧ s.lock = false ∧ s.pins () = {q with priv := update q.priv buf 1} ∧
      s.pool = {p.unlink buf with
        refcount := update p.refcount buf 1
        ioInProgress := update p.ioInProgress buf true
        ioLock := update p.ioLock buf true
        justDirtied := update p.justDirtied buf false}) :
    ∃ t, drive (n + 4) s = some t ∧ ReadEnd p q r t := by
  obtain ⟨hpc, hlock, hpins, hpool⟩ := hs
  let p' : Pool Page := {s.pool with disk := (s.pool.writeOut buf (s.pool.data buf)).disk}
  let c : Section Page := ⟨p', s.pins (), .flush buf r (some true), false⟩
  have h1 : drive (n + 4) s = drive (n + 3) (s.leave () c) := by
    refine drive_step _ hpc (by simp) hlock ?_
    rw [show c = ⟨s.pool.writeOut buf (s.pool.data buf), s.pins (), .flush buf r (some true), false⟩ by
      rw [writeOut_eq]]
    rfl
  have hdone : allocFlushed p' (s.pins ()) buf r true =
      ⟨{p' with dirty := update p'.dirty buf false}.renamed buf r, s.pins (), .read buf r true none, false⟩ := by
    have hjust : p'.justDirtied buf = false := by
      show s.pool.justDirtied buf = false
      rw [hpool]
      exact update_self ..
    have hone : p'.refcount buf = 1 := by
      show s.pool.refcount buf = 1
      rw [hpool]
      exact update_self ..
    have hlookup : bufTableLookup {p' with dirty := update p'.dirty buf false} r.tag = none := by
      refine (if_neg (by simp [Request.tag])).trans ?_
      show s.pool.table r.tag = none
      rw [hpool]
      exact hnew
    have htab : Tabled {p' with dirty := update p'.dirty buf false} := by
      refine ⟨?_, ?_⟩
      · show ∀ t i, s.pool.table t = some i → s.pool.InPool i ∧ s.pool.deleted i = false ∧ s.pool.tag i = t
        rw [hpool]
        exact ht.maps
      · show ∀ i, s.pool.InPool i → s.pool.deleted i = false → s.pool.table (s.pool.tag i) = some i
        rw [hpool]
        exact ht.mapped
    rw [allocFlushed, if_neg (by simp), if_neg (by simp [hjust])]
    dsimp only
    rw [if_neg (by omega), hlookup]
    refine allocRename_eq htab ?_ ?_
    · show s.pool.InPool buf
      rw [hpool]
      exact hin
    · show s.pool.table r.tag = none
      rw [hpool]
      exact hnew
  have h2 : drive (n + 3) (s.leave () c) = drive (n + 2) ((s.leave () c).leave () (allocFlushed p' (s.pins ()) buf r true)) :=
    drive_step (.flush buf r (some true)) (leave_pc s c) (by simp) rfl (by rw [leave_pins]; rfl)
  obtain ⟨t, hdrive, htpc, htlock, htpins, htpool⟩ := drive_read (n := n)
    (s := (s.leave () c).leave () (allocFlushed p' (s.pins ()) buf r true)) (r := r)
    (by rw [leave_pc, hdone]) (by rw [hdone]; rfl) (by rw [hdone]; rfl)
  refine ⟨t, (h1.trans h2).trans hdrive, .loaded buf hnew hin hfree htpc htlock ?_ ?_⟩
  · have hevict : p.evict buf = p'.disk := by
      rw [evict, if_pos hdirty]
      show (p.writeOut buf (p.data buf)).disk = (s.pool.writeOut buf (s.pool.data buf)).disk
      rw [hpool]
      unfold writeOut
      dsimp only [unlink, file]
      split <;> rfl
    rw [htpool]
    refine loaded_renamed ?_ ?_ ?_ ?_ ?_ ?_ hevict.symm <;> dsimp only [p'] <;> rw [hpool] <;> rfl
  · rw [htpins, leave_pins, hdone, hpins]

/-- A call of `ReadBuffer` ends. -/
theorem drive_alloc (h : SysInv s.pool s.pins s.pc) (hpc : s.pc () = .alloc r) (hlock : s.lock = false)
    (hext : r.extend = true → s.pool.table r.tag = none) :
    ∃ t, drive 5 s = some t ∧ ReadEnd s.pool (s.pins ()) r t := by
  have h1 : drive 5 s = drive 4 (s.leave () (bufferAlloc s.pool (s.pins ()) r)) := drive_step _ hpc nofun hlock rfl
  rw [h1]
  unfold bufferAlloc
  rw [h.lookup]
  cases ht : s.pool.table r.tag with
  | some buf =>
    have hin := (h.tabled.maps _ _ ht).1
    have hrel := relisted_pinBuffer s.pool (s.pins ()) buf
    have hquiet : s.pool.ioInProgress buf = false := by
      rw [h.io buf hin]
      cases hio : s.pool.ioLock buf with
      | false => rfl
      | true =>
        obtain ⟨b, hb⟩ := h.owner buf hin hio
        rw [show s.pc b = .alloc r from hpc] at hb
        exact hb.elim
    have hfound : (allocFound s.pool (s.pins ()) buf r).pc = .idle (some (buf, r)) := by
      have hnot : r.extend = false := by
        cases he : r.extend with
        | false => rfl
        | true => rw [hext he] at ht; cases ht
      dsimp only [allocFound, returnFound]
      rw [hrel.ioInProgress, hquiet, hnot]
      rfl
    exact ⟨_, drive_idle ((leave_pc ..).trans hfound), .found buf ht ((leave_pc ..).trans hfound) rfl hrel rfl⟩
  | none =>
    dsimp only
    rcases freeList_get h.counted.list with ⟨hget, hnone⟩ | ⟨buf, hget, hin, hfree⟩
    · rw [allocVictim, hget]
      exact ⟨_, drive_idle (leave_pc ..), .full hnone (leave_pc ..) rfl (leave_pins ..)⟩
    · rw [allocVictim, hget]
      dsimp only
      cases hdirty : s.pool.dirty buf with
      | true =>
        rw [if_pos (show (s.pool.unlink buf).dirty buf = true from hdirty)]
        exact drive_dirty (n := 0) h.tabled hin hfree ht hdirty ⟨leave_pc .., rfl, leave_pins .., rfl⟩
      | false =>
        rw [if_neg (show ¬ (s.pool.unlink buf).dirty buf = true by simp [unlink, hdirty])]
        rw [allocRename_eq (p := {s.pool.unlink buf with
          refcount := update (s.pool.unlink buf).refcount buf 1}) ⟨h.tabled.maps, h.tabled.mapped⟩ hin ht]
        exact drive_clean (n := 2) hin hfree ht hdirty ⟨leave_pc .., rfl, leave_pins .., rfl⟩

theorem drive_inv {N : Nat} {t : Sys Unit Page} (h : Inv N s) (hd : drive n s = some t) : Inv N t := by
  induction n generalizing s with
  | zero =>
    cases hd
    exact h
  | succ n ih =>
    have hgo {a : Act Page} (hm : LevelsMet s.pool (s.pins ()) a) (hs : (step s () a).bind (drive n) = some t) :
        Inv N t := by
      obtain ⟨u, hu, ht⟩ := bind_eq_some_iff.mp hs
      exact ih (step_inv h hm hu) ht
    have hadvance (pc : Pc) : LevelsMet s.pool (s.pins ()) (pc.advance : Act Page) := by
      unfold Pc.advance
      split <;> trivial
    rw [drive] at hd
    split at hd
    · cases hd
      exact h
    · exact hgo (hadvance _) hd

end Calls

/-! ### The view -/

/-- The shared buffers as a cache over the files. -/
def BlockTrace.cache (cat : Catalog) (s : BlockTrace Page) : Cache Buffer (LRelId × Nat) Page where
  key i := if s.sys.pool.InPool i ∧ s.sys.pool.deleted i = false then some (s.sys.pool.key i) else none
  data := s.sys.pool.data
  dirty := s.sys.pool.dirty
  pending := s.pending
  store k := mdread s.sys.pool.disk (cat.file k.1) k.2

/-- What holds between the calls of a backend. -/
structure BlockInv (cat : Catalog) (N : Nat) (s : BlockTrace Page) : Prop where
  inv : Inv N s.sys
  idle : ∃ ret, s.sys.pc () = .idle ret
  shows : Shows (s.cache cat) s.written
  pinned : ∀ i, s.pending i = true → s.sys.pool.InPool i ∧ 0 < (s.sys.pins ()).priv i
  held : ∀ i, s.sys.pool.InPool i → 0 < (s.sys.pins ()).priv i → s.sys.pool.deleted i = false
  named : ∀ i, s.sys.pool.InPool i → s.sys.pool.deleted i = false →
    s.sys.pool.sbRelname i = cat.name (s.sys.pool.tag i).relId ∧ ∃ b, (s.sys.pool.tag i).blockNum = some b ∧
      b < mdnblocks s.sys.pool.disk (cat.file (s.sys.pool.tag i).relId)
  clean : ∀ i, s.sys.pool.InPool i → s.sys.pool.deleted i = true → s.sys.pool.dirty i = false

section View
variable {cat : Catalog} {N : Nat} {s : BlockTrace Page} {i buf : Buffer}

theorem block_key (hi : s.sys.pool.InPool i) (hd : s.sys.pool.deleted i = false) :
    (s.cache cat).key i = some (s.sys.pool.key i) := if_pos ⟨hi, hd⟩

theorem key_block {k : LRelId × Nat} (h : (s.cache cat).key i = some k) :
    s.sys.pool.InPool i ∧ s.sys.pool.deleted i = false ∧ k = s.sys.pool.key i := by
  simp only [cache] at h
  split_ifs at h with hi
  exact ⟨hi.1, hi.2, (some.inj h).symm⟩

section
variable (h : BlockInv cat N s) (hi : s.sys.pool.InPool i)
include h hi

/-- A free buffer has no change pending. -/
theorem BlockInv.settled (hfree : s.sys.pool.free i = true) :
    s.pending i = false := by
  cases hp : s.pending i with
  | false => rfl
  | true => exact absurd (Pins.holds_of_priv (h.pinned i hp).2) (h.inv.sys.counted.not_holds hi hfree ())

/-- A buffer is written to its block. -/
theorem BlockInv.file (hd : s.sys.pool.deleted i = false) (page : Page) :
    s.sys.pool.writeOut i page = {s.sys.pool with
      disk := mdwrite s.sys.pool.disk (cat.file (s.sys.pool.key i).1) (s.sys.pool.key i).2 page} := by
  obtain ⟨hname, b, hb, -⟩ := h.named i hi hd
  unfold writeOut
  rw [hb]
  dsimp only [Pool.file, Pool.key]
  rw [hname, hb]
  rfl

/-- The block of a buffer exists. -/
theorem BlockInv.exists (hd : s.sys.pool.deleted i = false) :
    (s.sys.pool.key i).2 < mdnblocks s.sys.pool.disk (cat.file (s.sys.pool.key i).1) := by
  obtain ⟨-, b, hb, hlt⟩ := h.named i hi hd
  simpa [key, hb] using hlt

end

/-- The size of the files does not change when a victim is written. -/
theorem BlockInv.evict_blocks (h : BlockInv cat N s) (hi : s.sys.pool.InPool buf) (f : File) :
    mdnblocks (s.sys.pool.evict buf) f = mdnblocks s.sys.pool.disk f := by
  unfold evict
  split_ifs with hdirty
  · have hd : s.sys.pool.deleted buf = false := by
      cases hdel : s.sys.pool.deleted buf with
      | false => rfl
      | true => rw [h.clean buf hi hdel] at hdirty; cases hdirty
    rw [h.file hi hd]
    exact mdnblocks_mdwrite (cat.named _) (h.exists hi hd)
  · rfl

/-- The victim written, if it is dirty, and given up. -/
theorem BlockInv.evicted (h : BlockInv cat N s) (hi : s.sys.pool.InPool buf) (hfree : s.sys.pool.free buf = true) :
    Shows {s.cache cat with
      key := update (s.cache cat).key buf none
      store := fun k => mdread (s.sys.pool.evict buf) (cat.file k.1) k.2} s.written := by
  have hsettled := h.settled hi hfree
  have hwritten : Shows {s.cache cat with store := fun k => mdread (s.sys.pool.evict buf) (cat.file k.1) k.2}
      s.written ∧ (s.sys.pool.dirty buf = true → ∀ k, (s.cache cat).key buf = some k →
        s.sys.pool.data buf = mdread (s.sys.pool.evict buf) (cat.file k.1) k.2) := by
    unfold evict
    by_cases hdirty : s.sys.pool.dirty buf = true
    · have hd : s.sys.pool.deleted buf = false := by
        cases hdel : s.sys.pool.deleted buf with
        | false => rfl
        | true => rw [h.clean buf hi hdel] at hdirty; cases hdirty
      have hkey : (s.cache cat).key buf = some (s.sys.pool.key buf) := block_key hi hd
      have hself : mdread (mdwrite _ _ _ (s.sys.pool.data buf)) _ _ = _ := mdread_mdwrite_self (cat.named (s.sys.pool.key buf).1) (h.exists hi hd)
      rw [if_pos hdirty, h.file hi hd]
      refine ⟨h.shows.touch (i := buf) (k := s.sys.pool.key buf) ⟨fun _ _ => rfl, fun _ _ => rfl, fun _ _ => rfl,
        fun _ _ => rfl, fun k hk => ?_⟩ hkey hkey (fun _ _ => rfl) (h.shows.current buf _ hkey) fun hclean => ?_,
        fun _ k hk => ?_⟩
      · refine mdread_mdwrite_of_ne (cat.named _) (h.exists hi hd) ?_
        by_contra hne
        push Not at hne
        refine hk (Prod.ext ?_ hne.2)
        exact cat.unique _ _ (congrArg File.dbId hne.1) (congrArg File.relname hne.1)
      · rw [show s.sys.pool.dirty buf = false from hclean] at hdirty
        cases hdirty
      · obtain rfl := some.inj (hkey.symm.trans hk)
        exact hself.symm
    · rw [if_neg hdirty]
      exact ⟨h.shows, fun e => absurd e hdirty⟩
  refine hwritten.1.drop (i := buf) (k := s.sys.pool.key buf) ⟨fun j hj => update_of_ne hj .., fun _ _ => rfl,
    fun _ _ => rfl, fun _ _ => rfl, fun _ _ => rfl⟩ (update_self ..) rfl (fun _ _ => hsettled)
    fun k hk hdirty => hwritten.2 hdirty k hk

end View

/-! ### Calls -/

section Steps
variable {cat : Catalog} {N : Nat} {s : BlockTrace Page} {buf : Buffer}

omit [Zero Page] in
theorem tag_eq {t : BufferTag} {b : Nat} (h : t.blockNum = some b) : t = ⟨t.relId, some b⟩ := by
  cases t
  cases h
  rfl

variable {t : Sys Unit Page}

section
variable (h : BlockInv cat N s)
include h

/-- A victim that has got a block. -/
theorem inv_victim {id : LRelId} {blockNum : Option Nat}
    (hlegal : s.Legal cat (.readBuffer id blockNum)) (ht : Inv N t) (hidle : ∃ ret, t.pc () = .idle ret)
    (hnew : s.sys.pool.table ⟨id, some (s.block cat id blockNum)⟩ = none)
    (hin : s.sys.pool.InPool buf) (hfree : s.sys.pool.free buf = true)
    (hpool : Loaded s.sys.pool ⟨cat.relation id, s.block cat id blockNum, blockNum.isNone⟩ buf t.pool)
    (hpins : t.pins () = {s.sys.pins () with priv := update (s.sys.pins ()).priv buf 1}) :
    BlockInv cat N ⟨t, s.written, s.pending⟩ ∧ t.pool.data buf = s.written (id, s.block cat id blockNum) := by
  obtain ⟨hn, htags, hnames, hdeleted, hdirties, hdata, hdisk⟩ := hpool
  have hin' (i : Buffer) : t.pool.InPool i ↔ s.sys.pool.InPool i := by rw [Pool.InPool, hn]; rfl
  have hread (f : File) (b : Nat) : mdread t.pool.disk f b = mdread (s.sys.pool.evict buf) f b := by
    rw [hdisk]
    split
    · exact mdread_mdextend ..
    · rfl
  have hsize (f : File) : mdnblocks s.sys.pool.disk f ≤ mdnblocks t.pool.disk f := by
    rw [hdisk, ← h.evict_blocks hin f]
    split
    · rw [mdnblocks_mdextend]; omega
    · exact le_refl _
  have hpage : t.pool.data buf = mdread (s.sys.pool.evict buf) (cat.file id) (s.block cat id blockNum) := by
    rw [hdata, update_self]
    cases blockNum with
    | some b => rfl
    | none => exact (mdread_beyond (by rw [h.evict_blocks hin]; exact le_refl _)).symm
  have hevicted := h.evicted hin hfree
  have habsent (j : Buffer) : update (s.cache cat).key buf none j ≠ some (id, s.block cat id blockNum) := by
    intro hj
    have hjb : j ≠ buf := by rintro rfl; rw [update_self] at hj; cases hj
    rw [update_of_ne hjb] at hj
    obtain ⟨hjin, hjd, hk⟩ := key_block hj
    obtain ⟨-, b, hb, -⟩ := h.named j hjin hjd
    have hsame : s.sys.pool.tag j = ⟨id, some (s.block cat id blockNum)⟩ := by
      rw [key, hb] at hk
      obtain ⟨h1, h2⟩ := Prod.mk.inj hk
      rw [tag_eq hb, ← h1, h2]
      rfl
    have hmapped := h.inv.sys.tabled.mapped j hjin hjd
    rw [hsame, hnew] at hmapped
    cases hmapped
  have hwritten : s.written (id, s.block cat id blockNum) = t.pool.data buf :=
    (hevicted.absent (id, s.block cat id blockNum) habsent).trans hpage.symm
  refine ⟨⟨ht, hidle, hevicted.fill (i := buf) (k := (id, s.block cat id blockNum))
    ⟨fun j hj => ?_, fun j hj => ?_, fun j hj => ?_, fun _ _ => rfl, fun k _ => hread ..⟩
    (update_self ..) ?_ habsent (fun _ _ => rfl) ?_ ?_, fun i hi => ?_, fun i hi hpriv => ?_, fun i hi hd => ?_,
    fun i hi hd => ?_⟩, hwritten.symm⟩
  · simp only [cache, hin', hdeleted, update_of_ne hj, key, htags]
  · simp only [cache, hdata, update_of_ne hj]
  · simp only [cache, hdirties, update_of_ne hj]
  · simp only [cache, hin', hin, hdeleted, update_self, key, htags]
    rfl
  · exact hwritten.trans (hpage.trans (hread ..).symm)
  · exact hpage.trans (hread ..).symm
  · obtain ⟨hiin, hipriv⟩ := h.pinned i hi
    have hib : i ≠ buf := by rintro rfl; rw [h.settled hin hfree] at hi; cases hi
    refine ⟨(hin' i).mpr hiin, ?_⟩
    simpa [hpins, hib] using hipriv
  · rw [hdeleted]
    by_cases hib : i = buf
    · rw [hib, update_self]
    · rw [update_of_ne hib]
      refine h.held i ((hin' i).mp hi) ?_
      simpa [hpins, hib] using hpriv
  · rw [hdeleted] at hd
    rw [hnames, htags]
    by_cases hib : i = buf
    · subst hib
      rw [update_self, update_self]
      refine ⟨rfl, _, rfl, ?_⟩
      cases blockNum with
      | some b => exact lt_of_lt_of_le (hlegal b rfl) (hsize _)
      | none =>
        have hmore : mdnblocks t.pool.disk (cat.file id) = mdnblocks s.sys.pool.disk (cat.file id) + 1 := by
          rw [hdisk, ← h.evict_blocks hin]
          exact mdnblocks_mdextend.trans (congrArg _ (if_pos rfl))
        exact hmore ▸ Nat.lt_succ_self _
    · rw [update_of_ne hib] at hd
      rw [update_of_ne hib, update_of_ne hib]
      obtain ⟨h1, b, hb, hlt⟩ := h.named i ((hin' i).mp hi) hd
      exact ⟨h1, b, hb, lt_of_lt_of_le hlt (hsize _)⟩
  · rw [hdeleted] at hd
    have hib : i ≠ buf := by rintro rfl; rw [update_self] at hd; cases hd
    rw [update_of_ne hib] at hd
    rw [hdirties, update_of_ne hib]
    exact h.clean i ((hin' i).mp hi) hd

/-- A step that changes pins and lists only. -/
theorem inv_relisted (ht : Inv N t) (hidle : ∃ ret, t.pc () = .idle ret)
    (hrel : Relisted s.sys.pool t.pool)
    (hpriv : ∀ i, 0 < (t.pins ()).priv i → 0 < (s.sys.pins ()).priv i ∨ s.sys.pool.deleted i = false)
    (hpend : ∀ i, s.pending i = true → 0 < (t.pins ()).priv i) : BlockInv cat N ⟨t, s.written, s.pending⟩ := by
  have hcache : cache cat ⟨t, s.written, s.pending⟩ = s.cache cat := by
    unfold cache key
    simp only [hrel.inPool, hrel.deleted, hrel.tag, hrel.data, hrel.dirty, hrel.disk]
  refine ⟨ht, hidle, by rw [hcache]; exact h.shows, fun i hi => ⟨hrel.inPool.mpr (h.pinned i hi).1, hpend i hi⟩,
    fun i hi hp => ?_, fun i hi hd => ?_, fun i hi hd => ?_⟩
  · rw [hrel.deleted]
    exact (hpriv i hp).elim (h.held i (hrel.inPool.mp hi)) id
  · rw [hrel.deleted] at hd
    rw [hrel.sbRelname, hrel.tag, hrel.disk]
    exact h.named i (hrel.inPool.mp hi) hd
  · rw [hrel.deleted] at hd
    rw [hrel.dirty]
    exact h.clean i (hrel.inPool.mp hi) hd

/-- No block beyond the end of its file has a buffer. -/
theorem BlockInv.new (id : LRelId) :
    s.sys.pool.table (request s.sys.pool (cat.relation id) none).tag = none := by
  cases ht : s.sys.pool.table (request s.sys.pool (cat.relation id) none).tag with
  | none => rfl
  | some i =>
    obtain ⟨hi, hd, htag⟩ := h.inv.sys.tabled.maps _ _ ht
    obtain ⟨-, b, hb, hlt⟩ := h.named i hi hd
    rw [htag] at hb hlt
    cases hb
    exact absurd hlt (lt_irrefl _)

/-- A new block reads as zeros before it is written. -/
theorem BlockInv.zero (id : LRelId) : s.written (id, s.block cat id none) = 0 := by
  refine (h.shows.absent _ fun i hi => ?_).trans (mdread_beyond (le_refl _))
  obtain ⟨hin, hd, hk⟩ := key_block hi
  have hlt := h.exists hin hd
  rw [← hk] at hlt
  exact lt_irrefl _ hlt

/-- A call of `ReadBuffer`: it ends, the invariant holds, and the page is the block asked for
with what was written to it last. -/
theorem read_block {id : LRelId} {blockNum : Option Nat} (hlock : s.sys.lock = false)
    (hlegal : s.Legal cat (.readBuffer id blockNum)) :
    ∃ t, readBufferCall s.sys (cat.relation id) blockNum = some t ∧ BlockInv cat N ⟨t, s.written, s.pending⟩ ∧
      ((t.pc () = .idle none ∧ ∀ i, s.sys.pool.InPool i → (s.sys.pins ()).Holds i) ∨
        ∃ buf, t.pc () = .idle (some (buf, ⟨cat.relation id, s.block cat id blockNum, blockNum.isNone⟩)) ∧
          t.pool.InPool buf ∧ t.pool.tag buf = ⟨id, some (s.block cat id blockNum)⟩ ∧ 0 < (t.pins ()).priv buf ∧
          (blockNum = none ∨ s.pending buf = false → t.pool.data buf = s.written (id, s.block cat id blockNum))) := by
  obtain ⟨ret, hidle⟩ := h.idle
  have hr : request s.sys.pool (cat.relation id) blockNum =
      ⟨cat.relation id, s.block cat id blockNum, blockNum.isNone⟩ := by cases blockNum <;> rfl
  let r : Request := ⟨cat.relation id, s.block cat id blockNum, blockNum.isNone⟩
  let u := s.sys.leave () ⟨s.sys.pool, s.sys.pins (), .alloc r, false⟩
  have hcall : step s.sys () (.readBuffer (cat.relation id) blockNum) = some u := by
    rw [step, hlock, hidle]
    dsimp only [u, r]
    rw [← hr]
    rfl
  have hu : Inv N u := step_inv h.inv (show LevelsMet _ _ (.readBuffer _ _) from trivial) hcall
  have hext (he : blockNum = none) : s.sys.pool.table r.tag = none := by
    subst he
    exact h.new id
  obtain ⟨t, hdrive, hend⟩ := drive_alloc (r := r) hu.sys (leave_pc ..) rfl fun he => hext (isNone_iff_eq_none.mp he)
  have ht : Inv N t := drive_inv hu hdrive
  refine ⟨t, by rw [readBufferCall, hcall]; exact hdrive, ?_⟩
  rcases hend with ⟨buf, hfound, hpc, -, hpool, hpins⟩ | ⟨hnone, hpc, hpool, hpins⟩ |
    ⟨buf, hnew, hin, hfree, hpc, -, hpool, hpins⟩
  · obtain ⟨hin, hd, hbtag⟩ := h.inv.sys.tabled.maps _ _ hfound
    have hpriv (i : Buffer) : (t.pins ()).priv i = update (s.sys.pins ()).priv buf
        ((s.sys.pins ()).priv buf + 1) i := by rw [hpins]; rfl
    have hmore (i : Buffer) (hi : 0 < (s.sys.pins ()).priv i) : 0 < (t.pins ()).priv i := by
      rw [hpriv]
      by_cases hib : i = buf
      · subst hib; simp
      · rwa [update_of_ne hib]
    refine ⟨inv_relisted h ht ⟨_, hpc⟩ hpool (fun i hi => ?_) (fun i hi => hmore i (h.pinned i hi).2),
      .inr ⟨buf, hpc, hpool.inPool.mpr hin, ?_, ?_, fun hp => ?_⟩⟩
    · by_cases hib : i = buf
      · exact .inr (hib ▸ hd)
      · rw [hpriv, update_of_ne hib] at hi
        exact .inl hi
    · rw [hpool.tag]
      exact hbtag
    · rw [hpriv, update_self]
      exact Nat.succ_pos _
    · have hpend : s.pending buf = false := by
        refine hp.resolve_left fun e => ?_
        rw [show u.pool.table r.tag = none from hext e] at hfound
        cases hfound
      have hcur := h.shows.current buf _ (block_key hin hd) hpend
      rw [key, hbtag] at hcur
      rw [hpool.data]
      exact hcur
  · refine ⟨inv_relisted h ht ⟨_, hpc⟩ (hpool ▸ .refl _) (fun i hi => .inl ?_) (fun i hi => ?_),
      .inl ⟨hpc, fun i hi => ?_⟩⟩
    · rw [hpins] at hi
      exact hi
    · rw [hpins]
      exact (h.pinned i hi).2
    · -- a buffer that is not free has a reference, and there is one backend
      by_contra hnot
      have hzero : s.sys.pool.refcount i = 0 := by
        rw [h.inv.sys.counted.count i hi]
        exact Count.count_eq_zero.mpr fun _ => hnot
      have hfree := (h.inv.sys.counted.free i hi).mpr hzero
      rw [show s.sys.pool.free i = false from hnone i hi] at hfree
      cases hfree
  · obtain ⟨hinv, hdata⟩ := inv_victim h hlegal ht ⟨_, hpc⟩ hnew hin hfree hpool hpins
    refine ⟨hinv, .inr ⟨buf, hpc, ?_, ?_, ?_, fun _ => hdata⟩⟩
    · rw [Pool.InPool, hpool.nbuffers]
      exact hin
    · rw [hpool.tag, update_self]
      rfl
    · rw [hpins]
      simp

/-- The call that a step of an idle backend is. -/
theorem step_call {a : Act Page} (hs : step s.sys () a = some t) :
    ∃ c, call s.sys.pool (s.sys.pins ()) a = some c ∧ t = s.sys.leave () c := by
  obtain ⟨ret, hidle⟩ := h.idle
  obtain ⟨-, c, hc, rfl⟩ := step_eq hs
  rw [hidle] at hc
  exact ⟨c, hc, rfl⟩

theorem inv_modify_block {page : Page} (hs : step s.sys () (.modify buf page) = some t) :
    BlockInv cat N ⟨t, s.written, update s.pending buf true⟩ := by
  have ht : Inv N t := step_inv h.inv (show LevelsMet _ _ (.modify buf page) from trivial) hs
  obtain ⟨c, hc, rfl⟩ := step_call h hs
  simp only [call] at hc
  split_ifs at hc with hin
  cases hc
  have hkey : (s.cache cat).key buf = some (s.sys.pool.key buf) := block_key hin.1 (h.held buf hin.1 hin.2)
  refine ⟨ht, ⟨_, leave_pc ..⟩, h.shows.touch (i := buf) (k := s.sys.pool.key buf) ⟨fun _ _ => rfl,
    fun j hj => update_of_ne hj .., fun _ _ => rfl, fun j hj => update_of_ne hj .., fun _ _ => rfl⟩
    hkey hkey (fun _ _ => rfl) (fun hpend => ?_) (fun _ hpend => ?_), fun i hi => ?_, h.held, h.named, h.clean⟩
  · exact absurd hpend (by simp [cache])
  · exact absurd hpend (by simp [cache])
  · by_cases hib : i = buf
    · exact hib ▸ hin
    · exact h.pinned i ((update_of_ne hib _ _).symm.trans hi)

theorem inv_release_block (hlegal : s.Legal cat (.releaseBuffer buf))
    (hs : step s.sys () (.releaseBuffer buf) = some t) : BlockInv cat N ⟨t, s.written, s.pending⟩ := by
  have ht : Inv N t := step_inv h.inv (show LevelsMet _ _ (.releaseBuffer buf) from trivial) hs
  obtain ⟨c, hc, rfl⟩ := step_call h hs
  simp only [call, not_not.mpr hlegal.1, if_false] at hc
  split_ifs at hc with hpriv
  cases hc
  have hcount (i : Buffer) : ((s.sys.pool.releaseBuffer (s.sys.pins ()) buf).2).priv i =
      update (s.sys.pins ()).priv buf ((s.sys.pins ()).priv buf - 1) i := rfl
  refine inv_relisted h ht ⟨_, leave_pc ..⟩ (relisted_releaseBuffer ..) (fun i hi => .inl ?_) fun i hi => ?_
  · rw [leave_pins, hcount] at hi
    by_cases hib : i = buf
    · exact hib ▸ hpriv
    · rwa [update_of_ne hib] at hi
  · rw [leave_pins, hcount]
    by_cases hib : i = buf
    · subst hib
      have := hlegal.2 hi
      rw [update_self]
      omega
    · rw [update_of_ne hib]
      exact (h.pinned i hi).2

theorem inv_write_block (hlegal : s.Legal cat (.writeBuffer buf))
    (hs : step s.sys () (.writeBuffer buf) = some t) :
    BlockInv cat N ⟨t, update s.written (s.sys.pool.key buf) (s.sys.pool.data buf),
      update s.pending buf false⟩ := by
  have ht : Inv N t := step_inv h.inv (show LevelsMet _ _ (.writeBuffer buf) from trivial) hs
  obtain ⟨c, hc, rfl⟩ := step_call h hs
  simp only [call, not_not.mpr (show s.sys.pool.InPool buf from hlegal), if_false] at hc
  split_ifs at hc with hpriv
  cases hc
  have hd : s.sys.pool.deleted buf = false := h.held buf hlegal hpriv
  have hkey : (s.cache cat).key buf = some (s.sys.pool.key buf) := block_key hlegal hd
  have hrel : Relisted {s.sys.pool with
      dirty := update s.sys.pool.dirty buf true
      justDirtied := update s.sys.pool.justDirtied buf true} (writeBuffer s.sys.pool (s.sys.pins ()) buf).1 :=
    relisted_unpinBuffer ..
  have hin (i : Buffer) : (writeBuffer s.sys.pool (s.sys.pins ()) buf).1.InPool i ↔ s.sys.pool.InPool i := hrel.inPool
  have hcount (i : Buffer) : ((writeBuffer s.sys.pool (s.sys.pins ()) buf).2).priv i =
      update (s.sys.pins ()).priv buf ((s.sys.pins ()).priv buf - 1) i := rfl
  have hkeys (i : Buffer) : (cache cat ⟨s.sys.leave () ⟨(writeBuffer s.sys.pool (s.sys.pins ()) buf).1,
      (writeBuffer s.sys.pool (s.sys.pins ()) buf).2, .idle none, false⟩, s.written, s.pending⟩).key i =
        (s.cache cat).key i := by
    simp only [cache, Sys.leave, hin, hrel.deleted, key, hrel.tag]
  refine ⟨ht, ⟨_, leave_pc ..⟩, h.shows.touch (i := buf) (k := s.sys.pool.key buf) ⟨fun j _ => hkeys j,
    fun j _ => congrFun hrel.data j, fun j hj => (congrFun hrel.dirty j).trans (update_of_ne hj ..),
    fun j hj => update_of_ne hj .., fun k _ => ?_⟩ hkey ((hkeys buf).trans hkey)
    (fun _ hk => update_of_ne hk ..) (fun _ => ?_) (fun hclean _ => ?_), fun i hi => ?_, fun i hi hp => ?_,
    fun i hi hdel => ?_, fun i hi hdel => ?_⟩
  · exact congrArg (fun d => mdread d (cat.file k.1) k.2) hrel.disk
  · exact (congrFun hrel.data buf).trans (update_self _ (s.sys.pool.data buf) s.written).symm
  · have hdirty := (congrFun hrel.dirty buf).trans (update_self ..)
    exact absurd (hclean.symm.trans hdirty) (by simp)
  · have hib : i ≠ buf := by rintro rfl; simp at hi
    obtain ⟨h1, h2⟩ := h.pinned i ((update_of_ne hib _ _).symm.trans hi)
    refine ⟨(hin i).mpr h1, ?_⟩
    rw [leave_pins, hcount, update_of_ne hib]
    exact h2
  · refine (congrFun hrel.deleted i).trans (h.held i ((hin i).mp hi) ?_)
    rw [leave_pins, hcount] at hp
    by_cases hib : i = buf
    · exact hib ▸ hpriv
    · rwa [update_of_ne hib] at hp
  · have hnamed := h.named i ((hin i).mp hi) ((congrFun hrel.deleted i).symm.trans hdel)
    simp only [Sys.leave, hrel.sbRelname, hrel.tag, hrel.disk]
    exact hnamed
  · have hdel' := (congrFun hrel.deleted i).symm.trans hdel
    have hib : i ≠ buf := by rintro rfl; exact absurd (hd.symm.trans hdel') (by simp)
    exact (congrFun hrel.dirty i).trans ((update_of_ne hib ..).trans (h.clean i ((hin i).mp hi) hdel'))

end

end Steps

/-! ### Histories -/

section Histories
variable {cat : Catalog} {N : Nat} {s t : BlockTrace Page} {disk : Disk Page} {memory : Buffer → Page}

theorem inv_blockStart (hN : 0 < N) : BlockInv cat N (blockStart cat N disk memory) := by
  have hkey (i : Buffer) : ((blockStart cat N disk memory).cache cat).key i = none :=
    if_neg fun e => absurd e.2 nofun
  refine ⟨inv_start hN disk memory, ⟨_, rfl⟩, ⟨fun i j k hi => ?_, fun i k hi => ?_, fun i k hi => ?_, fun k _ => rfl⟩,
    nofun, fun i _ hi => absurd hi (lt_irrefl 0), fun i _ hi => absurd hi nofun, fun _ _ _ => rfl⟩
  · rw [hkey] at hi; cases hi
  · rw [hkey] at hi; cases hi
  · rw [hkey] at hi; cases hi

/-- A read returns without its record: a new block is zeros already. -/
theorem blockStep_read {id : LRelId} {blockNum : Option Nat} (h : BlockInv cat N s) :
    blockStep cat s (.readBuffer id blockNum) =
      (readBufferCall s.sys (cat.relation id) blockNum).map fun t => ⟨t, s.written, s.pending⟩ := by
  cases blockNum with
  | some b => rfl
  | none =>
    have hsame : update s.written (id, s.block cat id none) 0 = s.written :=
      update_eq_self_iff.mpr (h.zero id).symm
    simp only [blockStep, if_true, hsame]

theorem blockStep_inv {a : BlockAct Page} (h : BlockInv cat N s) (hlegal : s.Legal cat a)
    (hs : blockStep cat s a = some t) : BlockInv cat N t := by
  cases a with
  | readBuffer id blockNum =>
    rw [blockStep_read h] at hs
    obtain ⟨u, hu, rfl⟩ := map_eq_some_iff.mp hs
    obtain ⟨v, hv, -⟩ := bind_eq_some_iff.mp hu
    obtain ⟨w, hw, hinv, -⟩ := read_block h (step_eq hv).1 hlegal
    obtain rfl := some.inj (hw.symm.trans hu)
    exact hinv
  | modify buf page =>
    obtain ⟨u, hu, rfl⟩ := map_eq_some_iff.mp hs
    exact inv_modify_block h hu
  | writeBuffer buf =>
    obtain ⟨u, hu, rfl⟩ := map_eq_some_iff.mp hs
    exact inv_write_block h hlegal hu
  | releaseBuffer buf =>
    obtain ⟨u, hu, rfl⟩ := map_eq_some_iff.mp hs
    exact inv_release_block h hlegal hu

/-- **The buffer cache shows the blocks as they were written last.** In every history of one
backend, `ReadBuffer` returns a pinned buffer with the block asked for, the one after the last
for `P_NEW`, and with the contents of its last `WriteBuffer`; or every buffer is pinned. -/
theorem cache_shows_blocks (hN : 0 < N)
    (h : Reaches (blockStep cat) (BlockTrace.Legal cat) (blockStart cat N disk memory) s) (hlock : s.sys.lock = false)
    (id : LRelId) (blockNum : Option Nat) (hlegal : s.Legal cat (.readBuffer id blockNum)) :
    ∃ t, blockStep cat s (.readBuffer id blockNum) = some t ∧
      ((t.sys.pc () = .idle none ∧ ∀ i, s.sys.pool.InPool i → (s.sys.pins ()).Holds i) ∨
        ∃ buf, t.sys.pc () = .idle (some (buf, ⟨cat.relation id, s.block cat id blockNum, blockNum.isNone⟩)) ∧
          t.sys.pool.InPool buf ∧ t.sys.pool.tag buf = ⟨id, some (s.block cat id blockNum)⟩ ∧
          0 < (t.sys.pins ()).priv buf ∧
          (blockNum = none → t.sys.pool.data buf = 0) ∧
          (blockNum = none ∨ s.pending buf = false →
            t.sys.pool.data buf = t.written (id, s.block cat id blockNum))) := by
  have hinv : BlockInv cat N s := h.keeps (inv_blockStart hN) fun t a u hok hs ht => blockStep_inv ht hok hs
  obtain ⟨t, ht, -, hend⟩ := read_block hinv hlock hlegal
  refine ⟨⟨t, s.written, s.pending⟩, by rw [blockStep_read hinv, ht]; rfl, hend.imp_right ?_⟩
  rintro ⟨buf, hpc, hin, htag, hpriv, hdata⟩
  refine ⟨buf, hpc, hin, htag, hpriv, fun e => ?_, hdata⟩
  rw [hdata (.inl e), e]
  exact hinv.zero id

end Histories

instance legalOnBlocksDecidable (cat : Catalog) (s : BlockTrace Page) (a : BlockAct Page) : Decidable (s.Legal cat a) :=
  match a with
  | .readBuffer id blockNum =>
    inferInstanceAs (Decidable (∀ b ∈ blockNum, b < mdnblocks s.sys.pool.disk (cat.file id)))
  | .modify .. => isTrue trivial
  | .writeBuffer buf => inferInstanceAs (Decidable (s.sys.pool.InPool buf))
  | .releaseBuffer _ => inferInstanceAs (Decidable (_ ∧ _))

/-- A relation for each identifier, its name as long as the number. -/
def tally : Catalog where
  name id := String.ofList (List.replicate (id.relId + 1) 'r')
  named id h := by
    have := congrArg String.length h
    simp at this
  unique id id' hdb h := by
    have hlen := congrArg String.length h
    simp only [String.length_ofList, List.length_replicate, Nat.add_right_cancel_iff] at hlen
    cases id
    cases id'
    exact congrArg₂ LRelId.mk hlen hdb

/-- Blocks of two relations in one buffer: a changed page is written for the next one. -/
def evictions : List (BlockAct Nat) :=
  [.readBuffer ⟨1, 1⟩ none, .modify 0 42, .writeBuffer 0, .readBuffer ⟨2, 1⟩ none, .releaseBuffer 0]

theorem cache_shows_blocks_evictions : ∃ s t : BlockTrace Nat,
    follow (blockStep tally) (BlockTrace.Legal tally) (blockStart tally 1 (fun _ => []) fun _ => 5) evictions = some s ∧
      blockStep tally s (.readBuffer ⟨1, 1⟩ (some 0)) = some t ∧ t.written (⟨1, 1⟩, 0) = 42 ∧
      ((t.sys.pc () = .idle none ∧ ∀ i, s.sys.pool.InPool i → (s.sys.pins ()).Holds i) ∨
        ∃ buf, t.sys.pc () = .idle (some (buf, ⟨tally.relation ⟨1, 1⟩, 0, false⟩)) ∧
          (s.pending buf = false → t.sys.pool.data buf = t.written (⟨1, 1⟩, 0))) := by
  have heval : (follow (blockStep tally) (BlockTrace.Legal tally) (blockStart tally 1 (fun _ => []) fun _ => 5)
      evictions).map (fun s => (s.sys.lock, s.written (⟨1, 1⟩, 0), decide (s.Legal tally (.readBuffer ⟨1, 1⟩ (some 0))))) =
        some (false, 42, true) := by decide +kernel
  obtain ⟨s, hs, hvals⟩ := map_eq_some_iff.mp heval
  simp only [Prod.mk.injEq, decide_eq_true_eq] at hvals
  obtain ⟨hlock, hwritten, hlegal⟩ := hvals
  obtain ⟨t, ht, hend⟩ := cache_shows_blocks (by decide) (Reaches.start.of_follow hs) hlock ⟨1, 1⟩ (some 0) hlegal
  refine ⟨s, t, hs, ht, ?_, hend.imp_right ?_⟩
  · obtain ⟨u, -, rfl⟩ := map_eq_some_iff.mp ht
    exact hwritten
  · rintro ⟨buf, hpc, -, -, -, -, hdata⟩
    exact ⟨buf, hpc, fun e => hdata (.inr e)⟩

end PgStorage.BufMgr
