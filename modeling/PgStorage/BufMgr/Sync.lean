import PgStorage.BufMgr.Local
import PgStorage.BufMgr.PoolProofs

/-! `BufferSync`, by which `FlushBufferPool` writes the dirty buffers of a database.

No other backend runs and the writes succeed. The loop pins a dirty buffer, releases the lock
and writes it; a `return` after the write leaves it there, so the statements that follow (the
lock, the pin, the dirty bit, the other buffers and `LocalBufferSync`) are reached only by a
pass that has nothing to write. -/
namespace PgStorage.BufMgr

/-- What `BufferSync` leaves: `visited` counts the descriptors that it has looked at. -/
structure Synced (Page : Type) where
  pool : Pool Page
  pins : Pins
  locals : LocalPool Page
  lock : Bool
  visited : Nat

variable {Page : Type} (myDatabaseId : Oid)

/-- The buffers that `BufferSync` is for: `BM_VALID`, `BM_DIRTY`, of this database or shared. -/
def Pool.ToSync (p : Pool Page) (buf : Buffer) : Prop :=
  p.valid buf = true ∧ p.dirty buf = true ∧
    ((p.tag buf).relId.dbId = myDatabaseId ∨ (p.tag buf).relId.dbId = 0)

instance (p : Pool Page) (buf : Buffer) : Decidable (p.ToSync myDatabaseId buf) :=
  inferInstanceAs (Decidable (_ ∧ _ ∧ _))

variable [Zero Page]

/-- The loop from descriptor `i` on, with `n` to go; `none` when `WaitIO` takes an I/O lock
that nobody gives back. -/
def syncFrom (p : Pool Page) (q : Pins) (l : LocalPool Page) (i : Nat) : Nat → Option (Synced Page)
  | 0 =>
    let (l, disk) := localBufferSync myDatabaseId l p.disk
    some ⟨{p with disk := disk}, q, l, false, i⟩
  | n + 1 =>
    if p.ToSync myDatabaseId i then
      let (p, q) := p.pinBuffer q i
      if p.ioInProgress i then
        if p.ioLock i then none
        else
          let (p, q) := p.unpinBuffer q i
          syncFrom p q l (i + 1) n
      else
        let p := {p with justDirtied := Function.update p.justDirtied i false}
        -- the lock is released for the write, and `return` follows
        some ⟨p.writeOut i (p.data i), q, l, false, i + 1⟩
    else syncFrom p q l (i + 1) n

/-- `BufferSync` -/
def bufferSync (p : Pool Page) (q : Pins) (l : LocalPool Page) : Option (Synced Page) :=
  syncFrom myDatabaseId p q l 0 p.nbuffers

/-- What a checkpoint is for: the dirty buffers of the database are in their blocks and clean,
the pins are as before, all descriptors have been visited, the lock is free and the local
buffers are synced. -/
structure Checkpointed (p : Pool Page) (l : LocalPool Page) (o : Synced Page) : Prop where
  written : ∀ i, p.InPool i → p.ToSync myDatabaseId i → ∀ b, (p.tag i).blockNum = some b →
    mdread o.pool.disk (p.file i) b = p.data i
  clean : ∀ i, p.InPool i → p.ToSync myDatabaseId i → o.pool.dirty i = false
  refcount : ∀ i, p.InPool i → o.pool.refcount i = p.refcount i
  visited : o.visited = p.nbuffers
  lock : o.lock = false
  locals : o.locals = (localBufferSync myDatabaseId l p.disk).1

variable {myDatabaseId} {p : Pool Page} {q : Pins} {l : LocalPool Page} {o : Synced Page}

/-- No dirty bit is cleared, whatever the loop meets. -/
theorem syncFrom_dirty {i n : Nat} (h : syncFrom myDatabaseId p q l i n = some o) : o.pool.dirty = p.dirty := by
  induction n generalizing p q i with
  | zero =>
    cases h
    rfl
  | succ n ih =>
    have hpin : (p.pinBuffer q i).1.dirty = p.dirty := (relisted_pinBuffer p q i).dirty
    simp only [syncFrom] at h
    split_ifs at h
    · exact ((ih h).trans (relisted_unpinBuffer _ _ i).dirty).trans hpin
    · cases h
      refine Eq.trans ?_ hpin
      unfold Pool.writeOut
      split <;> rfl
    · exact ih h

/-- With nothing to write the loop looks at every descriptor and changes none. -/
theorem syncFrom_idle {i n : Nat} (h : ∀ j, i ≤ j → j < i + n → ¬ p.ToSync myDatabaseId j) :
    syncFrom myDatabaseId p q l i n = some ⟨{p with disk := (localBufferSync myDatabaseId l p.disk).2}, q,
      (localBufferSync myDatabaseId l p.disk).1, false, i + n⟩ := by
  induction n generalizing i with
  | zero => rfl
  | succ n ih =>
    rw [syncFrom, if_neg (h i (le_refl i) (by omega)), ih fun j hj hlt => h j (by omega) (by omega)]
    rw [add_right_comm, add_assoc]

/-- Two buffers with changed pages. -/
def twoDirty : Pool Nat :=
  {Pool.initBufferPool 2 (fun _ => [7, 8]) (fun _ => 42) with
    dirty := fun _ => true
    deleted := fun _ => false
    tag := fun i => ⟨⟨16993, 1⟩, some i.toNat⟩
    sbRelname := fun _ => "Hellos"}

end PgStorage.BufMgr
