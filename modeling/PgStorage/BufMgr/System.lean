import PgStorage.BufMgr.Alloc
import PgStorage.Lib.Count

/-! Many backends at one buffer pool.

A step is one critical section of one backend, one read or write of a block, or a change of
a page that the backend has pinned. A backend that returns with `BufMgrLock` held ends the
run: nobody takes the lock again. `Run` collects the runs whose steps meet a condition. -/
namespace PgStorage.BufMgr
open Function (update)

/-- The backends `β`, the pool they share and whether `BufMgrLock` is held between steps. -/
structure Sys (β Page : Type) where
  pool : Pool Page
  pins : β → Pins
  pc : β → Pc
  lock : Bool

/-- What a backend does next. -/
inductive Act (Page : Type) where
  | readBuffer (rel : Relation) (blockNum : Option Nat)
  | releaseAndReadBuffer (buf : Buffer) (rel : Relation) (blockNum : Option Nat)
  | releaseBuffer (buf : Buffer)
  | writeBuffer (buf : Buffer)
  /-- The contents of a pinned page changed. -/
  | modify (buf : Buffer) (page : Page)
  | incrBufferRefCount (buf : Buffer)
  | bufferRefCountReset
  | bufferRefCountRestore
  | resetBufferPool
  /-- The pending read or write succeeds. -/
  | ioOk
  /-- The pending read or write fails, with `junk` in the block or in the buffer. -/
  | ioFail (junk : Page)
  /-- The lock is taken again: after an I/O, at the end of a wait, for the lookup. -/
  | resume

variable {β Page : Type}

/-- The calls of an idle backend. A buffer that is written, released or changed has been
pinned by the caller; a bad buffer number is refused. -/
def call (p : Pool Page) (q : Pins) : Act Page → Option (Section Page)
  | .readBuffer rel blockNum =>
    if rel.rdIslocal then some ⟨p, q, .idle none, false⟩
    else some ⟨p, q, .alloc (request p rel blockNum), false⟩
  | .releaseAndReadBuffer buf rel blockNum => some (releaseAndReadBuffer p q buf rel blockNum)
  | .releaseBuffer buf =>
    if ¬ p.InPool buf then some ⟨p, q, .idle none, false⟩
    else if 0 < q.priv buf then
      let (p, q) := p.releaseBuffer q buf
      some ⟨p, q, .idle none, false⟩
    else none
  | .writeBuffer buf =>
    if ¬ p.InPool buf then some ⟨p, q, .idle none, false⟩
    else if 0 < q.priv buf then
      let (p, q) := writeBuffer p q buf
      some ⟨p, q, .idle none, false⟩
    else none
  | .modify buf page =>
    if p.InPool buf ∧ 0 < q.priv buf
    then some ⟨{p with data := update p.data buf page}, q, .idle none, false⟩ else none
  | .incrBufferRefCount buf =>
    if p.InPool buf
    then some ⟨p, {q with priv := update q.priv buf (q.priv buf + 1)}, .idle none, false⟩ else none
  | .bufferRefCountReset => some ⟨p, bufferRefCountReset q, .idle none, false⟩
  | .bufferRefCountRestore =>
    match q.saves with
    | save :: outer => some ⟨p, bufferRefCountRestore q save outer, .idle none, false⟩
    | [] => none
  | .resetBufferPool =>
    let (p, q) := resetBufferPool p q
    some ⟨p, q, .idle none, false⟩
  | .ioOk | .ioFail _ | .resume => none

variable [Zero Page]

/-- What a backend inside the buffer manager does next. -/
def proceed (p : Pool Page) (q : Pins) : Pc → Act Page → Option (Section Page)
  | .alloc r, .resume => some (bufferAlloc p q r)
  | .waitIo buf r, .resume => if p.ioLock buf then none else some (allocWaited p q buf r)
  | .flush buf r none, .ioOk => some ⟨p.writeOut buf (p.data buf), q, .flush buf r (some true), false⟩
  | .flush buf r none, .ioFail junk => some ⟨p.writeOut buf junk, q, .flush buf r (some false), false⟩
  | .flush buf r (some ok), .resume => some (allocFlushed p q buf r ok)
  | .read buf r own none, .ioOk => some ⟨p.readIn buf r, q, .read buf r own (some true), false⟩
  | .read buf r own none, .ioFail junk => some ⟨p.readFails buf r junk, q, .read buf r own (some false), false⟩
  | .read buf r _ (some ok), .resume => some (readDone p q buf r ok)
  | .refill buf r, .ioOk => some ⟨p.readIn buf r, q, .idle (some (buf, r)), false⟩
  | .refill buf r, .ioFail junk => some ⟨p.readFails buf r junk, q, .idle (some (buf, r)), false⟩
  | _, _ => none

/-- One backend's part of a step. -/
def act (p : Pool Page) (q : Pins) (pc : Pc) (a : Act Page) : Option (Section Page) :=
  match pc with
  | .idle _ => call p q a
  | pc => proceed p q pc a

section Steps
variable [DecidableEq β]

/-- The state after a section of backend `b`. -/
def Sys.leave (s : Sys β Page) (b : β) (c : Section Page) : Sys β Page :=
  ⟨c.pool, update s.pins b c.pins, update s.pc b c.pc, c.lock⟩

/-- A step of backend `b`. -/
def step (s : Sys β Page) (b : β) (a : Act Page) : Option (Sys β Page) :=
  if s.lock then none else (act s.pool (s.pins b) (s.pc b) a).map (s.leave b)

/-- The states reached from `s` by steps that meet the condition. -/
inductive Run (Ok : Sys β Page → β → Act Page → Prop) (s : Sys β Page) : Sys β Page → Prop
  | refl : Run Ok s s
  | tail {t u : Sys β Page} {b : β} {a : Act Page} :
      Run Ok s t → Ok t b a → step t b a = some u → Run Ok s u

/-- A list of steps, one after the other, as long as they meet the condition. -/
def steps (Ok : Sys β Page → β → Act Page → Prop) [∀ s b a, Decidable (Ok s b a)] (s : Sys β Page) :
    List (β × Act Page) → Option (Sys β Page)
  | [] => some s
  | (b, a) :: rest => if Ok s b a then (step s b a).bind fun t => steps Ok t rest else none

theorem Run.of_steps {Ok : Sys β Page → β → Act Page → Prop} [∀ s b a, Decidable (Ok s b a)]
    {r s t : Sys β Page} {l : List (β × Act Page)} (hr : Run Ok r s) (h : steps Ok s l = some t) : Run Ok r t := by
  induction l generalizing s with
  | nil => cases h; exact hr
  | cons x l ih =>
    simp only [steps] at h
    split_ifs at h with hok
    obtain ⟨u, hu, ht⟩ := Option.bind_eq_some_iff.mp h
    exact ih (hr.tail hok hu) ht

/-- Backends that start on a new pool. -/
def start (β : Type) (nbuffers : Nat) (disk : Disk Page) (memory : Buffer → Page) : Sys β Page :=
  ⟨Pool.initBufferPool nbuffers disk memory, fun _ => Pins.none, fun _ => .idle none, false⟩

/-- What every step keeps holds in every state of a run. -/
theorem Run.induction {Ok : Sys β Page → β → Act Page → Prop} {Inv : Sys β Page → Prop} {s t : Sys β Page}
    (h0 : Inv s) (hstep : ∀ t u b a, Inv t → Ok t b a → step t b a = some u → Inv u) (h : Run Ok s t) : Inv t := by
  induction h with
  | refl => exact h0
  | tail _ hok hs ih => exact hstep _ _ _ _ ih hok hs

end Steps

end PgStorage.BufMgr
