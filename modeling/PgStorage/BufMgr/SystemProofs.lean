import PgStorage.BufMgr.SectionProofs

/-! Runs of the system of backends.

The invariant holds on the new pool, every step keeps it, and so it holds in every state of
a run, with failing reads and writes too. The structure of the pool follows: the free list
is a ring of the free buffers, free means without references, and the lookup table and the
buffers agree. -/
namespace PgStorage.BufMgr
open Function List
variable {β Page : Type}

section Start
variable [Fintype β]

theorem chain_initial {next prev : Int → Int} {N k m : Nat} (hk : k + m + 1 = N)
    (hn : ∀ i : Nat, k ≤ i → i + 1 < N → next i = i + 1) (hlast : next ((N : Int) - 1) = 0)
    (hp : ∀ i : Nat, k < i → i < N → prev i = i - 1) (hfirst : prev 0 = (N : Int) - 1) :
    Ring.Chain next prev k ((range' (k + 1) m).map fun i : Nat => (i : Int)) 0 := by
  induction m generalizing k with
  | zero =>
    have hkN : (k : Int) = N - 1 := by omega
    exact ⟨hkN ▸ hlast, hkN ▸ hfirst⟩
  | succ m ih =>
    rw [range'_succ, map_cons]
    refine ⟨?_, ?_, ih (by omega) (fun i hi => hn i (by omega)) fun i hi => hp i (by omega)⟩
    · rw [hn k le_rfl (by omega)]; push_cast; rfl
    · rw [hp (k + 1) (by omega) (by omega)]; push_cast; omega

/-- `InitBufferPool` and `InitFreeList` link the buffers behind the anchor. -/
theorem freeList_initial {N : Nat} (hN : 0 < N) (disk : Disk Page) (memory : Buffer → Page) :
    FreeList (Pool.initBufferPool N disk memory) := by
  have hmem (i : Int) : i ∈ (range' 1 (N - 1)).map (fun i : Nat => (i : Int)) ++ [0] ↔ 0 ≤ i ∧ i < N := by
    simp only [mem_append, mem_map, mem_range'_1, mem_singleton]
    constructor
    · rintro (⟨k, hk, rfl⟩ | rfl) <;> omega
    · rintro ⟨h0, hlt⟩
      by_cases hi : i = 0
      · exact .inr hi
      · exact .inl ⟨i.toNat, by omega, by omega⟩
  refine ⟨_, ⟨?_, ?_⟩, fun i => (hmem i).trans ⟨fun h => ⟨h, rfl⟩, And.left⟩⟩
  · refine nodup_cons.mpr ⟨fun hin => absurd ((hmem _).mp hin).2 (lt_irrefl _), ?_⟩
    refine List.Nodup.append (List.Nodup.map (fun a b => Int.ofNat_inj.mp) nodup_range') (nodup_singleton 0) ?_
    intro i hi h0
    obtain ⟨k, hk, rfl⟩ := mem_map.mp hi
    have := mem_range'_1.mp hk
    have : (k : Int) = 0 := mem_singleton.mp h0
    omega
  · obtain ⟨m, rfl⟩ : ∃ m, N = m + 1 := ⟨N - 1, by omega⟩
    have hnext (i : Int) : (Pool.initBufferPool (m + 1) disk memory).freeNext i =
        if i = 0 then (m : Int) + 1 else if i = m + 1 then (if m = 0 then 0 else 1)
        else if i = m then 0 else i + 1 := by
      simp only [Pool.initBufferPool, update_apply]
      push_cast
      split_ifs <;> omega
    have hprev (i : Int) : (Pool.initBufferPool (m + 1) disk memory).freePrev i =
        if i = (if m = 0 then 0 else 1) then (m : Int) + 1 else if i = m + 1 then 0
        else if i = 0 then (m : Int) else i - 1 := by
      simp only [Pool.initBufferPool, update_apply]
      push_cast
      split_ifs <;> omega
    have hhead : (Pool.initBufferPool (m + 1) disk memory).freeListDescriptor = (m : Int) + 1 := rfl
    rw [hhead]
    refine Ring.chain_append.mpr ⟨?_, ?_, ?_⟩
    · cases m with
      | zero => exact ⟨by rw [hnext]; simp, by rw [hprev]; simp⟩
      | succ m =>
        rw [show m + 1 + 1 - 1 = m + 1 from rfl, range'_succ, map_cons]
        refine ⟨by rw [hnext]; simp; omega, by rw [hprev]; simp,
          chain_initial (N := m + 2) (k := 1) (m := m) (by omega) (fun i h1 h2 => ?_) ?_ (fun i h1 h2 => ?_) ?_⟩
        · rw [hnext]; push_cast; split_ifs <;> omega
        · rw [hnext]; push_cast; split_ifs <;> omega
        · rw [hprev]; push_cast; split_ifs <;> omega
        · rw [hprev]; push_cast; split_ifs <;> omega
    · rw [hnext]; simp
    · rw [hprev]; split_ifs <;> omega

theorem sysInv_start {N : Nat} (hN : 0 < N) (disk : Disk Page) (memory : Buffer → Page) :
    SysInv (Pool.initBufferPool N disk memory) (fun _ : β => Pins.none) fun _ => .idle none where
  counted :=
    { list := freeList_initial hN disk memory
      free := fun _ _ => ⟨fun _ => rfl, fun _ => rfl⟩
      count := fun _ _ => (Count.count_eq_zero.mpr fun _ h => absurd h (lt_irrefl 0)).symm }
  tabled := { maps := fun _ _ h => (nomatch h), mapped := fun _ _ h => (nomatch h) }
  pcs _ := trivial
  io _ _ := rfl
  owner _ _ h := nomatch h
  others _ _ _ h := h.elim

end Start

/-! ### Sizes and levels -/

/-- A section leaves the size of the pool and the executor levels alone. -/
structure Steady (p : Pool Page) (q : Pins) (c : Section Page) : Prop where
  nbuffers : c.pool.nbuffers = p.nbuffers
  last : c.pins.last = q.last
  saves : c.pins.saves = q.saves

section Steady
variable {p p' : Pool Page} {q q' : Pins} {c : Section Page} {buf : Buffer} {r : Request}

/-- From a state of the same size and the same levels. -/
theorem Steady.of (h : Steady p' q' c) (hn : p'.nbuffers = p.nbuffers) (hl : q'.last = q.last)
    (hs : q'.saves = q.saves) : Steady p q c :=
  ⟨h.nbuffers.trans hn, h.last.trans hl, h.saves.trans hs⟩

theorem steady_allocFound : Steady p q (allocFound p q buf r) :=
  ⟨(relisted_pinBuffer p q buf).nbuffers, rfl, rfl⟩

theorem steady_allocRename : Steady p q (allocRename p q buf r) := by
  unfold allocRename Pool.bufTableDelete Pool.bufTableInsert
  dsimp only
  split_ifs <;> (try split) <;> exact ⟨rfl, rfl, rfl⟩

theorem steady_allocVictim : Steady p q (allocVictim p q r) := by
  unfold allocVictim Pool.getFreeBuffer
  dsimp only
  split_ifs
  · exact ⟨rfl, rfl, rfl⟩
  · dsimp only
    split_ifs
    · exact ⟨rfl, rfl, rfl⟩
    · exact steady_allocRename.of rfl rfl rfl

theorem steady_bufferAlloc : Steady p q (bufferAlloc p q r) := by
  unfold bufferAlloc
  split
  · exact steady_allocFound
  · exact steady_allocVictim

theorem unpinVictim_nbuffers : (unpinVictim p q buf).1.nbuffers = p.nbuffers :=
  (relisted_dropRef (endIo p buf) buf).nbuffers

theorem steady_allocFlushed {ok : Bool} : Steady p q (allocFlushed p q buf r ok) := by
  unfold allocFlushed
  dsimp only
  split_ifs
  · exact steady_bufferAlloc.of unpinVictim_nbuffers rfl rfl
  · exact ⟨rfl, rfl, rfl⟩
  · exact steady_bufferAlloc.of unpinVictim_nbuffers rfl rfl
  · split
    · exact steady_allocFound.of unpinVictim_nbuffers rfl rfl
    · exact steady_allocRename.of rfl rfl rfl

theorem steady_readDone {ok : Bool} : Steady p q (readDone p q buf r ok) := by
  have hd : (p.bufTableDelete buf).2.nbuffers = p.nbuffers := by
    unfold Pool.bufTableDelete
    split <;> rfl
  unfold readDone
  dsimp only
  split_ifs
  · exact ⟨rfl, rfl, rfl⟩
  · exact ⟨hd, rfl, rfl⟩
  · exact ⟨(relisted_unpinBuffer _ q buf).nbuffers.trans hd, rfl, rfl⟩

theorem steady_releaseAndReadBuffer {rel : Relation} {blockNum : Option Nat} :
    Steady p q (releaseAndReadBuffer p q buf rel blockNum) := by
  have hn : (p.dropRef buf).nbuffers = p.nbuffers := (relisted_dropRef p buf).nbuffers
  unfold releaseAndReadBuffer
  dsimp only
  split_ifs
  · exact ⟨hn, rfl, rfl⟩
  · exact steady_bufferAlloc.of hn rfl rfl
  · exact ⟨rfl, rfl, rfl⟩
  · exact ⟨rfl, rfl, rfl⟩
  · exact ⟨rfl, rfl, rfl⟩
  · exact ⟨rfl, rfl, rfl⟩

variable [Zero Page]

/-- Reads and writes of blocks change contents only. -/
def Rewritten (p p' : Pool Page) : Prop := ∃ data disk, p' = {p with data := data, disk := disk}

theorem rewritten_writeOut (p : Pool Page) (buf : Buffer) (page : Page) : Rewritten p (p.writeOut buf page) := by
  unfold Pool.writeOut
  split <;> exact ⟨_, _, rfl⟩

theorem rewritten_readIn (p : Pool Page) (buf : Buffer) (r : Request) : Rewritten p (p.readIn buf r) := by
  unfold Pool.readIn
  split <;> exact ⟨_, _, rfl⟩

theorem rewritten_readFails (p : Pool Page) (buf : Buffer) (r : Request) (junk : Page) :
    Rewritten p (p.readFails buf r junk) := ⟨_, _, rfl⟩

end Steady

section Steps
variable [Fintype β] [DecidableEq β] [Zero Page] {p p' : Pool Page} {pins : β → Pins} {pc : β → Pc} {b : β}

omit [Zero Page] in
/-- An I/O of backend `b`, which stays where it is. -/
theorem after_rewritten {pc' : Pc} (h : SysInv p pins pc) (hr : Rewritten p p') (hpc : PcOk p (pins b) pc')
    (howns : ∀ i, pc'.Owns i ↔ (pc b).Owns i) (hwaits : ∀ i, ¬ (pc b).Waits i) :
    After pins pc b ⟨p', pins b, pc', false⟩ := by
  obtain ⟨data, disk, rfl⟩ := hr
  refine h.move rfl ?_ ⟨h.tabled.maps, h.tabled.mapped⟩ (PcOk.congr (p := p) rfl (fun _ _ => rfl) hpc)
    (fun _ _ _ _ => rfl) h.io (fun i hi hl => ?_) (fun b' hne i ho hh => ?_)
    (fun b' hne i ho hh => absurd ho (h.not_owns hh (hwaits i) hne))
  · rw [update_eq_self]
    exact ⟨h.counted.list, h.counted.free, h.counted.count⟩
  · by_cases ho : (pc b).Owns i
    · exact .inl ((howns i).mpr ho)
    · exact .inr ⟨hl, ho⟩
  · exact (h.others b b' i ((howns i).mp ho) hh).resolve_left hne

omit [Zero Page] in
theorem call_after {a : Act Page} {c : Section Page} (h : SysInv p pins pc) (hd : (pc b).Detached)
    (hl : Levels p (pins b)) (hm : LevelsMet p (pins b) a) (hs : call p (pins b) a = some c) :
    After pins pc b c := by
  have hstay (pc' : Pc) (hpc : PcOk p (pins b) pc') (hn : ∀ i, ¬ pc'.Owns i) :
      After pins pc b ⟨p, pins b, pc', false⟩ := h.goto hd hpc hn
  cases a with
  | readBuffer rel blockNum =>
    simp only [call] at hs
    split_ifs at hs <;> cases hs
    · exact hstay _ trivial fun _ => id
    · exact hstay _ trivial fun _ => id
  | releaseAndReadBuffer buf rel blockNum =>
    cases hs
    exact after_releaseAndReadBuffer h hd
  | releaseBuffer buf =>
    simp only [call] at hs
    split_ifs at hs with hin hpriv <;> cases hs
    · exact after_releaseBuffer h hd hin hpriv
    · exact hstay _ trivial fun _ => id
  | writeBuffer buf =>
    simp only [call] at hs
    split_ifs at hs with hin hpriv <;> cases hs
    · exact after_writeBuffer h hd hin hpriv
    · exact hstay _ trivial fun _ => id
  | modify buf page =>
    simp only [call] at hs
    split_ifs at hs with hin
    cases hs
    exact after_rewritten h ⟨_, _, rfl⟩ trivial (fun i => ⟨False.elim, fun ho => (hd i).1 ho⟩) fun i => (hd i).2
  | incrBufferRefCount buf =>
    simp only [call] at hs
    split_ifs at hs with hin
    cases hs
    refine after_pins h hd fun i _ => ?_
    by_cases hib : i = buf
    · subst hib
      exact iff_of_true (Pins.holds_of_priv (by simp)) hm
    · exact Pins.holds_update hib
  | bufferRefCountReset =>
    cases hs
    refine after_pins h hd fun i _ => ?_
    simp only [bufferRefCountReset, Pins.Holds]
    omega
  | bufferRefCountRestore =>
    simp only [call] at hs
    cases hsaves : (pins b).saves with
    | nil => simp [hsaves] at hs
    | cons save outer =>
      simp only [hsaves, Option.some.injEq] at hs
      subst hs
      refine after_pins h hd fun i hi => ?_
      have hle := hl i hi
      have hmet := hm i hi
      simp only [hsaves, map_cons, sum_cons] at hle
      simp only [bufferRefCountRestore, Pins.Holds]
      omega
  | resetBufferPool =>
    cases hs
    exact (after_resetBufferPool _ h hd hm).1
  | ioOk | ioFail | resume => cases hs

/-- Every step of a backend keeps the invariant. -/
theorem act_after {a : Act Page} {c : Section Page} (h : SysInv p pins pc) (hl : Levels p (pins b))
    (hm : LevelsMet p (pins b) a) (hs : act p (pins b) (pc b) a = some c) : After pins pc b c := by
  have hok := h.pcs b
  cases hpc : pc b with
  | idle ret =>
    rw [hpc] at hs
    exact call_after h (hpc ▸ detached_idle) hl hm hs
  | exited => rw [hpc] at hok; exact hok.elim
  | alloc r =>
    rw [hpc] at hs
    cases a <;> cases hs
    exact after_bufferAlloc h (hpc ▸ detached_alloc)
  | waitIo buf r =>
    rw [hpc] at hs
    cases a <;> simp only [act, proceed, reduceCtorEq] at hs
    split_ifs at hs with hlock
    cases hs
    exact after_allocWaited h hpc (by simpa using hlock)
  | flush buf r done =>
    rw [hpc] at hs hok
    have hsame (d : Option Bool) (i : Buffer) : (Pc.flush buf r d).Owns i ↔ (pc b).Owns i := by
      rw [hpc]; exact Iff.rfl
    have hw (i : Buffer) : ¬ (pc b).Waits i := by rw [hpc]; exact id
    cases done with
    | none =>
      cases a <;> cases hs
      · exact after_rewritten h (rewritten_writeOut ..) hok (hsame _) hw
      · exact after_rewritten h (rewritten_writeOut ..) hok (hsame _) hw
    | some ok =>
      cases a <;> cases hs
      exact after_allocFlushed h hpc
  | read buf r own done =>
    rw [hpc] at hs hok
    have hsame (d : Option Bool) (i : Buffer) : (Pc.read buf r own d).Owns i ↔ (pc b).Owns i := by
      rw [hpc]
      cases own <;> exact Iff.rfl
    have hok' (d : Option Bool) : PcOk p (pins b) (.read buf r own d) := by
      cases own <;> exact hok
    have hw (i : Buffer) : ¬ (pc b).Waits i := by rw [hpc]; exact id
    cases done with
    | none =>
      cases a <;> cases hs
      · exact after_rewritten h (rewritten_readIn ..) (hok' _) (hsame _) hw
      · exact after_rewritten h (rewritten_readFails ..) (hok' _) (hsame _) hw
    | some ok =>
      cases a <;> cases hs
      exact after_readDone h hpc
  | refill buf r =>
    rw [hpc] at hs
    have hsame (i : Buffer) : (Pc.idle (some (buf, r))).Owns i ↔ (pc b).Owns i := by
      rw [hpc]; exact Iff.rfl
    have hw (i : Buffer) : ¬ (pc b).Waits i := by rw [hpc]; exact id
    cases a <;> cases hs
    · exact after_rewritten h (rewritten_readIn ..) trivial hsame hw
    · exact after_rewritten h (rewritten_readFails ..) trivial hsame hw

end Steps

theorem releaseAll_pins (p : Pool Page) (q : Pins) (buf : Buffer) (n : Nat) :
    (releaseAll p q buf n).2.last = q.last ∧ (releaseAll p q buf n).1.nbuffers = p.nbuffers := by
  induction n generalizing p q with
  | zero => exact ⟨rfl, rfl⟩
  | succ n ih =>
    unfold releaseAll
    split
    · obtain ⟨h1, h2⟩ := ih (p.releaseBuffer q buf).1 (p.releaseBuffer q buf).2
      exact ⟨h1, h2.trans (relisted_releaseBuffer p q buf).nbuffers⟩
    · exact ⟨rfl, rfl⟩

theorem resetBuffers_pins (p : Pool Page) (q : Pins) (n : Nat) :
    (∀ i : Int, 0 ≤ i → i < n → (resetBuffers p q n).2.last i = 0) ∧
      (resetBuffers p q n).1.nbuffers = p.nbuffers := by
  induction n with
  | zero => exact ⟨fun i h0 hn => by omega, rfl⟩
  | succ n ih =>
    obtain ⟨h1, h2⟩ := ih
    obtain ⟨h3, h4⟩ := releaseAll_pins (resetBuffers p q n).1 (resetBuffers p q n).2 n
      ((resetBuffers p q n).2.priv n)
    refine ⟨fun i h0 hn => ?_, h4.trans h2⟩
    by_cases hi : i = n
    · subst hi
      exact update_self ..
    · refine (update_of_ne hi _ _).trans ?_
      rw [h3]
      exact h1 i h0 (by omega)

section Runs
variable [Fintype β] [DecidableEq β] [Zero Page] {s t : Sys β Page} {b : β} {a : Act Page}

/-- The saved counts stay what the levels have saved, and the size of the pool stays. -/
theorem act_levels {p : Pool Page} {q : Pins} {pc : Pc} {c : Section Page} (hl : Levels p q)
    (hs : act p q pc a = some c) : c.pool.nbuffers = p.nbuffers ∧ Levels c.pool c.pins := by
  have hsteady (h : Steady p q c) : c.pool.nbuffers = p.nbuffers ∧ Levels c.pool c.pins := by
    refine ⟨h.nbuffers, fun i hi => ?_⟩
    rw [h.last, h.saves]
    exact hl i (by rw [Pool.InPool, ← h.nbuffers]; exact hi)
  have hrewr {p' : Pool Page} (h : Rewritten p p') : p'.nbuffers = p.nbuffers := by
    obtain ⟨data, disk, rfl⟩ := h
    rfl
  cases pc with
  | idle ret =>
    cases a with
    | readBuffer rel blockNum =>
      simp only [act, call] at hs
      split_ifs at hs <;> cases hs <;> exact hsteady ⟨rfl, rfl, rfl⟩
    | releaseAndReadBuffer buf rel blockNum =>
      cases hs
      exact hsteady steady_releaseAndReadBuffer
    | releaseBuffer buf =>
      simp only [act, call] at hs
      split_ifs at hs <;> cases hs
      · exact hsteady ⟨(relisted_releaseBuffer p q buf).nbuffers, rfl, rfl⟩
      · exact hsteady ⟨rfl, rfl, rfl⟩
    | writeBuffer buf =>
      simp only [act, call] at hs
      split_ifs at hs <;> cases hs
      · exact hsteady ⟨(relisted_unpinBuffer _ q buf).nbuffers, rfl, rfl⟩
      · exact hsteady ⟨rfl, rfl, rfl⟩
    | modify buf page | incrBufferRefCount buf =>
      simp only [act, call] at hs
      split_ifs at hs
      cases hs
      exact hsteady ⟨rfl, rfl, rfl⟩
    | bufferRefCountReset =>
      cases hs
      refine ⟨rfl, fun i hi => ?_⟩
      simp only [bufferRefCountReset, map_cons, sum_cons]
      rw [hl i hi]
      exact add_comm ..
    | bufferRefCountRestore =>
      simp only [act, call] at hs
      cases hsaves : q.saves with
      | nil => simp [hsaves] at hs
      | cons save outer =>
        simp only [hsaves, Option.some.injEq] at hs
        subst hs
        refine ⟨rfl, fun i hi => ?_⟩
        have hsum := hl i hi
        simp only [hsaves, map_cons, sum_cons] at hsum
        simp only [bufferRefCountRestore]
        omega
    | resetBufferPool =>
      cases hs
      obtain ⟨h1, h2⟩ := resetBuffers_pins p q p.nbuffers
      refine ⟨h2, fun i hi => ?_⟩
      replace hi : p.InPool i := by rw [Pool.InPool, ← h2]; exact hi
      exact h1 i hi.1 hi.2
    | ioOk | ioFail | resume => cases hs
  | exited => cases a <;> cases hs
  | alloc r =>
    cases a <;> cases hs
    exact hsteady steady_bufferAlloc
  | waitIo buf r =>
    cases a <;> simp only [act, proceed, reduceCtorEq] at hs
    split_ifs at hs
    cases hs
    exact hsteady ⟨rfl, rfl, rfl⟩
  | flush buf r done =>
    cases done <;> cases a <;> cases hs
    · exact hsteady ⟨hrewr (rewritten_writeOut ..), rfl, rfl⟩
    · exact hsteady ⟨hrewr (rewritten_writeOut ..), rfl, rfl⟩
    · exact hsteady steady_allocFlushed
  | read buf r own done =>
    cases done <;> cases a <;> cases hs
    · exact hsteady ⟨hrewr (rewritten_readIn ..), rfl, rfl⟩
    · exact hsteady ⟨hrewr (rewritten_readFails ..), rfl, rfl⟩
    · exact hsteady steady_readDone
  | refill buf r =>
    cases a <;> cases hs
    · exact hsteady ⟨hrewr (rewritten_readIn ..), rfl, rfl⟩
    · exact hsteady ⟨hrewr (rewritten_readFails ..), rfl, rfl⟩

/-- What holds in every state of a run on a pool of `N` buffers. -/
structure Inv (N : Nat) (s : Sys β Page) : Prop where
  nbuffers : s.pool.nbuffers = N
  sys : SysInv s.pool s.pins s.pc
  levels : ∀ b, Levels s.pool (s.pins b)

omit [Fintype β] in
/-- A step is a section of its backend. -/
theorem step_eq (h : step s b a = some t) :
    s.lock = false ∧ ∃ c, act s.pool (s.pins b) (s.pc b) a = some c ∧ t = s.leave b c := by
  unfold step at h
  split_ifs at h with hlock
  obtain ⟨c, hc, rfl⟩ := Option.map_eq_some_iff.mp h
  exact ⟨by simpa using hlock, c, hc, rfl⟩

theorem step_inv {N : Nat} (h : Inv N s) (hm : LevelsMet s.pool (s.pins b) a) (hs : step s b a = some t) :
    Inv N t := by
  obtain ⟨-, c, hc, rfl⟩ := step_eq hs
  obtain ⟨hn, hlevels⟩ := act_levels (h.levels b) hc
  refine ⟨hn.trans h.nbuffers, act_after h.sys (h.levels b) hm hc, fun b' => ?_⟩
  by_cases hb : b' = b
  · subst hb
    show Levels c.pool (update s.pins b' c.pins b')
    rw [update_self]
    exact hlevels
  · show Levels c.pool (update s.pins b c.pins b')
    rw [update_of_ne hb]
    intro i hi
    exact h.levels b' i (by rw [Pool.InPool, ← hn]; exact hi)

omit [DecidableEq β] [Zero Page] in
theorem inv_start {N : Nat} (hN : 0 < N) (disk : Disk Page) (memory : Buffer → Page) :
    Inv N (start β N disk memory) :=
  ⟨rfl, sysInv_start hN disk memory, fun _ _ _ => rfl⟩

theorem run_inv {Ok : Sys β Page → β → Act Page → Prop} {N : Nat} (hN : 0 < N) {disk : Disk Page}
    {memory : Buffer → Page} (hok : ∀ s b a, Ok s b a → LevelsMet s.pool (s.pins b) a)
    (h : Run Ok (start β N disk memory) s) : Inv N s :=
  h.induction (inv_start hN disk memory) fun t _ b a ht ha hs => step_inv ht (hok t b a ha) hs

/-- The calls on shared buffers, with reads and writes that succeed. -/
def Act.plain : Act Page → Bool
  | .readBuffer .. | .releaseAndReadBuffer .. | .releaseBuffer _ | .writeBuffer _ | .modify .. | .ioOk | .resume => true
  | _ => false

/-- **The pool keeps its structure under any interleaving of any number of backends**: the
free list is a ring through each free buffer once, a buffer is free when nobody holds it,
and the lookup table and the buffers agree, so that no block has two buffers. -/
theorem pool_structure {N : Nat} (hN : 0 < N) {disk : Disk Page} {memory : Buffer → Page}
    (h : Run (fun _ _ a => a.plain = true) (start β N disk memory) s) :
    (∃ l, Ring.Anchored s.pool.freeNext s.pool.freePrev s.pool.freeListDescriptor l ∧
        ∀ i, i ∈ l ↔ s.pool.InPool i ∧ s.pool.free i = true) ∧
      (∀ i, s.pool.InPool i → (s.pool.free i = true ↔ s.pool.refcount i = 0)) ∧
      (∀ t i, s.pool.table t = some i → s.pool.InPool i ∧ s.pool.deleted i = false ∧ s.pool.tag i = t) ∧
      (∀ i, s.pool.InPool i → s.pool.deleted i = false → s.pool.table (s.pool.tag i) = some i) ∧
      ∀ i j, s.pool.InPool i → s.pool.InPool j → s.pool.deleted i = false → s.pool.deleted j = false →
        s.pool.tag i = s.pool.tag j → i = j := by
  have hinv := run_inv hN (fun s b a ha => by cases a <;> trivial) h
  exact ⟨hinv.sys.counted.list, hinv.sys.counted.free, hinv.sys.tabled.maps, hinv.sys.tabled.mapped,
    fun _ _ hi hj hdi hdj ht => hinv.sys.tabled.inj hi hj hdi hdj ht⟩

end Runs

/-- A relation of database 1. -/
def hellos : Relation := ⟨⟨16993, 1⟩, "Hellos", false⟩

/-- Two backends on three buffers. The second writes the page that the first has changed, to
get a buffer for a new block; the first asks for the page meanwhile and waits, so the second
takes another buffer. -/
def flushWindow : List (Bool × Act Nat) :=
  [(false, .readBuffer hellos (some 0)), (false, .resume), (false, .ioOk), (false, .resume),
    (false, .modify 1 42), (false, .writeBuffer 1),
    (true, .readBuffer hellos (some 1)), (true, .resume), (true, .ioOk), (true, .resume),
    (true, .readBuffer hellos (some 2)), (true, .resume), (true, .ioOk), (true, .resume),
    (true, .releaseBuffer 0), (true, .readBuffer hellos none), (true, .resume),
    (false, .readBuffer hellos (some 0)), (false, .resume), (true, .ioOk), (true, .resume), (false, .resume)]

theorem pool_structure_flushWindow : ∃ s : Sys Bool Nat,
    steps (fun _ _ a => a.plain = true) (start Bool 3 (fun _ => [7, 8, 9]) fun _ => 0) flushWindow = some s ∧
      s.pool.data 1 = 42 ∧ s.pool.refcount 1 = 1 ∧ ∀ i j, s.pool.InPool i → s.pool.InPool j →
        s.pool.deleted i = false → s.pool.deleted j = false → s.pool.tag i = s.pool.tag j → i = j := by
  have heval : (steps (fun _ _ a => a.plain = true) (start Bool 3 (fun _ => [7, 8, 9]) fun _ => 0) flushWindow).map
      (fun s => (s.pool.data 1, s.pool.refcount 1)) = some (42, 1) := by decide +kernel
  obtain ⟨s, hs, hvals⟩ := Option.map_eq_some_iff.mp heval
  simp only [Prod.mk.injEq] at hvals
  exact ⟨s, hs, hvals.1, hvals.2, (pool_structure (by decide) (Run.refl.of_steps hs)).2.2.2.2⟩

end PgStorage.BufMgr
