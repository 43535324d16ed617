import PgStorage.BufMgr.SystemProofs

/-! The pins of a backend across executor levels.

A backend counts once in a buffer's reference count while `PrivateRefCount` or
`LastRefCount` of the buffer is positive. `ResetBufferPool` gives back what
`PrivateRefCount` says and clears `LastRefCount` without giving its pins back, so an abort
in an inner level leaves buffers pinned for good. -/
namespace PgStorage.BufMgr
variable {β Page : Type} [Fintype β] [DecidableEq β] [Zero Page] {s t : Sys β Page}

/-- The other backends that hold a buffer. -/
def Sys.others (s : Sys β Page) (b : β) (i : Buffer) : Nat :=
  (Finset.univ.filter fun b' => b' ≠ b ∧ (s.pins b').Holds i).card

omit [Zero Page] in
theorem count_eq_others (s : Sys β Page) (b : β) (i : Buffer) :
    Count.count (fun q : Pins => q.Holds i) s.pins =
      s.others b i + if 0 < (s.pins b).priv i + (s.pins b).last i then 1 else 0 := by
  have hu := Count.count_update (fun q : Pins => q.Holds i) s.pins b Pins.none
  have hnone : ¬ Pins.none.Holds i := lt_irrefl 0
  have hothers : Count.count (fun q : Pins => q.Holds i) (Function.update s.pins b Pins.none) = s.others b i := by
    rw [Count.count, Sys.others]
    refine congrArg Finset.card (Finset.filter_congr fun b' _ => ?_)
    by_cases hb : b' = b
    · rw [hb, Function.update_self]
      exact iff_of_false hnone fun e => e.1 rfl
    · rw [Function.update_of_ne hb]
      exact ⟨fun e => ⟨hb, e⟩, And.right⟩
  rw [hothers, if_neg hnone] at hu
  exact hu.symm

/-- **The shared count has one for each backend that has the buffer pinned at some level**, in
every run in which `IncrBufferRefCount` is called on a pinned buffer, a level ends with its own
buffers released, and `ResetBufferPool` finds nothing in `LastRefCount`. -/
theorem pins_accounted {N : Nat} (hN : 0 < N) {disk : Disk Page} {memory : Buffer → Page}
    (h : Run (fun s b a => LevelsMet s.pool (s.pins b) a) (start β N disk memory) s) (b : β) :
    (∀ i, s.pool.InPool i → s.pool.refcount i =
        s.others b i + if 0 < (s.pins b).priv i + (s.pins b).last i then 1 else 0) ∧
      ∀ t, LevelsMet s.pool (s.pins b) (.resetBufferPool : Act Page) → step s b .resetBufferPool = some t →
        ∀ i, t.pool.InPool i → (t.pins b).priv i + (t.pins b).last i = 0 ∧ t.pool.refcount i = t.others b i := by
  have hinv := run_inv hN (fun _ _ _ ha => ha) h
  refine ⟨fun i hi => ?_, fun t hm hs i hi => ?_⟩
  · rw [hinv.sys.counted.count i hi, count_eq_others s b i]
  · have hinv' := step_inv hinv hm hs
    obtain ⟨-, c, hc, rfl⟩ := step_eq hs
    have hzero : ¬ ((s.leave b c).pins b).Holds i := by
      rw [show (s.leave b c).pins b = c.pins from Function.update_self ..]
      have hin : s.pool.InPool i := by rw [Pool.InPool, hinv.nbuffers, ← hinv'.nbuffers]; exact hi
      cases hpc : s.pc b with
      | idle ret =>
        rw [hpc] at hc
        cases hc
        exact (after_resetBufferPool none hinv.sys (hpc ▸ detached_idle) hm).2 i hin
      | flush buf r done | read buf r own done => rw [hpc] at hc; cases done <;> cases hc
      | _ => rw [hpc] at hc; cases hc
    refine ⟨Nat.eq_zero_of_not_pos hzero, ?_⟩
    have hcount := hinv'.sys.counted.count i hi
    rw [count_eq_others _ b i] at hcount
    exact hcount.trans (congrArg _ (if_neg hzero))

/-- The condition is about finitely many buffers. -/
instance (p : Pool Page) (q : Pins) (a : Act Page) : Decidable (LevelsMet p q a) :=
  have hdec (P : Int → Prop) [DecidablePred P] : Decidable (∀ i, p.InPool i → P i) :=
    decidable_of_iff (∀ k : Nat, k < p.nbuffers → P k) ⟨fun h i hi => by
      have := h i.toNat (by have := hi.2; have := hi.1; omega)
      rwa [Int.toNat_of_nonneg hi.1] at this, fun h k hk => h k ⟨Int.natCast_nonneg k, Int.ofNat_lt.mpr hk⟩⟩
  match a with
  | .incrBufferRefCount buf => inferInstanceAs (Decidable (q.Holds buf))
  | .bufferRefCountRestore => hdec fun i => 0 < q.priv i → 0 < q.last i
  | .resetBufferPool => hdec fun i => q.last i = 0
  | .readBuffer .. | .releaseAndReadBuffer .. | .releaseBuffer _ | .writeBuffer _ | .modify .. | .ioOk | .ioFail _
  | .resume | .bufferRefCountReset => isTrue trivial

/-- A page read, pinned once more in an inner level, and given back there; then an abort. -/
def nestedPins : List (Unit × Act Nat) :=
  [((), .readBuffer hellos (some 0)), ((), .resume), ((), .ioOk), ((), .resume), ((), .bufferRefCountReset),
    ((), .incrBufferRefCount 0), ((), .releaseBuffer 0), ((), .bufferRefCountRestore), ((), .resetBufferPool)]

theorem pins_accounted_nestedPins : ∃ s : Sys Unit Nat,
    steps (fun s b a => LevelsMet s.pool (s.pins b) a) (start Unit 1 (fun _ => [7]) fun _ => 0) nestedPins = some s ∧
      ∀ i, s.pool.InPool i → s.pool.refcount i =
        s.others () i + if 0 < (s.pins ()).priv i + (s.pins ()).last i then 1 else 0 := by
  obtain ⟨s, hs⟩ : ∃ s, steps (fun s b a => LevelsMet s.pool (s.pins b) a)
      (start Unit 1 (fun _ => [7]) fun _ => 0) nestedPins = some s :=
    Option.isSome_iff_exists.mp (by decide +kernel)
  exact ⟨s, hs, (pins_accounted (by decide) (Run.refl.of_steps hs) ()).1⟩

/-- `ResetBufferPool` in an inner level, with a page that the outer level has read. -/
def abortedPins : List (Unit × Act Nat) :=
  [((), .readBuffer hellos (some 0)), ((), .resume), ((), .ioOk), ((), .resume), ((), .bufferRefCountReset),
    ((), .resetBufferPool)]

/-- The calls that pin and unpin, and the sections inside them. -/
def Act.pinning : Act Page → Bool
  | .modify .. | .releaseAndReadBuffer .. | .ioFail _ => false
  | _ => true

theorem abort_keeps_pin : ¬ ∀ s : Sys Unit Nat,
    Run (fun _ _ a => a.pinning = true) (start Unit 1 (fun _ => [7]) fun _ => 0) s →
      ∀ i, s.pool.InPool i → s.pool.refcount i =
        s.others () i + if 0 < (s.pins ()).priv i + (s.pins ()).last i then 1 else 0 := by
  intro h
  have heval : (steps (fun _ _ a => a.pinning = true) (start Unit 1 (fun _ => [7]) fun _ => 0) abortedPins).map
      (fun s => (s.pool.nbuffers, s.pool.refcount 0, (s.pins ()).priv 0 + (s.pins ()).last 0)) = some (1, 1, 0) := by
    decide +kernel
  obtain ⟨s, hs, hvals⟩ := Option.map_eq_some_iff.mp heval
  simp only [Prod.mk.injEq] at hvals
  obtain ⟨hn, hone, hzero⟩ := hvals
  have heq := h s (Run.refl.of_steps hs) 0 ⟨le_rfl, by rw [hn]; decide⟩
  have hnone : s.others () 0 = 0 := by simp [Sys.others]
  rw [hone, hzero, hnone] at heq
  simp at heq

end PgStorage.BufMgr
