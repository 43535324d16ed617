import PgStorage.Lib.Trace

/-! The clock hand.

Backends move the hand with an atomic addition. One that finds it at a multiple of the number of buffers then takes the
spinlock to fold the hand back and to count a pass, which may be long after others have moved on. The spinlock sections
are single steps. What has been reported is compared with the number of ticks taken. -/
namespace PgStorage.ClockSweep
open Trace
open Function

/-- Where a backend is in `ClockSweepTick`: outside, or about to fold the hand that it expects. -/
inductive Pc where
  | idle
  | folding (expected : Nat)
deriving DecidableEq

/-- `BufferStrategyControl`, with the ticks taken so far. -/
structure State (β : Type) where
  nextVictimBuffer : Nat
  completePasses : Nat
  ticks : Nat
  pc : β → Pc

/-- The fetch-and-add of a tick, and the first or next round of the loop that folds. -/
inductive Act where
  | tick
  | fold

section
variable {β : Type} [DecidableEq β]

def start (β : Type) : State β := ⟨0, 0, 0, fun _ => .idle⟩

/-- A step of `ClockSweepTick`. -/
def step (nBuffers : Nat) (s : State β) : β × Act → Option (State β)
  | (b, .tick) =>
    match s.pc b with
    | .idle =>
      let victim := s.nextVictimBuffer
      let folds := nBuffers ≤ victim ∧ victim % nBuffers = 0
      some {s with
        nextVictimBuffer := (victim + 1) % 2 ^ 32
        ticks := s.ticks + 1
        pc := if folds then Function.update s.pc b (.folding ((victim + 1) % 2 ^ 32)) else s.pc}
    | .folding _ => none
  | (b, .fold) =>
    match s.pc b with
    | .idle => none
    | .folding expected =>
      let wrapped := expected % nBuffers
      if s.nextVictimBuffer = expected then
        some {s with
          nextVictimBuffer := wrapped
          completePasses := (s.completePasses + 1) % 2 ^ 32
          pc := Function.update s.pc b .idle}
      else some {s with pc := Function.update s.pc b (.folding s.nextVictimBuffer)}

/-- `StrategySyncStart`: the complete passes and the buffer. -/
def syncStart (nBuffers : Nat) (s : State β) : Nat × Nat :=
  ((s.completePasses + s.nextVictimBuffer / nBuffers) % 2 ^ 32, s.nextVictimBuffer % nBuffers)

/-- The position that is reported. -/
def position (nBuffers : Nat) (s : State β) : Nat :=
  (syncStart nBuffers s).1 * nBuffers + (syncStart nBuffers s).2

/-! ### When the position is right -/

/-- A tick does not take the hand over 32 bits, and the hand is folded when it is one lap ahead. -/
def StepOk (nBuffers : Nat) (s : State β) : β × Act → Prop
  | (_, .tick) => s.nextVictimBuffer + 1 < 2 ^ 32
  | (b, .fold) => s.pc b = .folding s.nextVictimBuffer → s.nextVictimBuffer / nBuffers = 1

variable {nBuffers : Nat} {s t : State β} {a : β × Act}

/-- The hand and the passes account for all ticks, unless there were more passes than 32 bits count. -/
def Exact (nBuffers : Nat) (s : State β) : Prop :=
  s.ticks < 2 ^ 31 * nBuffers → s.completePasses * nBuffers + s.nextVictimBuffer = s.ticks

/-- The ticks are counted, and never go back. -/
theorem step_ticks (h : step nBuffers s a = some t) : s.ticks ≤ t.ticks := by
  obtain ⟨b, _ | _⟩ := a
  · cases hpc : s.pc b with
    | idle =>
      simp only [step, hpc] at h
      cases h
      exact Nat.le_succ _
    | folding e =>
      simp only [step, hpc] at h
      cases h
  · cases hpc : s.pc b with
    | idle =>
      simp only [step, hpc] at h
      cases h
    | folding e =>
      simp only [step, hpc] at h
      split at h <;> cases h <;> exact Nat.le_refl _

/-- One step that is in order keeps the account. -/
theorem Exact.step (h : ClockSweep.step nBuffers s a = some t) (hok : StepOk nBuffers s a)
    (hs : Exact nBuffers s) : Exact nBuffers t := by
  intro hfew
  have hs := hs (Nat.lt_of_le_of_lt (step_ticks h) hfew)
  obtain ⟨b, _ | _⟩ := a
  · cases hpc : s.pc b with
    | idle =>
      simp only [ClockSweep.step, hpc] at h
      cases h
      have hok : s.nextVictimBuffer + 1 < 2 ^ 32 := hok
      dsimp only
      rw [Nat.mod_eq_of_lt hok]
      omega
    | folding e =>
      simp only [ClockSweep.step, hpc] at h
      cases h
  · cases hpc : s.pc b with
    | idle =>
      simp only [ClockSweep.step, hpc] at h
      cases h
    | folding e =>
      simp only [ClockSweep.step, hpc] at h
      split at h
      · next heq =>
        cases h
        have hlap := hok (heq ▸ hpc)
        have hdiv := Nat.div_add_mod s.nextVictimBuffer nBuffers
        rw [hlap, Nat.mul_one] at hdiv
        have hpass : s.completePasses < 2 ^ 31 := by
          refine Nat.lt_of_mul_lt_mul_right (a := nBuffers) ?_
          exact Nat.lt_of_le_of_lt (Nat.le_add_right _ _) (hs ▸ hfew)
        dsimp only
        rw [Nat.mod_eq_of_lt (show s.completePasses + 1 < 2 ^ 32 by omega), Nat.add_mul, Nat.one_mul, ← heq]
        omega
      · cases h
        exact hs

/-- **The position is the number of ticks** in every state that is reached by steps that are in order. -/
theorem position_eq_ticks (nBuffers : Nat) (s : State β)
    (h : Reaches (step nBuffers) (StepOk nBuffers) (start β) s) (hfew : s.ticks < 2 ^ 31 * nBuffers) :
    position nBuffers s = s.ticks ∧
      ∀ t, Reaches (step nBuffers) (StepOk nBuffers) s t → t.ticks < 2 ^ 31 * nBuffers →
        position nBuffers s ≤ position nBuffers t := by
  have hexact {r t : State β} (hr : Exact nBuffers r) (ht : Reaches (step nBuffers) (StepOk nBuffers) r t)
      (hfew : t.ticks < 2 ^ 31 * nBuffers) : position nBuffers t = t.ticks := by
    have hsum := ht.keeps hr (fun _ _ _ hok hs hr => hr.step hs hok) hfew
    have hdiv := Nat.div_add_mod t.nextVictimBuffer nBuffers
    have hlow : (t.completePasses + t.nextVictimBuffer / nBuffers) * nBuffers ≤ t.ticks := by
      rw [Nat.add_mul, Nat.mul_comm (t.nextVictimBuffer / nBuffers)]
      omega
    have hlt : t.completePasses + t.nextVictimBuffer / nBuffers < 2 ^ 31 :=
      Nat.lt_of_mul_lt_mul_right (Nat.lt_of_le_of_lt hlow hfew)
    unfold position syncStart
    dsimp only
    rw [Nat.mod_eq_of_lt (by omega), Nat.add_mul, Nat.mul_comm (t.nextVictimBuffer / nBuffers)]
    omega
  have hstart : Exact nBuffers (start β) := fun _ => Nat.zero_mul nBuffers
  have hs := h.keeps hstart fun _ _ _ hok hs hr => hr.step hs hok
  refine ⟨hexact hstart h hfew, fun t ht htfew => ?_⟩
  rw [hexact hstart h hfew, hexact hs ht htfew]
  exact ht.keeps (Nat.le_refl _) fun _ _ _ _ hstep hle => Nat.le_trans hle (step_ticks hstep)

end

instance (nBuffers : Nat) (s : State Nat) (a : Nat × Act) : Decidable (StepOk nBuffers s a) :=
  match a with
  | (_, .tick) => inferInstanceAs (Decidable (_ < _))
  | (_, .fold) => inferInstanceAs (Decidable (_ → _))

/-- Two buffers; the first backend folds before the second one ticks. -/
theorem lap_position : ∃ s : State Nat, position 2 s = s.ticks ∧ s.ticks = 4 ∧
    ∀ t, Reaches (step 2) (StepOk 2) s t → t.ticks < 2 ^ 31 * 2 → position 2 s ≤ position 2 t := by
  have hrun : follow (step 2) (StepOk 2) (start Nat) [(0, .tick), (0, .tick), (0, .tick), (0, .fold), (1, .tick)] =
      some ⟨2, 1, 4, update (update (start Nat).pc 0 (.folding 3)) 0 .idle⟩ := rfl
  obtain ⟨heq, hmono⟩ := position_eq_ticks 2 _ (Reaches.start.of_follow hrun) (by decide)
  exact ⟨_, heq, rfl, hmono⟩

/-- Both backends have found the hand at a multiple of two; the first one folds both laps and counts one pass. -/
theorem doubleLap_lost : ∃ s t : State Nat,
    Reaches (step 2) (fun _ _ => True) (start Nat) s ∧ Reaches (step 2) (fun _ _ => True) s t ∧ s.ticks = 5 ∧
      t.ticks = 5 ∧ position 2 s = 5 ∧ position 2 t = 3 := by
  have hrun : follow (step 2) (fun _ _ => True) (start Nat)
      [(0, .tick), (0, .tick), (0, .tick), (1, .tick), (1, .tick), (0, .fold)] =
      some ⟨5, 0, 5, update (update (update (start Nat).pc 0 (.folding 3)) 1 (.folding 5)) 0
        (.folding 5)⟩ := rfl
  have hfold : follow (step 2) (fun _ _ => True) ⟨5, 0, 5, update (update
      (update (start Nat).pc 0 (.folding 3)) 1 (.folding 5)) 0 (.folding 5)⟩ [(0, .fold)] =
      some ⟨1, 1, 5, update (update (update (update (start Nat).pc 0 (.folding 3)) 1
        (.folding 5)) 0 (.folding 5)) 0 .idle⟩ := rfl
  exact ⟨_, _, Reaches.start.of_follow hrun, Reaches.start.of_follow hfold, rfl, rfl, by decide, by decide⟩

end PgStorage.ClockSweep
