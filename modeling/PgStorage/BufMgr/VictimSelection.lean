import PgStorage.Lib.Loop

/-! Selecting a victim buffer.

A backend that runs alone looks for a buffer in its ring, on the freelist, and under the clock hand, in this order. The
hand goes round until it finds a buffer that is not pinned and was not used, and lowers usage counts on its way. Only
the counts, the freelist, the hand and the ring are kept. -/
namespace PgStorage.VictimSelection
open Loop
open Function Option Nat

/-- The reference and usage counts, the freelist, and `nextVictimBuffer`. -/
structure Pool where
  refcount : Nat → Nat
  usage : Nat → Nat
  freelist : List Nat
  hand : Nat

/-- `BufferAccessStrategyData`; a slot that is not filled is `none`. -/
structure Strategy where
  bulkRead : Bool
  buffers : List (Option Nat)
  current : Nat
  currentWasInRing : Bool

/-- `ClockSweepTick` without other backends: the buffer, and the hand afterwards. -/
def clockSweepTick (nBuffers hand : Nat) : Nat × Nat :=
  let next := (hand + 1) % 2 ^ 32
  if nBuffers ≤ hand ∧ hand % nBuffers = 0 then (hand % nBuffers, next % nBuffers) else (hand % nBuffers, next)

/-- The slot after the current one. -/
def Strategy.advance (s : Strategy) : Strategy :=
  {s with current := if s.buffers.length ≤ s.current + 1 then 0 else s.current + 1}

/-- `GetBufferFromRing`; nothing where a buffer must be found in another way. -/
def getBufferFromRing (p : Pool) (s : Strategy) : Option Nat × Strategy :=
  let s := s.advance
  match s.buffers[s.current]?.join with
  | none => (none, {s with currentWasInRing := false})
  | some buf =>
    if p.refcount buf = 0 ∧ p.usage buf ≤ 1 then (some buf, {s with currentWasInRing := true})
    else (none, {s with currentWasInRing := false})

def addBufferToRing (s : Strategy) (buf : Nat) : Strategy := {s with buffers := s.buffers.set s.current (some buf)}

/-- Pops the freelist until a buffer can be used. -/
def popFreelist (p : Pool) : List Nat → Option Nat × List Nat
  | [] => (none, [])
  | buf :: rest => if p.refcount buf = 0 ∧ p.usage buf = 0 then (some buf, rest) else popFreelist p rest

/-- The variables of the clock sweep, with the number of ticks. -/
structure Sweep where
  usage : Nat → Nat
  hand : Nat
  tryCounter : Nat
  ticks : Nat

/-- What the clock sweep finds; nothing where it raises an error. -/
structure Swept where
  found : Option Nat
  sweep : Sweep

/-- The body of the clock sweep. -/
def sweepBody (nBuffers : Nat) (refcount : Nat → Nat) (t : Sweep) : Pass Sweep Swept :=
  let victim := (clockSweepTick nBuffers t.hand).1
  let t := {t with hand := (clockSweepTick nBuffers t.hand).2, ticks := t.ticks + 1}
  if refcount victim = 0 then
    if t.usage victim ≠ 0 then
      .again {t with usage := Function.update t.usage victim (t.usage victim - 1), tryCounter := nBuffers}
    else .leave ⟨some victim, t⟩
  else if t.tryCounter - 1 = 0 then .leave ⟨none, {t with tryCounter := 0}⟩
  else .again {t with tryCounter := t.tryCounter - 1}

/-- Where a buffer was found. -/
inductive Source where
  | ring
  | freelist
  | sweep
deriving DecidableEq

/-- What `StrategyGetBuffer` leaves: a buffer, or an error; the pool, the ring, and how often the hand has ticked. -/
structure Outcome where
  victim : Option (Nat × Source)
  pool : Pool
  strategy : Option Strategy
  ticks : Nat

/-- `StrategyGetBuffer`, with a bound on the passes of the clock sweep; nothing if it has not ended. -/
def strategyGetBuffer (nBuffers fuel : Nat) (p : Pool) (strategy : Option Strategy) : Option Outcome :=
  let ring := strategy.map (getBufferFromRing p)
  let strategy := ring.map Prod.snd
  match ring.bind Prod.fst with
  | some buf => some ⟨some (buf, .ring), p, strategy, 0⟩
  | none =>
    match popFreelist p p.freelist with
    | (some buf, rest) =>
      some ⟨some (buf, .freelist), {p with freelist := rest}, strategy.map (addBufferToRing · buf), 0⟩
    | (none, rest) =>
      (iterate (sweepBody nBuffers p.refcount) fuel ⟨p.usage, p.hand, nBuffers, 0⟩).map fun r =>
        ⟨r.found.map (·, .sweep), {p with freelist := rest, usage := r.sweep.usage, hand := r.sweep.hand},
          (match r.found with
            | some buf => strategy.map (addBufferToRing · buf)
            | none => strategy), r.sweep.ticks⟩

/-- `StrategyRejectBuffer` -/
def strategyRejectBuffer (s : Strategy) (buf : Nat) : Bool × Strategy :=
  if s.bulkRead = false then (false, s)
  else if s.currentWasInRing = false ∨ s.buffers[s.current]?.join ≠ some buf then (false, s)
  else (true, {s with buffers := s.buffers.set s.current none})

/-! ### The clock sweep -/

section Sweep
variable {nBuffers : Nat} {refcount usage₀ : Nat → Nat} {h₀ : Nat}

/-- The hand is not about to leave 32 bits: there is a multiple of the number of buffers at which it is folded. -/
def HandOk (nBuffers hand : Nat) : Prop := ∃ laps, 1 ≤ laps ∧ hand ≤ laps * nBuffers ∧ laps * nBuffers + 1 < 2 ^ 32

theorem clockSweepTick_spec {hand : Nat} (hpos : 0 < nBuffers) (h : HandOk nBuffers hand) :
    (clockSweepTick nBuffers hand).1 = hand % nBuffers ∧
      (clockSweepTick nBuffers hand).2 % nBuffers = (hand + 1) % nBuffers ∧
      HandOk nBuffers (clockSweepTick nBuffers hand).2 := by
  obtain ⟨laps, hlaps, hle, hlt⟩ := h
  have hnext : (hand + 1) % 2 ^ 32 = hand + 1 := Nat.mod_eq_of_lt (by omega)
  have hone : nBuffers ≤ laps * nBuffers := Nat.le_mul_of_pos_left _ hlaps
  unfold clockSweepTick
  rw [hnext]
  dsimp only
  split_ifs with hfold
  · have hmod := mod_lt (hand + 1) hpos
    exact ⟨rfl, mod_mod _ _, laps, hlaps, by omega, hlt⟩
  · refine ⟨rfl, rfl, laps, hlaps, ?_, hlt⟩
    rcases lt_or_eq_of_le hle with h | h
    · exact h
    · -- at the multiple the hand is folded
      exact absurd ⟨h ▸ hone, h ▸ mul_mod_left laps nBuffers⟩ hfold

/-- How often the hand has been at a buffer after so many ticks. -/
def visits (nBuffers h₀ ticks b : Nat) : Nat := (ticks + (h₀ + nBuffers - 1 - b) % nBuffers) / nBuffers

variable {ticks b : Nat}

theorem visits_le_succ : visits nBuffers h₀ ticks b ≤ visits nBuffers h₀ (ticks + 1) b :=
  Nat.div_le_div_right (by omega)

theorem visits_succ (hpos : 0 < nBuffers) (h : (h₀ + ticks) % nBuffers = b) :
    visits nBuffers h₀ (ticks + 1) b = visits nBuffers h₀ ticks b + 1 := by
  unfold visits
  rw [add_right_comm]
  refine succ_div_of_dvd (dvd_of_mod_eq_zero ?_)
  have hlt : b < nBuffers := h ▸ mod_lt _ hpos
  have hsum := div_add_mod (h₀ + ticks) nBuffers
  rw [h] at hsum
  rw [add_right_comm, add_mod_mod, show ticks + 1 + (h₀ + nBuffers - 1 - b) =
    nBuffers * ((h₀ + ticks) / nBuffers) + nBuffers by omega, add_mod_right, mul_mod_right]

theorem visits_le (hpos : 0 < nBuffers) :
    visits nBuffers h₀ ticks b ≤ (ticks + nBuffers - 1) / nBuffers := by
  refine Nat.div_le_div_right ?_
  have := Nat.mod_lt (h₀ + nBuffers - 1 - b) hpos
  omega

/-- In one lap the hand comes to every buffer. -/
theorem exists_visit (h₀ s : Nat) (hb : b < nBuffers) :
    ∃ k, s ≤ k ∧ k < s + nBuffers ∧ (h₀ + k) % nBuffers = b := by
  have hpos := zero_lt_of_lt hb
  have hr := mod_lt (h₀ + s) hpos
  have hd := mod_lt (b + nBuffers - (h₀ + s) % nBuffers) hpos
  refine ⟨s + (b + nBuffers - (h₀ + s) % nBuffers) % nBuffers, le_add_right _ _, by omega, ?_⟩
  rw [← add_assoc, add_mod_mod, ← mod_add_mod,
    show (h₀ + s) % nBuffers + (b + nBuffers - (h₀ + s) % nBuffers) = b + nBuffers by omega, add_mod_right,
    mod_eq_of_lt hb]

/-- The usage counts, where they began and where they are after some ticks. -/
structure Lowered (nBuffers : Nat) (refcount usage₀ usage : Nat → Nat) (bound : Nat → Nat) : Prop where
  pinned : ∀ b, refcount b ≠ 0 → usage b = usage₀ b
  outside : ∀ b, nBuffers ≤ b → usage b = usage₀ b
  le : ∀ b, usage b ≤ usage₀ b
  ge : ∀ b < nBuffers, usage₀ b ≤ usage b + bound b

/-- The hand has made so many ticks; the buffers that it met since the counter was set are pinned. -/
structure SweepInv (nBuffers : Nat) (refcount usage₀ : Nat → Nat) (h₀ : Nat) (t : Sweep) : Prop where
  handOk : HandOk nBuffers t.hand
  place : t.hand % nBuffers = (h₀ + t.ticks) % nBuffers
  counter : 1 ≤ t.tryCounter ∧ t.tryCounter ≤ nBuffers
  met : nBuffers ≤ t.ticks + t.tryCounter
  pinned : ∀ k, t.ticks + t.tryCounter ≤ k + nBuffers → k < t.ticks → refcount ((h₀ + k) % nBuffers) ≠ 0
  lowered : Lowered nBuffers refcount usage₀ t.usage (visits nBuffers h₀ t.ticks)

/-- The usage counts left, each worth a lap, and the ticks left without a change. -/
def sweepMeasure (nBuffers : Nat) (t : Sweep) : Nat :=
  nBuffers * (∑ b ∈ Finset.range nBuffers, t.usage b) + t.tryCounter

/-- What the clock sweep finds. -/
def SweepPost (nBuffers : Nat) (refcount usage₀ : Nat → Nat) (h₀ : Nat) (r : Swept) : Prop :=
  Lowered nBuffers refcount usage₀ r.sweep.usage (visits nBuffers h₀ r.sweep.ticks) ∧
    match r.found with
    | some v => v < nBuffers ∧ refcount v = 0 ∧ r.sweep.usage v = 0
    | none => ∀ b < nBuffers, refcount b ≠ 0

theorem Lowered.later {usage : Nat → Nat}
    (h : Lowered nBuffers refcount usage₀ usage (visits nBuffers h₀ ticks)) :
    Lowered nBuffers refcount usage₀ usage (visits nBuffers h₀ (ticks + 1)) :=
  ⟨h.pinned, h.outside, h.le, fun b hb => Nat.le_trans (h.ge b hb) (Nat.add_le_add_left visits_le_succ _)⟩

theorem Lowered.decrement {usage : Nat → Nat} {v : Nat} (hpos : 0 < nBuffers)
    (h : Lowered nBuffers refcount usage₀ usage (visits nBuffers h₀ ticks)) (hv : (h₀ + ticks) % nBuffers = v)
    (hfree : refcount v = 0) :
    Lowered nBuffers refcount usage₀ (update usage v (usage v - 1)) (visits nBuffers h₀ (ticks + 1)) := by
  have hlt : v < nBuffers := hv ▸ mod_lt _ hpos
  refine ⟨fun b hb => ?_, fun b hb => ?_, fun b => ?_, fun b hb => ?_⟩
  · rw [update_of_ne (fun he => hb (by rw [he]; exact hfree))]
    exact h.pinned b hb
  · rw [update_of_ne (by omega)]
    exact h.outside b hb
  · rcases eq_or_ne b v with rfl | hne
    · rw [update_self]
      exact le_trans (sub_le _ _) (h.le b)
    · rw [update_of_ne hne]
      exact h.le b
  · rcases eq_or_ne b v with rfl | hne
    · have := h.ge b hb
      rw [update_self, visits_succ hpos hv]
      omega
    · rw [update_of_ne hne]
      exact h.later.ge b hb

/-- One pass of the clock sweep. -/
theorem sweepBody_preserves (hpos : 0 < nBuffers) (t : Sweep) (h : SweepInv nBuffers refcount usage₀ h₀ t) :
    Preserves (sweepBody nBuffers refcount) (SweepInv nBuffers refcount usage₀ h₀) (sweepMeasure nBuffers)
      (SweepPost nBuffers refcount usage₀ h₀) t := by
  obtain ⟨hvictim, hnext, hok⟩ := clockSweepTick_spec hpos h.handOk
  rw [h.place] at hvictim
  obtain ⟨hone, hle⟩ := h.counter
  have hmet := h.met
  have hlt := mod_lt (h₀ + t.ticks) hpos
  have hplace : (clockSweepTick nBuffers t.hand).2 % nBuffers = (h₀ + (t.ticks + 1)) % nBuffers := by
    rw [hnext, ← mod_add_mod, h.place, mod_add_mod, add_assoc]
  unfold Preserves sweepBody
  dsimp only
  rw [hvictim]
  by_cases hfree : refcount ((h₀ + t.ticks) % nBuffers) = 0
  · rw [if_pos hfree]
    by_cases hused : t.usage ((h₀ + t.ticks) % nBuffers) ≠ 0
    · rw [if_pos hused]
      refine ⟨⟨hok, hplace, ⟨hpos, le_refl _⟩, le_add_left _ _, ?_, h.lowered.decrement hpos rfl hfree⟩, ?_⟩
      · intro k h1 h2
        dsimp only at h1 h2
        omega
      · unfold sweepMeasure
        dsimp only
        have hmem := Finset.mem_range.mpr hlt
        rw [Finset.sum_update_of_mem hmem, ← Finset.add_sum_erase _ _ hmem, Finset.sdiff_singleton_eq_erase,
          Nat.mul_add, Nat.mul_add, Nat.mul_sub, Nat.mul_one]
        have := Nat.le_mul_of_pos_right nBuffers (Nat.pos_of_ne_zero hused)
        omega
    · rw [if_neg hused]
      exact ⟨h.lowered.later, hlt, hfree, Decidable.not_not.mp hused⟩
  · rw [if_neg hfree]
    have hpinned : ∀ k, t.ticks + t.tryCounter ≤ k + nBuffers → k < t.ticks + 1 →
        refcount ((h₀ + k) % nBuffers) ≠ 0 := by
      intro k h1 h2
      rcases lt_or_eq_of_le (le_of_lt_succ h2) with hk | rfl
      · exact h.pinned k h1 hk
      · exact hfree
    split_ifs with hlast
    · refine ⟨h.lowered.later, fun b hb => ?_⟩
      obtain ⟨k, h1, h2, rfl⟩ := exists_visit h₀ (t.ticks + 1 - nBuffers) hb
      exact hpinned k (by omega) (by omega)
    · refine ⟨⟨hok, hplace, ⟨by dsimp only; omega, by dsimp only; omega⟩, by dsimp only; omega, ?_,
        h.lowered.later⟩, ?_⟩
      · intro k h1 h2
        dsimp only at h1 h2
        exact hpinned k (by omega) h2
      · unfold sweepMeasure
        dsimp only
        omega

/-- The clock sweep ends. -/
theorem sweep_spec (refcount usage₀ : Nat → Nat) (hpos : 0 < nBuffers) (hand : HandOk nBuffers h₀) (fuel : Nat)
    (hfuel : nBuffers * (∑ b ∈ Finset.range nBuffers, usage₀ b) + nBuffers < fuel) :
    ∃ r, iterate (sweepBody nBuffers refcount) fuel ⟨usage₀, h₀, nBuffers, 0⟩ = some r ∧
      SweepPost nBuffers refcount usage₀ h₀ r := by
  refine iterate_of_invariant (sweepBody_preserves hpos) _ ?_ fuel hfuel
  refine ⟨hand, rfl, ⟨hpos, le_refl _⟩, le_add_left _ _, fun k _ h => absurd h (not_lt_zero k), ?_⟩
  exact ⟨fun _ _ => rfl, fun _ _ => rfl, fun _ => le_refl _, fun _ _ => le_add_right _ _⟩

end Sweep

/-! ### The three sources -/

section Sources
variable {nBuffers : Nat} {p : Pool} {s : Strategy} {buf : Nat}

/-- The buffers on the freelist and in the ring exist, and the hand is in order. -/
structure Pool.Formed (nBuffers : Nat) (p : Pool) (strategy : Option Strategy) : Prop where
  freelist : ∀ b ∈ p.freelist, b < nBuffers
  ring : ∀ s ∈ strategy, ∀ b, some b ∈ s.buffers → b < nBuffers
  hand : HandOk nBuffers p.hand

theorem getBufferFromRing_spec (h : (getBufferFromRing p s).1 = some buf) :
    some buf ∈ s.buffers ∧ p.refcount buf = 0 ∧ p.usage buf ≤ 1 := by
  unfold getBufferFromRing at h
  dsimp only at h
  split at h
  · cases h
  · next b hb =>
    split at h
    · next hok =>
      cases h
      exact ⟨List.mem_of_getElem? (join_eq_some_iff.mp hb), hok⟩
    · cases h

theorem popFreelist_spec {l : List Nat} (h : (popFreelist p l).1 = some buf) :
    buf ∈ l ∧ p.refcount buf = 0 ∧ p.usage buf = 0 := by
  induction l with
  | nil => cases h
  | cons b rest ih =>
    rw [popFreelist] at h
    split_ifs at h with hok
    · cases h
      exact ⟨List.mem_cons_self, hok⟩
    · exact ⟨List.mem_cons_of_mem b (ih h).1, (ih h).2⟩

/-- How many passes the clock sweep may need. -/
def sweepFuel (nBuffers : Nat) (p : Pool) : Nat :=
  nBuffers * (∑ b ∈ Finset.range nBuffers, p.usage b) + nBuffers + 1

/-- What `StrategyGetBuffer` leaves when it has ended: it fails exactly when every buffer is pinned, so that neither the
ring nor the freelist offers one; a victim is not pinned, and not used unless it comes from the ring; and usage counts
are lowered by one at most in each lap of the hand. -/
structure Selected (nBuffers : Nat) (p : Pool) (strategy : Option Strategy) (o : Outcome) : Prop where
  error : o.victim = none ↔ (∀ b < nBuffers, p.refcount b ≠ 0) ∧ (popFreelist p p.freelist).1 = none ∧
    ∀ s ∈ strategy, (getBufferFromRing p s).1 = none
  victim : ∀ buf source, o.victim = some (buf, source) → buf < nBuffers ∧ p.refcount buf = 0 ∧
    (source ≠ .ring → o.pool.usage buf = 0)
  refcount : o.pool.refcount = p.refcount
  pinned : ∀ b, p.refcount b ≠ 0 → o.pool.usage b = p.usage b
  lowered : ∀ b, o.pool.usage b ≤ p.usage b ∧
    p.usage b ≤ o.pool.usage b + (o.ticks + nBuffers - 1) / nBuffers

/-- `StrategyGetBuffer` ends, and selects a victim or fails. -/
theorem strategyGetBuffer_selected {strategy : Option Strategy} (hpos : 0 < nBuffers) (h : p.Formed nBuffers strategy)
    {fuel : Nat} (hfuel : sweepFuel nBuffers p ≤ fuel) :
    ∃ o, strategyGetBuffer nBuffers fuel p strategy = some o ∧ Selected nBuffers p strategy o := by
  unfold strategyGetBuffer
  dsimp only
  cases hring : (strategy.map (getBufferFromRing p)).bind Prod.fst with
  | some buf =>
    obtain ⟨r, hr, hbuf⟩ := bind_eq_some_iff.mp hring
    obtain ⟨s, hs, rfl⟩ := map_eq_some_iff.mp hr
    obtain ⟨hmem, hfree, _⟩ := getBufferFromRing_spec hbuf
    have hlt := h.ring s hs buf hmem
    refine ⟨_, rfl, ⟨fun hn => (nomatch hn), fun hall => absurd hfree (hall.1 buf hlt)⟩, ?_, rfl, fun _ _ => rfl,
      fun b => ⟨le_refl _, le_add_right _ _⟩⟩
    intro buf' source he
    cases he
    exact ⟨hlt, hfree, fun hne => absurd rfl hne⟩
  | none =>
    have hnone : ∀ s ∈ strategy, (getBufferFromRing p s).1 = none := by
      intro s hs
      rw [show strategy = some s from hs] at hring
      exact hring
    cases hpop : popFreelist p p.freelist with
    | mk found rest =>
      cases found with
      | some buf =>
        obtain ⟨hmem, hfree, hunused⟩ := popFreelist_spec (congrArg Prod.fst hpop)
        have hlt := h.freelist buf hmem
        refine ⟨_, rfl, ⟨fun hn => (nomatch hn), fun hall => absurd hfree (hall.1 buf hlt)⟩, ?_, rfl, fun _ _ => rfl,
          fun b => ⟨le_refl _, le_add_right _ _⟩⟩
        intro buf' source he
        cases he
        exact ⟨hlt, hfree, fun _ => hunused⟩
      | none =>
        obtain ⟨r, hrun, hlow, hfound⟩ := sweep_spec p.refcount p.usage hpos h.hand fuel
          (by unfold sweepFuel at hfuel; omega)
        dsimp only
        rw [hrun]
        refine ⟨_, rfl, ?_, ?_, rfl, hlow.pinned, fun b => ⟨hlow.le b, ?_⟩⟩
        · dsimp only
          cases hr : r.found with
          | none =>
            rw [hr] at hfound
            exact ⟨fun _ => ⟨hfound, congrArg Prod.fst hpop, hnone⟩, fun _ => rfl⟩
          | some v =>
            rw [hr] at hfound
            exact ⟨fun hn => (nomatch hn), fun hall => absurd hfound.2.1 (hall.1 v hfound.1)⟩
        · intro buf source he
          dsimp only at he ⊢
          cases hr : r.found with
          | none =>
            rw [hr] at he
            cases he
          | some v =>
            rw [hr] at he hfound
            cases he
            exact ⟨hfound.1, hfound.2.1, fun _ => hfound.2.2⟩
        · dsimp only
          rcases Nat.lt_or_ge b nBuffers with hb | hb
          · exact Nat.le_trans (hlow.ge b hb) (Nat.add_le_add_left (visits_le hpos) _)
          · rw [hlow.outside b hb]
            exact le_add_right _ _

end Sources

section Retry
variable {nBuffers : Nat} {p : Pool} {s t : Strategy} {o : Outcome}

/-- The loop in `BufferAlloc` as far as victims are rejected. Round `k` finds the pool `pools k`, and the victim must be
written with a flush of the log or not. -/
def victimBody (nBuffers : Nat) (pools : Nat → Pool) (needsFlush : Nat → Bool) (s : Nat × Strategy) :
    Pass (Nat × Strategy) (Option Nat) :=
  match strategyGetBuffer nBuffers (sweepFuel nBuffers (pools s.1)) (pools s.1) (some s.2) with
  | some ⟨some (buf, _), _, some strategy, _⟩ =>
    if needsFlush s.1 = true ∧ (strategyRejectBuffer strategy buf).1 = true then
      .again (s.1 + 1, (strategyRejectBuffer strategy buf).2)
    else .leave (some buf)
  | _ => .leave none

/-- The slots of the ring that are filled. -/
def Strategy.filled (s : Strategy) : Nat := s.buffers.countP Option.isSome

theorem countP_set_none {l : List (Option Nat)} {i b : Nat} (h : l[i]? = some (some b)) :
    (l.set i none).countP isSome + 1 = l.countP isSome := by
  induction l generalizing i with
  | nil => simp at h
  | cons x l ih =>
    cases i with
    | zero =>
      cases h
      rw [List.set_cons_zero, List.countP_cons_of_neg (by decide), List.countP_cons_of_pos rfl]
    | succ i =>
      have := ih (i := i) h
      rw [List.set_cons_succ, List.countP_cons, List.countP_cons]
      omega

theorem getBufferFromRing_buffers : (getBufferFromRing p s).2.buffers = s.buffers := by
  unfold getBufferFromRing
  dsimp only
  split
  · rfl
  · split <;> rfl

theorem getBufferFromRing_none (h : (getBufferFromRing p s).1 = none) :
    (getBufferFromRing p s).2.currentWasInRing = false := by
  unfold getBufferFromRing at h ⊢
  dsimp only at h ⊢
  split
  · rfl
  · next b hb =>
    rw [hb] at h
    split
    · next hok =>
      dsimp only at h
      rw [if_pos hok] at h
      cases h
    · rfl

/-- Only a victim from the ring leaves its mark there. -/
theorem ring_of_strategyGetBuffer {fuel : Nat} (h : strategyGetBuffer nBuffers fuel p (some s) = some o)
    (ht : o.strategy = some t) (hring : t.currentWasInRing = true) : t.buffers = s.buffers := by
  have hmark (hnone : (getBufferFromRing p s).1 = none) {u : Strategy} (hu : u = t)
      (hkeep : u.currentWasInRing = (getBufferFromRing p s).2.currentWasInRing) : False := by
    rw [getBufferFromRing_none hnone, hu, hring] at hkeep
    cases hkeep
  unfold strategyGetBuffer at h
  dsimp only [map_some, bind_some] at h
  split at h
  · cases h
    cases ht
    exact getBufferFromRing_buffers
  · next hnone =>
    split at h
    · cases h
      exact (hmark hnone (some.inj ht) rfl).elim
    · obtain ⟨r, -, rfl⟩ := map_eq_some_iff.mp h
      dsimp only at ht
      split at ht
      · exact (hmark hnone (some.inj ht) rfl).elim
      · exact (hmark hnone (some.inj ht) rfl).elim

/-- A rejection empties a slot. -/
theorem filled_of_reject {buf : Nat} (h : (strategyRejectBuffer s buf).1 = true) :
    s.currentWasInRing = true ∧ (strategyRejectBuffer s buf).2.filled + 1 = s.filled := by
  unfold strategyRejectBuffer at h ⊢
  split_ifs at h ⊢ with hbulk hnot
  rw [not_or, Bool.not_eq_false, not_not] at hnot
  exact ⟨hnot.1, countP_set_none (join_eq_some_iff.mp hnot.2)⟩

/-- The loop ends after no more rejections than there are filled slots. -/
theorem victimLoop_ends (nBuffers : Nat) (pools : Nat → Pool) (needsFlush : Nat → Bool) (s : Strategy) :
    ∃ r, iterate (victimBody nBuffers pools needsFlush) (s.filled + 1) (0, s) = some r := by
  have hstep : ∀ u : Nat × Strategy, True → Preserves (victimBody nBuffers pools needsFlush) (fun _ => True)
      (fun u => u.2.filled) (fun _ => True) u := by
    intro u _
    unfold Preserves victimBody
    cases hget : strategyGetBuffer nBuffers (sweepFuel nBuffers (pools u.1)) (pools u.1) (some u.2) with
    | none => trivial
    | some o =>
      obtain ⟨victim, pool, strategy, ticks⟩ := o
      cases victim with
      | none => trivial
      | some v =>
        cases strategy with
        | none => trivial
        | some t =>
          dsimp only
          by_cases hreject : needsFlush u.1 = true ∧ (strategyRejectBuffer t v.1).1 = true
          · rw [if_pos hreject]
            obtain ⟨hring, hfilled⟩ := filled_of_reject hreject.2
            have hsame := ring_of_strategyGetBuffer hget rfl hring
            refine ⟨trivial, ?_⟩
            have : t.filled = u.2.filled := congrArg (List.countP isSome) hsame
            dsimp only
            omega
          · rw [if_neg hreject]
            trivial
  obtain ⟨r, hr, -⟩ := iterate_of_invariant hstep (0, s) trivial (s.filled + 1) (lt_succ_self _)
  exact ⟨r, hr⟩

end Retry

/-- **Victim selection is exact, and ends**: for every state of the pool, and however often victims are rejected. -/
theorem victimSelection_exact (nBuffers : Nat) (hpos : 0 < nBuffers) :
    (∀ (p : Pool) (strategy : Option Strategy), p.Formed nBuffers strategy → ∀ fuel, sweepFuel nBuffers p ≤ fuel →
      ∃ o, strategyGetBuffer nBuffers fuel p strategy = some o ∧ Selected nBuffers p strategy o) ∧
    ∀ (pools : Nat → Pool) (needsFlush : Nat → Bool) (s : Strategy),
      ∃ r, iterate (victimBody nBuffers pools needsFlush) (s.filled + 1) (0, s) = some r :=
  ⟨fun _ _ h _ hfuel => strategyGetBuffer_selected hpos h hfuel, victimLoop_ends nBuffers⟩

/-- Three buffers, the first one pinned, the second one used twice. -/
def smallPool : Pool := ⟨fun b => if b = 0 then 1 else 0, fun b => if b = 1 then 2 else 0, [1], 0⟩

theorem smallPool_selected : ∃ o, strategyGetBuffer 3 (sweepFuel 3 smallPool) smallPool none = some o ∧
    Selected 3 smallPool none o := by
  obtain ⟨hselect, _⟩ := victimSelection_exact 3 (by decide)
  exact hselect smallPool none ⟨by decide, fun _ h => (nomatch h), 1, by decide, by decide, by decide⟩ _
    (le_refl _)

end PgStorage.VictimSelection
