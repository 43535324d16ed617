import Mathlib

/-! Loops with an exit.

A loop body either goes round again or leaves with a result. `iterate` runs a
body a given number of times at most; a loop whose invariant comes with a measure
that falls on every pass leaves within that many passes (`iterate_of_invariant`),
and once it has left, more passes change nothing (`iterate_mono`). -/
namespace PgStorage

/-- What one pass of a loop body does. -/
inductive Pass (σ ρ : Type) where
  | again : σ → Pass σ ρ
  | leave : ρ → Pass σ ρ

namespace Loop
variable {σ ρ : Type} (body : σ → Pass σ ρ)

/-- At most `fuel` passes; `none` when the loop has not left by then. -/
def iterate : Nat → σ → Option ρ
  | 0, _ => none
  | fuel + 1, s =>
    match body s with
    | .again s' => iterate fuel s'
    | .leave r => some r

variable {body}

theorem iterate_again {s s' : σ} (h : body s = .again s') (fuel : Nat) :
    iterate body (fuel + 1) s = iterate body fuel s' := by
  simp only [iterate, h]

theorem iterate_leave {s : σ} {r : ρ} (h : body s = .leave r) (fuel : Nat) :
    iterate body (fuel + 1) s = some r := by
  simp only [iterate, h]

theorem iterate_mono {fuel : Nat} (fuel' : Nat) (hle : fuel ≤ fuel') {s : σ} {r : ρ}
    (h : iterate body fuel s = some r) : iterate body fuel' s = some r := by
  induction fuel generalizing fuel' s with
  | zero => simp [iterate] at h
  | succ fuel ih =>
    obtain ⟨more, rfl⟩ : ∃ more, fuel' = more + 1 := ⟨fuel' - 1, by omega⟩
    cases hb : body s with
    | again s' =>
      rw [iterate_again hb] at h ⊢
      exact ih _ (by omega) h
    | leave r' =>
      rw [iterate_leave hb] at h ⊢
      exact h

/-- What a pass must do for an invariant with a measure. -/
def Preserves (body : σ → Pass σ ρ) (Inv : σ → Prop) (measure : σ → Nat) (Post : ρ → Prop) (s : σ) : Prop :=
  match body s with
  | .again s' => Inv s' ∧ measure s' < measure s
  | .leave r => Post r

/-- An invariant whose measure falls on every pass carries the loop to its exit. -/
theorem iterate_of_invariant {Inv : σ → Prop} {measure : σ → Nat} {Post : ρ → Prop}
    (step : ∀ s, Inv s → Preserves body Inv measure Post s) (s : σ) (h : Inv s) (fuel : Nat)
    (hfuel : measure s < fuel) : ∃ r, iterate body fuel s = some r ∧ Post r := by
  induction fuel generalizing s with
  | zero => omega
  | succ fuel ih =>
    have hs := step s h
    unfold Preserves at hs
    cases hb : body s with
    | again s' =>
      rw [hb] at hs
      rw [iterate_again hb]
      exact ih s' hs.1 (by omega)
    | leave r =>
      rw [hb] at hs
      exact ⟨r, iterate_leave hb fuel, hs⟩

/-- What every pass preserves, and what leaving makes of it, holds of the result. -/
theorem iterate_induction (Inv : σ → Prop) (Post : ρ → Prop) (hagain : ∀ s s', Inv s → body s = .again s' → Inv s')
    (hleave : ∀ s r, Inv s → body s = .leave r → Post r) {fuel : Nat} {s : σ} {r : ρ} (hs : Inv s)
    (h : iterate body fuel s = some r) : Post r := by
  induction fuel generalizing s with
  | zero => exact absurd h (by simp [iterate])
  | succ fuel ih =>
    cases hb : body s with
    | again s' =>
      rw [iterate_again hb] at h
      exact ih (hagain s s' hs hb) h
    | leave r' =>
      rw [iterate_leave hb] at h
      cases h
      exact hleave s r hs hb

/-- Two passes do the same, up to `R` on states and `Q` on results. -/
inductive Alike {σ' ρ' : Type} (R : σ → σ' → Prop) (Q : ρ → ρ' → Prop) : Pass σ ρ → Pass σ' ρ' → Prop
  | again {s : σ} {s' : σ'} (h : R s s') : Alike R Q (.again s) (.again s')
  | leave {r : ρ} {r' : ρ'} (h : Q r r') : Alike R Q (.leave r) (.leave r')

/-- Loops whose passes do the same have the same result. -/
theorem iterate_alike {σ' ρ' : Type} {body' : σ' → Pass σ' ρ'} {R : σ → σ' → Prop} {Q : ρ → ρ' → Prop}
    (step : ∀ s s', R s s' → Alike R Q (body s) (body' s')) (fuel : Nat) {s : σ} {s' : σ'} (h : R s s') :
    Option.Rel Q (iterate body fuel s) (iterate body' fuel s') := by
  induction fuel generalizing s s' with
  | zero => exact .none
  | succ fuel ih =>
    have hstep := step s s' h
    cases hb : body s with
    | again t =>
      rw [hb] at hstep
      cases hb' : body' s' with
      | again t' =>
        rw [hb'] at hstep
        cases hstep with
        | again ht =>
          rw [iterate_again hb, iterate_again hb']
          exact ih ht
      | leave r' =>
        rw [hb'] at hstep
        cases hstep
    | leave r =>
      rw [hb] at hstep
      cases hb' : body' s' with
      | again t' =>
        rw [hb'] at hstep
        cases hstep
      | leave r' =>
        rw [hb'] at hstep
        cases hstep with
        | leave hr =>
          rw [iterate_leave hb, iterate_leave hb']
          exact .some hr

/-! ### Loops with a bound

A `while` whose passes are bounded in advance needs no `none`. -/

/-- At most `n` passes of `while (cond) step`. -/
def whileN (cond : σ → Bool) (step : σ → σ) : Nat → σ → σ
  | 0, s => s
  | n + 1, s => if cond s then whileN cond step n (step s) else s

/-- What every pass preserves holds at the end. -/
theorem whileN_induction {cond : σ → Bool} {step : σ → σ} (Inv : σ → Prop)
    (hstep : ∀ s, Inv s → cond s = true → Inv (step s)) (s : σ) (h : Inv s) (n : Nat) :
    Inv (whileN cond step n s) := by
  induction n generalizing s with
  | zero => exact h
  | succ n ih =>
    unfold whileN
    cases hc : cond s with
    | false => exact h
    | true => exact ih (step s) (hstep s h hc)

/-- With a measure below the bound, the loop ends by its condition, and an invariant
holds at its end. -/
theorem whileN_of_invariant {cond : σ → Bool} {step : σ → σ} (Inv : σ → Prop) (measure : σ → Nat)
    (hstep : ∀ s, Inv s → cond s = true → Inv (step s) ∧ measure (step s) < measure s) (s : σ) (h : Inv s) (n : Nat)
    (hn : measure s ≤ n) : Inv (whileN cond step n s) ∧ cond (whileN cond step n s) = false := by
  induction n generalizing s with
  | zero =>
    refine ⟨h, ?_⟩
    cases hc : cond s with
    | false => exact hc
    | true =>
      have := (hstep s h hc).2
      omega
  | succ n ih =>
    unfold whileN
    cases hc : cond s with
    | false => exact ⟨h, hc⟩
    | true =>
      obtain ⟨hinv, hlt⟩ := hstep s h hc
      exact ih (step s) hinv (by omega)

end Loop
end PgStorage
