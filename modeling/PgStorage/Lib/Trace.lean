import Mathlib

/-! States reached by partial steps.

`next` is a partial step function and `Ok` a condition on the steps that are taken. What
these steps keep holds in every state they reach (`Reaches.keeps`); a list of actions
evaluates to such a state (`Reaches.of_follow`). -/
namespace PgStorage.Trace

variable {S A : Type}

/-- The states reached from `s` by steps that meet the condition. -/
inductive Reaches (next : S → A → Option S) (Ok : S → A → Prop) (s : S) : S → Prop
  | start : Reaches next Ok s s
  | snoc {t u : S} {a : A} : Reaches next Ok s t → Ok t a → next t a = some u → Reaches next Ok s u

variable {next : S → A → Option S} {Ok : S → A → Prop} {s t : S}

theorem Reaches.keeps {P : S → Prop} (h : Reaches next Ok s t) (h0 : P s)
    (hstep : ∀ t a u, Ok t a → next t a = some u → P t → P u) : P t := by
  induction h with
  | start => exact h0
  | snoc _ hok hs ih => exact hstep _ _ _ hok hs ih

theorem Reaches.mono {Ok' : S → A → Prop} (h : Reaches next Ok s t) (himp : ∀ s a, Ok s a → Ok' s a) :
    Reaches next Ok' s t := by
  induction h with
  | start => exact .start
  | snoc _ hok hs ih => exact ih.snoc (himp _ _ hok) hs

/-- Actions taken one after the other, as long as they meet the condition. -/
def follow (next : S → A → Option S) (Ok : S → A → Prop) [∀ s a, Decidable (Ok s a)] (s : S) : List A → Option S
  | [] => some s
  | a :: rest => if Ok s a then (next s a).bind fun t => follow next Ok t rest else none

theorem Reaches.of_follow [∀ s a, Decidable (Ok s a)] {r : S} {l : List A} (hr : Reaches next Ok r s)
    (h : follow next Ok s l = some t) : Reaches next Ok r t := by
  induction l generalizing s with
  | nil =>
    cases h
    exact hr
  | cons a l ih =>
    simp only [follow] at h
    split_ifs at h with hok
    obtain ⟨u, hu, ht⟩ := Option.bind_eq_some_iff.mp h
    exact ih (hr.snoc hok hu) ht

end PgStorage.Trace
