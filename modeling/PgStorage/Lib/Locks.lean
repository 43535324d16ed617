import Mathlib

/-! Locks and the program counters of the processes that use them.

A process holds a lock at some of its program counters. `Owner` says that the holder which an
exclusive lock records is the process that is at such a program counter, `Sharers` that a list
records all of them. A process that moves keeps, acquires or releases the lock. -/
namespace PgStorage.Locks
open Function
variable {ι C : Type} {holds : C → Bool} {pc : ι → C}

/-- `lock` is held by the process at a program counter that holds it. -/
def Owner (holds : C → Bool) (pc : ι → C) (lock : Option ι) : Prop :=
  ∀ p, lock = some p ↔ holds (pc p) = true

/-- The processes at a program counter that holds the lock. -/
def Sharers (holds : C → Bool) (pc : ι → C) (l : List ι) : Prop :=
  ∀ p, p ∈ l ↔ holds (pc p) = true

variable {lock : Option ι} {l : List ι}

theorem Owner.unique (h : Owner holds pc lock) {q : ι} (hp : holds (pc p) = true)
    (hq : holds (pc q) = true) : p = q := by
  have e : some p = some q := by rw [← (h p).mpr hp, ← (h q).mpr hq]
  exact Option.some_inj.mp e

theorem Owner.free (h : Owner holds pc none) (p : ι) : holds (pc p) = false := by
  cases e : holds (pc p) with
  | false => rfl
  | true => cases (h p).mpr e

theorem Sharers.free (h : Sharers holds pc []) (p : ι) : holds (pc p) = false := by
  cases e : holds (pc p) with
  | false => rfl
  | true => cases (h p).mpr e

variable [DecidableEq ι] {p : ι} {c : C}

/-- What a process does not change by moving is the same for all processes. -/
theorem apply_update {β : Sort*} {f : C → β} (hc : f c = f (pc p)) (q : ι) :
    f (update pc p c q) = f (pc q) := by
  rcases eq_or_ne q p with rfl | hq
  · rw [update_self, hc]
  · rw [update_of_ne hq]

/-- Only the process that moved is at another place. -/
theorem updated {pc' : ι → C} (h : pc' = update pc p c) : pc' p = c ∧ ∀ q, q ≠ p → pc' q = pc q := by
  rw [h]
  exact ⟨update_self .., fun q hq => update_of_ne hq ..⟩

theorem Owner.keep (h : Owner holds pc lock) (hc : holds c = holds (pc p)) :
    Owner holds (update pc p c) lock := by
  intro q
  rcases eq_or_ne q p with rfl | hq
  · rw [update_self, hc]; exact h q
  · rw [update_of_ne hq]; exact h q

theorem Owner.acquire (h : Owner holds pc none) (hc : holds c = true) :
    Owner holds (update pc p c) (some p) := by
  intro q
  rcases eq_or_ne q p with rfl | hq
  · rw [update_self, hc]; exact iff_of_true rfl rfl
  · rw [update_of_ne hq, h.free q]
    exact iff_of_false (fun e => hq (Option.some_inj.mp e).symm) Bool.false_ne_true

theorem Owner.release (h : Owner holds pc lock) (hp : holds (pc p) = true)
    (hc : holds c = false) : Owner holds (update pc p c) none := by
  intro q
  rcases eq_or_ne q p with rfl | hq
  · rw [update_self, hc]; exact iff_of_false (by simp) Bool.false_ne_true
  · rw [update_of_ne hq]
    exact iff_of_false (by simp) fun e => hq (h.unique e hp)

theorem Sharers.keep (h : Sharers holds pc l) (hc : holds c = holds (pc p)) :
    Sharers holds (update pc p c) l := by
  intro q
  rcases eq_or_ne q p with rfl | hq
  · rw [update_self, hc]; exact h q
  · rw [update_of_ne hq]; exact h q

theorem Sharers.join (h : Sharers holds pc l) (hc : holds c = true) :
    Sharers holds (update pc p c) (p :: l) := by
  intro q
  rw [List.mem_cons]
  rcases eq_or_ne q p with rfl | hq
  · rw [update_self, hc]; exact iff_of_true (.inl rfl) rfl
  · rw [update_of_ne hq, ← h q]
    exact ⟨fun hm => hm.resolve_left hq, .inr⟩

theorem Sharers.leave (h : Sharers holds pc l) (hc : holds c = false) :
    Sharers holds (update pc p c) (l.filter (· ≠ p)) := by
  intro q
  rw [List.mem_filter, decide_eq_true_iff]
  rcases eq_or_ne q p with rfl | hq
  · rw [update_self, hc]; exact iff_of_false (fun hm => hm.2 rfl) Bool.false_ne_true
  · rw [update_of_ne hq, ← h q]
    exact ⟨fun hm => hm.1, fun hm => ⟨hm, hq⟩⟩

end PgStorage.Locks
