import Mathlib

/-! Counting the places of a family at which a predicate holds.

A shared counter is often the number of parties in a certain condition. When one party
changes, the number follows (`count_update`); at one it tells which party that is
(`count_eq_one`). -/
namespace PgStorage.Count
variable {β α : Type} [Fintype β] (P : α → Prop) [DecidablePred P] (f : β → α)

/-- The number of places at which `P` holds. -/
def count : Nat := (Finset.univ.filter fun b => P (f b)).card

variable {P f}

theorem count_eq_zero : count P f = 0 ↔ ∀ b, ¬ P (f b) := by
  simp [count, Finset.filter_eq_empty_iff]

theorem count_pos {b : β} (h : P (f b)) : 0 < count P f := by
  rcases Nat.eq_zero_or_pos (count P f) with h0 | h0
  · exact absurd h (count_eq_zero.mp h0 b)
  · exact h0

/-- Where the count is one there is no second place. -/
theorem count_eq_one {b b' : β} (h : count P f ≤ 1) (hb : P (f b)) (hb' : P (f b')) : b' = b :=
  Finset.card_le_one.mp h b' (by simpa using hb') b (by simpa using hb)

variable (P f) [DecidableEq β]

/-- One place changed. -/
theorem count_update (b : β) (v : α) :
    count P (Function.update f b v) + (if P (f b) then 1 else 0) = count P f + (if P v then 1 else 0) := by
  have hsplit (g : β → α) : count P g = (if P (g b) then 1 else 0) +
      ∑ x ∈ Finset.univ.erase b, if P (g x) then 1 else 0 := by
    rw [count, Finset.card_filter, ← Finset.add_sum_erase _ _ (Finset.mem_univ b)]
  have hrest : (∑ x ∈ Finset.univ.erase b, if P (Function.update f b v x) then 1 else 0) =
      ∑ x ∈ Finset.univ.erase b, if P (f x) then 1 else 0 := by
    refine Finset.sum_congr rfl fun x hx => ?_
    rw [Function.update_of_ne (Finset.ne_of_mem_erase hx)]
  rw [hsplit, hsplit f, hrest, Function.update_self]
  omega

end PgStorage.Count
