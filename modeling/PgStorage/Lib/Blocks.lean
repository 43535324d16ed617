import Mathlib

/-! Lists cut into blocks of one size.

A file of blocks is their concatenation. Cutting it at a multiple of the size cuts the list of
blocks, so a block is read and written at its own offset. -/
namespace PgStorage.Blocks
open List
variable {α : Type} {w k : Nat} {l : List (List α)}

section
variable (hl : ∀ p ∈ l, p.length = w)
include hl

theorem length_flatten : l.flatten.length = w * l.length := by
  induction l with
  | nil => rfl
  | cons p l ih =>
    rw [flatten_cons, length_append, hl p mem_cons_self, ih fun q hq => hl q (mem_cons_of_mem p hq),
      length_cons, Nat.mul_succ, add_comm]

theorem drop_flatten : l.flatten.drop (w * k) = (l.drop k).flatten := by
  induction l generalizing k with
  | nil => simp
  | cons p l ih =>
    cases k with
    | zero => rfl
    | succ k =>
      have hp := hl p mem_cons_self
      rw [flatten_cons, drop_succ_cons, Nat.mul_succ, add_comm, ← drop_drop, ← hp, drop_left, hp]
      exact ih fun q hq => hl q (mem_cons_of_mem p hq)

theorem take_flatten : l.flatten.take (w * k) = (l.take k).flatten := by
  induction l generalizing k with
  | nil => simp
  | cons p l ih =>
    cases k with
    | zero => rfl
    | succ k =>
      have hp := hl p mem_cons_self
      rw [flatten_cons, take_succ_cons, flatten_cons, Nat.mul_succ, add_comm, ← hp,
        take_length_add_append, hp, ih fun q hq => hl q (mem_cons_of_mem p hq)]

/-- A block is read at its offset. -/
theorem read_block {p : List α} (hk : l[k]? = some p) :
    (l.flatten.drop (w * k)).take w = p := by
  obtain ⟨hlt, hp⟩ := List.getElem?_eq_some_iff.mp hk
  have hlen := hl p (hp ▸ List.getElem_mem hlt)
  rw [drop_flatten hl, drop_eq_getElem_cons hlt, hp, flatten_cons, ← hlen, take_left]

end

/-- Element `k` is replaced, or added after the last one. -/
def put {β : Type} (l : List β) (k : Nat) (p : β) : List β := l.take k ++ p :: l.drop (k + 1)

theorem getElem?_put {β : Type} {l : List β} {p : β} (hk : k ≤ l.length) (x : Nat) :
    (put l k p)[x]? = if x = k then some p else l[x]? := by
  have hlen : (l.take k).length = k := length_take_of_le hk
  rw [put]
  rcases lt_trichotomy x k with hx | rfl | hx
  · rw [if_neg (Nat.ne_of_lt hx), getElem?_append_left (by omega), getElem?_take_of_lt hx]
  · rw [if_pos rfl, getElem?_append_right (by omega), hlen, Nat.sub_self, getElem?_cons_zero]
  · rw [if_neg (Nat.ne_of_gt hx), getElem?_append_right (by omega), hlen, show x - k = (x - (k + 1)) + 1 by omega,
      getElem?_cons_succ, getElem?_drop, show k + 1 + (x - (k + 1)) = x by omega]

theorem put_length {β : Type} (l : List β) (p : β) : put l l.length p = l ++ [p] := by
  rw [put, take_length, drop_eq_nil_of_le (Nat.le_succ _)]

theorem put_eq_set {β : Type} {l : List β} (hk : k < l.length) (p : β) : put l k p = l.set k p := by
  rw [put, set_eq_take_append_cons_drop, if_pos hk]

/-- A block is written at its offset, or after the last one. -/
theorem write_block (hl : ∀ p ∈ l, p.length = w) (p : List α) (hp : p.length = w) :
    l.flatten.take (w * k) ++ p ++ l.flatten.drop (w * k + p.length) = (put l k p).flatten := by
  rw [put, take_flatten hl, hp, show w * k + w = w * (k + 1) from rfl, drop_flatten hl, flatten_append,
    flatten_cons, append_assoc]

end PgStorage.Blocks
