import Mathlib

/-! Part of a list overwritten.

`splice l k d` is `l` with `d` in the place from `k` on. It grows the list where `d` sticks out. An
element is told by its place (`getElem?_splice`), and two pieces written one after the other are one
piece (`splice_splice`). -/
namespace PgStorage.Splice
open List
variable {α : Type} {l d e : List α} {k i n : Nat}

def splice (l : List α) (k : Nat) (d : List α) : List α := l.take k ++ d ++ l.drop (k + d.length)

@[simp] theorem splice_nil : splice l k [] = l := by
  rw [splice, append_nil, length_nil, add_zero, take_append_drop]

theorem length_splice (hk : k ≤ l.length) : (splice l k d).length = max l.length (k + d.length) := by
  rw [splice, length_append, length_append, length_take_of_le hk, length_drop]
  omega

theorem getElem?_splice (hk : k ≤ l.length) :
    (splice l k d)[i]? = if k ≤ i ∧ i < k + d.length then d[i - k]? else l[i]? := by
  have hlen : (l.take k).length = k := length_take_of_le hk
  rw [splice, append_assoc]
  by_cases hik : i < k
  · rw [getElem?_append_left (by omega), getElem?_take_of_lt hik, if_neg (by omega)]
  · rw [getElem?_append_right (by omega), hlen]
    by_cases hid : i < k + d.length
    · rw [getElem?_append_left (by omega), if_pos ⟨by omega, hid⟩]
    · rw [getElem?_append_right (by omega), getElem?_drop, if_neg (by omega),
        show k + d.length + (i - k - d.length) = i by omega]

theorem splice_splice (hk : k ≤ l.length) : splice (splice l k d) (k + d.length) e = splice l k (d ++ e) := by
  have hlen : k + d.length ≤ (splice l k d).length := by rw [length_splice hk]; exact le_max_right _ _
  apply ext_getElem?
  intro i
  rw [getElem?_splice hlen, getElem?_splice hk, getElem?_splice hk, length_append]
  by_cases h : i < k + d.length
  · rw [if_neg (by omega)]
    by_cases hik : k ≤ i
    · rw [if_pos ⟨hik, h⟩, if_pos ⟨hik, by omega⟩, getElem?_append_left (by omega)]
    · rw [if_neg (by omega), if_neg (by omega)]
  · rw [if_neg (c := k ≤ i ∧ i < k + d.length) (by omega)]
    by_cases hie : i < k + d.length + e.length
    · rw [if_pos ⟨by omega, hie⟩, if_pos ⟨by omega, by omega⟩, getElem?_append_right (by omega), Nat.sub_sub]
    · rw [if_neg (by omega), if_neg (by omega)]

end PgStorage.Splice
