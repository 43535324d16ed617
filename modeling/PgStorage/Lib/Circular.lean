import PgStorage.Lib.Memory

/-! Circular buffers.

A stream of bytes passes through a ring of `size` cells: the byte with number `x` is in cell
`x % size`. `Window` says that the cells between two numbers hold what the stream has there, where
the stream may leave some bytes open. No two numbers of a window that is no longer than the ring
share a cell, so bytes can be copied in behind it, and a part of it that does not wrap can be read. -/
namespace PgStorage.Circular
open Memory

/-- The cells of the bytes from `r` on and before `w` hold what `content` has there. -/
def Window (ring : Mem) (size : Nat) (content : List (Option UInt8)) (r w : Nat) : Prop :=
  ∀ x b, r ≤ x → x < w → content[x]? = some (some b) → ring (x % size) = b

variable {ring : Mem} {size r w r' w' x y i : Nat} {content content' : List (Option UInt8)} {data : List UInt8}

theorem Window.mono (h : Window ring size content r w) (hr : r ≤ r') (hw : w' ≤ w) :
    Window ring size content r' w' :=
  fun x b hx hxw hb => h x b (by omega) (by omega) hb

theorem Window.congr (h : Window ring size content r w)
    (he : ∀ x, r ≤ x → x < w → content'[x]? = content[x]?) : Window ring size content' r w :=
  fun x b hx hxw hb => h x b hx hxw (he x hx hxw ▸ hb)

theorem mod_add (h : x % size + i < size) : (x + i) % size = x % size + i := by
  have hi : i % size = i := Nat.mod_eq_of_lt (by omega)
  rw [Nat.add_mod, hi]
  exact Nat.mod_eq_of_lt h

/-- Two numbers less than `size` apart have different cells. -/
theorem mod_ne (h : x < y) (hy : y < x + size) : x % size ≠ y % size := by
  intro he
  have hdvd : size ∣ y - x := Nat.dvd_of_mod_eq_zero (Nat.sub_mod_eq_zero_of_mod_eq he.symm)
  have := Nat.le_of_dvd (by omega) hdvd
  omega

variable (data) in
/-- Bytes behind the window do not share a cell with it. -/
theorem not_mem_cells (hx : r ≤ x) (hxw : x < w) (hw : w + data.length ≤ r + size)
    (hfit : w % size + data.length ≤ size) :
    x % size < w % size ∨ w % size + data.length ≤ x % size := by
  by_contra! hcon
  have hi : w % size + (x % size - w % size) < size := by omega
  have hne : x % size ≠ (w + (x % size - w % size)) % size := mod_ne (by omega) (by omega)
  rw [mod_add hi] at hne
  omega

variable (data) in
/-- The window grows by the bytes that are copied in behind it. -/
theorem Window.memcpy (h : Window ring size content r w) (hw : w + data.length ≤ r + size)
    (hfit : w % size + data.length ≤ size)
    (hdata : ∀ i b, i < data.length → content[w + i]? = some (some b) → data[i]? = some b) :
    Window (memcpy ring (w % size) data) size content r (w + data.length) := by
  intro x b hx hxw hb
  by_cases hlt : x < w
  · rw [memcpy_of_not_mem (not_mem_cells data hx hlt hw hfit)]
    exact h x b hx hlt hb
  · obtain ⟨i, rfl⟩ : ∃ i, x = w + i := ⟨x - w, by omega⟩
    have hi : i < data.length := by omega
    rw [mod_add (by omega), Memory.memcpy, if_pos (by omega), Nat.add_sub_cancel_left, List.getD_eq_getElem?_getD,
      hdata i b hi hb, Option.getD_some]

variable (data) in
/-- A part of the window that does not wrap. -/
theorem Window.bytes (h : Window ring size content r w) (hx : r ≤ x) (hxw : x + data.length ≤ w)
    (hfit : x % size + data.length ≤ size)
    (hdata : ∀ i b, data[i]? = some b → content[x + i]? = some (some b)) :
    bytes ring (x % size) data.length = data := by
  refine List.ext_getElem (by simp) fun i hi hi' => ?_
  have hcell := h (x + i) data[i] (by omega) (by omega) (hdata i _ (List.getElem?_eq_getElem hi'))
  rw [mod_add (by omega)] at hcell
  simpa [Memory.bytes] using hcell

end PgStorage.Circular
