import Mathlib

/-! Bit strings of machine words, most significant bit first.

`msb n v` is the string of the `n` low bits of `v`. The lemmas say how the
arithmetic a bit packer does on words shows on the strings: shifting and filling
is appending, dividing is splitting, the bitwise operations are pointwise. -/
namespace PgStorage.Bits
open List

/-- The `n` low bits of `v`, most significant first. -/
def msb : Nat → Nat → List Bool
  | 0, _ => []
  | n + 1, v => v.testBit n :: msb n v

@[simp] theorem msb_length (n v : Nat) : (msb n v).length = n := by
  induction n with
  | zero => rfl
  | succ n ih => simp [msb, ih]

theorem msb_getElem (n v i : Nat) (h : i < (msb n v).length) :
    (msb n v)[i] = v.testBit (n - 1 - i) := by
  induction n generalizing i with
  | zero => simp at h
  | succ n ih =>
    cases i with
    | zero => simp [msb]
    | succ i =>
      have hi : i < (msb n v).length := by simpa using h
      have hsub : n + 1 - 1 - (i + 1) = n - 1 - i := by omega
      rw [hsub]
      exact ih i hi

/-- Only the low `n` bits show. -/
theorem msb_congr {n v u : Nat} (h : ∀ i, i < n → v.testBit i = u.testBit i) : msb n v = msb n u := by
  induction n with
  | zero => rfl
  | succ n ih => rw [msb, msb, h n (Nat.lt_succ_self n), ih (fun i hi => h i (Nat.lt_succ_of_lt hi))]

theorem msb_mod (n v : Nat) : msb n (v % 2 ^ n) = msb n v :=
  msb_congr fun i hi => by simp [hi]

theorem msb_split (m n v : Nat) : msb (m + n) v = msb m (v / 2 ^ n) ++ msb n v := by
  induction m with
  | zero => simp [msb]
  | succ m ih =>
    rw [Nat.succ_add, msb, msb, ih, Nat.testBit_div_two_pow, cons_append]

/-- Shifting left and filling in appends. -/
theorem msb_append (m n v u : Nat) (hu : u < 2 ^ n) :
    msb (m + n) (v * 2 ^ n + u) = msb m v ++ msb n u := by
  have hdiv : (v * 2 ^ n + u) / 2 ^ n = v := by
    rw [mul_comm, Nat.mul_add_div (Nat.two_pow_pos n), Nat.div_eq_of_lt hu, add_zero]
  have hmod : (v * 2 ^ n + u) % 2 ^ n = u := by
    rw [mul_comm, Nat.mul_add_mod, Nat.mod_eq_of_lt hu]
  rw [msb_split, hdiv, ← msb_mod n (v * 2 ^ n + u), hmod]

@[simp] theorem msb_zero (n : Nat) : msb n 0 = replicate n false := by
  induction n with
  | zero => rfl
  | succ n ih => simp [msb, ih, replicate_succ]

@[simp] theorem msb_ones (n : Nat) : msb n (2 ^ n - 1) = replicate n true := by
  apply ext_getElem
  · simp
  · intro i h _
    have hi : i < n := by simpa using h
    rw [msb_getElem, Nat.testBit_two_pow_sub_one, getElem_replicate]
    exact decide_eq_true (by omega)

/-- A bitwise operation on words is pointwise on strings. -/
theorem msb_zipWith {op : Nat → Nat → Nat} {f : Bool → Bool → Bool}
    (h : ∀ a b i, (op a b).testBit i = f (a.testBit i) (b.testBit i)) (n a b : Nat) :
    msb n (op a b) = zipWith f (msb n a) (msb n b) := by
  induction n with
  | zero => rfl
  | succ n ih => rw [msb, msb, msb, zipWith_cons_cons, h, ih]

theorem msb_inj {n v u : Nat} (hv : v < 2 ^ n) (hu : u < 2 ^ n) (h : msb n v = msb n u) : v = u := by
  apply Nat.eq_of_testBit_eq
  intro i
  by_cases hi : i < n
  · have hlt : n - 1 - i < (msb n v).length := by rw [msb_length]; omega
    have hlt' : n - 1 - i < (msb n u).length := by rw [msb_length]; omega
    have hsub : n - 1 - (n - 1 - i) = i := by omega
    have hbits : (msb n v)[n - 1 - i] = (msb n u)[n - 1 - i] := by simp only [h]
    rwa [msb_getElem, msb_getElem, hsub] at hbits
  · have hpow : 2 ^ n ≤ 2 ^ i := Nat.pow_le_pow_right (by decide) (by omega)
    rw [Nat.testBit_lt_two_pow (by omega), Nat.testBit_lt_two_pow (by omega)]

/-- Setting the bit of weight `n - 1 - i` sets position `i` of the string. -/
theorem msb_set (n v i : Nat) (hi : i < n) :
    msb n (v ||| 2 ^ (n - 1 - i)) = (msb n v).set i true := by
  apply ext_getElem
  · simp
  · intro j h _
    have hj : j < n := by simpa using h
    rw [msb_getElem, Nat.testBit_or, Nat.testBit_two_pow, getElem_set, msb_getElem]
    by_cases hij : i = j
    · simp [hij]
    · rw [if_neg hij, decide_eq_false (by omega), Bool.or_false]

/-- Clearing it. -/
theorem msb_clear {n v u i : Nat} (hi : i < n) (h : ∀ j, u.testBit j = (v.testBit j && decide (j ≠ n - 1 - i))) :
    msb n u = (msb n v).set i false := by
  apply ext_getElem
  · simp
  · intro j hj _
    have hj' : j < n := by simpa using hj
    rw [msb_getElem, h, getElem_set, msb_getElem]
    by_cases hij : i = j
    · simp [hij]
    · rw [if_neg hij, decide_eq_true (by omega), Bool.and_true]

/-- Strings cut from words of one width determine the words. -/
theorem flatMap_msb_inj {n : Nat} (hn : 0 < n) {xs ys : List Nat} (hx : ∀ x ∈ xs, x < 2 ^ n)
    (hy : ∀ y ∈ ys, y < 2 ^ n) (h : xs.flatMap (msb n) = ys.flatMap (msb n)) : xs = ys := by
  induction xs generalizing ys with
  | nil =>
    cases ys with
    | nil => rfl
    | cons y ys =>
      have hlen := congrArg length h
      simp only [flatMap_nil, length_nil, flatMap_cons, length_append, msb_length] at hlen
      omega
  | cons x xs ih =>
    cases ys with
    | nil =>
      have hlen := congrArg length h
      simp only [flatMap_nil, length_nil, flatMap_cons, length_append, msb_length] at hlen
      omega
    | cons y ys =>
      rw [flatMap_cons, flatMap_cons] at h
      obtain ⟨hhead, htail⟩ := append_inj h (by simp)
      have hxy : x = y := msb_inj (hx x (mem_cons_self ..)) (hy y (mem_cons_self ..)) hhead
      rw [hxy, ih (fun z hz => hx z (mem_cons_of_mem x hz))
        (fun z hz => hy z (mem_cons_of_mem y hz)) htail]

@[simp] theorem flatMap_msb_length (n : Nat) (xs : List Nat) :
    (xs.flatMap (msb n)).length = n * xs.length := by
  induction xs with
  | nil => simp
  | cons x xs ih =>
    rw [flatMap_cons, length_append, msb_length, ih, length_cons, Nat.mul_succ,
      add_comm]

/-- A word is its two halves. -/
theorem halves_append {m n : Nat} (x : BitVec (m + n)) : (x >>> n).setWidth m ++ x.setWidth n = x := by
  apply BitVec.eq_of_getLsbD_eq
  intro i hi
  rw [BitVec.getLsbD_append]
  split
  next hlow => simp [hlow]
  next hhigh =>
    rw [BitVec.getLsbD_setWidth, BitVec.getLsbD_ushiftRight, decide_eq_true (by omega), Bool.true_and]
    congr 1
    omega

end PgStorage.Bits
