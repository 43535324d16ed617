import PgStorage.Wah.Boolean

/-! `c2_and` and `c2_or` are the pointwise operations on bits.

The invariant of the loop is stated on groups: what the result holds, followed by
the combination of what the two cursors have left, is the combination of the two
inputs. Every pass moves some groups from the right of that equation to the left. -/
namespace PgStorage.Wah
open Bits
open List Cursor
open BitVec (eq_of_toNat_eq toNat_and toNat_or lt_def)

/-- The group that a run with header `head` repeats. -/
def headGroup (head : Word) : Word := if head = 3 then allOnes else 0

/-- What the loop relies on, for the bit operation `f`. -/
structure BoolOp.Lawful (op : BoolOp) (f : Bool → Bool → Bool) : Prop where
  bits : ∀ n (a b : Word), msb n (op.word a b).toNat = List.zipWith f (msb n a.toNat) (msb n b.toNat)
  lt : ∀ n (a b : Word), a.toNat < 2 ^ n → b.toNat < 2 ^ n → (op.word a b).toNat < 2 ^ n
  runs : ∀ x y : Word, x = 2 ∨ x = 3 → y = 2 ∨ y = 3 →
    op.word (headGroup x) (headGroup y) = bitGroup (if op.fills (x == 3) (y == 3) then 1 else 0)
  bit : op.absorbing = 0 ∨ op.absorbing = 1
  absorbs : ∀ y : Word, y.toNat < 2 ^ 31 → op.word (headGroup (2 + op.absorbing)) y = bitGroup op.absorbing
  neutral : ∀ x y : Word, x = 2 ∨ x = 3 → x ≠ 2 + op.absorbing → y.toNat < 2 ^ 31 →
    op.word (headGroup x) y = y
  comm : ∀ x y : Word, op.word x y = op.word y x

theorem allOnes_and {y : Word} (h : y.toNat < 2 ^ 31) : allOnes &&& y = y := by
  apply eq_of_toNat_eq
  rw [toNat_and, toNat_allOnes, Nat.and_comm, Nat.and_two_pow_sub_one_eq_mod, Nat.mod_eq_of_lt h]

theorem allOnes_or {y : Word} (h : y.toNat < 2 ^ 31) : allOnes ||| y = allOnes := by
  apply eq_of_toNat_eq
  apply Nat.eq_of_testBit_eq
  intro i
  rw [toNat_or, Nat.testBit_or, toNat_allOnes, Nat.testBit_two_pow_sub_one]
  by_cases hi : i < 31
  · rw [decide_eq_true hi, Bool.true_or]
  · have hpow : 2 ^ 31 ≤ 2 ^ i := Nat.pow_le_pow_right (by decide) (by omega)
    rw [Nat.testBit_lt_two_pow (by omega), Bool.or_false]

theorem and_lawful : BoolOp.and.Lawful (· && ·) where
  bits n a b := by
    show msb n (a &&& b).toNat = _
    rw [toNat_and]
    exact msb_zipWith Nat.testBit_and n _ _
  lt n a b ha _ := by
    show (a &&& b).toNat < _
    rw [toNat_and]
    exact lt_of_le_of_lt Nat.and_le_left ha
  runs x y hx hy := by rcases hx with rfl | rfl <;> rcases hy with rfl | rfl <;> decide
  bit := .inl rfl
  absorbs y _ := BitVec.zero_and
  neutral x y hx hne hy := by
    rcases hx with rfl | rfl
    · exact absurd rfl hne
    · exact allOnes_and hy
  comm := BitVec.and_comm

theorem or_lawful : BoolOp.or.Lawful (· || ·) where
  bits n a b := by
    show msb n (a ||| b).toNat = _
    rw [toNat_or]
    exact msb_zipWith Nat.testBit_or n _ _
  lt n a b ha hb := by
    show (a ||| b).toNat < _
    rw [toNat_or]
    exact Nat.or_lt_two_pow ha hb
  runs x y hx hy := by rcases hx with rfl | rfl <;> rcases hy with rfl | rfl <;> decide
  bit := .inr rfl
  absorbs y hy := allOnes_or hy
  neutral x y hx hne hy := by
    rcases hx with rfl | rfl
    · exact BitVec.zero_or
    · exact absurd rfl hne
  comm := BitVec.or_comm

/-- The groups of the words not yet loaded. -/
def Cursor.tail (bmp : Bitmap) (c : Cursor) : List Word := ((vec bmp).drop c.idx.toNat).flatMap expand

/-- The groups not yet combined. -/
def Cursor.rest (bmp : Bitmap) (c : Cursor) : List Word :=
  List.replicate c.count.toNat (headGroup c.head) ++ c.tail bmp

/-- A cursor between two passes: a count that is left belongs to a run. -/
structure Cursor.Between (bmp : Bitmap) (c : Cursor) : Prop where
  bound : c.idx.toNat ≤ bmp.mSize.toNat
  run : c.count ≠ 0 → c.head = 2 ∨ c.head = 3

/-- A cursor with a word loaded, and the groups it has left. A literal is loaded
whole, whatever its low 30 bits put into the count. -/
inductive Cursor.Loaded (bmp : Bitmap) (c : Cursor) : List Word → Prop where
  | literal : c.head < 2 → c.word.toNat < 2 ^ 31 → Loaded bmp c (c.word :: c.tail bmp)
  | run : c.head = 2 ∨ c.head = 3 → 1 ≤ c.count.toNat → Loaded bmp c (c.rest bmp)

theorem headGroup_fill (w : Word) : headGroup (w >>> 30) = fillGroup w := rfl

variable {bmp : Bitmap} {c : Cursor}

theorem Cursor.tail_succ (h : Stored bmp) (hlt : c.idx.toNat < bmp.mSize.toNat) :
    (c.idx + 1).toNat = c.idx.toNat + 1 ∧ bmp.mVec.getD c.idx.toNat 0 ∈ vec bmp ∧
      c.tail bmp = expand (bmp.mVec.getD c.idx.toNat 0) ++ ((vec bmp).drop (c.idx.toNat + 1)).flatMap expand := by
  have hlen : c.idx.toNat < (vec bmp).length := by rw [vec_length h]; exact hlt
  have hget : bmp.mVec.getD c.idx.toNat 0 = (vec bmp)[c.idx.toNat] := by
    simp only [vec, getElem_take]
    exact getD_eq_getElem _ _ (by have := h.allocated; omega)
  refine ⟨?_, ?_, ?_⟩
  · rw [BitVec.toNat_add]
    exact Nat.mod_eq_of_lt (by have := bmp.mSize.isLt; show c.idx.toNat + 1 < _; omega)
  · rw [hget]
    exact getElem_mem hlen
  · rw [tail, drop_eq_getElem_cons hlen, flatMap_cons, hget]

/-- Loading moves nothing: the loaded cursor has left what the cursor had left. It
uses up a word of the bitmap unless a run was left. -/
theorem Cursor.fetch_spec (h : Stored bmp) (hc : c.Between bmp) :
    (c.fetch bmp = none ∧ c.rest bmp = []) ∨
      ∃ c', c.fetch bmp = some c' ∧ c'.Loaded bmp (c.rest bmp) ∧ c'.idx.toNat ≤ bmp.mSize.toNat ∧
        c.idx.toNat ≤ c'.idx.toNat ∧ (c.count = 0 → c.idx.toNat < c'.idx.toNat) := by
  unfold fetch
  by_cases h0 : c.count = 0
  · have hrest : c.rest bmp = c.tail bmp := by
      rw [rest, h0]
      rfl
    rw [if_pos h0, hrest]
    by_cases hend : bmp.mSize ≤ c.idx
    · rw [if_pos hend]
      refine .inl ⟨rfl, ?_⟩
      rw [tail, drop_eq_nil_of_le (by rw [vec_length h]; exact hend), flatMap_nil]
    · have hlt : c.idx.toNat < bmp.mSize.toNat := Nat.lt_of_not_le hend
      obtain ⟨hidx, hmem, htail⟩ := tail_succ h hlt
      rw [if_neg hend, htail]
      generalize bmp.mVec.getD c.idx.toNat 0 = x at hmem ⊢
      refine .inr ⟨_, rfl, ?_, by dsimp only; omega, by dsimp only; omega, fun _ => by dsimp only; omega⟩
      by_cases hfill : IsFill x
      · have hrun : Cursor.Loaded bmp ⟨c.idx + 1, x, x >>> 30, x &&& ~~~header1F⟩ _ :=
          .run (isFill_head hfill) (h.fills x hmem hfill)
        rw [rest, tail] at hrun
        dsimp only at hrun
        rw [headGroup_fill, hidx] at hrun
        rw [expand, if_pos hfill]
        exact hrun
      · have hlit : Cursor.Loaded bmp ⟨c.idx + 1, x, x >>> 30, x &&& ~~~header1F⟩ _ :=
          .literal (BitVec.not_le.mp hfill) (by rw [isFill_iff] at hfill; dsimp only; omega)
        rw [tail] at hlit
        dsimp only at hlit
        rw [hidx] at hlit
        rw [expand, if_neg hfill]
        exact hlit
  · rw [if_neg h0]
    exact .inr ⟨c, rfl, .run (hc.run h0) (toNat_pos_of_ne h0), hc.bound, le_refl _, fun h => absurd h h0⟩

/-! ### One pass -/

/-- The result grows by whole groups; its active word stays empty. -/
structure Emits (r r' : Bitmap) (gs : List Word) : Prop where
  stored : Stored r'
  active : r'.active = ⟨0, 0⟩
  groups : groups r' = groups r ++ gs
  tidy : Tidy r → Tidy r'

theorem appendCounter_emits {r : Bitmap} {val : Word} (cnt : Word) (h : Stored r) (ha : r.active = ⟨0, 0⟩)
    (hv : val = 0 ∨ val = 1) (hc : 1 ≤ cnt.toNat) (hlen : 31 * ((groups r).length + cnt.toNat) < 2 ^ 32) :
    Emits r (appendCounter r val cnt) (replicate cnt.toNat (bitGroup val)) := by
  obtain ⟨hs, hg, hactive, hkeeps⟩ := appendCounter_spec h hv hc hlen
  exact ⟨hs, hactive.trans ha, hg, hkeeps.tidy⟩

theorem appendWord_emits {r : Bitmap} {w : Word} (h : Stored r) (ha : r.active = ⟨0, 0⟩)
    (hw : w.toNat < 2 ^ 31) (hlen : 31 * ((groups r).length + 1) < 2 ^ 32) : Emits r (appendWord r w) [w] := by
  have hhead : ¬ (1 : Word) < w >>> 30 := by
    rw [lt_def, toNat_head]
    show ¬ 1 < _
    omega
  have h0 : r.active.nbits = 0 := by rw [ha]
  obtain ⟨hs, hg, hactive, hkeeps⟩ := appendActive_spec (h.withActive ⟨w, r.active.nbits⟩) hw hlen
  simp only [appendWord, h0, ne_eq, not_true_eq_false, if_false, if_neg hhead] at hs hg hactive hkeeps ⊢
  exact ⟨hs, hactive, hg, fun ht => hkeeps.tidy (ht.withCounters rfl rfl)⟩

/-- One pass combines the next `n` groups of both sides, and at most one side keeps
a run. -/
structure Combined (op : BoolOp) (bmpa bmpb : Bitmap) (x y : Cursor) (r : Bitmap) (gx gy : List Word) (n : Nat)
    (x' y' : Cursor) (r' : Bitmap) : Prop where
  left : x'.Between bmpa
  right : y'.Between bmpb
  leftIdx : x'.idx = x.idx
  rightIdx : y'.idx = y.idx
  spent : x'.count = 0 ∨ y'.count = 0
  leftRest : x'.rest bmpa = gx.drop n
  rightRest : y'.rest bmpb = gy.drop n
  emits : Emits r r' ((List.zipWith op.word gx gy).take n)

/-- What is left of a run. -/
theorem rest_sub {n : Word} (h : n.toNat ≤ c.count.toNat) :
    rest bmp {c with count := c.count - n} = (c.rest bmp).drop n.toNat := by
  have hsub : (c.count - n).toNat = c.count.toNat - n.toNat := BitVec.toNat_sub_of_le h
  rw [rest, rest, drop_append_of_le_length (by rw [length_replicate]; exact h),
    drop_replicate]
  dsimp only
  rw [hsub]
  rfl

theorem rest_take {n : Nat} (h : n ≤ c.count.toNat) :
    (c.rest bmp).take n = replicate n (headGroup c.head) := by
  rw [rest, take_append_of_le_length (by rw [length_replicate]; exact h), take_replicate,
    min_eq_left h]

theorem head_run {head : Word} (h : head = 2 ∨ head = 3) : ¬ head < 2 ∧ (1 : Word) < head := by
  rcases h with rfl | rfl <;> decide

theorem head_literal {head : Word} (h : head < 2) : ¬ (1 : Word) < head := by
  rw [lt_def] at h ⊢
  show ¬ 1 < head.toNat
  have : head.toNat < 2 := h
  omega

section
variable {op : BoolOp} {f : Bool → Bool → Bool} {bmpa bmpb r : Bitmap} {x y : Cursor}

section
variable (hop : op.Lawful f) (hr : Stored r) (ha : r.active = ⟨0, 0⟩)
include hop hr ha

/-- Two literals. -/
theorem combine_literals
    (hlen : 31 * ((groups r).length + 1) < 2 ^ 32) (hxi : x.idx.toNat ≤ bmpa.mSize.toNat)
    (hyi : y.idx.toNat ≤ bmpb.mSize.toNat) (hx : x.head < 2) (hy : y.head < 2)
    (hxw : x.word.toNat < 2 ^ 31) (hyw : y.word.toNat < 2 ^ 31) :
    Combined op bmpa bmpb x y r (x.word :: x.tail bmpa) (y.word :: y.tail bmpb) 1
      (c2Combine op x y r).1 (c2Combine op x y r).2.1 (c2Combine op x y r).2.2 := by
  have hcase : c2Combine op x y r = ({x with count := 0}, {y with count := 0}, appendWord r (op.word x.word y.word)) := by
    rw [c2Combine, if_pos ⟨hx, hy⟩]
  rw [hcase]
  exact ⟨⟨hxi, fun h => absurd rfl h⟩, ⟨hyi, fun h => absurd rfl h⟩, rfl, rfl, .inl rfl, rfl, rfl,
    appendWord_emits hr ha (hop.lt 31 _ _ hxw hyw) hlen⟩

/-- Two runs: the shorter one is used up. -/
theorem combine_runs
    (hxi : x.idx.toNat ≤ bmpa.mSize.toNat) (hyi : y.idx.toNat ≤ bmpb.mSize.toNat)
    (hx : x.head = 2 ∨ x.head = 3) (hy : y.head = 2 ∨ y.head = 3) (hxc : 1 ≤ x.count.toNat) (hyc : 1 ≤ y.count.toNat)
    (hlen : 31 * ((groups r).length + min x.count.toNat y.count.toNat) < 2 ^ 32) :
    Combined op bmpa bmpb x y r (x.rest bmpa) (y.rest bmpb) (min x.count.toNat y.count.toNat)
      (c2Combine op x y r).1 (c2Combine op x y r).2.1 (c2Combine op x y r).2.2 := by
  have hmin : (if y.count < x.count then y.count else x.count).toNat = min x.count.toNat y.count.toNat := by
    split <;> rename_i hlt <;> rw [lt_def] at hlt <;> omega
  have hspent : x.count - (if y.count < x.count then y.count else x.count) = 0 ∨
      y.count - (if y.count < x.count then y.count else x.count) = 0 := by
    split
    · exact .inr (BitVec.sub_self _)
    · exact .inl (BitVec.sub_self _)
  obtain ⟨hx2, hx1⟩ := head_run hx
  obtain ⟨-, hy1⟩ := head_run hy
  simp only [c2Combine, hx2, false_and, if_false, if_pos (And.intro hx1 hy1)]
  generalize (if y.count < x.count then y.count else x.count) = countMin at hmin hspent ⊢
  have hbit : (if op.fills (x.head == 3) (y.head == 3) then (1 : Word) else 0) = 0 ∨
      (if op.fills (x.head == 3) (y.head == 3) then (1 : Word) else 0) = 1 := by
    split
    · exact .inr rfl
    · exact .inl rfl
  have hemits := appendCounter_emits countMin hr ha hbit (by omega) (by omega)
  refine ⟨⟨hxi, fun _ => hx⟩, ⟨hyi, fun _ => hy⟩, rfl, rfl, hspent, ?_, ?_, ?_⟩
  · rw [rest_sub (by omega), hmin]
  · rw [rest_sub (by omega), hmin]
  · rw [take_zipWith, rest_take (by omega), rest_take (by omega), zipWith_replicate, min_self,
      hop.runs _ _ hx hy, ← hmin]
    exact hemits

/-- A run against a literal: one group of the run is used. -/
theorem combine_run_literal
    (hlen : 31 * ((groups r).length + 1) < 2 ^ 32) (hxi : x.idx.toNat ≤ bmpa.mSize.toNat)
    (hyi : y.idx.toNat ≤ bmpb.mSize.toNat) (hx : x.head = 2 ∨ x.head = 3) (hxc : 1 ≤ x.count.toNat)
    (hy : y.head < 2) (hyw : y.word.toNat < 2 ^ 31) :
    Combined op bmpa bmpb x y r (x.rest bmpa) (y.word :: y.tail bmpb) 1
      (c2Combine op x y r).1 (c2Combine op x y r).2.1 (c2Combine op x y r).2.2 := by
  obtain ⟨hx2, hx1⟩ := head_run hx
  have hy1 := head_literal hy
  simp only [c2Combine, hx2, false_and, hy1, and_false, if_false, if_pos hx1]
  refine ⟨⟨hxi, fun _ => hx⟩, ⟨hyi, fun h => absurd rfl h⟩, rfl, rfl, .inr rfl, rest_sub (n := 1) hxc, rfl, ?_⟩
  rw [take_zipWith, rest_take hxc]
  show Emits r _ [op.word (headGroup x.head) y.word]
  split
  · rename_i habs
    rw [habs, hop.absorbs _ hyw]
    exact appendCounter_emits 1 hr ha hop.bit (by decide) hlen
  · rename_i habs
    rw [hop.neutral _ _ hx habs hyw]
    exact appendWord_emits hr ha hyw hlen

/-- The mirrored case. -/
theorem combine_literal_run
    (hlen : 31 * ((groups r).length + 1) < 2 ^ 32) (hxi : x.idx.toNat ≤ bmpa.mSize.toNat)
    (hyi : y.idx.toNat ≤ bmpb.mSize.toNat) (hy : y.head = 2 ∨ y.head = 3) (hyc : 1 ≤ y.count.toNat)
    (hx : x.head < 2) (hxw : x.word.toNat < 2 ^ 31) :
    Combined op bmpa bmpb x y r (x.word :: x.tail bmpa) (y.rest bmpb) 1
      (c2Combine op x y r).1 (c2Combine op x y r).2.1 (c2Combine op x y r).2.2 := by
  obtain ⟨hy2, hy1⟩ := head_run hy
  have hx1 := head_literal hx
  simp only [c2Combine, hy2, and_false, hx1, false_and, if_false]
  refine ⟨⟨hxi, fun h => absurd rfl h⟩, ⟨hyi, fun _ => hy⟩, rfl, rfl, .inl rfl, rfl, rest_sub (n := 1) hyc, ?_⟩
  rw [take_zipWith, rest_take hyc]
  show Emits r _ [op.word x.word (headGroup y.head)]
  rw [hop.comm]
  split
  · rename_i habs
    rw [habs, hop.absorbs _ hxw]
    exact appendCounter_emits 1 hr ha hop.bit (by decide) hlen
  · rename_i habs
    rw [hop.neutral _ _ hy habs hxw]
    exact appendWord_emits hr ha hxw hlen

end

theorem Cursor.Loaded.pos {c : Cursor} {gs : List Word} (h : c.Loaded bmpa gs) : 1 ≤ gs.length := by
  cases h with
  | literal _ _ => rw [length_cons]; omega
  | run _ hc => rw [rest, length_append, length_replicate]; omega

/-- Whatever is loaded, a pass combines at least one group. -/
theorem c2Combine_spec (hop : op.Lawful f) (hr : Stored r) (ha : r.active = ⟨0, 0⟩) {gx gy : List Word}
    (hx : x.Loaded bmpa gx) (hy : y.Loaded bmpb gy) (hxi : x.idx.toNat ≤ bmpa.mSize.toNat)
    (hyi : y.idx.toNat ≤ bmpb.mSize.toNat) (hlen : 31 * ((groups r).length + gx.length) < 2 ^ 32) :
    ∃ n, Combined op bmpa bmpb x y r gx gy n
      (c2Combine op x y r).1 (c2Combine op x y r).2.1 (c2Combine op x y r).2.2 := by
  have hone : 31 * ((groups r).length + 1) < 2 ^ 32 := by
    have := hx.pos
    omega
  cases hx with
  | literal hxh hxw =>
    cases hy with
    | literal hyh hyw => exact ⟨_, combine_literals hop hr ha hone hxi hyi hxh hyh hxw hyw⟩
    | run hyh hyc => exact ⟨_, combine_literal_run hop hr ha hone hxi hyi hyh hyc hxh hxw⟩
  | run hxh hxc =>
    cases hy with
    | literal hyh hyw => exact ⟨_, combine_run_literal hop hr ha hone hxi hyi hxh hxc hyh hyw⟩
    | run hyh hyc =>
      refine ⟨_, combine_runs hop hr ha hxi hyi hxh hyh hxc hyc ?_⟩
      rw [rest, length_append, length_replicate] at hlen
      omega

/-! ### The loop -/

/-- The invariant at the head of the loop. -/
structure C2Inv (op : BoolOp) (bmpa bmpb : Bitmap) (s : Cursor × Cursor × Bitmap) : Prop where
  left : s.1.Between bmpa
  right : s.2.1.Between bmpb
  spent : s.1.count = 0 ∨ s.2.1.count = 0
  stored : Stored s.2.2
  active : s.2.2.active = ⟨0, 0⟩
  tidy : Tidy s.2.2
  lengths : (s.1.rest bmpa).length = (s.2.1.rest bmpb).length
  result : groups s.2.2 ++ List.zipWith op.word (s.1.rest bmpa) (s.2.1.rest bmpb) =
    List.zipWith op.word (groups bmpa) (groups bmpb)

/-- The words still to be loaded. -/
def c2Measure (bmpa bmpb : Bitmap) (s : Cursor × Cursor × Bitmap) : Nat :=
  (bmpa.mSize.toNat - s.1.idx.toNat) + (bmpb.mSize.toNat - s.2.1.idx.toNat)

theorem c2Body_preserves (hop : op.Lawful f) (ha : Stored bmpa) (hb : Stored bmpb)
    (s : Cursor × Cursor × Bitmap) (h : C2Inv op bmpa bmpb s) :
    Loop.Preserves (c2Body op bmpa bmpb) (C2Inv op bmpa bmpb) (c2Measure bmpa bmpb)
      (fun r => Emits makeBitmap r (zipWith op.word (groups bmpa) (groups bmpb))) s := by
  obtain ⟨x, y, r⟩ := s
  have hresult := h.result
  have hlengths := h.lengths
  have hspent := h.spent
  dsimp only at hresult hlengths hspent
  -- a side that is used up ends the loop, and then nothing is left to combine
  have hdone (hnil : zipWith op.word (x.rest bmpa) (y.rest bmpb) = []) :
      Emits makeBitmap r (zipWith op.word (groups bmpa) (groups bmpb)) := by
    rw [hnil, append_nil] at hresult
    exact ⟨h.stored, h.active, hresult, fun _ => h.tidy⟩
  rcases fetch_spec ha h.left with ⟨hx, hxnil⟩ | ⟨x', hx, hxl, hxb, hxle, hxlt⟩
  · simp only [Loop.Preserves, c2Body, hx]
    exact hdone (by rw [hxnil, zipWith_nil_left])
  rcases fetch_spec hb h.right with ⟨hy, hynil⟩ | ⟨y', hy, hyl, hyb, hyle, hylt⟩
  · simp only [Loop.Preserves, c2Body, hx, hy]
    exact hdone (by rw [hynil, zipWith_nil_right])
  simp only [Loop.Preserves, c2Body, hx, hy]
  have hbound : 31 * ((groups r).length + (x.rest bmpa).length) < 2 ^ 32 := by
    have hsum := congrArg length hresult
    rw [length_append, length_zipWith, length_zipWith, ← hlengths, min_self] at hsum
    have hcount := ha.count
    have hlt := bmpa.nbits.isLt
    omega
  obtain ⟨n, hc⟩ := c2Combine_spec hop h.stored h.active hxl hyl hxb hyb hbound
  refine ⟨⟨hc.left, hc.right, hc.spent, hc.emits.stored, hc.emits.active, hc.emits.tidy h.tidy, ?_, ?_⟩, ?_⟩
  · rw [hc.leftRest, hc.rightRest, length_drop, length_drop]
    exact congrArg (· - n) hlengths
  · rw [hc.emits.groups, hc.leftRest, hc.rightRest, ← drop_zipWith, append_assoc, take_append_drop]
    exact hresult
  · simp only [c2Measure, hc.leftIdx, hc.rightIdx]
    dsimp only at hxle hyle hxlt hylt
    rcases hspent with h0 | h0
    · have := hxlt h0
      omega
    · have := hylt h0
      omega

theorem start_inv (hlen : (groups bmpa).length = (groups bmpb).length) :
    C2Inv op bmpa bmpb (.start, .start, makeBitmap) where
  left := ⟨Nat.zero_le _, fun h => absurd rfl h⟩
  right := ⟨Nat.zero_le _, fun h => absurd rfl h⟩
  spent := .inl rfl
  stored := makeBitmap_wellFormed.toStored
  active := rfl
  tidy := makeBitmap_tidy
  lengths := hlen
  result := rfl

/-- The loop ends and leaves the groups combined pairwise. -/
theorem c2Loop_spec (hop : op.Lawful f) (ha : Stored bmpa) (hb : Stored bmpb)
    (hlen : (groups bmpa).length = (groups bmpb).length) {fuel : Nat}
    (hfuel : bmpa.mSize.toNat + bmpb.mSize.toNat < fuel) :
    ∃ r, Loop.iterate (c2Body op bmpa bmpb) fuel (.start, .start, makeBitmap) = some r ∧
      Emits makeBitmap r (zipWith op.word (groups bmpa) (groups bmpb)) :=
  Loop.iterate_of_invariant (c2Body_preserves hop ha hb) _ (start_inv hlen) fuel hfuel

theorem groupBits_zipWith (hop : op.Lawful f) {gs hs : List Word} (hlen : gs.length = hs.length) :
    groupBits (zipWith op.word gs hs) = zipWith f (groupBits gs) (groupBits hs) := by
  induction gs generalizing hs with
  | nil =>
    rw [length_nil] at hlen
    rw [eq_nil_of_length_eq_zero hlen.symm]
    rfl
  | cons g gs ih =>
    cases hs with
    | nil => simp at hlen
    | cons h hs =>
      have hcons (g : Word) (gs : List Word) : groupBits (g :: gs) = msb 31 g.toNat ++ groupBits gs := rfl
      rw [zipWith_cons_cons, hcons, hcons, hcons, ih (by simpa using hlen), hop.bits,
        zipWith_append (by simp)]

theorem lengths_split {a b : Bitmap} (ha : WellFormed a) (hb : WellFormed b)
    (h : (decode a).length = (decode b).length) :
    (groups a).length = (groups b).length ∧ a.active.nbits = b.active.nbits := by
  rw [decode_length, decode_length] at h
  have := ha.activeBits
  have := hb.activeBits
  exact ⟨by omega, eq_of_toNat_eq (by omega)⟩

/-- The active words complete the result. -/
theorem c2Finish_spec (hop : op.Lawful f) {a b : Bitmap} (ha : WellFormed a) (hb : WellFormed b)
    (hlen : (decode a).length = (decode b).length)
    (hr : Emits makeBitmap r (zipWith op.word (groups a) (groups b))) :
    WellFormed (c2Finish op a b r) ∧ decode (c2Finish op a b r) = zipWith f (decode a) (decode b) ∧
      Tidy (c2Finish op a b r) := by
  obtain ⟨hgroups, hactive⟩ := lengths_split ha hb hlen
  have hrg : groups r = zipWith op.word (groups a) (groups b) := hr.groups
  have hrlen : (groups r).length = (groups a).length := by
    rw [hrg, length_zipWith, ← hgroups, min_self]
  have htidy : Tidy (c2Finish op a b r) := by
    unfold c2Finish
    split <;> exact (hr.tidy makeBitmap_tidy).withCounters rfl rfl
  have hwf : WellFormed (c2Finish op a b r) ∧ decode (c2Finish op a b r) =
      groupBits (groups r) ++ msb a.active.nbits.toNat (op.word a.active.val b.active.val).toNat := by
    have hvalb := hb.activeVal
    rw [← hactive] at hvalb
    have hval := hop.lt _ _ _ ha.activeVal hvalb
    have hbits := ha.activeBits
    have hsize := ha.length
    rw [decode_length] at hsize
    unfold c2Finish
    split
    · exact ⟨wellFormed_of_stored (hr.stored.withActive _) hbits hval
        (by show 31 * (groups r).length + _ < _; dsimp only; omega), decode_withActive ..⟩
    · rename_i h0
      have h0' : a.active.nbits = 0 := not_not.mp h0
      refine ⟨wellFormed_of_stored hr.stored ?_ ?_ ?_, ?_⟩
      · rw [hr.active]; decide
      · rw [hr.active]; decide
      · rw [hr.active, hrlen]
        show 31 * (groups a).length + 0 < _
        omega
      · rw [decode_eq, hr.active, h0']
        rfl
  refine ⟨hwf.1, ?_, htidy⟩
  rw [hwf.2, hrg, groupBits_zipWith hop hgroups, hop.bits, decode_eq a, decode_eq b, ← hactive,
    zipWith_append (by rw [groupBits_length, groupBits_length, hgroups])]

/-- On well-formed bitmaps of one length the operation ends, is pointwise and
keeps well-formedness; its result is canonical, whatever its inputs are. -/
theorem c2Op_spec (hop : op.Lawful f) {a b : Bitmap} (ha : WellFormed a) (hb : WellFormed b)
    (hlen : (decode a).length = (decode b).length) (fuel : Nat) (hfuel : a.mSize.toNat + b.mSize.toNat < fuel) :
    ∃ r, c2Op op fuel a b = some r ∧ WellFormed r ∧ decode r = zipWith f (decode a) (decode b) ∧ Tidy r := by
  obtain ⟨r, hloop, hr⟩ := c2Loop_spec hop ha.toStored hb.toStored (lengths_split ha hb hlen).1 hfuel
  exact ⟨c2Finish op a b r, by rw [c2Op, hloop, Option.map_some], c2Finish_spec hop ha hb hlen hr⟩

end

/-- **AND and OR of two well-formed bitmaps of one length end, whatever mix of
literals and runs they hold; the results are well-formed and decode to the
pointwise operations.** -/
theorem c2_pointwise (a b : Bitmap) (ha : WellFormed a) (hb : WellFormed b)
    (hlen : (decode a).length = (decode b).length) (fuel : Nat) (hfuel : a.mSize.toNat + b.mSize.toNat < fuel) :
    (∃ r, c2And fuel a b = some r ∧ WellFormed r ∧ decode r = List.zipWith (· && ·) (decode a) (decode b)) ∧
      ∃ r, c2Or fuel a b = some r ∧ WellFormed r ∧ decode r = List.zipWith (· || ·) (decode a) (decode b) := by
  obtain ⟨r, hr, hwf, hdecode, -⟩ := c2Op_spec and_lawful ha hb hlen fuel hfuel
  obtain ⟨s, hs, hwf', hdecode', -⟩ := c2Op_spec or_lawful ha hb hlen fuel hfuel
  exact ⟨⟨r, hr, hwf, hdecode⟩, ⟨s, hs, hwf', hdecode'⟩⟩

/-- A run of ones across a literal and a zero run, with 3 bits in the active words. -/
theorem c2_pointwise_runs :
    ∃ r, c2And 5 ⟨false, 93, [0xC0000002, 0x00000005], 2, ⟨6, 3⟩⟩ ⟨false, 93, [0x40000000, 0x80000002], 2, ⟨3, 3⟩⟩ =
        some r ∧ WellFormed r ∧
      decode r = List.zipWith (· && ·) (decode ⟨false, 93, [0xC0000002, 0x00000005], 2, ⟨6, 3⟩⟩)
        (decode ⟨false, 93, [0x40000000, 0x80000002], 2, ⟨3, 3⟩⟩) :=
  (c2_pointwise ⟨false, 93, [0xC0000002, 0x00000005], 2, ⟨6, 3⟩⟩ ⟨false, 93, [0x40000000, 0x80000002], 2, ⟨3, 3⟩⟩
    (by decide +kernel) (by decide +kernel) (by decide +kernel) 5 (by decide)).1

end PgStorage.Wah
