import PgStorage.Wah.Append

/-! Any sequence of appends, from the empty bitmap. -/
namespace PgStorage.Wah
open Bits
open List

theorem allOnes_lt_iff (w : Word) : allOnes < w ↔ IsFill w := by
  rw [BitVec.lt_def, toNat_allOnes, isFill_iff]
  omega

/-- `do_cnt`'s loop adds 31 for every group, modulo 2^32. -/
theorem doCnt_fold (ws : List Word) (cnt : Word) :
    (ws.foldl (fun cnt w => if allOnes < w then cnt + (w &&& ~~~header1F) * maxBits else cnt + maxBits) cnt).toNat =
      (cnt.toNat + 31 * (ws.flatMap expand).length) % 2 ^ 32 := by
  induction ws generalizing cnt with
  | nil => exact (Nat.mod_eq_of_lt cnt.isLt).symm
  | cons w ws ih =>
    rw [foldl_cons, ih, flatMap_cons, length_append]
    by_cases hfill : allOnes < w
    · have hlen : (expand w).length = fillCount w := by
        rw [expand, if_pos ((allOnes_lt_iff w).mp hfill), length_replicate]
      have hmul : ((w &&& ~~~header1F) * maxBits).toNat = 31 * fillCount w % 2 ^ 32 := by
        rw [BitVec.toNat_mul, mul_comm]
        rfl
      rw [if_pos hfill, BitVec.toNat_add, hmul, hlen]
      omega
    · have hlen : (expand w).length = 1 := by
        rw [expand, if_neg (mt (allOnes_lt_iff w).mpr hfill), length_singleton]
      rw [if_neg hfill, BitVec.toNat_add, hlen]
      show ((cnt.toNat + 31) % 2 ^ 32 + _) % 2 ^ 32 = _
      omega

/-- On a well-formed bitmap the two counts of `bitmapSize` agree. -/
theorem doCnt_eq {bmp : Bitmap} (h : Stored bmp) : doCnt bmp = bmp.nbits + bmp.active.nbits := by
  have hfold := doCnt_fold (vec bmp) 0
  have hcount := h.count
  have hlt := bmp.nbits.isLt
  rw [doCnt]
  congr 1
  apply BitVec.eq_of_toNat_eq
  rw [vec] at hfold
  rw [hfold, hcount]
  show (0 + 31 * (groups bmp).length) % 2 ^ 32 = _
  omega

theorem toNat_bitmapSize {bmp : Bitmap} (h : WellFormed bmp) : (bitmapSize bmp).toNat = (decode bmp).length := by
  have hlen := h.length
  rw [decode_length] at hlen ⊢
  have hsum : (bmp.nbits + bmp.active.nbits).toNat = 31 * (groups bmp).length + bmp.active.nbits.toNat := by
    rw [BitVec.toNat_add, h.count]
    exact Nat.mod_eq_of_lt hlen
  simp only [bitmapSize, doCnt_eq h.toStored, ite_self]
  exact hsum

/-- One call of an append routine. -/
inductive Append where
  | oneBit (val : Word)
  | bits (val n : Word)
  | word (w : Word)
  deriving DecidableEq

namespace Append

/-- The routines' preconditions: bits are 0 or 1, a fill word has at least one group. -/
def Valid : Append → Prop
  | .oneBit val => val = 0 ∨ val = 1
  | .bits val _ => val = 0 ∨ val = 1
  | .word w => Appendable w

instance : (op : Append) → Decidable op.Valid
  | .oneBit val => inferInstanceAs (Decidable (val = 0 ∨ val = 1))
  | .bits val _ => inferInstanceAs (Decidable (val = 0 ∨ val = 1))
  | .word w => inferInstanceAs (Decidable (w.toNat < 2 ^ 31 ∨ (IsFill w ∧ 1 ≤ fillCount w)))

/-- The bits a call appends. -/
def piece : Append → List Bool
  | .oneBit val => [decide (val = 1)]
  | .bits val n => List.replicate n.toNat (decide (val = 1))
  | .word w => wordBits w

def apply (bmp : Bitmap) : Append → Bitmap
  | .oneBit val => appendOneBit bmp val
  | .bits val n => appendBits bmp val n
  | .word w => appendWord bmp w

/-- One call appends its piece. -/
theorem apply_spec {bmp : Bitmap} {op : Append} (h : WellFormed bmp) (hv : op.Valid)
    (hlen : (decode bmp).length + op.piece.length < 2 ^ 32) : Appends bmp (op.apply bmp) op.piece := by
  cases op with
  | oneBit val => exact appendOneBit_spec h hv hlen
  | bits val n =>
    rw [piece, length_replicate] at hlen
    exact appendBits_spec h hv hlen
  | word w => exact appendWord_spec h hv hlen

/-- The calls in order, from some bitmap. -/
def run (bmp : Bitmap) (ops : List Append) : Bitmap := ops.foldl Append.apply bmp

theorem run_spec {bmp : Bitmap} (h : WellFormed bmp) (ops : List Append) (hv : ∀ op ∈ ops, op.Valid)
    (hlen : (decode bmp).length + (ops.flatMap piece).length < 2 ^ 32) :
    Appends bmp (run bmp ops) (ops.flatMap piece) := by
  induction ops generalizing bmp with
  | nil => exact .refl h
  | cons op rest ih =>
    rw [flatMap_cons, length_append] at hlen
    have hstep := apply_spec h (hv op (mem_cons_self ..)) (by omega)
    have hrest := ih hstep.wellFormed (fun o ho => hv o (mem_cons_of_mem op ho)) (by rw [hstep.length]; omega)
    rw [flatMap_cons]
    exact hstep.trans hrest

end Append

/-- **After every step of any history the bitmap is well-formed, its two counts
agree, and it decodes to what has been appended so far.** -/
theorem history_decode (ops : List Append) (hv : ∀ op ∈ ops, op.Valid)
    (hlen : (ops.flatMap Append.piece).length < 2 ^ 32) (k : Nat) :
    WellFormed (Append.run makeBitmap (ops.take k)) ∧
      (Append.run makeBitmap (ops.take k)).nbits + (Append.run makeBitmap (ops.take k)).active.nbits =
        doCnt (Append.run makeBitmap (ops.take k)) ∧
      decode (Append.run makeBitmap (ops.take k)) = (ops.take k).flatMap Append.piece := by
  have hprefix : ((ops.take k).flatMap Append.piece).length ≤ (ops.flatMap Append.piece).length := by
    conv_rhs => rw [← take_append_drop k ops, flatMap_append, length_append]
    omega
  have hempty : decode makeBitmap = [] := rfl
  obtain ⟨hwf, hdecode, -⟩ := Append.run_spec makeBitmap_wellFormed (ops.take k)
    (fun op hop => hv op (mem_of_mem_take hop)) (by rw [hempty, length_nil]; omega)
  exact ⟨hwf, (doCnt_eq hwf.toStored).symm, hdecode⟩

/-- A literal, ones across a group boundary, a fill of three groups on a partly
filled active word, and a single bit. -/
theorem history_decode_mixed :
    decode (Append.run makeBitmap
        ([.word 0x7C0001E0, .bits 1 40, .word 0x80000003, .oneBit 1].take 4)) =
      ([.word 0x7C0001E0, .bits 1 40, .word 0x80000003, .oneBit 1].take 4 : List Append).flatMap Append.piece :=
  (history_decode [.word 0x7C0001E0, .bits 1 40, .word 0x80000003, .oneBit 1] (by decide +kernel) (by decide +kernel) 4).2.2

end PgStorage.Wah
