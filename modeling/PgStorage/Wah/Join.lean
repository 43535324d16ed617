import PgStorage.Wah.Guard

/-! What appending a bitmap makes of the two active words.

`appendBitmap` should shift the first active word before it fills in bits of the second; its shifts have no effect. So
the join comes out right when the first has no bit set, and when it has no bits at all. -/
namespace PgStorage.Wah
open Bits
open List Nat
open BitVec (eq_of_toNat_eq toNat_or)

/-- Filling in without shifting is right for zero only. -/
theorem or_eq_shift_iff {v u k : Nat} (hu : u < 2 ^ k) (hk : 0 < k) : v ||| u = v * 2 ^ k + u ↔ v = 0 := by
  constructor
  · intro heq
    by_contra hv
    have hlog : v < 2 ^ (v.log2 + 1) := lt_log2_self
    have hle := Nat.log2_self_le hv
    have hor : v ||| u < 2 ^ (v.log2 + k) :=
      Nat.or_lt_two_pow (Nat.lt_of_lt_of_le hlog (Nat.pow_le_pow_right (by decide) (by omega)))
        (Nat.lt_of_lt_of_le hu (Nat.pow_le_pow_right (by decide) (by omega)))
    have hshift : 2 ^ (v.log2 + k) ≤ v * 2 ^ k := by
      rw [pow_add]
      exact mul_le_mul_right _ hle
    omega
  · rintro rfl
    rw [zero_or, zero_mul, zero_add]

theorem msb_or_iff {n k v u : Nat} (hv : v < 2 ^ n) (hu : u < 2 ^ k) (hk : 0 < k) :
    msb (n + k) (v ||| u) = msb n v ++ msb k u ↔ v = 0 := by
  have hor : v ||| u < 2 ^ (n + k) :=
    Nat.or_lt_two_pow (Nat.lt_of_lt_of_le hv (Nat.pow_le_pow_right (by decide) (by omega)))
      (Nat.lt_of_lt_of_le hu (Nat.pow_le_pow_right (by decide) (by omega)))
  have hshift : v * 2 ^ k + u < 2 ^ (n + k) :=
    calc v * 2 ^ k + u < v * 2 ^ k + 2 ^ k := Nat.add_lt_add_left hu _
      _ = (v + 1) * 2 ^ k := (Nat.succ_mul v _).symm
      _ ≤ 2 ^ n * 2 ^ k := mul_le_mul_right _ hv
      _ = 2 ^ (n + k) := (pow_add 2 n k).symm
  rw [← msb_append n k v u hu, ← or_eq_shift_iff hu hk]
  exact ⟨msb_inj hor hshift, congrArg _⟩

theorem msb_eq_zero_iff {n v : Nat} (hv : v < 2 ^ n) : (∀ bit ∈ msb n v, bit = false) ↔ v = 0 := by
  constructor
  · intro h
    refine msb_inj hv (Nat.two_pow_pos n) ?_
    rw [msb_zero]
    exact eq_replicate_iff.mpr ⟨msb_length n v, h⟩
  · rintro rfl bit hbit
    rw [msb_zero] at hbit
    exact eq_of_mem_replicate hbit

/-! ### Bitmaps -/

/-- What the join of active words owes. -/
theorem mergeActive_bits {bmp bmpa : Bitmap} (h : WellFormed bmp) (ha : WellFormed bmpa)
    (hlen : (decode bmp).length + bmpa.active.nbits.toNat < 2 ^ 32) :
    decode (mergeActive bmp bmpa) = decode bmp ++ msb bmpa.active.nbits.toNat bmpa.active.val.toNat ↔
      bmp.active.nbits = 0 ∨ bmpa.active.nbits ≠ 0 ∧ bmp.active.val = 0 := by
  have hn := h.activeBits
  have hna := ha.activeBits
  have hval := h.activeVal
  have hvala := ha.activeVal
  have hempty : bmp.active.nbits = 0 → bmp.active.val = 0 := fun h0 => by
    rw [h0] at hval
    exact eq_of_toNat_eq (lt_one_iff.mp hval)
  have hzero : bmp.active.val = 0 ↔ bmp.active.val.toNat = 0 :=
    ⟨fun h0 => by rw [h0]; rfl, fun h0 => eq_of_toNat_eq h0⟩
  have hnbits : (bmp.active.nbits + bmpa.active.nbits).toNat = bmp.active.nbits.toNat + bmpa.active.nbits.toNat := by
    rw [BitVec.toNat_add]
    exact mod_eq_of_lt (by omega)
  rw [decode_eq bmp, append_assoc]
  simp only [mergeActive]
  split
  next hne =>
    have hpos := toNat_pos_of_ne hne
    rw [or_iff_right_of_imp fun h0 => ⟨hne, hempty h0⟩, and_iff_right hne, hzero]
    split
    next hfits =>
      rw [decode_withActive, append_cancel_left_eq, hnbits, toNat_or]
      exact msb_or_iff hval hvala hpos
    next hfull =>
      rw [BitVec.lt_def, hnbits] at hfull
      have hfull : 31 ≤ bmp.active.nbits.toNat + bmpa.active.nbits.toNat := Nat.le_of_not_lt hfull
      generalize hnb1 : bmp.active.nbits + bmpa.active.nbits - maxBits = nb1
      have hnb1 : nb1.toNat = bmp.active.nbits.toNat + bmpa.active.nbits.toNat - 31 := by
        rw [← hnb1, BitVec.toNat_sub_of_le (by rw [BitVec.le_def, hnbits]; exact hfull), hnbits]
        rfl
      have hhigh : (bmpa.active.val >>> nb1.toNat).toNat < 2 ^ (31 - bmp.active.nbits.toNat) := by
        rw [BitVec.toNat_ushiftRight, Nat.shiftRight_eq_div_pow]
        apply Nat.div_lt_of_lt_mul
        rw [← Nat.pow_add]
        exact Nat.lt_of_lt_of_le hvala (Nat.pow_le_pow_right (by decide) (by omega))
      have hstored : (bmp.active.val ||| bmpa.active.val >>> nb1.toNat).toNat < 2 ^ 31 := by
        rw [toNat_or]
        exact Nat.or_lt_two_pow (Nat.lt_of_lt_of_le hval (Nat.pow_le_pow_right (by decide) (by omega)))
          (Nat.lt_of_lt_of_le hhigh (Nat.pow_le_pow_right (by decide) (by omega)))
      have hsize := decode_length bmp
      obtain ⟨-, hg, hactive, -⟩ := appendActive_spec
        (h.toStored.withActive ⟨bmp.active.val ||| bmpa.active.val >>> nb1.toNat, bmp.active.nbits⟩) hstored
        (by show 31 * ((groups bmp).length + 1) < _; omega)
      have hrest : msb nb1.toNat (if 0 < nb1 then lowMask nb1 &&& bmpa.active.val else 0).toNat =
          msb nb1.toNat bmpa.active.val.toNat := by
        split
        · rw [BitVec.toNat_and, toNat_lowMask (by omega), Nat.and_comm, Nat.and_two_pow_sub_one_eq_mod, msb_mod]
        next hnot =>
          have h0 : nb1.toNat = 0 := Nat.eq_zero_of_not_pos hnot
          rw [h0]
          rfl
      rw [decode_withActive, hactive, hrest, hg, groupBits_append, groupBits_singleton, append_assoc]
      have hsplit := msb_split (31 - bmp.active.nbits.toNat) nb1.toNat bmpa.active.val.toNat
      rw [show 31 - bmp.active.nbits.toNat + nb1.toNat = bmpa.active.nbits.toNat by omega,
        ← shiftRight_eq_div_pow, ← BitVec.toNat_ushiftRight] at hsplit
      have hor := msb_or_iff hval hhigh (by omega)
      rw [show bmp.active.nbits.toNat + (31 - bmp.active.nbits.toNat) = 31 by omega] at hor
      show groupBits (groups bmp) ++ _ = _ ↔ _
      rw [append_cancel_left_eq, hsplit, ← append_assoc, append_cancel_right_eq, toNat_or]
      exact hor
  next hnone =>
    have h0 : bmpa.active.nbits.toNat = 0 := by rw [not_not.mp hnone]; rfl
    have hdecode : decode {bmp with active := bmpa.active} = groupBits (groups bmp) ++ msb 0 bmpa.active.val.toNat :=
      h0 ▸ decode_withActive bmp bmpa.active.val bmpa.active.nbits
    rw [hdecode, append_cancel_left_eq, h0, or_iff_left fun hx => hnone hx.1]
    show [] = _ ++ [] ↔ _
    rw [append_nil, eq_comm, ← length_eq_zero_iff, msb_length]
    exact ⟨fun hx => eq_of_toNat_eq hx, fun hx => by rw [hx]; rfl⟩

/-- The active word of `bmp` is empty, or that of `bmpa` is not and the last bits in front of it, as many as `bmp` has in
its own, are zero. -/
def JoinsCleanly (bmp bmpa : Bitmap) : Prop :=
  bmp.active.nbits = 0 ∨ bmpa.active.nbits ≠ 0 ∧
    ∀ bit ∈ (decode bmp ++ (vec bmpa).flatMap wordBits).drop (31 * ((groups bmp).length + (groups bmpa).length)),
      bit = false

/-- **Appending a bitmap appends its bits exactly where the first active word, moved behind the stored words, has none
to lose.** -/
theorem appendBitmap_iff {bmp bmpa : Bitmap} (h : WellFormed bmp) (ha : WellFormed bmpa)
    (hlen : (decode bmp).length + (decode bmpa).length < 2 ^ 32) :
    WellFormed (appendBitmap bmp bmpa) ∧ decode (appendBitmap bmp bmpa) = decode bmp ++ decode bmpa ↔
      JoinsCleanly bmp bmpa := by
  have hwords : (vec bmpa).flatMap wordBits = groupBits (groups bmpa) := by
    rw [groups, groupBits, flatMap_assoc]
    exact flatMap_congr fun w _ => wordBits_eq w
  have happ := appendWords_spec h ha hlen
  have heq : appendBitmap bmp bmpa = mergeActive ((vec bmpa).foldl appendWord bmp) bmpa := rfl
  rw [and_iff_right (appendBitmap_spec h ha hlen).1, heq, JoinsCleanly, hwords, decode_eq bmpa, ← append_assoc,
    ← happ.bits]
  have hgrown := happ.length
  generalize (vec bmpa).foldl appendWord bmp = b at happ hgrown ⊢
  have hsize := decode_length bmp
  have hsizea := decode_length bmpa
  have hsizeb := decode_length b
  rw [groupBits_length] at hgrown
  have hbits := h.activeBits
  have hbits' := happ.wellFormed.activeBits
  have hnbits : b.active.nbits = bmp.active.nbits := eq_of_toNat_eq (by omega)
  have hgroups : 31 * ((groups bmp).length + (groups bmpa).length) = (groupBits (groups b)).length := by
    rw [groupBits_length]
    omega
  rw [mergeActive_bits happ.wellFormed ha (by omega), hnbits, decode_eq b, hgroups, drop_left,
    msb_eq_zero_iff happ.wellFormed.activeVal]
  exact or_congr_right (and_congr_right fun _ => ⟨fun h0 => by rw [h0]; rfl, fun h0 => eq_of_toNat_eq h0⟩)

/-- A clear bit in front of two bits. -/
theorem appendBitmap_iff_clear :
    decode (appendBitmap ⟨false, 0, [], 0, ⟨0, 1⟩⟩ ⟨false, 0, [], 0, ⟨3, 2⟩⟩) = [false, true, true] :=
  ((@appendBitmap_iff ⟨false, 0, [], 0, ⟨0, 1⟩⟩ ⟨false, 0, [], 0, ⟨3, 2⟩⟩ (by decide +kernel)
    (by decide +kernel) (by decide +kernel)).mpr (.inr ⟨by decide, by decide +kernel⟩)).2.trans (by decide +kernel)

/-- A set bit in front of a clear one: the two come out in the other order. -/
theorem appendBitmap_swaps :
    WellFormed ⟨false, 0, [], 0, ⟨1, 1⟩⟩ ∧ WellFormed ⟨false, 0, [], 0, ⟨0, 1⟩⟩ ∧
      decode (appendBitmap ⟨false, 0, [], 0, ⟨1, 1⟩⟩ ⟨false, 0, [], 0, ⟨0, 1⟩⟩) = [false, true] ∧
      decode (appendBitmap ⟨false, 0, [], 0, ⟨1, 1⟩⟩ ⟨false, 0, [], 0, ⟨0, 1⟩⟩) ≠
        decode ⟨false, 0, [], 0, ⟨1, 1⟩⟩ ++ decode ⟨false, 0, [], 0, ⟨0, 1⟩⟩ := by
  refine ⟨by decide +kernel, by decide +kernel, by decide +kernel, by decide +kernel⟩

end PgStorage.Wah
