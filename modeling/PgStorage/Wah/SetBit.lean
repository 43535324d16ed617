import PgStorage.Wah.Compress

/-! Setting bits in place, behind the `isCompressed` flag.

`setBitBitmap` finds the word of a bit by division, which is right when every
stored word is a literal; the flag is to say so. No routine ever sets the flag,
so what keeps the guard sound is that no run gets stored. -/
namespace PgStorage.Wah
open Bits
open List BitVec

/-- A shift by 32 or more, which C leaves undefined, gives 0 here. -/
def setBitBitmap (bmp : Bitmap) (nbit : Word) : Bitmap :=
  if bmp.isCompressed = false ∧ nbit < bitmapSize bmp then
    let nw := nbit / maxBits
    let bit := nbit % maxBits
    if nw < bmp.mSize then
      {bmp with mVec := bmp.mVec.set nw.toNat (bmp.mVec.getD nw.toNat 0 ||| (1 : Word) <<< (maxBits - bit - 1).toNat)}
    else
      {bmp with active :=
        ⟨bmp.active.val ||| (1 : Word) <<< (bmp.active.nbits - bit - 1).toNat, bmp.active.nbits⟩}
  else bmp

/-- The mask for a stored word is one position too high. -/
def setBitZBitmap (bmp : Bitmap) (nbit : Word) : Bitmap :=
  if bmp.isCompressed = false ∧ nbit < bitmapSize bmp then
    let nw := nbit / maxBits
    let bit := nbit % maxBits
    if nw < bmp.mSize then
      {bmp with mVec := bmp.mVec.set nw.toNat (bmp.mVec.getD nw.toNat 0 &&& ~~~((1 : Word) <<< (31 - bit).toNat))}
    else
      {bmp with active :=
        ⟨bmp.active.val &&& ~~~((1 : Word) <<< (bmp.active.nbits - bit - 1).toNat), bmp.active.nbits⟩}
  else bmp

/-- The end of `appendBitmap`. The two statements that should shift the active word
have no effect, and an empty active word of `bmpa` replaces that of `bmp`. -/
def mergeActive (bmp bmpa : Bitmap) : Bitmap :=
  if bmpa.active.nbits ≠ 0 then
    if bmp.active.nbits + bmpa.active.nbits < maxBits then
      {bmp with active :=
        ⟨bmp.active.val ||| bmpa.active.val, bmp.active.nbits + bmpa.active.nbits⟩}
    else
      let nb1 := bmp.active.nbits + bmpa.active.nbits - maxBits
      let w1 := bmpa.active.val >>> nb1.toNat
      let bmp := appendActive {bmp with active := ⟨bmp.active.val ||| w1, bmp.active.nbits⟩}
      {bmp with active := ⟨if 0 < nb1 then lowMask nb1 &&& bmpa.active.val else bmp.active.val, nb1⟩}
  else {bmp with active := bmpa.active}

/-- The message about an unexpected size is not modelled. -/
def appendBitmap (bmp bmpa : Bitmap) : Bitmap :=
  mergeActive ((bmpa.mVec.take bmpa.mSize.toNat).foldl appendWord bmp) bmpa

/-! ### Setting a bit of a list of groups -/

theorem toNat_bit {n : Nat} (h : n < 32) : ((1 : Word) <<< n).toNat = 2 ^ n := by
  rw [toNat_shiftLeft, Nat.shiftLeft_eq]
  show 1 * 2 ^ n % 2 ^ 32 = _
  rw [Nat.one_mul, Nat.mod_eq_of_lt (Nat.pow_lt_pow_right (by decide) h)]

theorem groupBits_cons (g : Word) (gs : List Word) : groupBits (g :: gs) = msb 31 g.toNat ++ groupBits gs := rfl

theorem groupBits_set (gs : List Word) (n : Nat) (h : n < 31 * gs.length) :
    groupBits (gs.set (n / 31) (gs.getD (n / 31) 0 ||| (1 : Word) <<< (30 - n % 31))) =
      (groupBits gs).set n true := by
  induction gs generalizing n with
  | nil => simp at h
  | cons g gs ih =>
    by_cases hn : n < 31
    · have hdiv : n / 31 = 0 := by omega
      have hmod : n % 31 = n := by omega
      have hset : (g ||| (1 : Word) <<< (30 - n)).toNat = g.toNat ||| 2 ^ (31 - 1 - n) := by
        rw [toNat_or, toNat_bit (by omega)]
      rw [hdiv, hmod, set_cons_zero, getD_cons_zero, groupBits_cons, groupBits_cons, hset,
        msb_set 31 _ n hn, set_append_left _ _ (by rw [msb_length]; exact hn)]
    · have hdiv : n / 31 = (n - 31) / 31 + 1 := by omega
      have hmod : n % 31 = (n - 31) % 31 := by omega
      rw [length_cons] at h
      rw [hdiv, hmod, set_cons_succ, getD_cons_succ, groupBits_cons, groupBits_cons,
        ih (n - 31) (by omega), set_append_right _ _ (by rw [msb_length]; omega), msb_length]

/-- A bit of a stored word. -/
theorem setWord_spec {bmp : Bitmap} (h : WellFormed bmp) (hu : Uncompressed bmp) {n : Nat}
    (hn : n / 31 < bmp.mSize.toNat) {bmp' : Bitmap}
    (hbmp' : bmp' = {bmp with
      mVec := bmp.mVec.set (n / 31) (bmp.mVec.getD (n / 31) 0 ||| (1 : Word) <<< (30 - n % 31))}) :
    WellFormed bmp' ∧ Uncompressed bmp' ∧ decode bmp' = (decode bmp).set n true := by
  have hlen := vec_length h.toStored
  have hget : bmp.mVec.getD (n / 31) 0 = (vec bmp).getD (n / 31) 0 := by
    rw [vec, getD_eq_getElem?_getD, getD_eq_getElem?_getD, getElem?_take_of_lt hn]
  have hvec : vec bmp' =
      (vec bmp).set (n / 31) ((vec bmp).getD (n / 31) 0 ||| (1 : Word) <<< (30 - n % 31)) := by
    rw [hbmp', ← hget, vec, vec, take_set]
  have hu' : Uncompressed bmp' := by
    intro w hw
    rw [hvec] at hw
    rcases mem_or_eq_of_mem_set hw with hw | rfl
    · exact hu w hw
    · rw [toNat_or, toNat_bit (by omega)]
      refine Nat.or_lt_two_pow (hu _ ?_) (Nat.pow_lt_pow_right (by decide) (by omega))
      rw [getD_eq_getElem _ _ (by omega)]
      exact getElem_mem _
  have hdecode : decode bmp' = (decode bmp).set n true := by
    have hactive : bmp'.active = bmp.active := by rw [hbmp']
    rw [decode_eq, decode_eq, groups_uncompressed hu', groups_uncompressed hu, hvec, hactive,
      groupBits_set _ _ (by omega), set_append_left _ _ (by rw [groupBits_length]; omega)]
  refine ⟨⟨⟨?_, fun w hw hfill => ?_, ?_⟩, ?_, ?_, ?_⟩, hu', hdecode⟩
  · rw [hbmp', length_set]
    exact h.allocated
  · have := hu' w hw
    rw [isFill_iff] at hfill
    omega
  · rw [groups_uncompressed hu', hvec, length_set, ← groups_uncompressed hu, hbmp']
    exact h.count
  · rw [hbmp']
    exact h.activeBits
  · rw [hbmp']
    exact h.activeVal
  · rw [hdecode, length_set]
    exact h.length

/-- A bit of the active word. -/
theorem setActive_spec {bmp : Bitmap} (h : WellFormed bmp) (hu : Uncompressed bmp) (bit : Nat)
    (hbit : bit < bmp.active.nbits.toNat) {bmp' : Bitmap}
    (hbmp' : bmp' = {bmp with
      active := ⟨bmp.active.val ||| (1 : Word) <<< (bmp.active.nbits.toNat - 1 - bit), bmp.active.nbits⟩}) :
    WellFormed bmp' ∧ Uncompressed bmp' ∧ decode bmp' = (decode bmp).set (31 * bmp.mSize.toNat + bit) true := by
  have hn := h.activeBits
  have hval : (bmp.active.val ||| (1 : Word) <<< (bmp.active.nbits.toNat - 1 - bit)).toNat =
      bmp.active.val.toNat ||| 2 ^ (bmp.active.nbits.toNat - 1 - bit) := by
    rw [toNat_or, toNat_bit (by omega)]
  have hdecode : decode bmp' = (decode bmp).set (31 * bmp.mSize.toNat + bit) true := by
    have hsize : (groupBits (groups bmp)).length = 31 * bmp.mSize.toNat := by
      rw [groupBits_length, groups_uncompressed hu, vec_length h.toStored]
    rw [hbmp', decode_withActive, decode_eq, hval, msb_set _ _ _ hbit,
      set_append_right _ _ (by omega), hsize, Nat.add_sub_cancel_left]
  have hlen := h.length
  rw [decode_length] at hlen
  refine ⟨?_, ?_, hdecode⟩
  · rw [hbmp']
    refine wellFormed_of_stored (h.toStored.withActive _) hn ?_ hlen
    show (bmp.active.val ||| _).toNat < 2 ^ bmp.active.nbits.toNat
    rw [hval]
    exact Nat.or_lt_two_pow h.activeVal (Nat.pow_lt_pow_right (by decide) (by omega))
  · rw [hbmp']
    exact hu

/-- The position of a bit in its word, counted from the right. -/
theorem toNat_pos (size : Word) {nbit : Word} (hsize : nbit.toNat % 31 < size.toNat) :
    (size - nbit % maxBits - 1).toNat = size.toNat - 1 - nbit.toNat % 31 := by
  have hbit : (nbit % maxBits).toNat = nbit.toNat % 31 := toNat_umod
  have hsub : (size - nbit % maxBits).toNat = size.toNat - nbit.toNat % 31 := by
    rw [toNat_sub_of_le (by rw [le_def, hbit]; omega), hbit]
  rw [toNat_sub_of_le (by rw [le_def, hsub]; show 1 ≤ _; omega), hsub]
  show _ - 1 = _
  omega

theorem lt_bitmapSize_iff {bmp : Bitmap} (h : WellFormed bmp) (hu : Uncompressed bmp) (nbit : Word) :
    nbit < bitmapSize bmp ↔ nbit.toNat < 31 * bmp.mSize.toNat + bmp.active.nbits.toNat := by
  rw [lt_def, toNat_bitmapSize h, decode_length, groups_uncompressed hu, vec_length h.toStored]

/-- In an uncompressed bitmap exactly the bit asked for is set. -/
theorem setBit_spec {bmp : Bitmap} (h : WellFormed bmp) (hu : Uncompressed bmp) {nbit : Word}
    (hflag : bmp.isCompressed = false) (hn : nbit < bitmapSize bmp) :
    WellFormed (setBitBitmap bmp nbit) ∧ Uncompressed (setBitBitmap bmp nbit) ∧
      decode (setBitBitmap bmp nbit) = (decode bmp).set nbit.toNat true := by
  have hlen := (lt_bitmapSize_iff h hu nbit).mp hn
  have hnw : (nbit / maxBits).toNat = nbit.toNat / 31 := toNat_udiv
  have hactive := h.activeBits
  simp only [setBitBitmap, if_pos (And.intro hflag hn)]
  split
  · rename_i hword
    rw [lt_def, hnw] at hword
    have hmax : (maxBits - nbit % maxBits - 1).toNat = 30 - nbit.toNat % 31 :=
      toNat_pos maxBits (by show _ < 31; omega)
    rw [hnw, hmax]
    exact setWord_spec h hu hword rfl
  · rename_i hword
    rw [lt_def, hnw] at hword
    rw [toNat_pos bmp.active.nbits (by omega)]
    have hspec := setActive_spec h hu (nbit.toNat % 31) (by omega) rfl
    rwa [show 31 * bmp.mSize.toNat + nbit.toNat % 31 = nbit.toNat by omega] at hspec

end PgStorage.Wah
