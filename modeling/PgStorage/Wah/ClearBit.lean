import PgStorage.Wah.SetBit

/-! Clearing bits in place.

`setBitZBitmap` is right in the active word. In a stored word its mask is off by one: it clears the bit before the one
asked for, or, for the first bit of a word, none. -/
namespace PgStorage.Wah
open Bits
open List
open BitVec (toNat_and toNat_udiv lt_def le_def)

variable {bmp : Bitmap} {nbit : Word}

theorem testBit_clear (w : Word) {k : Nat} (hk : k < 32) (j : Nat) :
    (w &&& ~~~((1 : Word) <<< k)).toNat.testBit j = (w.toNat.testBit j && decide (j ≠ k)) := by
  rw [toNat_and, Nat.testBit_and]
  by_cases hj : j < 32
  · have hone : ((1 : Word) <<< k).getLsbD j = decide (j = k) := by
      rw [BitVec.getLsbD, toNat_bit hk, Nat.testBit_two_pow]
      exact decide_eq_decide.mpr eq_comm
    rw [BitVec.testBit_toNat (~~~_), BitVec.getLsbD_not, hone, decide_eq_true hj, Bool.true_and, decide_not]
  · have hzero : w.toNat.testBit j = false :=
      Nat.testBit_lt_two_pow (lt_of_lt_of_le w.isLt (Nat.pow_le_pow_right (by decide) (by omega)))
    rw [hzero, Bool.false_and, Bool.false_and]

theorem clear_le (w : Word) (k : Nat) : (w &&& ~~~((1 : Word) <<< k)).toNat ≤ w.toNat := by
  rw [toNat_and]
  exact Nat.and_le_left

theorem clearActive_spec (h : WellFormed bmp) (hu : Uncompressed bmp) (bit : Nat) (hbit : bit < bmp.active.nbits.toNat) :
    decode {bmp with
        active := ⟨bmp.active.val &&& ~~~((1 : Word) <<< (bmp.active.nbits.toNat - 1 - bit)), bmp.active.nbits⟩} =
      (decode bmp).set (31 * bmp.mSize.toNat + bit) false := by
  have hn := h.activeBits
  have hsize : (groupBits (groups bmp)).length = 31 * bmp.mSize.toNat := by
    rw [groupBits_length, groups_uncompressed hu, vec_length h.toStored]
  rw [decode_withActive, decode_eq, msb_clear hbit fun j => testBit_clear _ (by omega) j,
    set_append_right _ _ (by omega), hsize, Nat.add_sub_cancel_left]

theorem groupBits_getElem? (gs : List Word) (n : Nat) :
    (groupBits gs)[n]? = gs[n / 31]?.map fun g => g.toNat.testBit (30 - n % 31) := by
  induction gs generalizing n with
  | nil => rfl
  | cons g gs ih =>
    rw [groupBits_cons]
    by_cases hn : n < 31
    · rw [getElem?_append_left (by rw [msb_length]; exact hn), Nat.div_eq_of_lt hn, Nat.mod_eq_of_lt hn,
        getElem?_cons_zero, getElem?_eq_getElem (by rw [msb_length]; exact hn), msb_getElem]
      rfl
    · have hdiv : n / 31 = (n - 31) / 31 + 1 := by omega
      have hmod : n % 31 = (n - 31) % 31 := by omega
      rw [getElem?_append_right (by rw [msb_length]; omega), msb_length, ih, hdiv, hmod, getElem?_cons_succ]

/-- The mask for a stored word leaves the bit asked for as it is. -/
theorem clearWord_keeps (h : WellFormed bmp) (hu : Uncompressed bmp) {n : Nat} (hn : n / 31 < bmp.mSize.toNat) :
    (decode {bmp with
        mVec := bmp.mVec.set (n / 31) (bmp.mVec.getD (n / 31) 0 &&& ~~~((1 : Word) <<< (31 - n % 31)))})[n]? =
      (decode bmp)[n]? := by
  have hlen := vec_length h.toStored
  set g := (vec bmp).getD (n / 31) 0 with hg
  have hget : bmp.mVec.getD (n / 31) 0 = g := by
    rw [hg, vec, getD_eq_getElem?_getD, getD_eq_getElem?_getD, getElem?_take_of_lt hn]
  have hgmem : g ∈ vec bmp := by
    rw [hg, getD_eq_getElem _ _ (by omega)]
    exact getElem_mem _
  rw [hget]
  set bmp' : Bitmap := {bmp with mVec := bmp.mVec.set (n / 31) (g &&& ~~~((1 : Word) <<< (31 - n % 31)))} with hbmp'
  have hvec : vec bmp' = (vec bmp).set (n / 31) (g &&& ~~~((1 : Word) <<< (31 - n % 31))) := take_set
  have hu' : Uncompressed bmp' := fun w hw => by
    rw [hvec] at hw
    rcases mem_or_eq_of_mem_set hw with hw | rfl
    · exact hu w hw
    · exact lt_of_le_of_lt (clear_le g _) (hu g hgmem)
  have hold : (vec bmp)[n / 31]? = some g := by
    rw [hg, getD_eq_getElem _ _ (by omega), getElem?_eq_getElem (by omega)]
  rw [decode_eq, decode_eq, groups_uncompressed hu', groups_uncompressed hu, hvec,
    getElem?_append_left (by rw [groupBits_length, length_set]; omega),
    getElem?_append_left (by rw [groupBits_length]; omega), groupBits_getElem?, groupBits_getElem?,
    getElem?_set_self (by omega), hold]
  show some ((g &&& ~~~((1 : Word) <<< (31 - n % 31))).toNat.testBit (30 - n % 31)) = some (g.toNat.testBit (30 - n % 31))
  rw [testBit_clear g (by omega), decide_eq_true (by omega), Bool.and_true]

/-! ### Both routines -/

theorem setBitBitmap_frame (bmp : Bitmap) (nbit : Word) :
    (setBitBitmap bmp nbit).nbits = bmp.nbits ∧ (setBitBitmap bmp nbit).mSize = bmp.mSize ∧
      (setBitBitmap bmp nbit).active.nbits = bmp.active.nbits ∧
      (setBitBitmap bmp nbit).isCompressed = bmp.isCompressed := by
  simp only [setBitBitmap]
  split_ifs <;> exact ⟨rfl, rfl, rfl, rfl⟩

theorem setBitZBitmap_frame (bmp : Bitmap) (nbit : Word) :
    (setBitZBitmap bmp nbit).nbits = bmp.nbits ∧ (setBitZBitmap bmp nbit).mSize = bmp.mSize ∧
      (setBitZBitmap bmp nbit).active.nbits = bmp.active.nbits := by
  simp only [setBitZBitmap]
  split_ifs <;> exact ⟨rfl, rfl, rfl⟩

theorem setBit_beyond (h : bitmapSize bmp ≤ nbit) : setBitBitmap bmp nbit = bmp ∧ setBitZBitmap bmp nbit = bmp := by
  have hnot : ¬ (bmp.isCompressed = false ∧ nbit < bitmapSize bmp) := fun hx => absurd hx.2 (BitVec.not_lt.mpr h)
  exact ⟨if_neg hnot, if_neg hnot⟩

theorem stored_iff (h : WellFormed bmp) (hu : Uncompressed bmp) (nbit : Word) :
    nbit / maxBits < bmp.mSize ↔ nbit < bmp.nbits := by
  have hnw : (nbit / maxBits).toNat = nbit.toNat / 31 := toNat_udiv
  rw [lt_def, lt_def, hnw, h.count, groups_uncompressed hu, vec_length h.toStored]
  omega

/-- Right in the active word. -/
theorem setBitZ_active (h : WellFormed bmp) (hu : Uncompressed bmp) (hflag : bmp.isCompressed = false)
    (hn : nbit < bitmapSize bmp) (hactive : bmp.nbits ≤ nbit) :
    decode (setBitZBitmap bmp nbit) = (decode bmp).set nbit.toNat false := by
  have hlen := (lt_bitmapSize_iff h hu nbit).mp hn
  have hword : ¬ nbit / maxBits < bmp.mSize := fun hlt => BitVec.not_lt.mpr hactive ((stored_iff h hu nbit).mp hlt)
  have hnw : (nbit / maxBits).toNat = nbit.toNat / 31 := toNat_udiv
  have hactiveBits := h.activeBits
  simp only [setBitZBitmap, if_pos (And.intro hflag hn), if_neg hword]
  rw [lt_def, hnw] at hword
  rw [toNat_pos bmp.active.nbits (by omega)]
  have hspec := clearActive_spec h hu (nbit.toNat % 31) (by omega)
  rwa [show 31 * bmp.mSize.toNat + nbit.toNat % 31 = nbit.toNat by omega] at hspec

/-- In a stored word the bit stays. -/
theorem setBitZ_stored (h : WellFormed bmp) (hu : Uncompressed bmp) (hstored : nbit < bmp.nbits) :
    (decode (setBitZBitmap bmp nbit))[nbit.toNat]? = (decode bmp)[nbit.toNat]? := by
  have hword := (stored_iff h hu nbit).mpr hstored
  simp only [setBitZBitmap, if_pos hword]
  split
  · have hnw : (nbit / maxBits).toNat = nbit.toNat / 31 := toNat_udiv
    have hbit : (nbit % maxBits).toNat = nbit.toNat % 31 := BitVec.toNat_umod
    have hmask : (31 - nbit % maxBits).toNat = 31 - nbit.toNat % 31 := by
      rw [BitVec.toNat_sub_of_le (by rw [le_def, hbit]; show _ ≤ 31; omega), hbit]
      rfl
    rw [hnw, hmask]
    exact clearWord_keeps h hu (by rwa [lt_def, hnw] at hword)
  · rfl

/-- Bit `nbit` becomes `v`, and nothing else changes. -/
structure Assigns (bmp bmp' : Bitmap) (nbit : Word) (v : Bool) : Prop where
  bits : decode bmp' = (decode bmp).set nbit.toNat v
  nbits : bmp'.nbits = bmp.nbits
  mSize : bmp'.mSize = bmp.mSize
  active : bmp'.active.nbits = bmp.active.nbits
  beyond : bitmapSize bmp ≤ nbit → bmp' = bmp

/-- What setting, clearing, and clearing behind setting owe. -/
def SetsAndClears (bmp : Bitmap) (nbit : Word) : Prop :=
  Assigns bmp (setBitBitmap bmp nbit) nbit true ∧ Assigns bmp (setBitZBitmap bmp nbit) nbit false ∧
    decode (setBitZBitmap (setBitBitmap bmp nbit) nbit) = (decode bmp).set nbit.toNat false

/-- **Bits can be set and cleared exactly in the active word and beyond the end.** -/
theorem setsAndClears_iff (h : WellFormed bmp) (hu : Uncompressed bmp) (hflag : bmp.isCompressed = false) (nbit : Word) :
    SetsAndClears bmp nbit ↔ bmp.nbits ≤ nbit := by
  obtain ⟨hnbits, hsize, hactive, hcompressed⟩ := setBitBitmap_frame bmp nbit
  obtain ⟨hnbits', hsize', hactive'⟩ := setBitZBitmap_frame bmp nbit
  by_cases hn : nbit < bitmapSize bmp
  · obtain ⟨hwf, hu', hbits⟩ := setBit_spec h hu hflag hn
    have hset : Assigns bmp (setBitBitmap bmp nbit) nbit true :=
      ⟨hbits, hnbits, hsize, hactive, fun hle => absurd hn (BitVec.not_lt.mpr hle)⟩
    refine ⟨fun hall => BitVec.not_lt.mp fun hlt => ?_, fun hle => ⟨hset, ?_, ?_⟩⟩
    · -- the bit just set is still there
      have hkept := setBitZ_stored hwf hu' (by rwa [hnbits])
      have hin : nbit.toNat < (decode bmp).length := by
        rw [← toNat_bitmapSize h]
        exact hn
      rw [hall.2.2, hbits, getElem?_set_self hin, getElem?_set_self hin] at hkept
      exact absurd hkept (by decide)
    · exact ⟨setBitZ_active h hu hflag hn hle, hnbits', hsize', hactive', fun hle => absurd hn (BitVec.not_lt.mpr hle)⟩
    · have hn' : nbit < bitmapSize (setBitBitmap bmp nbit) := by
        rw [lt_bitmapSize_iff hwf hu', hsize, hactive]
        exact (lt_bitmapSize_iff h hu nbit).mp hn
      rw [setBitZ_active hwf hu' (hcompressed.trans hflag) hn' (by rwa [hnbits]), hbits, set_set]
  · have hle := BitVec.not_lt.mp hn
    obtain ⟨heq, heq'⟩ := setBit_beyond hle
    have hout : (decode bmp).length ≤ nbit.toNat := by
      rw [← toNat_bitmapSize h]
      exact hle
    have hsame : ∀ v, Assigns bmp bmp nbit v := fun v =>
      ⟨(set_eq_of_length_le hout).symm, rfl, rfl, rfl, fun _ => rfl⟩
    refine iff_of_true ⟨?_, ?_, ?_⟩ ?_
    · rw [heq]
      exact hsame true
    · rw [heq']
      exact hsame false
    · rw [heq, heq']
      exact (hsame false).bits
    · rw [le_def, h.count]
      rw [decode_length] at hout
      omega

/-- A single stored literal. -/
theorem uncompressed_one {w : Word} (hw : w.toNat < 2 ^ 31) (nbits : Word) (a : ActiveWord) :
    Uncompressed ⟨false, nbits, [w], 1, a⟩ := fun v hv => by
  rw [mem_singleton.mp hv]
  exact hw

theorem setsAndClears_iff_active : SetsAndClears ⟨false, 31, [5], 1, ⟨5, 3⟩⟩ 32 :=
  (@setsAndClears_iff ⟨false, 31, [5], 1, ⟨5, 3⟩⟩ (by decide +kernel)
    (uncompressed_one (by decide) 31 ⟨5, 3⟩) rfl 32).mpr (by decide)

/-- Clearing bit 1 of a word clears bit 0. -/
theorem setBitZBitmap_offByOne :
    WellFormed ⟨false, 31, [0x60000000], 1, ⟨0, 0⟩⟩ ∧ Uncompressed ⟨false, 31, [0x60000000], 1, ⟨0, 0⟩⟩ ∧
      (setBitZBitmap ⟨false, 31, [0x60000000], 1, ⟨0, 0⟩⟩ 1).mVec = [0x20000000] ∧
      ¬ SetsAndClears ⟨false, 31, [0x60000000], 1, ⟨0, 0⟩⟩ 1 := by
  refine ⟨by decide +kernel, uncompressed_one (by decide) 31 ⟨0, 0⟩, by decide +kernel, fun h => ?_⟩
  exact absurd h.2.1.bits (by decide +kernel)

end PgStorage.Wah
