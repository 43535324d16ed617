import PgStorage.Gin.Ginpostinglist

/-! Integers and item pointers come back as they were written. -/
namespace PgStorage.Gin
open BitVec

variable {d val : BitVec 64} {c : Byte} {p : List Byte}

theorem continues_iff (c : Byte) : c &&& 0x80 = 0 ↔ c.toNat < 128 := by
  revert c
  decide +kernel

theorem toNat_payload (c : Byte) : (c.setWidth 64 &&& 0x7F).toNat = c.toNat % 128 := by
  rw [toNat_and, toNat_setWidth_of_le (by decide)]
  exact Nat.and_two_pow_sub_one_eq_mod c.toNat 7

theorem toNat_last (h : d.toNat < 128) : ((d.setWidth 8).setWidth 64 : BitVec 64) = d := by
  apply eq_of_toNat_eq
  rw [toNat_setWidth_of_le (by decide), toNat_setWidth]
  omega

/-- A byte with the continuation bit. -/
theorem toNat_continued (d : BitVec 64) : ((0x80 ||| (d &&& 0x7F)).setWidth 8 : Byte).toNat = 128 + d.toNat % 128 := by
  have hlow : (d &&& 0x7F).toNat = d.toNat % 128 := by
    rw [toNat_and]
    exact Nat.and_two_pow_sub_one_eq_mod d.toNat 7
  have hor : (0x80 ||| (d &&& 0x7F)).toNat = 128 + d.toNat % 128 := by
    rw [toNat_or, hlow]
    exact (Nat.two_pow_add_eq_or_of_lt (i := 7) (Nat.mod_lt _ (by decide)) 1).symm
  rw [toNat_setWidth, hor]
  omega

theorem toNat_shift7 (d : BitVec 64) : (d >>> 7).toNat = d.toNat / 128 := by
  rw [toNat_ushiftRight, Nat.shiftRight_eq_div_pow]

theorem encodeVarbyteLoop_small (n : Nat) (h : d.toNat < 128) : encodeVarbyteLoop n d = [d.setWidth 8] := by
  cases n with
  | zero => rfl
  | succ n => exact if_neg (by rw [lt_def]; show ¬ 127 < d.toNat; omega)

theorem encodeVarbyteLoop_large (n : Nat) (h : 128 ≤ d.toNat) :
    encodeVarbyteLoop (n + 1) d = (0x80 ||| (d &&& 0x7F)).setWidth 8 :: encodeVarbyteLoop n (d >>> 7) :=
  if_pos (by rw [lt_def]; show 127 < d.toNat; omega)

/-- `k + 1` bytes hold `7 * (k + 1)` bits. -/
theorem encodeVarbyteLoop_length (n k : Nat) (h : d.toNat < 2 ^ (7 * (n + 1))) :
    0 < (encodeVarbyteLoop n d).length ∧ ((encodeVarbyteLoop n d).length ≤ k + 1 ↔ d.toNat < 2 ^ (7 * (k + 1))) := by
  have hone : 2 ^ 7 ≤ 2 ^ (7 * (k + 1)) := Nat.pow_le_pow_right (by decide) (by omega)
  induction n generalizing d k with
  | zero =>
    rw [encodeVarbyteLoop_small 0 h]
    exact ⟨Nat.one_pos, iff_of_true (by simp) (Nat.lt_of_lt_of_le h hone)⟩
  | succ n ih =>
    by_cases hd : d.toNat < 128
    · rw [encodeVarbyteLoop_small _ hd]
      exact ⟨Nat.one_pos, iff_of_true (by simp) (Nat.lt_of_lt_of_le hd hone)⟩
    · rw [encodeVarbyteLoop_large n (Nat.le_of_not_lt hd), List.length_cons]
      have hrest : (d >>> 7).toNat < 2 ^ (7 * (n + 1)) := by
        rw [toNat_shift7]
        apply Nat.div_lt_of_lt_mul
        rwa [Nat.mul_succ, Nat.add_comm, Nat.pow_add] at h
      refine ⟨Nat.succ_pos _, ?_⟩
      cases k with
      | zero =>
        have hpos := (ih 0 hrest (by decide)).1
        exact iff_of_false (by omega) hd
      | succ k =>
        have hk := (ih k hrest (Nat.pow_le_pow_right (by decide) (by omega))).2
        rw [Nat.succ_le_succ_iff, hk, toNat_shift7, Nat.div_lt_iff_lt_mul (by decide), Nat.mul_succ 7 (k + 1),
          Nat.pow_add]

theorem encodeVarbyte_length (d : BitVec 64) (k : Nat) :
    0 < (encodeVarbyte d).length ∧ ((encodeVarbyte d).length ≤ k + 1 ↔ d.toNat < 2 ^ (7 * (k + 1))) :=
  encodeVarbyteLoop_length 9 k (Nat.lt_of_lt_of_le d.isLt (by decide))

/-! ### Decoding -/

theorem or_shift_eq_add {shift : Nat} (hval : val.toNat < 2 ^ shift) (hd : d.toNat * 2 ^ shift < 2 ^ 64) :
    val ||| (d <<< shift) = val + d <<< shift ∧ (d <<< shift).toNat = d.toNat * 2 ^ shift := by
  have hshift : (d <<< shift).toNat = d.toNat * 2 ^ shift := by
    rw [toNat_shiftLeft, Nat.shiftLeft_eq, Nat.mod_eq_of_lt hd]
  have hor : (val ||| (d <<< shift)).toNat = d.toNat * 2 ^ shift + val.toNat := by
    rw [toNat_or, hshift, Nat.or_comm, ← Nat.shiftLeft_eq, Nat.shiftLeft_add_eq_or_of_lt hval]
  refine ⟨eq_of_toNat_eq ?_, hshift⟩
  have hlt := (val ||| (d <<< shift)).isLt
  rw [hor] at hlt
  rw [hor, toNat_add, hshift, Nat.add_comm, Nat.mod_eq_of_lt (by omega)]

/-- The last byte, read at any level. -/
theorem decodeVarbyteAt_small (n : Nat) {shift : Nat} (h : d.toNat < 128) (hval : val.toNat < 2 ^ shift)
    (hd : d.toNat * 2 ^ shift < 2 ^ 64) :
    decodeVarbyteAt n shift val (d.setWidth 8 :: p) = some (val + d <<< shift, p) := by
  obtain ⟨hor, -⟩ := or_shift_eq_add hval hd
  cases n with
  | zero => rw [decodeVarbyteAt, toNat_last h, hor]
  | succ n =>
    have hlast : (d.setWidth 8).toNat = d.toNat := by
      rw [toNat_setWidth]
      omega
    have hpayload : ((d.setWidth 8).setWidth 64 &&& 0x7F : BitVec 64) = d := by
      apply eq_of_toNat_eq
      rw [toNat_payload, hlast]
      omega
    rw [decodeVarbyteAt, hpayload, hor, if_pos ((continues_iff _).mpr (by rw [hlast]; exact h))]

theorem mul_two_pow_lt {a n shift : Nat} (ha : a < 2 ^ n) (h : shift + n ≤ 64) : a * 2 ^ shift < 2 ^ 64 :=
  calc a * 2 ^ shift < 2 ^ n * 2 ^ shift := Nat.mul_lt_mul_of_pos_right ha (Nat.two_pow_pos _)
    _ = 2 ^ (n + shift) := (Nat.pow_add ..).symm
    _ ≤ 2 ^ 64 := Nat.pow_le_pow_right (by decide) (by omega)

/-- The decoder, some levels down, reads what is left of an integer. -/
theorem decodeVarbyteAt_encode (n m : Nat) {shift : Nat} (hn : d.toNat < 2 ^ (7 * (n + 1)))
    (hm : d.toNat < 2 ^ (7 * (m + 1))) (hshift : shift + 7 * (n + 1) ≤ 64) (hval : val.toNat < 2 ^ shift) :
    decodeVarbyteAt n shift val (encodeVarbyteLoop m d ++ p) = some (val + d <<< shift, p) := by
  induction n generalizing m d val shift with
  | zero =>
    rw [encodeVarbyteLoop_small m hn]
    exact decodeVarbyteAt_small 0 hn hval (mul_two_pow_lt hn hshift)
  | succ n ih =>
    by_cases hsmall : d.toNat < 128
    · rw [encodeVarbyteLoop_small m hsmall]
      exact decodeVarbyteAt_small (n + 1) hsmall hval (mul_two_pow_lt hn hshift)
    · cases m with
      | zero => exact absurd hm hsmall
      | succ m =>
        have hpow : ∀ k, 2 ^ (7 * (k + 1 + 1)) = 128 * 2 ^ (7 * (k + 1)) := fun k => by
          rw [Nat.mul_succ, Nat.add_comm, Nat.pow_add]
        have hrest : ∀ k, d.toNat < 2 ^ (7 * (k + 1 + 1)) → (d >>> 7).toNat < 2 ^ (7 * (k + 1)) := fun k hk => by
          rw [toNat_shift7]
          exact Nat.div_lt_of_lt_mul (by rwa [hpow] at hk)
        -- the payload of this byte
        generalize hc : (0x80 ||| (d &&& 0x7F)).setWidth 8 = c
        have hcontinued : c.toNat = 128 + d.toNat % 128 := by rw [← hc, toNat_continued]
        have hlow : (c.setWidth 64 &&& 0x7F : BitVec 64).toNat = d.toNat % 128 := by
          rw [toNat_payload, hcontinued]
          omega
        have hlt : (c.setWidth 64 &&& 0x7F : BitVec 64).toNat < 2 ^ 7 := by
          rw [hlow]
          exact Nat.mod_lt _ (by decide)
        obtain ⟨hor, hshifted⟩ := or_shift_eq_add hval (mul_two_pow_lt hlt (by omega))
        have hsplit : d.toNat * 2 ^ shift = d.toNat % 128 * 2 ^ shift + d.toNat / 128 * 2 ^ (shift + 7) := by
          conv_lhs => rw [← Nat.mod_add_div d.toNat 128]
          rw [Nat.add_mul, Nat.pow_add, Nat.mul_comm 128, Nat.mul_assoc, Nat.mul_comm 128]
        have hval' : (val + (c.setWidth 64 &&& 0x7F) <<< shift).toNat < 2 ^ (shift + 7) := by
          have hbound : (d.toNat % 128 + 1) * 2 ^ shift ≤ 128 * 2 ^ shift :=
            Nat.mul_le_mul_right _ (Nat.mod_lt _ (by decide))
          rw [Nat.succ_mul] at hbound
          refine Nat.lt_of_le_of_lt (Nat.mod_le ..) ?_
          rw [hshifted, hlow, Nat.pow_add, Nat.mul_comm (2 ^ shift)]
          show _ < 128 * 2 ^ shift
          omega
        have hjoin : (c.setWidth 64 &&& 0x7F) <<< shift + (d >>> 7) <<< (shift + 7) = d <<< shift := by
          apply eq_of_toNat_eq
          rw [toNat_add, hshifted, hlow, toNat_shiftLeft, toNat_shiftLeft, toNat_shift7,
            Nat.shiftLeft_eq, Nat.shiftLeft_eq, Nat.add_mod_mod, ← hsplit]
        rw [encodeVarbyteLoop_large m (Nat.le_of_not_lt hsmall), hc, List.cons_append, decodeVarbyteAt,
          if_neg (by rw [continues_iff, hcontinued]; omega), hor,
          ih m (hrest n hn) (hrest m hm) (by omega) hval', BitVec.add_assoc, hjoin]

/-- **An integer of up to seven bytes is read as it was written.** -/
theorem decodeVarbyte_encodeVarbyte (h : d.toNat < 2 ^ 49) : decodeVarbyte (encodeVarbyte d ++ p) = some (d, p) := by
  have hat := @decodeVarbyteAt_encode d 0 p 6 9 0 h
    (Nat.lt_of_lt_of_le d.isLt (by decide)) (by decide) (by decide)
  rw [BitVec.shiftLeft_zero, show (0 : BitVec 64) + d = d from BitVec.zero_add d] at hat
  exact hat

end PgStorage.Gin
