import PgStorage.Gin.Varbyte

/-! Posting lists come back as they were written.

The encoder takes an integer for at most six bytes, but 43 bits need seven. So it stays within its memory unless items
lie at least `2 ^ 31` blocks apart where fewer than seven bytes are left. -/
namespace PgStorage.Gin
open List Nat Packing

variable {a b : ItemPointer} {ipd : List ItemPointer} {maxbytes : Nat} {s : Packing}

structure ItemPointer.Valid (iptr : ItemPointer) : Prop where
  block : iptr.block.toNat < 2 ^ 32 - 1
  offset : 1 ≤ iptr.offset.toNat ∧ iptr.offset.toNat ≤ 2047

/-- The order of item pointers, by block and by offset in it. -/
def Precedes (a b : ItemPointer) : Prop :=
  a.block.toNat < b.block.toNat ∨ a.block = b.block ∧ a.offset.toNat < b.offset.toNat

instance (a : ItemPointer) : Decidable a.Valid :=
  decidable_of_iff (a.block.toNat < 2 ^ 32 - 1 ∧ 1 ≤ a.offset.toNat ∧ a.offset.toNat ≤ 2047)
    ⟨fun ⟨hblock, hoffset⟩ => ⟨hblock, hoffset⟩, fun ⟨hblock, hoffset⟩ => ⟨hblock, hoffset⟩⟩

instance (a b : ItemPointer) : Decidable (Precedes a b) :=
  inferInstanceAs (Decidable (_ ∨ _))

theorem toNat_itemptr (h : a.Valid) : (itemptrToUint64 a).toNat = a.block.toNat * 2 ^ 11 + a.offset.toNat := by
  have hblock : (a.block.setWidth 64 : BitVec 64).toNat = a.block.toNat := BitVec.toNat_setWidth_of_le (by decide)
  have hoffset : (a.offset.setWidth 64 : BitVec 64).toNat = a.offset.toNat := BitVec.toNat_setWidth_of_le (by decide)
  have hlt := a.block.isLt
  have hshift : (a.block.setWidth 64 <<< maxHeapTuplesPerPageBits : BitVec 64).toNat = a.block.toNat <<< 11 := by
    rw [BitVec.toNat_shiftLeft, hblock, shiftLeft_eq, shiftLeft_eq]
    exact mod_eq_of_lt (show a.block.toNat * 2 ^ maxHeapTuplesPerPageBits < 2 ^ 64 by
      rw [maxHeapTuplesPerPageBits]
      omega)
  have hle := h.offset.2
  rw [itemptrToUint64, BitVec.toNat_or, hshift, hoffset,
    ← shiftLeft_add_eq_or_of_lt (show a.offset.toNat < 2 ^ 11 by omega), shiftLeft_eq]

theorem uint64ToItemptr_itemptr (h : a.Valid) : uint64ToItemptr (itemptrToUint64 a) = a := by
  have hval := toNat_itemptr h
  have hblock := a.block.isLt
  have hle := h.offset.2
  have hblock' : ((itemptrToUint64 a >>> maxHeapTuplesPerPageBits).setWidth 32).toNat = a.block.toNat := by
    rw [BitVec.toNat_setWidth, BitVec.toNat_ushiftRight, hval, shiftRight_eq_div_pow]
    show (a.block.toNat * 2 ^ 11 + a.offset.toNat) / 2 ^ 11 % 2 ^ 32 = _
    omega
  have hoffset' : ((itemptrToUint64 a &&& ((1 <<< maxHeapTuplesPerPageBits) - 1)).setWidth 16).toNat = a.offset.toNat := by
    have hmask : ((1 <<< maxHeapTuplesPerPageBits) - 1 : BitVec 64).toNat = 2 ^ 11 - 1 := by decide
    rw [BitVec.toNat_setWidth, BitVec.toNat_and, hmask, and_two_pow_sub_one_eq_mod, hval]
    omega
  rw [uint64ToItemptr, BitVec.eq_of_toNat_eq hblock', BitVec.eq_of_toNat_eq hoffset']

def gap (a b : ItemPointer) : BitVec 64 := itemptrToUint64 b - itemptrToUint64 a

/-- The distance of items in order; it has 43 bits. -/
theorem gap_spec (ha : a.Valid) (hb : b.Valid) (h : Precedes a b) :
    (gap a b).toNat < 2 ^ 43 ∧ itemptrToUint64 a + gap a b = itemptrToUint64 b := by
  have hval := toNat_itemptr ha
  have hval' := toNat_itemptr hb
  have hle := ha.offset.2
  have hle' := hb.offset.2
  have hblock := hb.block
  have hlt : (itemptrToUint64 a).toNat ≤ (itemptrToUint64 b).toNat := by
    rcases h with hblock | ⟨hblock, hoffset⟩
    · omega
    · rw [hval, hval', hblock]
      omega
  have hgap : (gap a b).toNat = (itemptrToUint64 b).toNat - (itemptrToUint64 a).toNat :=
    BitVec.toNat_sub_of_le (BitVec.le_def.mpr hlt)
  refine ⟨by omega, BitVec.eq_of_toNat_eq ?_⟩
  rw [BitVec.toNat_add, hgap, Nat.add_sub_cancel' hlt, Nat.mod_eq_of_lt (BitVec.isLt _)]

/-! ### Packing -/

/-- The bytes for the items behind `a`. -/
def gapBytes (a : ItemPointer) : List ItemPointer → List Byte
  | [] => []
  | b :: ipd => encodeVarbyte (gap a b) ++ gapBytes b ipd

/-- Items `2 ^ 31` blocks apart are reached with seven bytes left, or not at all; `used` bytes are taken when `a` is
packed. -/
def wideGapsFit (maxbytes : Nat) : Nat → ItemPointer → List ItemPointer → Bool
  | _, _, [] => true
  | used, a, b :: ipd =>
    (decide ((gap a b).toNat < 2 ^ 42) || decide (used + 7 ≤ maxbytes) || decide (maxbytes < used)) &&
      wideGapsFit maxbytes (used + (encodeVarbyte (gap a b)).length) b ipd

/-- Past the end nothing is reached. -/
theorem wideGapsFit_full (used : Nat) (a : ItemPointer) (ipd : List ItemPointer) (h : maxbytes < used) :
    wideGapsFit maxbytes used a ipd = true := by
  induction ipd generalizing used a with
  | nil => rfl
  | cons b ipd ih =>
    rw [wideGapsFit, decide_eq_true h, Bool.or_true, Bool.true_and]
    exact ih _ _ (by omega)

/-- The items behind `a`, in order. -/
def Follow (a : ItemPointer) (ipd : List ItemPointer) : Prop :=
  (∀ iptr ∈ a :: ipd, iptr.Valid) ∧ (a :: ipd).Pairwise Precedes

theorem Follow.tail (h : Follow a (b :: ipd)) : Follow b ipd :=
  ⟨fun iptr hi => h.1 iptr (mem_cons_of_mem _ hi), (pairwise_cons.mp h.2).2⟩

theorem Follow.gap (h : Follow a (b :: ipd)) :
    (gap a b).toNat < 2 ^ 43 ∧ itemptrToUint64 a + Gin.gap a b = itemptrToUint64 b :=
  gap_spec (h.1 a (mem_cons_self ..)) (h.1 b (by simp)) ((pairwise_cons.mp h.2).1 b (mem_cons_self ..))

/-- Six bytes, or seven for a wide gap. -/
theorem Follow.length (h : Follow a (b :: ipd)) :
    0 < (encodeVarbyte (Gin.gap a b)).length ∧ (encodeVarbyte (Gin.gap a b)).length ≤ 7 ∧
      ((encodeVarbyte (Gin.gap a b)).length ≤ 6 ↔ (Gin.gap a b).toNat < 2 ^ 42) := by
  obtain ⟨hpos, hsix⟩ := encodeVarbyte_length (Gin.gap a b) 5
  refine ⟨hpos, (encodeVarbyte_length (Gin.gap a b) 6).2.mpr (lt_of_lt_of_le h.gap.1 (by decide)), hsix⟩

theorem packItems_cons (a b : ItemPointer) (ipd : List ItemPointer) (s : Packing) :
    packItems maxbytes (itemptrToUint64 a) (b :: ipd) s =
      if s.bytes.length + 6 ≤ maxbytes then
        packItems maxbytes (itemptrToUint64 b) ipd (s.append (encodeVarbyte (gap a b)))
      else if maxbytes < s.bytes.length + (encodeVarbyte (gap a b)).length then s.buffer (encodeVarbyte (gap a b))
      else packItems maxbytes (itemptrToUint64 b) ipd
        ((s.buffer (encodeVarbyte (gap a b))).append (encodeVarbyte (gap a b))) := rfl

theorem Packing.append_length (s : Packing) (buf : List Byte) :
    (s.append buf).bytes.length = s.bytes.length + buf.length := length_append

theorem packItems_grows (maxbytes : Nat) (a : ItemPointer) (ipd : List ItemPointer) (s : Packing) :
    s.bytes.length ≤ (packItems maxbytes (itemptrToUint64 a) ipd s).bytes.length ∧
      s.scratch ≤ (packItems maxbytes (itemptrToUint64 a) ipd s).scratch := by
  induction ipd generalizing a s with
  | nil => exact ⟨le_rfl, le_rfl⟩
  | cons b ipd ih =>
    rw [packItems_cons]
    split
    · have hrest := ih b (s.append (encodeVarbyte (gap a b)))
      rw [append_length] at hrest
      exact ⟨by omega, hrest.2⟩
    · split
      · exact ⟨le_rfl, le_max_left ..⟩
      · have hrest := ih b ((s.buffer (encodeVarbyte (gap a b))).append (encodeVarbyte (gap a b)))
        rw [append_length] at hrest
        exact ⟨le_of_add_right_le hrest.1, (le_max_left ..).trans hrest.2⟩

/-- What the loop did: it packed some items, and the next one did not fit. -/
structure Packed (maxbytes : Nat) (a : ItemPointer) (ipd : List ItemPointer) (s s' : Packing) (k : Nat) : Prop where
  le : k ≤ ipd.length
  bytes : s'.bytes = s.bytes ++ gapBytes a (ipd.take k)
  totalpacked : s'.totalpacked = s.totalpacked + k
  scratch : s'.scratch ≤ max s.scratch 6
  room : s'.bytes.length ≤ maxbytes
  full : k < ipd.length → maxbytes < s.bytes.length + (gapBytes a (ipd.take (k + 1))).length

/-- One item more. -/
theorem Packed.cons {s₁ s' : Packing} {k : Nat} (h : Packed maxbytes b ipd s₁ s' k)
    (hbytes : s₁.bytes = s.bytes ++ encodeVarbyte (gap a b)) (htotal : s₁.totalpacked = s.totalpacked + 1)
    (hscratch : s₁.scratch ≤ max s.scratch 6) : Packed maxbytes a (b :: ipd) s s' (k + 1) := by
  refine ⟨Nat.succ_le_succ h.le, ?_, by rw [h.totalpacked, htotal]; omega,
    h.scratch.trans (Nat.max_le.mpr ⟨hscratch, Nat.le_max_right ..⟩), h.room, fun hk => ?_⟩
  · rw [h.bytes, hbytes, append_assoc]
    rfl
  · have hfull := h.full (lt_of_succ_lt_succ hk)
    rw [hbytes, length_append] at hfull
    show maxbytes < _ + (encodeVarbyte (gap a b) ++ gapBytes b (ipd.take (k + 1))).length
    rw [length_append]
    omega

/-- **The loop stays within its memory where wide gaps fit.** -/
theorem packItems_spec (h : Follow a ipd) (hroom : s.bytes.length ≤ maxbytes)
    (hfit : wideGapsFit maxbytes s.bytes.length a ipd = true) :
    ∃ k, Packed maxbytes a ipd s (packItems maxbytes (itemptrToUint64 a) ipd s) k := by
  induction ipd generalizing a s with
  | nil =>
    exact ⟨0, le_rfl, (append_nil _).symm, rfl, le_max_left .., hroom, fun hk => absurd hk (by decide)⟩
  | cons b ipd ih =>
    rw [wideGapsFit, Bool.and_eq_true, Bool.or_eq_true, Bool.or_eq_true, decide_eq_true_eq, decide_eq_true_eq,
      decide_eq_true_eq] at hfit
    obtain ⟨hwide, hrest⟩ := hfit
    obtain ⟨-, hseven, hsix⟩ := h.length
    rw [packItems_cons]
    split
    · obtain ⟨k, hk⟩ := ih (s := s.append (encodeVarbyte (gap a b))) h.tail
        (by rw [append_length]; omega) (by rw [append_length]; exact hrest)
      exact ⟨k + 1, hk.cons rfl rfl (le_max_left ..)⟩
    next hsmall =>
      have hnarrow : (encodeVarbyte (gap a b)).length ≤ 6 := hsix.mpr (by omega)
      have hscratch : (s.buffer (encodeVarbyte (gap a b))).scratch ≤ max s.scratch 6 :=
        Nat.max_le.mpr ⟨Nat.le_max_left .., hnarrow.trans (Nat.le_max_right ..)⟩
      split
      next hfull =>
        refine ⟨0, zero_le _, (append_nil _).symm, rfl, hscratch, hroom, fun _ => ?_⟩
        show maxbytes < _ + (encodeVarbyte (gap a b) ++ []).length
        rwa [append_nil]
      next hfits =>
        obtain ⟨k, hk⟩ := ih (s := (s.buffer (encodeVarbyte (gap a b))).append (encodeVarbyte (gap a b))) h.tail
          (by rw [append_length]; exact Nat.le_of_not_lt hfits) (by rw [append_length]; exact hrest)
        exact ⟨k + 1, hk.cons rfl rfl hscratch⟩

/-- A wide gap without room is written past the end, of the allocation or of the buffer. -/
theorem packItems_overrun (h : Follow a ipd) (hroom : s.bytes.length ≤ maxbytes)
    (hfit : wideGapsFit maxbytes s.bytes.length a ipd = false) :
    maxbytes < (packItems maxbytes (itemptrToUint64 a) ipd s).bytes.length ∨
      6 < (packItems maxbytes (itemptrToUint64 a) ipd s).scratch := by
  induction ipd generalizing a s with
  | nil => exact nomatch hfit
  | cons b ipd ih =>
    obtain ⟨-, hseven, hsix⟩ := h.length
    rw [wideGapsFit, Bool.and_eq_false_iff, Bool.or_eq_false_iff, Bool.or_eq_false_iff, decide_eq_false_iff_not,
      decide_eq_false_iff_not, decide_eq_false_iff_not] at hfit
    rw [packItems_cons]
    rcases hfit with ⟨⟨hwide, hleft⟩, -⟩ | hrest
    · -- seven bytes, where fewer are left
      have hlen : 6 < (encodeVarbyte (gap a b)).length := Nat.lt_of_not_le fun hle => hwide (hsix.mp hle)
      have hbuffer : 6 < (s.buffer (encodeVarbyte (gap a b))).scratch := Nat.lt_of_lt_of_le hlen (Nat.le_max_right ..)
      split
      · have hgrows := (packItems_grows maxbytes b ipd (s.append (encodeVarbyte (gap a b)))).1
        rw [append_length] at hgrows
        exact .inl (by omega)
      · split
        · exact .inr hbuffer
        · exact .inr (Nat.lt_of_lt_of_le hbuffer
            (packItems_grows maxbytes b ipd ((s.buffer (encodeVarbyte (gap a b))).append (encodeVarbyte (gap a b)))).2)
    · have hin : s.bytes.length + (encodeVarbyte (gap a b)).length ≤ maxbytes := Nat.le_of_not_lt fun hlt =>
        nomatch hrest.symm.trans (wideGapsFit_full _ b ipd hlt)
      split
      · exact ih (s := s.append (encodeVarbyte (gap a b))) h.tail (by rw [append_length]; exact hin)
          (by rw [append_length]; exact hrest)
      · rw [if_neg (not_lt.mpr hin)]
        exact ih (s := (s.buffer (encodeVarbyte (gap a b))).append (encodeVarbyte (gap a b))) h.tail
          (by rw [append_length]; exact hin) (by rw [append_length]; exact hrest)

end PgStorage.Gin
