import PgStorage.Wah.BooleanProofs

/-! AND and OR of bitmaps of different lengths (`bmpand`, `bmpor`).

The shorter operand is copied, padded with zeros and the routine called again. Of
the four recursive calls three go back to the operation they came from; `bmpor`
with the shorter operand on the left goes on to `bmpand`. -/
namespace PgStorage.Wah
open Bits
open List

def bitmapCopy (bmpa bmpb : Bitmap) : Bitmap :=
  {bmpb with
    nbits := bmpa.nbits, active := bmpa.active, mSize := bmpa.mSize
    isCompressed := bmpa.isCompressed, mVec := bmpa.mVec.take bmpa.mSize.toNat}

/-- Pad with zeros up to `nbits` bits; a longer bitmap is left alone. -/
def adjustSize (bmp : Bitmap) (nbits : Word) : Bitmap :=
  let sz := bmp.nbits + bmp.active.nbits
  if sz = nbits then bmp
  else if sz < nbits then appendBits bmp 0 (nbits - sz)
  else bmp

/-- `fuel` bounds the recursion and the passes of the loop at its end. -/
def bmpand : Nat → Bitmap → Bitmap → Option Bitmap
  | 0, _, _ => none
  | fuel + 1, bmpa, bmpb =>
    let nbitsa := bitmapSize bmpa
    let nbitsb := bitmapSize bmpb
    if nbitsb < nbitsa then bmpand fuel bmpa (adjustSize (bitmapCopy bmpb makeBitmap) nbitsa)
    else if nbitsa < nbitsb then bmpand fuel bmpb (adjustSize (bitmapCopy bmpa makeBitmap) nbitsb)
    else c2And fuel bmpa bmpb

def bmpor : Nat → Bitmap → Bitmap → Option Bitmap
  | 0, _, _ => none
  | fuel + 1, bmpa, bmpb =>
    let nbitsa := bitmapSize bmpa
    let nbitsb := bitmapSize bmpb
    if nbitsb < nbitsa then bmpor fuel bmpa (adjustSize (bitmapCopy bmpb makeBitmap) nbitsa)
    -- the source calls `bmpand` here
    else if nbitsa < nbitsb then bmpand fuel bmpb (adjustSize (bitmapCopy bmpa makeBitmap) nbitsb)
    else c2Or fuel bmpa bmpb

/-- A bit list, with zeros on the right up to `n` bits. -/
def pad (n : Nat) (bits : List Bool) : List Bool := bits ++ List.replicate (n - bits.length) false

theorem pad_length {n : Nat} {bits : List Bool} (h : bits.length ≤ n) : (pad n bits).length = n := by
  rw [pad, length_append, length_replicate]
  omega

@[simp] theorem pad_self (bits : List Bool) : pad bits.length bits = bits := by simp [pad]

theorem bitmapCopy_spec {bmp : Bitmap} (h : WellFormed bmp) (dst : Bitmap) :
    WellFormed (bitmapCopy bmp dst) ∧ decode (bitmapCopy bmp dst) = decode bmp := by
  have hvec : vec (bitmapCopy bmp dst) = vec bmp := by
    simp only [vec, bitmapCopy, take_take, min_self]
  have hgroups : groups (bitmapCopy bmp dst) = groups bmp := by rw [groups, hvec, groups]
  have hdecode : decode (bitmapCopy bmp dst) = decode bmp := by
    rw [decode_eq, decode_eq, hgroups]
    rfl
  refine ⟨⟨⟨?_, ?_, ?_⟩, h.activeBits, h.activeVal, by rw [hdecode]; exact h.length⟩, hdecode⟩
  · show bmp.mSize.toNat ≤ (bmp.mVec.take bmp.mSize.toNat).length
    rw [length_take, min_eq_left h.allocated]
  · rw [hvec]
    exact h.fills
  · rw [hgroups]
    exact h.count

theorem adjustSize_spec {bmp : Bitmap} {n : Word} (h : WellFormed bmp) (hn : (decode bmp).length ≤ n.toNat) :
    WellFormed (adjustSize bmp n) ∧ decode (adjustSize bmp n) = pad n.toNat (decode bmp) := by
  have hsz : (bmp.nbits + bmp.active.nbits).toNat = (decode bmp).length := by
    rw [← toNat_bitmapSize h, bitmapSize, doCnt_eq h.toStored]
    simp
  simp only [adjustSize]
  by_cases heq : bmp.nbits + bmp.active.nbits = n
  · rw [if_pos heq]
    refine ⟨h, ?_⟩
    rw [← heq, hsz, pad_self]
  · have hlt : bmp.nbits + bmp.active.nbits < n := by
      rw [BitVec.lt_def, hsz]
      have : (bmp.nbits + bmp.active.nbits).toNat ≠ n.toNat := fun h => heq (BitVec.eq_of_toNat_eq h)
      omega
    have hsub : (n - (bmp.nbits + bmp.active.nbits)).toNat = n.toNat - (decode bmp).length := by
      rw [BitVec.toNat_sub_of_le (by rw [BitVec.le_def, hsz]; exact hn), hsz]
    rw [if_neg heq, if_pos hlt]
    have happ := appendBits_spec (n := n - (bmp.nbits + bmp.active.nbits)) h (.inl rfl)
      (by rw [hsub]; have := n.isLt; omega)
    refine ⟨happ.wellFormed, ?_⟩
    rw [happ.bits, hsub, pad]
    rfl

variable {a b : Bitmap}

/-- The operand that the recursive calls build. -/
theorem resized_spec (ha : WellFormed a) (hb : WellFormed b) (h : (decode a).length ≤ (decode b).length) :
    WellFormed (adjustSize (bitmapCopy a makeBitmap) (bitmapSize b)) ∧
      decode (adjustSize (bitmapCopy a makeBitmap) (bitmapSize b)) = pad (decode b).length (decode a) := by
  obtain ⟨hcopy, hdecode⟩ := bitmapCopy_spec ha makeBitmap
  have hsize := toNat_bitmapSize hb
  obtain ⟨hwf, hpad⟩ := adjustSize_spec (n := bitmapSize b) hcopy (by rw [hdecode, hsize]; exact h)
  exact ⟨hwf, by rw [hpad, hdecode, hsize]⟩

theorem bitmapSize_lt (ha : WellFormed a) (hb : WellFormed b) :
    bitmapSize a < bitmapSize b ↔ (decode a).length < (decode b).length := by
  rw [BitVec.lt_def, toNat_bitmapSize ha, toNat_bitmapSize hb]

/-- A well-formed bitmap has fewer words than bits. -/
theorem mSize_le (h : WellFormed a) : 31 * a.mSize.toNat ≤ (decode a).length := by
  have := h.toStored.size_le
  rw [decode_length]
  omega

/-! ### The two operations -/

/-- What a call returns: a well-formed bitmap with these bits. -/
def Returns (call : Option Bitmap) (bits : List Bool) : Prop :=
  ∃ r, call = some r ∧ WellFormed r ∧ decode r = bits

theorem Returns.unique {call : Option Bitmap} {xs ys : List Bool} (hx : Returns call xs) (hy : Returns call ys) :
    xs = ys := by
  obtain ⟨r, hr, _, hrx⟩ := hx
  obtain ⟨s, hs, _, hsy⟩ := hy
  rw [hr] at hs
  rw [← hrx, ← hsy, Option.some.inj hs]

section
variable (ha : WellFormed a) (hb : WellFormed b)
include ha hb

theorem bmpand_same
    (hlen : (decode a).length = (decode b).length) (fuel : Nat) (hfuel : (decode a).length + 1 < fuel) :
    Returns (bmpand fuel a b) (zipWith (· && ·) (decode a) (decode b)) := by
  obtain ⟨fuel, rfl⟩ : ∃ more, fuel = more + 1 := ⟨fuel - 1, by omega⟩
  have hab := mt (bitmapSize_lt ha hb).mp (by omega)
  have hba := mt (bitmapSize_lt hb ha).mp (by omega)
  have := mSize_le ha
  have := mSize_le hb
  simp only [bmpand, if_neg hba, if_neg hab]
  obtain ⟨r, hr, hwf, hdecode, -⟩ := c2Op_spec and_lawful ha hb hlen fuel (by omega)
  exact ⟨r, hr, hwf, hdecode⟩

theorem bmpor_same
    (hlen : (decode a).length = (decode b).length) (fuel : Nat) (hfuel : (decode a).length + 1 < fuel) :
    Returns (bmpor fuel a b) (zipWith (· || ·) (decode a) (decode b)) := by
  obtain ⟨fuel, rfl⟩ : ∃ more, fuel = more + 1 := ⟨fuel - 1, by omega⟩
  have hab := mt (bitmapSize_lt ha hb).mp (by omega)
  have hba := mt (bitmapSize_lt hb ha).mp (by omega)
  have := mSize_le ha
  have := mSize_le hb
  simp only [bmpor, if_neg hba, if_neg hab]
  obtain ⟨r, hr, hwf, hdecode, -⟩ := c2Op_spec or_lawful ha hb hlen fuel (by omega)
  exact ⟨r, hr, hwf, hdecode⟩

/-- The longer operand first: the shorter is padded. -/
theorem bmpand_longer
    (hlt : (decode b).length < (decode a).length) {fuel : Nat} (hfuel : (decode a).length + 2 < fuel) :
    Returns (bmpand fuel a b) (zipWith (· && ·) (decode a) (pad (decode a).length (decode b))) := by
  obtain ⟨fuel, rfl⟩ : ∃ more, fuel = more + 1 := ⟨fuel - 1, by omega⟩
  obtain ⟨hwf, hdecode⟩ := resized_spec hb ha (by omega)
  simp only [bmpand, if_pos ((bitmapSize_lt hb ha).mpr hlt)]
  rw [← hdecode]
  exact bmpand_same ha hwf (by rw [hdecode, pad_length (by omega)]) fuel (by omega)

theorem bmpor_longer
    (hlt : (decode b).length < (decode a).length) {fuel : Nat} (hfuel : (decode a).length + 2 < fuel) :
    Returns (bmpor fuel a b) (zipWith (· || ·) (decode a) (pad (decode a).length (decode b))) := by
  obtain ⟨fuel, rfl⟩ : ∃ more, fuel = more + 1 := ⟨fuel - 1, by omega⟩
  obtain ⟨hwf, hdecode⟩ := resized_spec hb ha (by omega)
  simp only [bmpor, if_pos ((bitmapSize_lt hb ha).mpr hlt)]
  rw [← hdecode]
  exact bmpor_same ha hwf (by rw [hdecode, pad_length (by omega)]) fuel (by omega)

/-- The shorter operand first: both routines end in an AND. -/
theorem shorter_and
    (hlt : (decode a).length < (decode b).length) {fuel : Nat} (hfuel : (decode b).length + 2 < fuel) :
    Returns (bmpand fuel a b) (zipWith (· && ·) (pad (decode b).length (decode a)) (decode b)) ∧
      Returns (bmpor fuel a b) (zipWith (· && ·) (pad (decode b).length (decode a)) (decode b)) := by
  obtain ⟨fuel, rfl⟩ : ∃ more, fuel = more + 1 := ⟨fuel - 1, by omega⟩
  obtain ⟨hwf, hdecode⟩ := resized_spec ha hb (by omega)
  have hge := mt (bitmapSize_lt hb ha).mp (by omega)
  have hcall := bmpand_same hb hwf (by rw [hdecode, pad_length (by omega)]) fuel (by omega)
  rw [hdecode, zipWith_comm_of_comm Bool.and_comm] at hcall
  simp only [bmpand, bmpor, if_neg hge, if_pos ((bitmapSize_lt ha hb).mpr hlt)]
  exact ⟨hcall, hcall⟩

end

/-- AND and OR of two lists of one length agree only when the lists do. -/
theorem and_eq_or_iff {xs ys : List Bool} (h : xs.length = ys.length) :
    zipWith (· && ·) xs ys = zipWith (· || ·) xs ys ↔ xs = ys := by
  induction xs generalizing ys with
  | nil =>
    rw [length_nil] at h
    simp [eq_nil_of_length_eq_zero h.symm]
  | cons x xs ih =>
    cases ys with
    | nil => simp at h
    | cons y ys =>
      rw [zipWith_cons_cons, zipWith_cons_cons, cons.injEq, cons.injEq,
        ih (by simpa using h)]
      exact and_congr_left fun _ => by cases x <;> cases y <;> decide

/-- What the two operations owe on `a` and `b`: the operation on the bit lists
padded to one length, in either order of the operands. -/
def PaddedOps (fuel : Nat) (a b : Bitmap) : Prop :=
  let n := max (decode a).length (decode b).length
  Returns (bmpand fuel a b) (List.zipWith (· && ·) (pad n (decode a)) (pad n (decode b))) ∧
    Returns (bmpor fuel a b) (List.zipWith (· || ·) (pad n (decode a)) (pad n (decode b))) ∧
    (∃ bits, Returns (bmpand fuel a b) bits ∧ Returns (bmpand fuel b a) bits) ∧
    ∃ bits, Returns (bmpor fuel a b) bits ∧ Returns (bmpor fuel b a) bits

/-- The operands in one order decide about both. -/
theorem paddedOps_shorter (ha : WellFormed a) (hb : WellFormed b)
    (hlt : (decode a).length < (decode b).length) {fuel : Nat} (hfuel : (decode b).length + 2 < fuel) :
    (PaddedOps fuel a b ↔ pad (decode b).length (decode a) = decode b) ∧
      (PaddedOps fuel b a ↔ pad (decode b).length (decode a) = decode b) := by
  have hmax : max (decode a).length (decode b).length = (decode b).length := by omega
  have hmax' : max (decode b).length (decode a).length = (decode b).length := by omega
  have hlen : (pad (decode b).length (decode a)).length = (decode b).length := pad_length (by omega)
  obtain ⟨hand, hor⟩ := shorter_and ha hb hlt hfuel
  have hand' := bmpand_longer hb ha hlt hfuel
  have hor' := bmpor_longer hb ha hlt hfuel
  rw [zipWith_comm_of_comm Bool.and_comm] at hand'
  rw [zipWith_comm_of_comm Bool.or_comm] at hor'
  simp only [PaddedOps, hmax, hmax', pad_self]
  refine ⟨⟨fun ⟨_, h, _, _⟩ => ?_, fun h => ⟨hand, ?_, ⟨_, hand, hand'⟩, ⟨_, hor, ?_⟩⟩⟩,
    ⟨fun ⟨_, _, _, bits, h, h'⟩ => ?_, fun h => ⟨?_, ?_, ⟨_, hand', hand⟩, ⟨_, hor', ?_⟩⟩⟩⟩
  · exact (and_eq_or_iff hlen).mp (hor.unique h)
  · rwa [← (and_eq_or_iff hlen).mpr h]
  · rwa [(and_eq_or_iff hlen).mpr h]
  · exact (and_eq_or_iff hlen).mp ((hor.unique h').trans (h.unique hor'))
  · rwa [zipWith_comm_of_comm Bool.and_comm]
  · rwa [zipWith_comm_of_comm Bool.or_comm]
  · rwa [← (and_eq_or_iff hlen).mpr h]

/-- **The operations are those on padded lists, and symmetric, exactly for operands
of one length and for operands that differ only by zeros at the end.** -/
theorem paddedOps_iff (a b : Bitmap) (ha : WellFormed a) (hb : WellFormed b) (fuel : Nat)
    (hfuel : max (decode a).length (decode b).length + 2 < fuel) :
    PaddedOps fuel a b ↔ (decode a).length = (decode b).length ∨
      pad (max (decode a).length (decode b).length) (decode a) =
        pad (max (decode a).length (decode b).length) (decode b) := by
  rcases lt_trichotomy (decode a).length (decode b).length with hlt | heq | hgt
  · have hmax : max (decode a).length (decode b).length = (decode b).length := by omega
    rw [(paddedOps_shorter ha hb hlt (by omega)).1, hmax, pad_self]
    exact ⟨.inr, fun h => h.resolve_left (by omega)⟩
  · refine ⟨fun _ => .inl heq, fun _ => ?_⟩
    have hand := bmpand_same ha hb heq fuel (by omega)
    have hor := bmpor_same ha hb heq fuel (by omega)
    have hand' := bmpand_same hb ha heq.symm fuel (by omega)
    have hor' := bmpor_same hb ha heq.symm fuel (by omega)
    rw [zipWith_comm_of_comm Bool.and_comm] at hand'
    rw [zipWith_comm_of_comm Bool.or_comm] at hor'
    simp only [PaddedOps, ← heq, Nat.max_self, pad_self]
    rw [heq, pad_self]
    exact ⟨hand, hor, ⟨_, hand, hand'⟩, ⟨_, hor, hor'⟩⟩
  · have hmax : max (decode a).length (decode b).length = (decode a).length := by omega
    rw [(paddedOps_shorter hb ha hgt (by omega)).2, hmax, pad_self]
    exact ⟨fun h => .inr h.symm, fun h => (h.resolve_left (by omega)).symm⟩

theorem paddedOps_iff_zeros :
    PaddedOps 37 ⟨false, 0, [], 0, ⟨1, 1⟩⟩ ⟨false, 31, [0x40000000], 1, ⟨0, 3⟩⟩ :=
  (paddedOps_iff ⟨false, 0, [], 0, ⟨1, 1⟩⟩ ⟨false, 31, [0x40000000], 1, ⟨0, 3⟩⟩ (by decide +kernel)
    (by decide +kernel) 37 (by decide +kernel)).mpr (.inr (by decide +kernel))

/-- The empty bitmap on the left of a single one bit: the OR comes out as 0. -/
theorem bmpor_shorter_left :
    WellFormed makeBitmap ∧ WellFormed ⟨false, 0, [], 0, ⟨1, 1⟩⟩ ∧
      bmpor 4 makeBitmap ⟨false, 0, [], 0, ⟨1, 1⟩⟩ = some ⟨false, 0, [], 0, ⟨0, 1⟩⟩ ∧
      ¬ PaddedOps 4 makeBitmap ⟨false, 0, [], 0, ⟨1, 1⟩⟩ := by
  refine ⟨makeBitmap_wellFormed, by decide +kernel, by decide +kernel, fun h => ?_⟩
  obtain ⟨-, ⟨r, hr, -, hbits⟩, -⟩ := h
  have hr' : bmpor 4 makeBitmap ⟨false, 0, [], 0, ⟨1, 1⟩⟩ = some ⟨false, 0, [], 0, ⟨0, 1⟩⟩ := by decide +kernel
  rw [hr'] at hr
  rw [← Option.some.inj hr] at hbits
  exact absurd hbits (by decide +kernel)

end PgStorage.Wah
