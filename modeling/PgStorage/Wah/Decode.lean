import PgStorage.Wah.Bitmap

/-! What a WAH bitmap stands for, and what every append does to it.

`decode` reads the bits off the stored words and the active word. Between the two
sits the list of 31-bit groups the stored words expand to (`groups`), which is
what the routines really append to; each of them is described once, on groups,
and the bit-level statements follow. -/
namespace PgStorage.Wah
open Bits
open List
open BitVec (le_def ofNat toNat_add)

/-- A fill word: the two header bits are 10 or 11. -/
def IsFill (w : Word) : Prop := (2 : Word) ≤ w >>> 30

instance (w : Word) : Decidable (IsFill w) := inferInstanceAs (Decidable ((2 : Word) ≤ w >>> 30))

def fillCount (w : Word) : Nat := (w &&& ~~~header1F).toNat

/-- The group a fill repeats. -/
def fillGroup (w : Word) : Word := if w >>> 30 = 3 then allOnes else 0

def wordBits (w : Word) : List Bool :=
  if IsFill w then List.replicate (31 * fillCount w) (decide ((w >>> 30).toNat - 2 = 1))
  else msb 31 w.toNat

/-- The groups a word stands for. -/
def expand (w : Word) : List Word :=
  if IsFill w then List.replicate (fillCount w) (fillGroup w) else [w]

theorem toNat_head (w : Word) : (w >>> 30).toNat = w.toNat / 2 ^ 30 := by
  rw [BitVec.toNat_ushiftRight, Nat.shiftRight_eq_div_pow]

theorem fillCount_eq (w : Word) : fillCount w = w.toNat % 2 ^ 30 := by
  have hmask : (~~~header1F : Word).toNat = 2 ^ 30 - 1 := by decide
  rw [fillCount, BitVec.toNat_and, hmask, Nat.and_two_pow_sub_one_eq_mod]

theorem isFill_iff (w : Word) : IsFill w ↔ 2 ^ 31 ≤ w.toNat := by
  rw [IsFill, le_def, toNat_head]
  have h2 : (2 : Word).toNat = 2 := rfl
  omega

theorem head_eq_iff (w : Word) (n : Nat) (hn : n < 4) :
    w >>> 30 = ofNat 32 n ↔ w.toNat / 2 ^ 30 = n := by
  rw [← BitVec.toNat_inj, toNat_head, BitVec.toNat_ofNat, Nat.mod_eq_of_lt (by omega)]

/-- A fill word is its header and its count. -/
theorem toNat_fill (val cnt : Word) (hv : val = 0 ∨ val = 1) (hc : cnt.toNat < 2 ^ 30) :
    (((2 + val) <<< 30) ||| cnt).toNat = (2 + val.toNat) * 2 ^ 30 + cnt.toNat := by
  have hshift : ((2 + val) <<< 30).toNat = (2 + val.toNat) <<< 30 := by
    rcases hv with rfl | rfl <;> decide
  rw [BitVec.toNat_or, hshift, ← Nat.shiftLeft_add_eq_or_of_lt hc, Nat.shiftLeft_eq]

theorem toNat_allOnes : allOnes.toNat = 2 ^ 31 - 1 := by decide

/-- The group of 31 copies of a bit. -/
def bitGroup (val : Word) : Word := if val = 1 then allOnes else 0

theorem msb_bitGroup (val : Word) :
    msb 31 (bitGroup val).toNat = replicate 31 (decide (val = 1)) := by
  unfold bitGroup
  by_cases h : val = 1
  · rw [if_pos h, toNat_allOnes, msb_ones, decide_eq_true h]
  · rw [if_neg h, decide_eq_false h]
    exact msb_zero 31

variable {w : Word} {bmp : Bitmap}

theorem expand_literal (h : w.toNat < 2 ^ 31) : expand w = [w] := by
  rw [expand, if_neg]
  rw [isFill_iff]
  omega

/-- A word with header `2 + val` expands to that many copies of the bit's group. -/
theorem expand_fill {val : Word} (hv : val = 0 ∨ val = 1) (cnt : Nat) (hc : cnt < 2 ^ 30)
    (h : w.toNat = (2 + val.toNat) * 2 ^ 30 + cnt) :
    expand w = replicate cnt (bitGroup val) := by
  have hfill : IsFill w := by rw [isFill_iff]; omega
  have hcount : fillCount w = cnt := by rw [fillCount_eq]; omega
  have hgroup : fillGroup w = bitGroup val := by
    have hhead : w.toNat / 2 ^ 30 = 2 + val.toNat := by omega
    unfold fillGroup bitGroup
    rcases hv with rfl | rfl
    · rw [if_neg, if_neg (by decide)]
      rw [show (3 : Word) = ofNat 32 3 from rfl, head_eq_iff w 3 (by decide), hhead]
      decide
    · rw [if_pos, if_pos rfl]
      rw [show (3 : Word) = ofNat 32 3 from rfl, head_eq_iff w 3 (by decide), hhead]
      rfl
  rw [expand, if_pos hfill, hcount, hgroup]

theorem expand_lt {g : Word} (h : g ∈ expand w) : g.toNat < 2 ^ 31 := by
  unfold expand at h
  split at h
  · obtain ⟨_, rfl⟩ := mem_replicate.mp h
    unfold fillGroup
    split <;> decide
  · rename_i hlit
    rw [isFill_iff] at hlit
    rw [mem_singleton.mp h]
    omega

/-- The bits of a list of groups. -/
def groupBits (gs : List Word) : List Bool := gs.flatMap fun g => msb 31 g.toNat

@[simp] theorem groupBits_append (gs hs : List Word) :
    groupBits (gs ++ hs) = groupBits gs ++ groupBits hs := flatMap_append ..

@[simp] theorem groupBits_singleton (g : Word) : groupBits [g] = msb 31 g.toNat := by
  simp [groupBits]

@[simp] theorem groupBits_length (gs : List Word) : (groupBits gs).length = 31 * gs.length := by
  have := flatMap_msb_length 31 (gs.map BitVec.toNat)
  rw [flatMap_map, length_map] at this
  exact this

theorem groupBits_replicate (n : Nat) (val : Word) :
    groupBits (replicate n (bitGroup val)) = replicate (31 * n) (decide (val = 1)) := by
  induction n with
  | zero => rfl
  | succ n ih =>
    rw [replicate_succ', groupBits_append, ih, groupBits_singleton, msb_bitGroup,
      replicate_append_replicate, Nat.mul_succ]

theorem groupBits_inj {gs hs : List Word} (hg : ∀ g ∈ gs, g.toNat < 2 ^ 31)
    (hh : ∀ g ∈ hs, g.toNat < 2 ^ 31) (h : groupBits gs = groupBits hs) : gs = hs := by
  have hmap : gs.map BitVec.toNat = hs.map BitVec.toNat := by
    apply flatMap_msb_inj (n := 31) (by decide)
    · simpa using hg
    · simpa using hh
    · rw [flatMap_map, flatMap_map]
      exact h
  exact map_injective_iff.mpr (fun _ _ => BitVec.eq_of_toNat_eq) hmap

theorem wordBits_eq (w : Word) : wordBits w = groupBits (expand w) := by
  unfold wordBits expand
  by_cases h : IsFill w
  · have hhead : w.toNat / 2 ^ 30 = 2 ∨ w.toNat / 2 ^ 30 = 3 := by
      rw [isFill_iff] at h
      have := w.isLt
      omega
    rw [if_pos h, if_pos h, toNat_head]
    have h3 := head_eq_iff w 3 (by decide)
    rcases hhead with hh | hh
    · have hg : fillGroup w = bitGroup 0 := by
        rw [fillGroup, if_neg]
        · rfl
        · rw [show (3 : Word) = ofNat 32 3 from rfl, h3, hh]; decide
      rw [hg, groupBits_replicate, hh]
      rfl
    · have hg : fillGroup w = bitGroup 1 := by
        rw [fillGroup, if_pos]
        · rfl
        · rw [show (3 : Word) = ofNat 32 3 from rfl, h3, hh]
      rw [hg, groupBits_replicate, hh]
      rfl
  · rw [if_neg h, if_neg h, groupBits_singleton]

/-- The words in use. -/
def vec (bmp : Bitmap) : List Word := bmp.mVec.take bmp.mSize.toNat

/-- The 31-bit groups the stored words expand to. -/
def groups (bmp : Bitmap) : List Word := (vec bmp).flatMap expand

/-- The bits a bitmap stands for. -/
def decode (bmp : Bitmap) : List Bool :=
  (vec bmp).flatMap wordBits ++ msb bmp.active.nbits.toNat bmp.active.val.toNat

/-- The stored words are consistent with the counters, whatever the active word. -/
structure Stored (bmp : Bitmap) : Prop where
  allocated : bmp.mSize.toNat ≤ bmp.mVec.length
  fills : ∀ w ∈ vec bmp, IsFill w → 1 ≤ fillCount w
  count : bmp.nbits.toNat = 31 * (groups bmp).length

structure WellFormed (bmp : Bitmap) : Prop extends Stored bmp where
  activeBits : bmp.active.nbits.toNat < 31
  activeVal : bmp.active.val.toNat < 2 ^ bmp.active.nbits.toNat
  length : (decode bmp).length < 2 ^ 32

/-- Two neighbours that are not runs of one bit. -/
def Apart (u v : Word) : Prop := IsFill u → IsFill v → u >>> 30 ≠ v >>> 30

/-- Canonical storage: no slack in the array, no literal that should be a run, no
run that should be part of its neighbour. -/
structure Tidy (bmp : Bitmap) : Prop where
  exact : bmp.mVec.length = bmp.mSize.toNat
  literals : ∀ w ∈ vec bmp, ¬ IsFill w → w ≠ 0 ∧ w ≠ allOnes
  apart : (vec bmp).IsChain Apart

-- `List.all` keeps the check on the words in use; a bare `∀ w` would range over all words.
instance (bmp : Bitmap) : Decidable (Stored bmp) :=
  decidable_of_iff (bmp.mSize.toNat ≤ bmp.mVec.length ∧
      ((vec bmp).all fun w => !decide (IsFill w) || decide (1 ≤ fillCount w)) = true ∧
      bmp.nbits.toNat = 31 * (groups bmp).length)
    ⟨fun ⟨h1, h2, h3⟩ => ⟨h1, by simpa [Decidable.imp_iff_not_or] using h2, h3⟩,
      fun ⟨h1, h2, h3⟩ => ⟨h1, by simpa [Decidable.imp_iff_not_or] using h2, h3⟩⟩

instance (bmp : Bitmap) : Decidable (WellFormed bmp) :=
  decidable_of_iff (Stored bmp ∧ bmp.active.nbits.toNat < 31 ∧
      bmp.active.val.toNat < 2 ^ bmp.active.nbits.toNat ∧ (decode bmp).length < 2 ^ 32)
    ⟨fun ⟨h1, h2, h3, h4⟩ => ⟨h1, h2, h3, h4⟩, fun ⟨h1, h2, h3, h4⟩ => ⟨h1, h2, h3, h4⟩⟩

theorem decode_eq (bmp : Bitmap) :
    decode bmp = groupBits (groups bmp) ++ msb bmp.active.nbits.toNat bmp.active.val.toNat := by
  have hwords : (vec bmp).flatMap wordBits = groupBits (groups bmp) := by
    rw [groups, groupBits, flatMap_assoc]
    exact flatMap_congr fun w _ => wordBits_eq w
  rw [decode, hwords]

theorem decode_length (bmp : Bitmap) :
    (decode bmp).length = 31 * (groups bmp).length + bmp.active.nbits.toNat := by
  rw [decode_eq, length_append, groupBits_length, msb_length]

theorem groups_lt {g : Word} (h : g ∈ groups bmp) : g.toNat < 2 ^ 31 := by
  obtain ⟨w, _, hw⟩ := mem_flatMap.mp h
  exact expand_lt hw

theorem length_le_flatMap_expand {ws : List Word} (h : ∀ w ∈ ws, IsFill w → 1 ≤ fillCount w) :
    ws.length ≤ (ws.flatMap expand).length := by
  induction ws with
  | nil => simp
  | cons w ws ih =>
    have hw : 1 ≤ (expand w).length := by
      unfold expand
      split
      · rename_i hfill
        rw [length_replicate]
        exact h w (mem_cons_self ..) hfill
      · simp
    have htail := ih fun v hv => h v (mem_cons_of_mem w hv)
    rw [flatMap_cons, length_append, length_cons]
    omega

theorem vec_length (h : Stored bmp) : (vec bmp).length = bmp.mSize.toNat := by
  rw [vec, length_take, min_eq_left h.allocated]

/-- Every stored word stands for at least one group, so the array cannot outgrow
the 32-bit bit count. -/
theorem Stored.size_le (h : Stored bmp) : bmp.mSize.toNat ≤ (groups bmp).length := by
  rw [← vec_length h]
  exact length_le_flatMap_expand h.fills

theorem makeBitmap_wellFormed : WellFormed makeBitmap where
  allocated := by decide
  fills := by intro w hw; simp [vec, makeBitmap] at hw
  count := by decide
  activeBits := by decide
  activeVal := by decide
  length := by decide

theorem makeBitmap_tidy : Tidy makeBitmap where
  exact := rfl
  literals := by intro w hw; simp [vec, makeBitmap] at hw
  apart := List.IsChain.nil

/-! ### The word stack -/

theorem vec_pushBitmap (w : Word) (h : bmp.mSize.toNat ≤ bmp.mVec.length)
    (hroom : bmp.mSize.toNat + 1 < 2 ^ 32) :
    vec (pushBitmap bmp w) = vec bmp ++ [w] ∧
      (pushBitmap bmp w).mSize.toNat ≤ (pushBitmap bmp w).mVec.length := by
  have hsize : (bmp.mSize + 1).toNat = bmp.mSize.toNat + 1 := by
    rw [toNat_add]
    exact Nat.mod_eq_of_lt hroom
  have hlen : (bmp.mVec.take bmp.mSize.toNat ++ [w]).length = bmp.mSize.toNat + 1 := by
    rw [length_append, length_take, min_eq_left h, length_singleton]
  simp only [vec, pushBitmap, hsize]
  exact ⟨take_of_length_le (by rw [hlen]), by rw [hlen]⟩

/-- A non-empty stack, split at its top. -/
theorem top_split (h : bmp.mSize.toNat ≤ bmp.mVec.length) (hne : isEmpty bmp = false) :
    ∃ init, vec bmp = init ++ [getBitmapTop bmp] ∧ ∀ w, vec (setBitmapTop bmp w) = init ++ [w] ∧
      (setBitmapTop bmp w).mSize.toNat ≤ (setBitmapTop bmp w).mVec.length := by
  have hne' : bmp.mSize ≠ 0 := by simpa [isEmpty] using hne
  have hpos : 0 < bmp.mSize.toNat := by
    rcases Nat.eq_zero_or_pos bmp.mSize.toNat with h0 | h0
    · exact absurd (BitVec.eq_of_toNat_eq (by simpa using h0)) hne'
    · exact h0
  have hidx : (bmp.mSize - 1).toNat = bmp.mSize.toNat - 1 := by
    rw [BitVec.toNat_sub_of_le]
    · rfl
    · rw [le_def]
      exact hpos
  have hlt : bmp.mSize.toNat - 1 < bmp.mVec.length := by omega
  have htake (l : List Word) (hl : bmp.mSize.toNat - 1 < l.length) :
      l.take bmp.mSize.toNat = l.take (bmp.mSize.toNat - 1) ++ [l[bmp.mSize.toNat - 1]] := by
    have hsucc : bmp.mSize.toNat = bmp.mSize.toNat - 1 + 1 := by omega
    conv_lhs => rw [hsucc]
    exact take_succ_eq_append_getElem hl
  refine ⟨bmp.mVec.take (bmp.mSize.toNat - 1), ?_, fun w => ⟨?_, ?_⟩⟩
  · rw [vec, htake _ hlt, getBitmapTop, hne, if_neg (by decide), hidx, getD_eq_getElem _ _ hlt]
  · simp only [vec, setBitmapTop, hne, if_neg Bool.false_ne_true, hidx]
    rw [htake _ (by rw [length_set]; exact hlt), getElem_set_self, take_set_of_le (by omega)]
  · simp only [setBitmapTop, hne, if_neg Bool.false_ne_true, length_set]
    exact h

/-- Either the word is pushed, and then the top is no run that it continues, or the
top run is extended. -/
theorem pushOrMerge_vec (w : Word) (continues : Word → Bool) (inc : Word)
    (h : bmp.mSize.toNat ≤ bmp.mVec.length) (hroom : bmp.mSize.toNat + 1 < 2 ^ 32) :
    ((vec (pushOrMerge bmp w continues inc) = vec bmp ++ [w] ∧
        ∀ init t, vec bmp = init ++ [t] → continues t = false) ∨
      (∃ init t, vec bmp = init ++ [t] ∧ continues t = true ∧
        vec (pushOrMerge bmp w continues inc) = init ++ [t + inc])) ∧
    (pushOrMerge bmp w continues inc).mSize.toNat ≤ (pushOrMerge bmp w continues inc).mVec.length := by
  unfold pushOrMerge
  cases hempty : isEmpty bmp with
  | true =>
    have hvec : vec bmp = [] := by
      have hzero : bmp.mSize = 0 := by simpa [isEmpty] using hempty
      rw [vec, hzero]
      rfl
    obtain ⟨hpush, hlen⟩ := vec_pushBitmap w h hroom
    refine ⟨.inl ⟨hpush, fun init t ht => ?_⟩, hlen⟩
    rw [hvec] at ht
    exact absurd ht (by simp)
  | false =>
    obtain ⟨init, htop, hset⟩ := top_split h hempty
    simp only [if_neg Bool.false_ne_true]
    cases hcont : continues (getBitmapTop bmp) with
    | true =>
      rw [if_pos rfl]
      exact ⟨.inr ⟨init, _, htop, hcont, (hset _).1⟩, (hset _).2⟩
    | false =>
      rw [if_neg Bool.false_ne_true]
      obtain ⟨hpush, hlen⟩ := vec_pushBitmap w h hroom
      refine ⟨.inl ⟨hpush, fun init' t ht => ?_⟩, hlen⟩
      rw [htop] at ht
      obtain ⟨_, ht⟩ := append_inj' ht rfl
      rw [← singleton_inj.mp ht]
      exact hcont

/-- Neither way of storing a word leaves slack. -/
theorem pushOrMerge_exact (w : Word) (continues : Word → Bool) (inc : Word)
    (h : bmp.mVec.length = bmp.mSize.toNat) (hroom : bmp.mSize.toNat + 1 < 2 ^ 32) :
    (pushOrMerge bmp w continues inc).mVec.length = (pushOrMerge bmp w continues inc).mSize.toNat := by
  have hpush : (pushBitmap bmp w).mVec.length = (pushBitmap bmp w).mSize.toNat := by
    simp only [pushBitmap, length_append, length_take, h, min_self, length_singleton,
      toNat_add]
    exact (Nat.mod_eq_of_lt hroom).symm
  have hset (v : Word) : (setBitmapTop bmp v).mVec.length = (setBitmapTop bmp v).mSize.toNat := by
    unfold setBitmapTop
    split
    · exact h
    · rw [length_set]
      exact h
  simp only [pushOrMerge]
  split_ifs
  · exact hpush
  · exact hset _
  · exact hpush

theorem pushOrMerge_frame (bmp : Bitmap) (w : Word) (continues : Word → Bool) (inc : Word) :
    (pushOrMerge bmp w continues inc).active = bmp.active ∧
      (pushOrMerge bmp w continues inc).nbits = bmp.nbits ∧
      (pushOrMerge bmp w continues inc).isCompressed = bmp.isCompressed := by
  simp only [pushOrMerge, pushBitmap, setBitmapTop]
  split_ifs <;> exact ⟨rfl, rfl, rfl⟩

end PgStorage.Wah
