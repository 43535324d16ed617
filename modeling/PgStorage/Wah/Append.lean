import PgStorage.Wah.Decode

/-! Appending keeps a bitmap well-formed and appends to its bits. -/
namespace PgStorage.Wah
open Bits
open List Nat
open BitVec (toNat_add eq_of_toNat_eq toNat_mul toNat_sub_of_le le_def lt_def)

variable {val w inc n v u : Word} {bmp a b : Bitmap} {continues : Word → Bool} {gs : List Word} {k : Nat}

/-- A run word with `inc` more groups. -/
theorem expand_add {t : Word} (inc : Word) (hv : val = 0 ∨ val = 1) (hhead : t >>> 30 = 2 + val)
    (hc : fillCount t + inc.toNat < 2 ^ 30) :
    (t + inc).toNat = t.toNat + inc.toNat ∧ expand (t + inc) = expand t ++ replicate inc.toNat (bitGroup val) := by
  have hval : (2 + val).toNat = 2 + val.toNat := by rcases hv with rfl | rfl <;> rfl
  have hdiv : t.toNat / 2 ^ 30 = 2 + val.toNat := by rw [← toNat_head, hhead, hval]
  rw [fillCount_eq] at hc
  have ht : t.toNat = (2 + val.toNat) * 2 ^ 30 + t.toNat % 2 ^ 30 := by omega
  have hsum : (t + inc).toNat = t.toNat + inc.toNat := by
    rw [toNat_add]
    apply mod_eq_of_lt
    have : val.toNat ≤ 1 := by rcases hv with rfl | rfl <;> decide
    omega
  refine ⟨hsum, ?_⟩
  rw [expand_fill hv (t.toNat % 2 ^ 30 + inc.toNat) hc (by omega),
    expand_fill hv (t.toNat % 2 ^ 30) (by omega) ht, replicate_append_replicate]

/-- What a stored word must be for pushing it, or merging it into the run on top,
to append the groups `gs`. -/
structure Adds (bmp : Bitmap) (w : Word) (continues : Word → Bool) (inc : Word) (gs : List Word) : Prop where
  fresh : expand w = gs
  filled : IsFill w → 1 ≤ fillCount w
  merged : ∀ t ∈ vec bmp, continues t = true → expand (t + inc) = expand t ++ gs
  counted : ∀ t ∈ vec bmp, continues t = true → IsFill (t + inc) → 1 ≤ fillCount (t + inc)
  mixed : ¬ IsFill w → w ≠ 0 ∧ w ≠ allOnes
  apart : ∀ t ∈ vec bmp, continues t = false → Apart t w
  head : ∀ t ∈ vec bmp, continues t = true → IsFill (t + inc) ∧ (t + inc) >>> 30 = t >>> 30

/-- Storing keeps the form canonical: a run is pushed only next to a word it does
not continue, and a merged run keeps its header. -/
theorem pushOrMerge_tidy
    (h : Tidy bmp) (ha : Adds bmp w continues inc gs) (hroom : bmp.mSize.toNat + 1 < 2 ^ 32) :
    Tidy (pushOrMerge bmp w continues inc) := by
  have hexact := pushOrMerge_exact w continues inc h.exact hroom
  obtain ⟨hvec, -⟩ := pushOrMerge_vec w continues inc (le_of_eq h.exact.symm) hroom
  rcases hvec with ⟨hvec, hnot⟩ | ⟨init, t, htop, hcont, hvec⟩
  · refine ⟨hexact, fun v hv => ?_, ?_⟩
    · rw [hvec] at hv
      rcases mem_append.mp hv with hv | hv
      · exact h.literals v hv
      · rw [mem_singleton.mp hv]
        exact ha.mixed
    · rw [hvec, isChain_append]
      refine ⟨h.apart, isChain_singleton _, fun t ht v hv => ?_⟩
      obtain ⟨init, hinit⟩ := getLast?_eq_some_iff.mp ht
      rw [← Option.some.inj hv]
      exact ha.apart t (by rw [hinit]; simp) (hnot init t hinit)
  · have htmem : t ∈ vec bmp := by rw [htop]; simp
    have hchain := h.apart
    obtain ⟨hfill, hhead⟩ := ha.head t htmem hcont
    rw [htop, isChain_append] at hchain
    refine ⟨hexact, fun v hv => ?_, ?_⟩
    · rw [hvec] at hv
      rcases mem_append.mp hv with hv | hv
      · exact h.literals v (by rw [htop]; exact mem_append_left _ hv)
      · rw [mem_singleton.mp hv]
        exact fun hlit => absurd hfill hlit
    · rw [hvec, isChain_append]
      refine ⟨hchain.1, isChain_singleton _, fun u hu v hv => ?_⟩
      rw [← Option.some.inj hv]
      intro hu' _
      rw [hhead]
      have htfill : IsFill t := by rw [IsFill, ← hhead]; exact hfill
      exact hchain.2.2 u hu t rfl hu' htfill

theorem Stored.room (h : Stored bmp) : bmp.mSize.toNat + 1 < 2 ^ 32 := by
  have := h.size_le
  have := h.count
  have := bmp.nbits.isLt
  omega

theorem pushOrMerge_groups (h : Stored bmp) (ha : Adds bmp w continues inc gs) :
    groups (pushOrMerge bmp w continues inc) = groups bmp ++ gs ∧
      (∀ v ∈ vec (pushOrMerge bmp w continues inc), IsFill v → 1 ≤ fillCount v) ∧
      (pushOrMerge bmp w continues inc).mSize.toNat ≤ (pushOrMerge bmp w continues inc).mVec.length := by
  have hroom := h.room
  obtain ⟨hvec, halloc⟩ := pushOrMerge_vec w continues inc h.allocated hroom
  rcases hvec with ⟨hvec, _⟩ | ⟨init, t, htop, hcont, hvec⟩
  · refine ⟨?_, ?_, halloc⟩
    · rw [groups, hvec, flatMap_append, groups, flatMap_singleton, ha.fresh]
    · intro v hv
      rw [hvec] at hv
      rcases mem_append.mp hv with hv | hv
      · exact h.fills v hv
      · rw [mem_singleton.mp hv]
        exact ha.filled
  · have htmem : t ∈ vec bmp := by rw [htop]; simp
    refine ⟨?_, ?_, halloc⟩
    · rw [groups, hvec, groups, htop, flatMap_append, flatMap_append, flatMap_singleton,
        flatMap_singleton, ha.merged t htmem hcont, append_assoc]
    · intro v hv
      rw [hvec] at hv
      rcases mem_append.mp hv with hv | hv
      · exact h.fills v (by rw [htop]; exact mem_append_left _ hv)
      · rw [mem_singleton.mp hv]
        exact ha.counted t htmem hcont

/-- A fill count is at most the number of groups stored. -/
theorem fillCount_le {t : Word} (ht : t ∈ vec bmp) (hfill : IsFill t) :
    fillCount t ≤ (groups bmp).length := by
  obtain ⟨before, after, hsplit⟩ := append_of_mem ht
  rw [groups, hsplit, flatMap_append, flatMap_cons, length_append, length_append]
  have : (expand t).length = fillCount t := by rw [expand, if_pos hfill, length_replicate]
  omega

/-- A run of `cnt` groups of one bit may be pushed or merged, as long as the bit
count fits 32 bits: the count then cannot reach the header. -/
theorem adds_run (bmp : Bitmap) (val cnt : Word) (continues : Word → Bool) (hv : val = 0 ∨ val = 1)
    (hc : 1 ≤ cnt.toNat) (hlen : 31 * ((groups bmp).length + cnt.toNat) < 2 ^ 32)
    (hw : w.toNat = (2 + val.toNat) * 2 ^ 30 + cnt.toNat)
    (hcont : ∀ t, continues t = true ↔ t >>> 30 = 2 + val) :
    Adds bmp w continues cnt (replicate cnt.toNat (bitGroup val)) := by
  have hval : val.toNat ≤ 1 := by rcases hv with rfl | rfl <;> decide
  have hrun (t : Word) (ht : t ∈ vec bmp) (h : continues t = true) : fillCount t + cnt.toNat < 2 ^ 30 := by
    have hfill : IsFill t := by
      rw [IsFill, (hcont t).mp h]
      rcases hv with rfl | rfl <;> decide
    have := fillCount_le ht hfill
    omega
  have hfill : IsFill w := by rw [isFill_iff]; omega
  have hhead : w >>> 30 = 2 + val := by
    have hsum : (2 + val).toNat = 2 + val.toNat := by rcases hv with rfl | rfl <;> rfl
    apply eq_of_toNat_eq
    rw [toNat_head, hsum]
    omega
  refine ⟨expand_fill hv cnt.toNat (by omega) hw, fun _ => ?_, fun t ht h => ?_, fun t ht h _ => ?_,
    fun hlit => absurd hfill hlit, fun t _ h => ?_, fun t ht h => ?_⟩
  · rw [fillCount_eq]
    omega
  · exact (expand_add cnt hv ((hcont t).mp h) (hrun t ht h)).2
  · have hsum := (expand_add cnt hv ((hcont t).mp h) (hrun t ht h)).1
    have hsmall := hrun t ht h
    rw [fillCount_eq] at hsmall ⊢
    omega
  · intro _ _ heq
    rw [(hcont t).mpr (heq.trans hhead)] at h
    exact absurd h (by decide)
  · have hsum := (expand_add cnt hv ((hcont t).mp h) (hrun t ht h)).1
    have hsmall := hrun t ht h
    have hkeep : (t + cnt) >>> 30 = t >>> 30 := by
      apply eq_of_toNat_eq
      rw [fillCount_eq] at hsmall
      rw [toNat_head, toNat_head]
      omega
    refine ⟨?_, hkeep⟩
    rw [IsFill, hkeep, (hcont t).mp h]
    rcases hv with rfl | rfl <;> decide

/-- The form depends on the array and its size alone. -/
theorem Tidy.withCounters {bmp' : Bitmap} (h : Tidy bmp) (hvec : bmp'.mVec = bmp.mVec)
    (hsize : bmp'.mSize = bmp.mSize) : Tidy bmp' := by
  have hwords : vec bmp' = vec bmp := by rw [vec, vec, hvec, hsize]
  exact ⟨by rw [hvec, hsize]; exact h.exact, by rw [hwords]; exact h.literals, by rw [hwords]; exact h.apart⟩

/-- What storing keeps of the words already there: canonical form, and any
literals at the front. -/
structure Keeps (bmp bmp' : Bitmap) : Prop where
  tidy : Tidy bmp → Tidy bmp'
  front : ∀ pre : List Word, (∀ w ∈ pre, ¬ IsFill w) → pre <+: vec bmp → pre <+: vec bmp'

theorem Keeps.refl (bmp : Bitmap) : Keeps bmp bmp := ⟨id, fun _ _ => id⟩

theorem Keeps.trans {c : Bitmap} (hab : Keeps a b) (hbc : Keeps b c) : Keeps a c :=
  ⟨fun h => hbc.tidy (hab.tidy h), fun pre hpre h => hbc.front pre hpre (hab.front pre hpre h)⟩

theorem Keeps.of_words (hvec : b.mVec = a.mVec) (hsize : b.mSize = a.mSize) : Keeps a b :=
  ⟨fun h => h.withCounters hvec hsize, fun pre _ h => by rw [vec, hvec, hsize]; exact h⟩

theorem Keeps.since {a' : Bitmap} (h : Keeps a' b) (hvec : a'.mVec = a.mVec) (hsize : a'.mSize = a.mSize) :
    Keeps a b := (Keeps.of_words hvec hsize).trans h

theorem pushOrMerge_keeps
    (h : Stored bmp) (ha : Adds bmp w continues inc gs) : Keeps bmp (pushOrMerge bmp w continues inc) := by
  refine ⟨fun ht => pushOrMerge_tidy ht ha h.room, fun pre hpre hfront => ?_⟩
  obtain ⟨hvec, -⟩ := pushOrMerge_vec w continues inc h.allocated h.room
  rcases hvec with ⟨hvec, -⟩ | ⟨init, t, htop, hcont, hvec⟩
  · rw [hvec]
    exact hfront.trans (prefix_append ..)
  · -- only a run is merged into, and a run is not among the literals
    obtain ⟨hfill, hhead⟩ := ha.head t (by rw [htop]; simp) hcont
    rw [IsFill, hhead] at hfill
    rw [htop, prefix_concat_iff] at hfront
    rw [hvec]
    rcases hfront with rfl | hfront
    · exact absurd hfill (hpre t (by simp))
    · exact hfront.trans (prefix_append ..)

theorem stored_of_groups {bmp' : Bitmap} (more : Word) (h : Stored bmp)
    (hgroups : groups bmp' = groups bmp ++ gs) (hfills : ∀ v ∈ vec bmp', IsFill v → 1 ≤ fillCount v)
    (halloc : bmp'.mSize.toNat ≤ bmp'.mVec.length) (hnbits : bmp'.nbits = bmp.nbits + more)
    (hmore : more.toNat = 31 * gs.length) (hlen : 31 * ((groups bmp).length + gs.length) < 2 ^ 32) :
    Stored bmp' where
  allocated := halloc
  fills := hfills
  count := by
    rw [hnbits, toNat_add, h.count, hmore, hgroups, length_append, ← mul_add]
    exact mod_eq_of_lt hlen

/-- `appendCounter` appends its groups and touches nothing else. -/
theorem appendCounter_spec {cnt : Word} (h : Stored bmp) (hv : val = 0 ∨ val = 1)
    (hc : 1 ≤ cnt.toNat) (hlen : 31 * ((groups bmp).length + cnt.toNat) < 2 ^ 32) :
    Stored (appendCounter bmp val cnt) ∧
      groups (appendCounter bmp val cnt) = groups bmp ++ replicate cnt.toNat (bitGroup val) ∧
      (appendCounter bmp val cnt).active = bmp.active ∧ Keeps bmp (appendCounter bmp val cnt) := by
  have hw := toNat_fill val cnt hv (by omega)
  have hadds := adds_run bmp val cnt (fun w1 => w1 >>> 30 == 2 + val) hv hc hlen hw fun t => by simp
  obtain ⟨hgroups, hfills, halloc⟩ := pushOrMerge_groups h hadds
  obtain ⟨hactive, hnbits, _⟩ := pushOrMerge_frame bmp ((2 + val) <<< 30 ||| cnt) (fun w1 => w1 >>> 30 == 2 + val) cnt
  refine ⟨stored_of_groups (cnt * maxBits) h hgroups hfills halloc ?_ ?_ ?_, hgroups, hactive,
    (pushOrMerge_keeps h hadds).trans (.of_words rfl rfl)⟩
  · show (pushOrMerge bmp _ _ cnt).nbits + cnt * maxBits = _
    rw [hnbits]
  · rw [toNat_mul, length_replicate]
    show cnt.toNat * 31 % 2 ^ 32 = _
    omega
  · rw [length_replicate]
    exact hlen

/-- `appendActive` appends the active word as one group and clears it. -/
theorem appendActive_spec (h : Stored bmp) (hval : bmp.active.val.toNat < 2 ^ 31)
    (hlen : 31 * ((groups bmp).length + 1) < 2 ^ 32) :
    Stored (appendActive bmp) ∧ groups (appendActive bmp) = groups bmp ++ [bmp.active.val] ∧
      (appendActive bmp).active = ⟨0, 0⟩ ∧ Keeps bmp (appendActive bmp) := by
  have hadds : Adds bmp (storeActive bmp.active.val).2
      (fun w1 => w1 >>> 30 == (storeActive bmp.active.val).1 && decide (1 < (storeActive bmp.active.val).1)) 1
      [bmp.active.val] := by
    by_cases h0 : bmp.active.val = 0
    · have := adds_run bmp 0 1 (w := header0F ||| 1) (fun w1 => w1 >>> 30 == 2 && decide ((1 : Word) < 2))
          (.inl rfl) (by decide) hlen (by decide)
        (fun t => by simp)
      simpa [storeActive, h0, bitGroup] using this
    · by_cases h1 : bmp.active.val = allOnes
      · have := adds_run bmp 1 1 (w := header1F ||| 1) (fun w1 => w1 >>> 30 == 3 && decide ((1 : Word) < 3))
          (.inr rfl) (by decide) hlen (by decide)
          (fun t => by simp)
        have hne : allOnes ≠ 0#32 := by decide
        simpa [storeActive, h1, hne, bitGroup] using this
      · -- A literal is always pushed: its head, 0, is not a run's.
        simp only [storeActive, if_neg h0, if_neg h1]
        have hlit : ¬ IsFill bmp.active.val := by rw [isFill_iff]; omega
        refine ⟨expand_literal hval, fun hfill => absurd hfill hlit, fun t _ ht => ?_, fun t _ ht => ?_,
          fun _ => ⟨h0, h1⟩, fun t _ _ _ hfill => absurd hfill hlit, fun t _ ht => ?_⟩
        all_goals simp at ht
  obtain ⟨hgroups, hfills, halloc⟩ := pushOrMerge_groups h hadds
  obtain ⟨-, hnbits, -⟩ := pushOrMerge_frame bmp (storeActive bmp.active.val).2
    (fun w1 => w1 >>> 30 == (storeActive bmp.active.val).1 && decide (1 < (storeActive bmp.active.val).1)) 1
  refine ⟨stored_of_groups maxBits h hgroups hfills halloc ?_ rfl hlen, hgroups, rfl,
    (pushOrMerge_keeps h hadds).trans (.of_words rfl rfl)⟩
  show (pushOrMerge bmp _ _ 1).nbits + maxBits = _
  rw [hnbits]

theorem toNat_lowMask (h : n.toNat < 32) : (lowMask n).toNat = 2 ^ n.toNat - 1 := by
  have hpow : 2 ^ n.toNat < 2 ^ 32 := Nat.pow_lt_pow_right (by decide) h
  have hpos := Nat.two_pow_pos n.toNat
  have hone : ((1 : Word) <<< n.toNat).toNat = 2 ^ n.toNat := by
    rw [BitVec.toNat_shiftLeft, shiftLeft_eq]
    show 1 * 2 ^ n.toNat % 2 ^ 32 = _
    rw [one_mul, mod_eq_of_lt hpow]
  rw [lowMask, toNat_sub_of_le, hone]
  · rfl
  · rw [le_def, hone]
    exact hpos

theorem toNat_shift {n : Nat} (hv : v.toNat < 2 ^ n) (hk : n + k ≤ 31) :
    (v <<< k).toNat = v.toNat * 2 ^ k ∧ v.toNat * 2 ^ k < 2 ^ 31 := by
  have hlt : v.toNat * 2 ^ k < 2 ^ 31 :=
    calc v.toNat * 2 ^ k < 2 ^ n * 2 ^ k := Nat.mul_lt_mul_of_pos_right hv (Nat.two_pow_pos k)
      _ = 2 ^ (n + k) := (Nat.pow_add 2 n k).symm
      _ ≤ 2 ^ 31 := Nat.pow_le_pow_right (by decide) hk
  refine ⟨?_, hlt⟩
  rw [BitVec.toNat_shiftLeft, shiftLeft_eq]
  exact mod_eq_of_lt (by omega)

theorem toNat_or_low {a b : Word} {x : Nat} (ha : a.toNat = x * 2 ^ k) (hb : b.toNat < 2 ^ k) :
    (a ||| b).toNat = x * 2 ^ k + b.toNat := by
  rw [BitVec.toNat_or, ha, ← shiftLeft_eq, shiftLeft_add_eq_or_of_lt hb]

/-- Shifting a partly filled word by `k` and filling with `u` appends `u`'s bits. -/
theorem msb_shift_or {n : Nat} (hv : v.toNat < 2 ^ n) (hk : n + k ≤ 31) (hu : u.toNat < 2 ^ k) :
    msb (n + k) ((v <<< k) ||| u).toNat = msb n v.toNat ++ msb k u.toNat ∧
      ((v <<< k) ||| u).toNat < 2 ^ (n + k) := by
  obtain ⟨hshift, _⟩ := toNat_shift hv hk
  rw [toNat_or_low hshift hu]
  refine ⟨msb_append n k v.toNat u.toNat hu, ?_⟩
  calc v.toNat * 2 ^ k + u.toNat < v.toNat * 2 ^ k + 2 ^ k := by omega
    _ = (v.toNat + 1) * 2 ^ k := (succ_mul ..).symm
    _ ≤ 2 ^ n * 2 ^ k := mul_le_mul_right _ hv
    _ = 2 ^ (n + k) := (pow_add 2 n k).symm

/-- Low bits all equal to `val`. -/
def lowBits (val n : Word) : Word := if val = 1 then lowMask n else 0

theorem msb_lowBits (val n : Word) (hn : n.toNat < 32) :
    msb n.toNat (lowBits val n).toNat = replicate n.toNat (decide (val = 1)) ∧
      (lowBits val n).toNat < 2 ^ n.toNat := by
  unfold lowBits
  have hpos := Nat.two_pow_pos n.toNat
  by_cases h : val = 1
  · rw [if_pos h, toNat_lowMask hn, msb_ones, decide_eq_true h]
    exact ⟨rfl, by omega⟩
  · rw [if_neg h, decide_eq_false h]
    exact ⟨msb_zero _, hpos⟩

theorem lowBits_eq_mul (hv : val = 0 ∨ val = 1) : lowBits val n = lowMask n * val := by
  rcases hv with rfl | rfl <;> simp [lowBits]

/-! ### Bits -/

theorem Stored.withActive (h : Stored bmp) (a : ActiveWord) :
    Stored {bmp with active := a} := ⟨h.allocated, h.fills, h.count⟩

theorem decode_withActive (bmp : Bitmap) (v n : Word) :
    decode {bmp with active := ⟨v, n⟩} = groupBits (groups bmp) ++ msb n.toNat v.toNat := decode_eq _

theorem wellFormed_of_stored (h : Stored bmp) (hn : bmp.active.nbits.toNat < 31)
    (hv : bmp.active.val.toNat < 2 ^ bmp.active.nbits.toNat)
    (hlen : 31 * (groups bmp).length + bmp.active.nbits.toNat < 2 ^ 32) : WellFormed bmp :=
  ⟨h, hn, hv, by rw [decode_length]; exact hlen⟩

/-- Storing the active word once it is full changes no bit. -/
theorem settle_spec (h : Stored bmp) (hn : bmp.active.nbits.toNat ≤ 31)
    (hv : bmp.active.val.toNat < 2 ^ bmp.active.nbits.toNat)
    (hlen : 31 * (groups bmp).length + bmp.active.nbits.toNat < 2 ^ 32) :
    WellFormed (if bmp.active.nbits = maxBits then appendActive bmp else bmp) ∧
      decode (if bmp.active.nbits = maxBits then appendActive bmp else bmp) = decode bmp ∧
      Keeps bmp (if bmp.active.nbits = maxBits then appendActive bmp else bmp) := by
  by_cases hfull : bmp.active.nbits = maxBits
  · have h31 : bmp.active.nbits.toNat = 31 := congrArg BitVec.toNat hfull
    rw [h31] at hv hlen
    obtain ⟨hs, hg, ha, ht⟩ := appendActive_spec h hv (by omega)
    rw [if_pos hfull]
    refine ⟨wellFormed_of_stored hs ?_ ?_ ?_, ?_, ht⟩
    · rw [ha]; decide
    · rw [ha]; decide
    · rw [ha, hg, length_append]
      show 31 * ((groups bmp).length + 1) + 0 < _
      omega
    · rw [decode_eq, decode_eq bmp, ha, hg, h31, groupBits_append, groupBits_singleton]
      exact append_nil _
  · have h31 : bmp.active.nbits.toNat ≠ 31 := fun heq => hfull (eq_of_toNat_eq heq)
    rw [if_neg hfull]
    exact ⟨wellFormed_of_stored h (by omega) hv hlen, rfl, .refl _⟩

/-- What an append owes: the bitmap is well-formed and longer by exactly `piece`,
and storage keeps what it had. -/
structure Appends (bmp bmp' : Bitmap) (piece : List Bool) : Prop where
  wellFormed : WellFormed bmp'
  bits : decode bmp' = decode bmp ++ piece
  keeps : Keeps bmp bmp'

theorem Appends.refl (h : WellFormed bmp) : Appends bmp bmp [] :=
  ⟨h, (append_nil _).symm, .refl _⟩

/-- Shifting `k` more bits into the active word. -/
theorem shiftIn_spec {k : Word} (h : WellFormed bmp)
    (hk : bmp.active.nbits.toNat + k.toNat ≤ 31) (hu : u.toNat < 2 ^ k.toNat)
    (hlen : (decode bmp).length + k.toNat < 2 ^ 32) {bmp' : Bitmap}
    (hbmp' : bmp' = {bmp with active := ⟨(bmp.active.val <<< k.toNat) ||| u, bmp.active.nbits + k⟩}) :
    Appends bmp (if bmp'.active.nbits = maxBits then appendActive bmp' else bmp') (msb k.toNat u.toNat) := by
  have hbound := decode_length bmp
  have hnext : (bmp.active.nbits + k).toNat = bmp.active.nbits.toNat + k.toNat := by
    rw [toNat_add]
    exact mod_eq_of_lt (by omega)
  obtain ⟨hmsb, hlt⟩ := msb_shift_or h.activeVal hk hu
  rw [← hnext] at hmsb hlt
  subst hbmp'
  obtain ⟨hwf, hdecode, hkeeps⟩ := settle_spec (h.toStored.withActive
      ⟨(bmp.active.val <<< k.toNat) ||| u, bmp.active.nbits + k⟩) (by dsimp only; omega) hlt
    (by dsimp only; show 31 * (groups bmp).length + _ < _; omega)
  refine ⟨hwf, ?_, hkeeps.since rfl rfl⟩
  rw [hdecode, decode_withActive, hmsb, decode_eq, append_assoc]

theorem appendOneBit_spec (h : WellFormed bmp) (hv : val = 0 ∨ val = 1)
    (hlen : (decode bmp).length + 1 < 2 ^ 32) : Appends bmp (appendOneBit bmp val) [decide (val = 1)] := by
  have hn := h.activeBits
  have hone : msb (1 : Word).toNat val.toNat = [decide (val = 1)] := by rcases hv with rfl | rfl <;> rfl
  rw [← hone]
  exact shiftIn_spec (k := 1) h hn (by rcases hv with rfl | rfl <;> decide) hlen rfl

theorem toNat_pos_of_ne (h : n ≠ 0) : 0 < n.toNat :=
  Nat.pos_of_ne_zero fun h0 => h (eq_of_toNat_eq h0)

theorem toNat_activeTakes (h : bmp.active.nbits.toNat < 31) (n : Word) :
    (activeTakes bmp n).toNat = min n.toNat (31 - bmp.active.nbits.toNat) := by
  have hroom : (maxBits - bmp.active.nbits).toNat = 31 - bmp.active.nbits.toNat := by
    rw [toNat_sub_of_le]
    · rfl
    · rw [le_def]
      show _ ≤ 31
      omega
  simp only [activeTakes]
  rw [← hroom]
  split <;> rename_i hlt <;> rw [lt_def] at hlt <;> omega

/-- Filling the active word takes bits off the front; what remains finds it empty. -/
theorem fillActive_spec (val : Word) (h : WellFormed bmp) (hlen : (decode bmp).length + n.toNat < 2 ^ 32) :
    (fillActive bmp val n).2.toNat ≤ n.toNat ∧
      Appends bmp (fillActive bmp val n).1
        (replicate (n.toNat - (fillActive bmp val n).2.toNat) (decide (val = 1))) ∧
      ((fillActive bmp val n).2 ≠ 0 → (fillActive bmp val n).1.active.nbits = 0) := by
  unfold fillActive
  by_cases hpos : 0 < bmp.active.nbits
  · simp only [if_pos hpos]
    have hn := h.activeBits
    have htmp := toNat_activeTakes hn n
    generalize activeTakes bmp n = tmp at htmp ⊢
    have hsub : (n - tmp).toNat = n.toNat - tmp.toNat :=
      toNat_sub_of_le (by rw [le_def]; omega)
    obtain ⟨hmsb, hlt⟩ := msb_lowBits val tmp (by omega)
    have hval : (if val = 1 then bmp.active.val <<< tmp.toNat ||| lowMask tmp else bmp.active.val <<< tmp.toNat) =
        bmp.active.val <<< tmp.toNat ||| lowBits val tmp := by
      unfold lowBits
      split
      · rfl
      · exact BitVec.or_zero.symm
    have hshift := shiftIn_spec (k := tmp) h (by omega) hlt (by omega) rfl
    rw [hmsb] at hshift
    rw [hval]
    refine ⟨by omega, ?_, ?_⟩
    · have hcount : n.toNat - (n - tmp).toNat = tmp.toNat := by omega
      rw [hcount]
      exact hshift
    · intro hne
      have hleft := toNat_pos_of_ne hne
      have hfull : bmp.active.nbits + tmp = maxBits := by
        apply eq_of_toNat_eq
        rw [toNat_add]
        show _ % 2 ^ 32 = 31
        omega
      rw [if_pos hfull]
      rfl
  · rw [if_neg hpos]
    have hzero : bmp.active.nbits = 0 := by
      apply eq_of_toNat_eq
      rw [lt_def] at hpos
      exact Nat.eq_zero_of_not_pos hpos
    refine ⟨Nat.le_refl _, ?_, fun _ => hzero⟩
    rw [Nat.sub_self]
    exact .refl h

/-- With the active word empty, a run of whole groups is appended. -/
theorem appendCounter_bits (cnt : Word) (h : WellFormed bmp) (h0 : bmp.active.nbits = 0)
    (hv : val = 0 ∨ val = 1) (hc : 1 ≤ cnt.toNat) (hlen : (decode bmp).length + 31 * cnt.toNat < 2 ^ 32) :
    Appends bmp (appendCounter bmp val cnt) (replicate (31 * cnt.toNat) (decide (val = 1))) ∧
      (appendCounter bmp val cnt).active.nbits = 0 := by
  have hbound := decode_length bmp
  obtain ⟨hs, hg, ha, ht⟩ := appendCounter_spec h.toStored hv hc (by omega)
  have hzero : bmp.active.nbits.toNat = 0 := by rw [h0]; rfl
  refine ⟨⟨wellFormed_of_stored hs ?_ ?_ ?_, ?_, ht⟩, by rw [ha]; exact h0⟩
  · rw [ha]; exact h.activeBits
  · rw [ha]; exact h.activeVal
  · rw [ha, hg, length_append, length_replicate]
    omega
  · rw [decode_eq, decode_eq bmp, ha, hg, groupBits_append, groupBits_replicate, hzero]
    simp [msb]

/-- With the active word empty, fewer than 31 bits go to the active word. -/
theorem startActive_spec (h : WellFormed bmp) (h0 : bmp.active.nbits = 0)
    (hn : n.toNat < 31) (hv : v.toNat < 2 ^ n.toNat) (hlen : (decode bmp).length + n.toNat < 2 ^ 32) :
    Appends bmp {bmp with active := ⟨v, n⟩} (msb n.toNat v.toNat) := by
  have hbound := decode_length bmp
  refine ⟨wellFormed_of_stored (h.toStored.withActive _) hn hv
    (by show 31 * (groups bmp).length + n.toNat < _; omega), ?_, .of_words rfl rfl⟩
  rw [decode_withActive, decode_eq, h0]
  simp [msb]

theorem Appends.trans {c : Bitmap} {xs ys : List Bool} (hab : Appends a b xs) (hbc : Appends b c ys) :
    Appends a c (xs ++ ys) :=
  ⟨hbc.wellFormed, by rw [hbc.bits, hab.bits, append_assoc], hab.keeps.trans hbc.keeps⟩

theorem Appends.length {xs : List Bool} (h : Appends a b xs) :
    (decode b).length = (decode a).length + xs.length := by
  rw [h.bits, length_append]

/-- The last step of `appendBits`. -/
theorem lastBits_spec (h : WellFormed bmp)
    (hempty : n ≠ 0 → bmp.active.nbits = 0) (hv : val = 0 ∨ val = 1) (hn : n.toNat < 31)
    (hlen : (decode bmp).length + n.toNat < 2 ^ 32) :
    Appends bmp (if 0 < n then {bmp with active := ⟨val * lowMask n, n⟩} else bmp)
      (replicate n.toNat (decide (val = 1))) := by
  by_cases hpos : 0 < n
  · have hne : n ≠ 0 := by
      rintro rfl
      exact absurd hpos (by decide)
    obtain ⟨hmsb, hlt⟩ := msb_lowBits val n (by omega)
    rw [if_pos hpos, BitVec.mul_comm, ← lowBits_eq_mul hv, ← hmsb]
    exact startActive_spec h (hempty hne) hn hlt hlen
  · have hzero : n.toNat = 0 := Nat.eq_zero_of_not_pos hpos
    rw [if_neg hpos, hzero]
    exact .refl h

theorem appendBits_spec (h : WellFormed bmp) (hv : val = 0 ∨ val = 1)
    (hlen : (decode bmp).length + n.toNat < 2 ^ 32) :
    Appends bmp (appendBits bmp val n) (replicate n.toNat (decide (val = 1))) := by
  unfold appendBits
  by_cases hn0 : n = 0
  · rw [if_pos hn0, hn0]
    exact .refl h
  rw [if_neg hn0]
  obtain ⟨hle, happ, hempty⟩ := fillActive_spec val h hlen
  generalize fillActive bmp val n = filled at hle happ hempty ⊢
  obtain ⟨b1, n1⟩ := filled
  dsimp only at hle happ hempty ⊢
  have hlen1 := happ.length
  rw [length_replicate] at hlen1
  have hn1 : n.toNat - n1.toNat + n1.toNat = n.toNat := by omega
  rw [← hn1, ← replicate_append_replicate]
  refine happ.trans ?_
  by_cases hbig : maxBits ≤ n1
  · -- whole groups first, the rest into the active word
    have h31 : 31 ≤ n1.toNat := hbig
    have hb1 := hempty (by intro h0; rw [h0] at h31; exact absurd h31 (by decide))
    have hcnt : (n1 / maxBits).toNat = n1.toNat / 31 := BitVec.toNat_udiv
    have hrest : (n1 - n1 / maxBits * maxBits).toNat = n1.toNat % 31 := by
      have hmul : (n1 / maxBits * maxBits).toNat = n1.toNat / 31 * 31 := by
        rw [toNat_mul, hcnt]
        show n1.toNat / 31 * 31 % 2 ^ 32 = _
        have := n1.isLt
        omega
      rw [toNat_sub_of_le (by rw [le_def, hmul]; omega), hmul]
      omega
    obtain ⟨hcounter, hb2⟩ := appendCounter_bits (n1 / maxBits) happ.wellFormed hb1 hv (by omega) (by omega)
    have hlen2 := hcounter.length
    rw [length_replicate] at hlen2
    have hlast := lastBits_spec (n := n1 - n1 / maxBits * maxBits) hcounter.wellFormed (fun _ => hb2) hv
      (by omega) (by omega)
    have hsum : 31 * (n1 / maxBits).toNat + (n1 - n1 / maxBits * maxBits).toNat = n1.toNat := by omega
    simp only [if_pos hbig]
    rw [← hsum, ← replicate_append_replicate]
    exact hcounter.trans hlast
  · have h31 : n1.toNat < 31 := Nat.lt_of_not_le hbig
    simp only [if_neg hbig]
    exact lastBits_spec happ.wellFormed hempty hv h31 (by omega)

/-! ### Words -/

/-- What may be appended as a word: a literal, or a fill of at least one group. -/
def Appendable (w : Word) : Prop := w.toNat < 2 ^ 31 ∨ (IsFill w ∧ 1 ≤ fillCount w)

theorem isFill_head (h : IsFill w) : w >>> 30 = 2 ∨ w >>> 30 = 3 := by
  rw [isFill_iff] at h
  have hlt := w.isLt
  have hor : w.toNat / 2 ^ 30 = 2 ∨ w.toNat / 2 ^ 30 = 3 := by omega
  exact hor.imp (head_eq_iff w 2 (by decide)).mpr (head_eq_iff w 3 (by decide)).mpr

/-- A fill's bit, as `appendWord` computes it from the header. -/
theorem fill_split (h : IsFill w) :
    (w >>> 30 % 2 = 0 ∨ w >>> 30 % 2 = 1) ∧ (w >>> 30 = 3 ↔ w >>> 30 % 2 = 1) ∧
      (1 : Word) < w >>> 30 ∧ wordBits w = replicate (31 * fillCount w) (decide (w >>> 30 % 2 = 1)) := by
  rw [wordBits, if_pos h]
  rcases isFill_head h with hh | hh <;> rw [hh] <;> exact ⟨by decide, by decide, by decide, rfl⟩

theorem pushOrMerge_withActive (bmp : Bitmap) (a : ActiveWord) (w : Word) (continues : Word → Bool) (inc : Word) :
    pushOrMerge {bmp with active := a} w continues inc =
      {pushOrMerge bmp w continues inc with active := a} := by
  cases hempty : isEmpty bmp
  · have hempty' : isEmpty {bmp with active := a} = false := hempty
    have htop : getBitmapTop {bmp with active := a} = getBitmapTop bmp := rfl
    simp only [pushOrMerge, setBitmapTop, hempty, hempty', htop, if_neg Bool.false_ne_true]
    split <;> rfl
  · have hempty' : isEmpty {bmp with active := a} = true := hempty
    simp only [pushOrMerge, hempty, hempty', if_true]
    rfl

/-- `appendActive` reads the active word's value, not its length. -/
theorem appendActive_nbits (bmp : Bitmap) (v n n' : Word) :
    appendActive {bmp with active := ⟨v, n⟩} = appendActive {bmp with active := ⟨v, n'⟩} := by
  simp only [appendActive, pushOrMerge_withActive]

/-- The active word, completed by `k` bits, is stored as a group. -/
theorem complete_spec {k : Word} (h : WellFormed bmp)
    (hk : bmp.active.nbits.toNat + k.toNat = 31) (hu : u.toNat < 2 ^ k.toNat)
    (hlen : (decode bmp).length + k.toNat < 2 ^ 32) :
    Appends bmp
        (appendActive {bmp with active := ⟨(bmp.active.val <<< k.toNat) ||| u, bmp.active.nbits⟩})
        (msb k.toNat u.toNat) ∧
      (appendActive {bmp with active := ⟨(bmp.active.val <<< k.toNat) ||| u, bmp.active.nbits⟩}).active =
        ⟨0, 0⟩ := by
  have hshift := shiftIn_spec h (by omega) hu hlen rfl
  have hfull : bmp.active.nbits + k = maxBits := by
    apply eq_of_toNat_eq
    rw [toNat_add]
    show _ % 2 ^ 32 = 31
    omega
  rw [if_pos hfull, appendActive_nbits bmp _ _ bmp.active.nbits] at hshift
  exact ⟨hshift, rfl⟩

/-- A fill on a partly filled active word: a head that completes it, whole groups,
and a tail that refills it. -/
theorem appendFill_spec (h : WellFormed bmp) (hne : bmp.active.nbits ≠ 0)
    (hfill : IsFill w) (hc : 1 ≤ fillCount w) (hlen : (decode bmp).length + 31 * fillCount w < 2 ^ 32) :
    Appends bmp (appendWord bmp w) (wordBits w) := by
  obtain ⟨hb2, hhead, hgt, hbits⟩ := fill_split hfill
  have hn := h.activeBits
  have hpos := toNat_pos_of_ne hne
  set nb1 := bmp.active.nbits with hnb1
  have hnb2 : (maxBits - nb1).toNat = 31 - nb1.toNat :=
    toNat_sub_of_le (by rw [le_def]; show _ ≤ 31; omega)
  have hval : (if w >>> 30 = 3 then bmp.active.val <<< (maxBits - nb1).toNat ||| lowMask (maxBits - nb1)
      else bmp.active.val <<< (maxBits - nb1).toNat) =
        bmp.active.val <<< (maxBits - nb1).toNat ||| lowBits (w >>> 30 % 2) (maxBits - nb1) := by
    unfold lowBits
    by_cases h3 : w >>> 30 = 3
    · rw [if_pos h3, if_pos (hhead.mp h3)]
    · rw [if_neg h3, if_neg (fun h1 => h3 (hhead.mpr h1))]
      exact BitVec.or_zero.symm
  have hcnt : ((w &&& ~~~header1F) - 1).toNat = fillCount w - 1 :=
    toNat_sub_of_le (by rw [le_def]; exact hc)
  obtain ⟨hmsb, hlt⟩ := msb_lowBits (w >>> 30 % 2) (maxBits - nb1) (by omega)
  obtain ⟨hhd, hhd0⟩ := complete_spec h (by rw [← hnb1]; omega) hlt (by omega)
  rw [hmsb] at hhd
  have hlen1 := hhd.length
  rw [length_replicate] at hlen1
  simp only [appendWord, ← hnb1, if_pos hne, if_pos hgt, hval]
  generalize appendActive {bmp with active := ⟨bmp.active.val <<< (maxBits - nb1).toNat |||
    lowBits (w >>> 30 % 2) (maxBits - nb1), nb1⟩} = b1 at hhd hhd0 hlen1 ⊢
  have hmid : Appends b1 (if 0 < (w &&& ~~~header1F) - 1 then
        appendCounter b1 (w >>> 30 % 2) ((w &&& ~~~header1F) - 1) else b1)
      (replicate (31 * (fillCount w - 1)) (decide (w >>> 30 % 2 = 1))) ∧
      (if 0 < (w &&& ~~~header1F) - 1 then
        appendCounter b1 (w >>> 30 % 2) ((w &&& ~~~header1F) - 1) else b1).active.nbits = 0 := by
    by_cases hmore : 0 < (w &&& ~~~header1F) - 1
    · have hmore' : 0 < ((w &&& ~~~header1F) - 1).toNat := hmore
      rw [if_pos hmore, ← hcnt]
      exact appendCounter_bits _ hhd.wellFormed (by rw [hhd0]) hb2 hmore' (by omega)
    · have hmore' : ((w &&& ~~~header1F) - 1).toNat = 0 := Nat.eq_zero_of_not_pos hmore
      rw [if_neg hmore, ← hcnt, hmore']
      exact ⟨.refl hhd.wellFormed, by rw [hhd0]⟩
  obtain ⟨hmid, hmid0⟩ := hmid
  have hlen2 := hmid.length
  rw [length_replicate] at hlen2
  obtain ⟨htl, htl'⟩ := msb_lowBits (w >>> 30 % 2) nb1 (by omega)
  have htail := startActive_spec hmid.wellFormed hmid0 hn htl' (by omega)
  rw [htl, lowBits_eq_mul hb2] at htail
  have hsum : 31 * fillCount w = (maxBits - nb1).toNat + 31 * (fillCount w - 1) + nb1.toNat := by omega
  rw [hbits, hsum, ← replicate_append_replicate, ← replicate_append_replicate]
  exact (hhd.trans hmid).trans htail

/-- A literal on a partly filled active word: the high bits complete it, the low
bits refill it. -/
theorem appendLiteral_spec (h : WellFormed bmp) (hne : bmp.active.nbits ≠ 0)
    (hlit : w.toNat < 2 ^ 31) (hlen : (decode bmp).length + 31 < 2 ^ 32) :
    Appends bmp (appendWord bmp w) (wordBits w) := by
  have hnot : ¬ IsFill w := by rw [isFill_iff]; omega
  have hgt : ¬ (1 : Word) < w >>> 30 := by
    rw [lt_def, toNat_head]
    show ¬ 1 < _
    omega
  have hn := h.activeBits
  have hpos := toNat_pos_of_ne hne
  set nb1 := bmp.active.nbits with hnb1
  have hnb2 : (maxBits - nb1).toNat = 31 - nb1.toNat :=
    toNat_sub_of_le (by rw [le_def]; show _ ≤ 31; omega)
  have hsum : (maxBits - nb1).toNat + nb1.toNat = 31 := by omega
  have hhigh : (w >>> nb1.toNat).toNat = w.toNat / 2 ^ nb1.toNat := by
    rw [BitVec.toNat_ushiftRight, shiftRight_eq_div_pow]
  have hlow : (w &&& lowMask nb1).toNat = w.toNat % 2 ^ nb1.toNat := by
    rw [BitVec.toNat_and, toNat_lowMask (by omega), and_two_pow_sub_one_eq_mod]
  have hhighlt : (w >>> nb1.toNat).toNat < 2 ^ (maxBits - nb1).toNat := by
    rw [hhigh]
    apply Nat.div_lt_of_lt_mul
    rw [← Nat.pow_add, Nat.add_comm, hsum]
    exact hlit
  obtain ⟨hhd, hhd0⟩ := complete_spec h (by rw [← hnb1]; omega) hhighlt (by omega)
  have hlen1 := hhd.length
  rw [msb_length] at hlen1
  have htail := startActive_spec hhd.wellFormed (by rw [hhd0]) hn (v := w &&& lowMask nb1)
    (by rw [hlow]; exact Nat.mod_lt _ (Nat.two_pow_pos _)) (by omega)
  rw [hlow, msb_mod] at htail
  simp only [appendWord, ← hnb1, if_pos hne, if_neg hgt]
  rw [wordBits, if_neg hnot]
  have hsplit := msb_split (maxBits - nb1).toNat nb1.toNat w.toNat
  rw [hsum, ← hhigh] at hsplit
  rw [hsplit]
  exact hhd.trans htail

theorem appendWord_spec (h : WellFormed bmp) (hw : Appendable w)
    (hlen : (decode bmp).length + (wordBits w).length < 2 ^ 32) :
    Appends bmp (appendWord bmp w) (wordBits w) := by
  by_cases hne : bmp.active.nbits = 0
  · have hbound := decode_length bmp
    rcases hw with hlit | ⟨hfill, hc⟩
    · have hnot : ¬ IsFill w := by rw [isFill_iff]; omega
      have hgt : ¬ (1 : Word) < w >>> 30 := by
        rw [lt_def, toNat_head]
        show ¬ 1 < _
        omega
      rw [wordBits, if_neg hnot, msb_length] at hlen
      obtain ⟨hs, hg, ha, ht⟩ := appendActive_spec (h.toStored.withActive ⟨w, bmp.active.nbits⟩) hlit
        (by show 31 * ((groups bmp).length + 1) < _; omega)
      simp only [appendWord, hne, ne_eq, not_true_eq_false, if_false, if_neg hgt] at hs hg ha ht ⊢
      refine ⟨wellFormed_of_stored hs ?_ ?_ ?_, ?_, ht.since rfl rfl⟩
      · rw [ha]; decide
      · rw [ha]; decide
      · rw [ha, hg, length_append]
        show 31 * ((groups bmp).length + 1) + 0 < _
        omega
      · rw [decode_eq, ha, hg, groupBits_append, groupBits_singleton, decode_eq bmp, hne, wordBits, if_neg hnot]
        simp [msb, groups, vec]
    · obtain ⟨hb2, _, hgt, hbits⟩ := fill_split hfill
      rw [hbits, length_replicate] at hlen
      have hcnt : 0 < w &&& ~~~header1F := hc
      simp only [appendWord, hne, ne_eq, not_true_eq_false, if_false, if_pos hgt, if_pos hcnt]
      rw [hbits]
      exact (appendCounter_bits _ h hne hb2 hc hlen).1
  · rcases hw with hlit | ⟨hfill, hc⟩
    · have hnot : ¬ IsFill w := by rw [isFill_iff]; omega
      rw [wordBits, if_neg hnot, msb_length] at hlen
      exact appendLiteral_spec h hne hlit hlen
    · rw [(fill_split hfill).2.2.2, length_replicate] at hlen
      exact appendFill_spec h hne hfill hc hlen

end PgStorage.Wah
