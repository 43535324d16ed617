import PgStorage.Wah.SetBit

/-! When the `isCompressed` guard is sound.

The flag stays false whatever is appended or compressed, so the guard lets
`setBitBitmap` through on any bitmap. It is sound along the runs that never store
a run of equal groups: no append completes 31 equal bits, none appends a whole
run, and nothing is compressed that has a word to compress. -/
namespace PgStorage.Wah
open Bits
open List
open BitVec (toNat_add toNat_or lt_def)

/-- Of the 31-bit groups from number `start` on, no complete one has equal bits. -/
def MixedFrom (start : Nat) (bits : List Bool) : Prop :=
  ∀ i, start ≤ i → 31 * (i + 1) ≤ bits.length →
    (bits.drop (31 * i)).take 31 ≠ List.replicate 31 false ∧ (bits.drop (31 * i)).take 31 ≠ List.replicate 31 true

theorem group_slice (gs hs : List Word) (g : Word) (rest : List Bool) :
    ((groupBits (gs ++ g :: hs) ++ rest).drop (31 * gs.length)).take 31 = msb 31 g.toNat := by
  rw [groupBits_append, groupBits_cons, append_assoc, drop_left' (groupBits_length gs),
    append_assoc, take_left' (msb_length 31 _)]

variable {bmp bmp' bmpa : Bitmap}

/-- Literals stay literals when only mixed groups are added. -/
theorem uncompressed_of_groups {gs : List Word} (h' : Stored bmp') (hu : Uncompressed bmp)
    (hkeeps : Keeps bmp bmp') (hgroups : groups bmp' = groups bmp ++ gs) (hgs : ∀ g ∈ gs, g ≠ 0 ∧ g ≠ allOnes) :
    Uncompressed bmp' := by
  have hlit (w : Word) (hw : w ∈ vec bmp) : ¬ IsFill w := by
    have := hu w hw
    rw [isFill_iff]
    omega
  obtain ⟨ws, hws⟩ := hkeeps.front (vec bmp) hlit (prefix_refl _)
  rw [groups, ← hws, flatMap_append, groups, append_cancel_left_eq] at hgroups
  intro w hw
  by_contra hge
  have hfill : IsFill w := by rw [isFill_iff]; omega
  have hmem : w ∈ ws := by
    rw [← hws] at hw
    exact (mem_append.mp hw).resolve_left fun hold => hlit w hold hfill
  have hgroup : fillGroup w ∈ gs := by
    rw [← hgroups]
    refine mem_flatMap.mpr ⟨w, hmem, ?_⟩
    rw [expand, if_pos hfill, mem_replicate]
    exact ⟨by have := h'.fills w hw hfill; omega, rfl⟩
  rcases fillGroup_uniform w with h | h
  · exact (hgs _ hgroup).1 h
  · exact (hgs _ hgroup).2 h

theorem Keeps.groups_append (hu : Uncompressed bmp) (hkeeps : Keeps bmp bmp') :
    ∃ gs, groups bmp' = groups bmp ++ gs := by
  have hlit (w : Word) (hw : w ∈ vec bmp) : ¬ IsFill w := by
    have := hu w hw
    rw [isFill_iff]
    omega
  obtain ⟨ws, hws⟩ := hkeeps.front (vec bmp) hlit (prefix_refl _)
  exact ⟨ws.flatMap expand, by rw [groups, ← hws, flatMap_append, groups]⟩

/-- An append that completes mixed groups only leaves literals only. -/
theorem Appends.uncompressed {piece : List Bool} (happ : Appends bmp bmp' piece)
    (hu : Uncompressed bmp) (hmixed : MixedFrom (groups bmp).length (decode bmp ++ piece)) :
    Uncompressed bmp' := by
  obtain ⟨gs, hgs⟩ := happ.keeps.groups_append hu
  refine uncompressed_of_groups happ.wellFormed.toStored hu happ.keeps hgs fun g hg => ?_
  obtain ⟨before, after, hsplit⟩ := append_of_mem hg
  have hdecode := decode_eq bmp'
  rw [hgs, hsplit, ← append_assoc, happ.bits] at hdecode
  have hslice := group_slice (groups bmp ++ before) after g (msb bmp'.active.nbits.toNat bmp'.active.val.toNat)
  rw [← hdecode, length_append] at hslice
  have hbound : 31 * ((groups bmp).length + before.length + 1) ≤ (decode bmp ++ piece).length := by
    rw [hdecode, length_append, groupBits_length, length_append, length_append, length_cons]
    omega
  obtain ⟨hzero, hone⟩ := hmixed _ (by omega) hbound
  rw [hslice] at hzero hone
  refine ⟨fun h => hzero ?_, fun h => hone ?_⟩
  · rw [h]
    exact msb_zero 31
  · rw [h, toNat_allOnes]
    exact msb_ones 31

/-! ### Appending a bitmap -/

/-- The stored words of `bmpa` are appended as they are. -/
theorem appendWords_spec (h : WellFormed bmp) (ha : WellFormed bmpa)
    (hlen : (decode bmp).length + (decode bmpa).length < 2 ^ 32) :
    Appends bmp ((vec bmpa).foldl appendWord bmp) (groupBits (groups bmpa)) := by
  have hrun : (vec bmpa).foldl appendWord bmp = Append.run bmp ((vec bmpa).map .word) := by
    rw [Append.run, foldl_map]
    rfl
  have hpiece : ((vec bmpa).map Append.word).flatMap Append.piece = groupBits (groups bmpa) := by
    rw [flatMap_map, groups, groupBits, flatMap_assoc]
    exact flatMap_congr fun w _ => wordBits_eq w
  have hsize := decode_length bmpa
  rw [hrun, ← hpiece]
  refine Append.run_spec h _ (fun op hop => ?_) (by rw [hpiece, groupBits_length]; omega)
  obtain ⟨w, hw, rfl⟩ := mem_map.mp hop
  by_cases hfill : IsFill w
  · exact .inr ⟨hfill, ha.fills w hw hfill⟩
  · refine .inl ?_
    rw [isFill_iff] at hfill
    omega

/-- The group that two active words complete, with the bits in their places. -/
def seam (bmp bmpa : Bitmap) : List Bool :=
  ((decode bmp ++ decode bmpa).drop (31 * ((groups bmp).length + (groups bmpa).length))).take 31

theorem mergeActive_fits (h : WellFormed bmp) (ha : WellFormed bmpa)
    (hlen : (decode bmp).length + bmpa.active.nbits.toNat < 2 ^ 32)
    (hsum : bmp.active.nbits.toNat + bmpa.active.nbits.toNat < 31)
    (hbmp' : bmp' = {bmp with
      active := ⟨bmp.active.val ||| bmpa.active.val, bmp.active.nbits + bmpa.active.nbits⟩}) :
    WellFormed bmp' := by
  have hnbits : (bmp.active.nbits + bmpa.active.nbits).toNat =
      bmp.active.nbits.toNat + bmpa.active.nbits.toNat := by
    rw [toNat_add]
    exact Nat.mod_eq_of_lt (by omega)
  rw [decode_length] at hlen
  rw [hbmp']
  refine wellFormed_of_stored (h.toStored.withActive _) ?_ ?_ ?_
  · dsimp only
    omega
  · dsimp only
    rw [hnbits, toNat_or]
    exact Nat.or_lt_two_pow
      (lt_of_lt_of_le h.activeVal (Nat.pow_le_pow_right (by decide) (by omega)))
      (lt_of_lt_of_le ha.activeVal (Nat.pow_le_pow_right (by decide) (by omega)))
  · show 31 * (groups bmp).length + (bmp.active.nbits + bmpa.active.nbits).toNat < _
    omega

theorem mergeActive_full (h : WellFormed bmp) (ha : WellFormed bmpa)
    (hlen : (decode bmp).length + bmpa.active.nbits.toNat < 2 ^ 32)
    (hsum : 31 ≤ bmp.active.nbits.toNat + bmpa.active.nbits.toNat) {nb1 : Word}
    (hnb1 : nb1.toNat = bmp.active.nbits.toNat + bmpa.active.nbits.toNat - 31) {b1 : Bitmap}
    (hb1 : b1 = appendActive
      {bmp with active := ⟨bmp.active.val ||| bmpa.active.val >>> nb1.toNat, bmp.active.nbits⟩})
    (hbmp' : bmp' = {b1 with
      active := ⟨if 0 < nb1 then lowMask nb1 &&& bmpa.active.val else b1.active.val, nb1⟩}) :
    WellFormed bmp' ∧ (Uncompressed bmp →
      msb bmp.active.nbits.toNat bmp.active.val.toNat ++
        msb (31 - bmp.active.nbits.toNat) (bmpa.active.val >>> nb1.toNat).toNat ≠ replicate 31 false →
      Uncompressed bmp') := by
  have hn := h.activeBits
  have hna := ha.activeBits
  have hv := h.activeVal
  have hva := ha.activeVal
  have hhigh : (bmpa.active.val >>> nb1.toNat).toNat < 2 ^ (31 - bmp.active.nbits.toNat) := by
    rw [BitVec.toNat_ushiftRight, Nat.shiftRight_eq_div_pow]
    apply Nat.div_lt_of_lt_mul
    rw [← Nat.pow_add, show nb1.toNat + (31 - bmp.active.nbits.toNat) = bmpa.active.nbits.toNat by omega]
    exact hva
  have hval : (bmp.active.val ||| bmpa.active.val >>> nb1.toNat).toNat < 2 ^ 30 := by
    rw [toNat_or]
    exact Nat.or_lt_two_pow (lt_of_lt_of_le hv (Nat.pow_le_pow_right (by decide) (by omega)))
      (lt_of_lt_of_le hhigh (Nat.pow_le_pow_right (by decide) (by omega)))
  have hsize := decode_length bmp
  obtain ⟨hs, hg, hzero, hkeeps⟩ := appendActive_spec
    (h.toStored.withActive ⟨bmp.active.val ||| bmpa.active.val >>> nb1.toNat, bmp.active.nbits⟩)
    (by dsimp only; omega) (by show 31 * ((groups bmp).length + 1) < _; omega)
  rw [← hb1] at hs hg hzero hkeeps
  have hg : groups b1 = groups bmp ++ [bmp.active.val ||| bmpa.active.val >>> nb1.toNat] := hg
  refine ⟨?_, fun hu hseam => ?_⟩
  · rw [hbmp']
    refine wellFormed_of_stored (hs.withActive _) (by dsimp only; omega) ?_ ?_
    · dsimp only
      rw [hzero]
      split
      · rw [BitVec.toNat_and, toNat_lowMask (by omega)]
        exact lt_of_le_of_lt Nat.and_le_left (Nat.sub_one_lt (Nat.two_pow_pos _).ne')
      · exact Nat.two_pow_pos _
    · show 31 * (groups b1).length + nb1.toNat < _
      rw [hg, length_append, length_singleton]
      omega
  · have hu1 : Uncompressed b1 := by
      refine uncompressed_of_groups hs hu (hkeeps.since rfl rfl) hg fun g hmem => ?_
      rw [mem_singleton.mp hmem]
      refine ⟨fun h0 => hseam ?_, fun h1 => ?_⟩
      · have hor := congrArg BitVec.toNat h0
        rw [toNat_or] at hor
        obtain ⟨hl, hr⟩ := Nat.or_eq_zero_iff.mp hor
        rw [hl, hr, msb_zero, msb_zero, replicate_append_replicate]
        congr 1
        omega
      · have h1 := congrArg BitVec.toNat h1
        rw [toNat_allOnes] at h1
        omega
    rw [hbmp']
    exact hu1

/-- Appending a bitmap keeps a bitmap well-formed, whatever bits it ends with, and
uncompressed when no group completed on the way has equal bits. -/
theorem appendBitmap_spec (h : WellFormed bmp) (ha : WellFormed bmpa)
    (hlen : (decode bmp).length + (decode bmpa).length < 2 ^ 32) :
    WellFormed (appendBitmap bmp bmpa) ∧ (Uncompressed bmp →
      MixedFrom (groups bmp).length (decode bmp ++ groupBits (groups bmpa)) →
      seam bmp bmpa ≠ replicate 31 false → Uncompressed (appendBitmap bmp bmpa)) := by
  have happ := appendWords_spec h ha hlen
  have hwords : appendBitmap bmp bmpa = mergeActive ((vec bmpa).foldl appendWord bmp) bmpa := rfl
  rw [hwords]
  generalize (vec bmpa).foldl appendWord bmp = b at happ ⊢
  have hsizea := decode_length bmpa
  have hsize := decode_length bmp
  have hsizeb := decode_length b
  have hgrown := happ.length
  rw [groupBits_length] at hgrown
  have hbits := happ.wellFormed.activeBits
  have hbits' := h.activeBits
  have hn : b.active.nbits.toNat = bmp.active.nbits.toNat := by omega
  have hgroups : (groups b).length = (groups bmp).length + (groups bmpa).length := by omega
  have hna := ha.activeBits
  have hnbits : (b.active.nbits + bmpa.active.nbits).toNat = b.active.nbits.toNat + bmpa.active.nbits.toNat := by
    rw [toNat_add]
    exact Nat.mod_eq_of_lt (by omega)
  simp only [mergeActive]
  split
  · split
    · rename_i hfits
      rw [lt_def, hnbits] at hfits
      exact ⟨mergeActive_fits happ.wellFormed ha (by omega) hfits rfl,
        fun hu hmixed _ => happ.uncompressed hu hmixed⟩
    · rename_i hfull
      rw [lt_def, hnbits] at hfull
      have hfull : 31 ≤ b.active.nbits.toNat + bmpa.active.nbits.toNat := Nat.le_of_not_lt hfull
      have hnb1 : (b.active.nbits + bmpa.active.nbits - maxBits).toNat =
          b.active.nbits.toNat + bmpa.active.nbits.toNat - 31 := by
        rw [BitVec.toNat_sub_of_le (by rw [BitVec.le_def, hnbits]; exact hfull), hnbits]
        rfl
      obtain ⟨hwf, hlit⟩ := mergeActive_full happ.wellFormed ha (by omega) hfull hnb1 rfl rfl
      refine ⟨hwf, fun hu hmixed hseam => hlit (happ.uncompressed hu hmixed) fun heq => hseam ?_⟩
      have hjoin : decode bmp ++ decode bmpa = groupBits (groups b) ++
          (msb b.active.nbits.toNat b.active.val.toNat ++ msb bmpa.active.nbits.toNat bmpa.active.val.toNat) := by
        rw [decode_eq bmpa, ← append_assoc, ← happ.bits, decode_eq b, append_assoc]
      have hsplit := msb_split (31 - b.active.nbits.toNat)
        (b.active.nbits + bmpa.active.nbits - maxBits).toNat bmpa.active.val.toNat
      rw [show 31 - b.active.nbits.toNat + (b.active.nbits + bmpa.active.nbits - maxBits).toNat =
          bmpa.active.nbits.toNat by omega, ← Nat.shiftRight_eq_div_pow, ← BitVec.toNat_ushiftRight] at hsplit
      rw [seam, hjoin, ← hgroups, drop_left' (groupBits_length _), hsplit, ← append_assoc, heq,
        take_left' (length_replicate ..)]
  · rename_i hzero
    have h0 : bmpa.active.nbits.toNat = 0 := by rw [not_not.mp hzero]; rfl
    refine ⟨wellFormed_of_stored (happ.wellFormed.toStored.withActive _) hna ha.activeVal ?_,
      fun hu hmixed _ => happ.uncompressed hu hmixed⟩
    show 31 * (groups b).length + bmpa.active.nbits.toNat < _
    omega

/-- Words that are no run are copied. -/
theorem compress_mixed (ws acc : List Word) (headj : Word) (hlit : ∀ w ∈ ws, w.toNat < 2 ^ 31)
    (hmixed : ∀ w ∈ ws, w ≠ 0 ∧ w ≠ allOnes) : (ws.foldl compressStep (acc, headj)).1 = acc ++ ws := by
  induction ws generalizing acc headj with
  | nil => exact (append_nil _).symm
  | cons w ws ih =>
    have hw : compressWord w = (w >>> 30, w) := by
      rw [compressWord, if_neg (hmixed w (mem_cons_self ..)).1, if_neg (hmixed w (mem_cons_self ..)).2]
    have hhead : ¬ (1 : Word) < w >>> 30 := by
      have := hlit w (mem_cons_self ..)
      rw [lt_def, toNat_head]
      show ¬ 1 < _
      omega
    have hstep : compressStep (acc, headj) w = (acc ++ [w], w >>> 30) := by
      simp only [compressStep, hw]
      split
      · rfl
      · rw [if_neg]
        rintro ⟨heq, hgt⟩
        exact hhead (heq ▸ hgt)
    rw [foldl_cons, hstep, ih _ _ (fun v hv => hlit v (mem_cons_of_mem w hv))
      fun v hv => hmixed v (mem_cons_of_mem w hv), append_assoc, singleton_append]

theorem compress_uncompressed (hu : Uncompressed bmp)
    (hmixed : ∀ w ∈ vec bmp, w ≠ 0 ∧ w ≠ allOnes) : Uncompressed (compress bmp) := by
  have hwords : ((bmp.mVec.take bmp.mSize.toNat).foldl compressStep ([], 0)).1 = vec bmp :=
    compress_mixed (vec bmp) [] 0 hu hmixed
  intro w hw
  simp only [compress, hwords, vec] at hw
  exact hu w (mem_of_mem_take hw)

/-- A call on a bitmap. -/
inductive Op where
  | append (op : Append)
  | counter (val cnt : Word)
  | active
  | bitmap (bmpa : Bitmap)
  | compress
  | decompress
  | setBit (nbit : Word)

namespace Op

def apply (bmp : Bitmap) : Op → Bitmap
  | .append op => op.apply bmp
  | .counter val cnt => appendCounter bmp val cnt
  | .active => appendActive bmp
  | .bitmap bmpa => appendBitmap bmp bmpa
  | .compress => Wah.compress bmp
  | .decompress => Wah.decompress bmp
  | .setBit nbit => setBitBitmap bmp nbit

/-- The routines' preconditions, as their comments give them, below 2^32 bits. -/
def Legal (bmp : Bitmap) : Op → Prop
  | .append op => op.Valid ∧ (decode bmp).length + op.piece.length < 2 ^ 32
  | .counter val cnt => bmp.active.nbits = 0 ∧ (val = 0 ∨ val = 1) ∧ (decode bmp).length + 31 * cnt.toNat < 2 ^ 32
  | .active => bmp.active.nbits = maxBits
  | .bitmap bmpa => WellFormed bmpa ∧ (decode bmp).length + (decode bmpa).length < 2 ^ 32
  | .compress => True
  | .decompress => True
  | .setBit _ => True

/-- The call stores no run. -/
def NoRun (bmp : Bitmap) : Op → Prop
  | .append op => MixedFrom (groups bmp).length (decode bmp ++ op.piece)
  | .counter _ _ => False
  | .active => bmp.active.val ≠ 0 ∧ bmp.active.val ≠ allOnes
  | .bitmap bmpa => MixedFrom (groups bmp).length (decode bmp ++ groupBits (groups bmpa)) ∧
      seam bmp bmpa ≠ List.replicate 31 false
  | .compress => ∀ w ∈ vec bmp, w ≠ 0 ∧ w ≠ allOnes
  | .decompress => True
  | .setBit _ => True

/-- One call. -/
theorem apply_uncompressed {bmp : Bitmap} (h : WellFormed bmp) (hu : Uncompressed bmp) {op : Op}
    (hlegal : op.Legal bmp) (hnorun : op.NoRun bmp) :
    WellFormed (op.apply bmp) ∧ Uncompressed (op.apply bmp) := by
  cases op with
  | append op =>
    have happ := Append.apply_spec h hlegal.1 hlegal.2
    exact ⟨happ.wellFormed, happ.uncompressed hu hnorun⟩
  | counter val cnt => exact hnorun.elim
  | active =>
    have hn := h.activeBits
    rw [show bmp.active.nbits = maxBits from hlegal] at hn
    exact absurd hn (by decide)
  | bitmap bmpa =>
    obtain ⟨hwf, hlit⟩ := appendBitmap_spec h hlegal.1 hlegal.2
    exact ⟨hwf, hlit hu hnorun.1 hnorun.2⟩
  | compress => exact ⟨(compress_spec h).1, compress_uncompressed hu hnorun⟩
  | decompress => exact ⟨(decompress_spec h).1, (decompress_spec h).2.2⟩
  | setBit nbit =>
    by_cases hguard : bmp.isCompressed = false ∧ nbit < bitmapSize bmp
    · obtain ⟨hwf, hlit, -⟩ := setBit_spec h hu hguard.1 hguard.2
      exact ⟨hwf, hlit⟩
    · have hskip : setBitBitmap bmp nbit = bmp := by rw [setBitBitmap, if_neg hguard]
      simp only [apply, hskip]
      exact ⟨h, hu⟩

/-- The bitmap after each call of a run, from the empty one. -/
def run (ops : List Op) : Bitmap := ops.foldl Op.apply makeBitmap

/-- Every call of a run meets `ok` in the state that it finds. -/
def RunsOn (ok : Bitmap → Op → Prop) (ops : List Op) : Prop :=
  ∀ k (hk : k < ops.length), ok (run (ops.take k)) (ops[k])

theorem run_uncompressed {ops : List Op} (h : RunsOn (fun bmp op => op.Legal bmp ∧ op.NoRun bmp) ops) (k : Nat) :
    WellFormed (run (ops.take k)) ∧ Uncompressed (run (ops.take k)) := by
  induction k with
  | zero => exact ⟨makeBitmap_wellFormed, by intro w hw; simp [run, vec, makeBitmap] at hw⟩
  | succ k ih =>
    by_cases hk : k < ops.length
    · have hstep := h k hk
      rw [take_succ_eq_append_getElem hk, run, foldl_append]
      exact apply_uncompressed ih.1 ih.2 hstep.1 hstep.2
    · rw [take_of_length_le (by omega)] at ih ⊢
      exact ih

end Op

/-- What the guard promises of a bitmap. -/
def GuardSound (bmp : Bitmap) : Prop :=
  (bmp.isCompressed = false → ∀ w ∈ vec bmp, w.toNat < 2 ^ 31) ∧
    ∀ nbit, nbit < bitmapSize bmp →
      (bmp.isCompressed = true ∧ decode (setBitBitmap bmp nbit) = decode bmp) ∨
        decode (setBitBitmap bmp nbit) = (decode bmp).set nbit.toNat true

/-- **Along every run that stores no run of equal groups the guard is sound in every
state: the words are literals and setting a bit sets exactly that bit.** -/
theorem run_guardSound (ops : List Op) (h : Op.RunsOn (fun bmp op => op.Legal bmp ∧ op.NoRun bmp) ops) (k : Nat) :
    GuardSound (Op.run (ops.take k)) := by
  obtain ⟨hwf, hu⟩ := Op.run_uncompressed h k
  refine ⟨fun _ => hu, fun nbit hn => ?_⟩
  cases hflag : (Op.run (ops.take k)).isCompressed with
  | true =>
    refine .inl ⟨rfl, ?_⟩
    rw [setBitBitmap, if_neg (by rw [hflag]; rintro ⟨h, _⟩; exact absurd h (by decide))]
  | false => exact .inr (setBit_spec hwf hu hflag hn).2.2

theorem run_guardSound_literal : GuardSound (Op.run ([.append (.word 5), .setBit 3, .compress].take 2)) := by
  refine run_guardSound [.append (.word 5), .setBit 3, .compress] (fun k hk => ?_) 2
  match k, hk with
  | 0, _ =>
    refine ⟨⟨by decide, by decide +kernel⟩, fun i _ hi => ?_⟩
    have hlen : (decode makeBitmap ++ (Append.word 5).piece).length = 31 := by decide +kernel
    obtain rfl : i = 0 := by
      have hi : 31 * (i + 1) ≤ (decode makeBitmap ++ (Append.word 5).piece).length := hi
      omega
    exact ⟨by decide +kernel, by decide +kernel⟩
  | 1, _ => exact ⟨trivial, trivial⟩
  | 2, _ =>
    refine ⟨trivial, ?_⟩
    have hvec : vec (Op.run ([.append (.word 5), .setBit 3, .compress].take 2)) = [0x08000005] := by decide +kernel
    intro w hw
    have hw : w ∈ vec (Op.run ([.append (.word 5), .setBit 3, .compress].take 2)) := hw
    rw [hvec, mem_singleton] at hw
    rw [hw]
    decide

/-- 31 zeros are stored as a run with the flag still false; setting the first bit
then sets all 31. -/
theorem guard_unsound :
    (Op.append (.bits 0 31)).Legal makeBitmap ∧
      (Op.run [.append (.bits 0 31)]).isCompressed = false ∧ vec (Op.run [.append (.bits 0 31)]) = [0x80000001] ∧
      decode (setBitBitmap (Op.run [.append (.bits 0 31)]) 0) = List.replicate 31 true ∧
      ¬ GuardSound (Op.run [.append (.bits 0 31)]) := by
  refine ⟨⟨.inl rfl, by decide +kernel⟩, by decide +kernel, by decide +kernel, by decide +kernel, fun h => ?_⟩
  have hvec : vec (Op.run [.append (.bits 0 31)]) = [0x80000001] := by decide +kernel
  have hlit := h.1 (by decide +kernel) 0x80000001 (by rw [hvec]; exact mem_singleton.mpr rfl)
  exact absurd hlit (by decide)

end PgStorage.Wah
