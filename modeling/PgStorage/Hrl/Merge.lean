import PgStorage.Hrl.BuildProofs

/-! When a merge is right.

A fill takes as much of the next one as fits. If it can take all of it but becomes full by that, the word left over is a
fill of no length. The place a buffer notes for a complete word is worked out from the last tid, so it is right if
that tid is in the word behind. -/
namespace PgStorage.Hrl
open List TidBuffer Cell
open BitVec (ofNat)

namespace TidBuffer

/-- The last complete word. -/
def compCell (buf : TidBuffer) : Cell := ⟨buf.isLastCompwordFill, buf.lastCompword⟩

/-- All complete words. -/
def complete (buf : TidBuffer) : List Cell := buf.bufCells ++ [buf.compCell]

end TidBuffer

/-- The two last words are fills of the same bit. -/
def sameFill (buf : TidBuffer) (fill : Bool) : Bool :=
  buf.isLastCompwordFill && fill && fillBit buf.lastCompword == fillBit buf.lastWord

/-- A buffer whose last complete word is set. -/
structure MergeInput (buf : TidBuffer) (fill : Bool) : Prop where
  clean : buf.Clean
  set : buf.lastCompword ≠ literalAllOne
  fills : ∀ c ∈ buf.complete ++ [⟨fill, buf.lastWord⟩], c.Valid

/-- What a merge has to leave of `buf`, whose first word comes behind `base` words of the vector. -/
structure MergeSpec (base : Nat) (buf : TidBuffer) (fill : Bool) (out : TidBuffer) : Prop where
  bits : expand out.complete = expand (buf.complete ++ [⟨fill, buf.lastWord⟩])
  fills : ∀ c ∈ out.complete, c.Valid
  set : out.lastCompword ≠ literalAllOne
  tids : ∀ n, buf.curword ≤ n → n < out.curword →
    out.lastTids n = ofNat 64 (16 * (base + (expand (cells out.hwords out.cwords 0 (n + 1))).length))

/-- When a merge does so: two fills of one bit do not come to just the longest fill, the mark for no word only goes behind
a fill of ones, and a word is appended only when the last tid is in the word behind the complete ones. -/
def MergeCond (base : Nat) (buf : TidBuffer) (fill : Bool) : Prop :=
  (sameFill buf fill = true → fillLength buf.lastCompword + fillLength buf.lastWord ≠ maxFillLength) ∧
    (buf.lastWord = literalAllOne → sameFill buf fill = true) ∧
    (sameFill buf fill = true ∧ fillLength buf.lastCompword + fillLength buf.lastWord < maxFillLength ∨
      (buf.lastTid - 1) / 16 * 16 = ofNat 64 (16 * (base + (expand buf.complete).length)))

theorem lastTid_aligned (t : BitVec 64) : t - (t - 1) % 16 - 1 = (t - 1) / 16 * 16 := by
  have hsplit : (t - 1) / 16 * 16 + (t - 1) % 16 = t - 1 := by
    apply BitVec.eq_of_toNat_eq
    have h16 : (16 : BitVec 64).toNat = 16 := rfl
    have hlt := (t - 1).isLt
    rw [BitVec.toNat_add, BitVec.toNat_mul, BitVec.toNat_udiv, BitVec.toNat_umod, h16]
    omega
  calc t - (t - 1) % 16 - 1 = t - 1 - (t - 1) % 16 := by rw [BitVec.sub_sub, BitVec.add_comm, ← BitVec.sub_sub]
    _ = (t - 1) / 16 * 16 + (t - 1) % 16 - (t - 1) % 16 := by rw [hsplit]
    _ = (t - 1) / 16 * 16 := BitVec.add_sub_cancel ..

/-- The one full fill of ones. -/
theorem eq_literalAllOne {w : Word} (hbit : fillBit w = 1) (hlen : fillLength w = maxFillLength) : w = literalAllOne := by
  apply BitVec.eq_of_toNat_eq
  have hdiv := toNat_fillBit w
  rw [hbit] at hdiv
  rw [fillLength_eq, maxFillLength] at hlen
  show w.toNat = 65535
  have hone : (1 : Word).toNat = 1 := rfl
  omega

section
variable {buf : TidBuffer} {fill : Bool}

theorem sameFill_iff : sameFill buf fill = true ↔
    buf.isLastCompwordFill = true ∧ fill = true ∧ fillBit buf.lastCompword = fillBit buf.lastWord := by
  rw [sameFill, Bool.and_eq_true, Bool.and_eq_true, beq_iff_eq, and_assoc]

theorem mergewords_fits (hset : buf.lastCompword ≠ literalAllOne) (hsame : sameFill buf fill = true)
    (hlt : fillLength buf.lastCompword + fillLength buf.lastWord < maxFillLength) :
    mergewords buf fill = {buf with
      lastTid := buf.lastTid - (buf.lastTid - 1) % 16 - 1 + wordBits true buf.lastWord
      lastCompword := buf.lastCompword + ofNat 16 (fillLength buf.lastWord), lastWord := literalAllZero} := by
  simp only [mergewords]
  rw [if_neg fun hc => hset hc.1, if_neg hset]
  exact if_pos ⟨hsame, hlt⟩

/-- What the last complete word takes of the last word before it is appended. -/
def mergedLength (buf : TidBuffer) (fill : Bool) : Nat :=
  if sameFill buf fill = true then maxFillLength - fillLength buf.lastCompword else 0

/-- What an append leaves. -/
structure Appends (buf : TidBuffer) (fill : Bool) (out : TidBuffer) : Prop where
  cells : out.bufCells = buf.bufCells ++ [⟨buf.isLastCompwordFill, buf.lastCompword + ofNat 16 (mergedLength buf fill)⟩]
  comp : out.compCell = ⟨fill, buf.lastWord - ofNat 16 (mergedLength buf fill)⟩
  curword : out.curword = buf.curword + 1
  tid : out.lastTids buf.curword = (buf.lastTid - 1) / 16 * 16 + ofNat 64 (mergedLength buf fill * 16)

/-- The last word is not merged into the one before. -/
abbrev Unmerged (buf : TidBuffer) (fill : Bool) : Prop :=
  ¬(sameFill buf fill = true ∧ fillLength buf.lastCompword + fillLength buf.lastWord < maxFillLength)

theorem mergewords_appends (hset : buf.lastCompword ≠ literalAllOne) (hclean : buf.Clean) (hfits : Unmerged buf fill) :
    Appends buf fill (mergewords buf fill) := by
  obtain ⟨hclean', hcells, hcur, hroom⟩ := bufExtend_clean hclean
  simp only [mergewords]
  rw [if_neg fun hc => hset hc.1, if_neg hset, ← sameFill, if_neg hfits, lastTid_aligned, ← mergedLength]
  obtain ⟨-, hpush⟩ := push_clean hclean' (by rw [hcur]; exact hroom) buf.isLastCompwordFill
    (buf.lastCompword + ofNat 16 (mergedLength buf fill))
    ((buf.lastTid - 1) / 16 * 16 + ofNat 64 (mergedLength buf fill * 16))
  rw [hcells] at hpush
  refine ⟨hpush, rfl, congrArg (· + 1) hcur, ?_⟩
  show (if buf.curword = (bufExtend buf).curword then _ else _) = _
  rw [hcur, if_pos rfl]

/-! ### The words -/

theorem cell_fits (hsame : sameFill buf fill = true)
    (hlt : fillLength buf.lastCompword + fillLength buf.lastWord < maxFillLength) :
    (mk buf.isLastCompwordFill (buf.lastCompword + ofNat 16 (fillLength buf.lastWord))).words =
      buf.compCell.words ++ (mk fill buf.lastWord).words := by
  obtain ⟨hcomp, rfl, hbit⟩ := sameFill_iff.mp hsame
  have hsum := words_append_fill hbit (le_refl _) (le_of_lt hlt)
  have hrest : (Cell.mk true (buf.lastWord - ofNat 16 (fillLength buf.lastWord))).words = [] := by
    rw [Cell.words_sub (le_refl _), Cell.words, if_pos rfl, drop_replicate, Nat.sub_self]
    rfl
  rw [hrest, append_nil] at hsum
  rw [compCell, hcomp, hsum]

/-- The two words of an append, when they are not merged into one. -/
theorem cells_appended (hfits : Unmerged buf fill) :
    (mk buf.isLastCompwordFill (buf.lastCompword + ofNat 16 (mergedLength buf fill))).words ++
        (mk fill (buf.lastWord - ofNat 16 (mergedLength buf fill))).words =
      buf.compCell.words ++ (mk fill buf.lastWord).words ∧
    (mk buf.isLastCompwordFill (buf.lastCompword + ofNat 16 (mergedLength buf fill))).words.length =
      buf.compCell.words.length + mergedLength buf fill := by
  rw [compCell]
  by_cases hsame : sameFill buf fill = true
  · obtain ⟨hcomp, rfl, hbit⟩ := sameFill_iff.mp hsame
    have hlong := Nat.le_of_not_lt fun hlt => hfits ⟨hsame, hlt⟩
    have hcap : fillLength buf.lastCompword ≤ maxFillLength := Nat.le_of_lt_succ (fillLength_lt _)
    rw [mergedLength, if_pos hsame, hcomp]
    have hle : fillLength buf.lastCompword + (maxFillLength - fillLength buf.lastCompword) ≤ maxFillLength := by omega
    refine ⟨words_append_fill hbit (by omega) hle, ?_⟩
    simp only [Cell.words, if_true, length_replicate, (fill_add hle).1]
  · have hzero : ofNat 16 0 = 0#16 := rfl
    rw [mergedLength, if_neg hsame, hzero, BitVec.add_zero, BitVec.sub_zero]
    exact ⟨rfl, rfl⟩

theorem complete_fits (hset : buf.lastCompword ≠ literalAllOne) (hsame : sameFill buf fill = true)
    (hlt : fillLength buf.lastCompword + fillLength buf.lastWord < maxFillLength) :
    (mergewords buf fill).complete = buf.bufCells ++
      [⟨buf.isLastCompwordFill, buf.lastCompword + ofNat 16 (fillLength buf.lastWord)⟩] := by
  rw [mergewords_fits hset hsame hlt]
  rfl

theorem Appends.complete {out : TidBuffer} (h : Appends buf fill out) :
    out.complete = buf.bufCells ++
      [⟨buf.isLastCompwordFill, buf.lastCompword + ofNat 16 (mergedLength buf fill)⟩,
        ⟨fill, buf.lastWord - ofNat 16 (mergedLength buf fill)⟩] := by
  rw [TidBuffer.complete, h.cells, h.comp, append_assoc, singleton_append]

/-- An append keeps the words. -/
theorem Appends.bits {out : TidBuffer} (h : Appends buf fill out) (hfits : Unmerged buf fill) :
    expand out.complete = expand (buf.complete ++ [⟨fill, buf.lastWord⟩]) := by
  rw [h.complete, TidBuffer.complete, append_assoc, expand_append, expand_append, singleton_append, expand_cons,
    expand_cons, expand_nil, append_nil, (cells_appended hfits).1, expand_cons, expand_cons, expand_nil,
    append_nil]

/-- The word left over has a length unless the two fills come to just the longest one. -/
theorem valid_left (hvalid : (mk fill buf.lastWord).Valid) (hfits : Unmerged buf fill) :
    (mk fill (buf.lastWord - ofNat 16 (mergedLength buf fill))).Valid ↔
      (sameFill buf fill = true → fillLength buf.lastCompword + fillLength buf.lastWord ≠ maxFillLength) := by
  by_cases hsame : sameFill buf fill = true
  · obtain ⟨-, hfill, -⟩ := sameFill_iff.mp hsame
    have hlong := Nat.le_of_not_lt fun hlt => hfits ⟨hsame, hlt⟩
    have hcap : fillLength buf.lastCompword ≤ maxFillLength := Nat.le_of_lt_succ (fillLength_lt _)
    have hleft := (fill_sub (w := buf.lastWord) (k := maxFillLength - fillLength buf.lastCompword) (by omega)).1
    rw [mergedLength, if_pos hsame, Cell.Valid, hleft]
    constructor
    · intro h _
      have := h hfill
      omega
    · intro h _
      have := h hsame
      omega
  · have hzero : ofNat 16 0 = 0#16 := rfl
    rw [mergedLength, if_neg hsame, hzero, BitVec.sub_zero]
    constructor
    · intro _ hc
      exact absurd hc hsame
    · intro _
      exact hvalid

theorem valid_appended (hvalid : buf.compCell.Valid) :
    (mk buf.isLastCompwordFill (buf.lastCompword + ofNat 16 (mergedLength buf fill))).Valid := by
  intro hfill
  have hpos := hvalid hfill
  have hcap : fillLength buf.lastCompword ≤ maxFillLength := Nat.le_of_lt_succ (fillLength_lt _)
  have hle : fillLength buf.lastCompword + mergedLength buf fill ≤ maxFillLength := by
    rw [mergedLength]
    split <;> omega
  show 1 ≤ fillLength (buf.lastCompword + ofNat 16 (mergedLength buf fill))
  rw [(fill_add hle).1]
  exact le_trans hpos (Nat.le_add_right ..)

/-- The word left over is the mark for no word only if nothing was taken of it. -/
theorem set_left (hset : buf.lastCompword ≠ literalAllOne) (hfits : Unmerged buf fill) :
    buf.lastWord - ofNat 16 (mergedLength buf fill) ≠ literalAllOne ↔
      (buf.lastWord = literalAllOne → sameFill buf fill = true) := by
  by_cases hsame : sameFill buf fill = true
  · obtain ⟨-, -, hbit⟩ := sameFill_iff.mp hsame
    have hlong := Nat.le_of_not_lt fun hlt => hfits ⟨hsame, hlt⟩
    have hcap : fillLength buf.lastCompword ≤ maxFillLength := Nat.le_of_lt_succ (fillLength_lt _)
    have hcap' : fillLength buf.lastWord ≤ maxFillLength := Nat.le_of_lt_succ (fillLength_lt _)
    obtain ⟨hleft, hleftbit⟩ := fill_sub (w := buf.lastWord) (k := maxFillLength - fillLength buf.lastCompword) (by omega)
    refine iff_of_true (fun hall => hset ?_) fun _ => hsame
    rw [mergedLength, if_pos hsame] at hall
    rw [hall] at hleft hleftbit
    rw [literalAllOne_length] at hleft
    exact eq_literalAllOne (hbit.trans (hleftbit.symm.trans (by decide))) (by omega)
  · have hzero : ofNat 16 0 = 0#16 := rfl
    rw [mergedLength, if_neg hsame, hzero, BitVec.sub_zero]
    constructor
    · intro hne hall
      exact absurd hall hne
    · intro h hall
      exact hsame (h hall)

/-- The place noted for the word appended. -/
theorem tid_appended {base : Nat} {out : TidBuffer} (h : Appends buf fill out) (hfits : Unmerged buf fill) :
    (∀ n, buf.curword ≤ n → n < out.curword →
        out.lastTids n = ofNat 64 (16 * (base + (expand (cells out.hwords out.cwords 0 (n + 1))).length))) ↔
      (buf.lastTid - 1) / 16 * 16 = ofNat 64 (16 * (base + (expand buf.complete).length)) := by
  have hlen : (expand (cells out.hwords out.cwords 0 (buf.curword + 1))).length =
      (expand buf.complete).length + mergedLength buf fill := by
    have hcells : cells out.hwords out.cwords 0 (buf.curword + 1) = out.bufCells := by rw [bufCells, h.curword]
    rw [hcells, h.cells, complete, expand_append, expand_append, expand_cons, expand_cons, expand_nil,
      append_nil, append_nil, length_append, length_append, (cells_appended hfits).2, add_assoc]
  have hplace : ofNat 64 (16 * (base + ((expand buf.complete).length + mergedLength buf fill))) =
      ofNat 64 (16 * (base + (expand buf.complete).length)) + ofNat 64 (mergedLength buf fill * 16) := by
    rw [← BitVec.ofNat_add]
    congr 1
    omega
  constructor
  · intro htids
    have hn := htids buf.curword (le_refl _) (by rw [h.curword]; exact Nat.lt_succ_self _)
    rw [h.tid, hlen, hplace] at hn
    exact (BitVec.add_left_inj _).mp hn
  · intro hlast n hle hlt
    rw [h.curword] at hlt
    obtain rfl : n = buf.curword := by omega
    rw [h.tid, hlen, hplace, hlast]

end

/-- **When a merge is right.** -/
theorem mergewords_iff (base : Nat) (buf : TidBuffer) (fill : Bool) (h : MergeInput buf fill) :
    MergeSpec base buf fill (mergewords buf fill) ↔ MergeCond base buf fill := by
  have hvalid : buf.compCell.Valid := h.fills _ (by simp [complete])
  have hvalid' : (mk fill buf.lastWord).Valid := h.fills _ (by simp)
  have hold : ∀ c ∈ buf.bufCells, c.Valid := fun c hc => h.fills c (by simp [complete, hc])
  by_cases hfits : sameFill buf fill = true ∧ fillLength buf.lastCompword + fillLength buf.lastWord < maxFillLength
  · obtain ⟨hsame, hlt⟩ := hfits
    have hlen := (fill_add (w := buf.lastCompword) (le_of_lt hlt)).1
    refine iff_of_true ⟨?_, ?_, ?_, ?_⟩ ⟨fun _ => Nat.ne_of_lt hlt, fun _ => hsame, .inl ⟨hsame, hlt⟩⟩
    · rw [complete_fits h.set hsame hlt, complete, append_assoc, expand_append, expand_append, expand_cons,
        expand_nil, append_nil, cell_fits hsame hlt, singleton_append, expand_cons, expand_cons, expand_nil,
        append_nil]
    · rw [complete_fits h.set hsame hlt]
      intro c hc
      rcases mem_append.mp hc with hc | hc
      · exact hold c hc
      · rw [mem_singleton.mp hc]
        intro hfill
        show 1 ≤ fillLength (buf.lastCompword + ofNat 16 (fillLength buf.lastWord))
        rw [hlen]
        exact le_trans (hvalid hfill) (Nat.le_add_right ..)
    · rw [mergewords_fits h.set hsame hlt]
      exact ne_literalAllOne (by rw [hlen]; exact hlt)
    · rw [mergewords_fits h.set hsame hlt]
      intro n hle hn
      exact absurd hn (Nat.not_lt.mpr hle)
  · have happ : Appends buf fill (mergewords buf fill) := mergewords_appends h.set h.clean hfits
    have hcomp : (mergewords buf fill).lastCompword = buf.lastWord - ofNat 16 (mergedLength buf fill) :=
      congrArg word happ.comp
    rw [MergeCond, ← valid_left hvalid' hfits, ← set_left h.set hfits, ← tid_appended happ hfits, ← hcomp]
    constructor
    · intro hspec
      refine ⟨hspec.fills _ ?_, hspec.set, .inr hspec.tids⟩
      rw [hcomp, happ.complete]
      simp
    · rintro ⟨hleft, hset, htids⟩
      refine ⟨happ.bits hfits, ?_, hset, htids.resolve_left hfits⟩
      rw [happ.complete, ← hcomp]
      intro c hc
      rcases mem_append.mp hc with hc | hc
      · exact hold c hc
      · rcases mem_pair.mp hc with rfl | rfl
        · exact valid_appended hvalid
        · exact hleft

/-- A buffer with a fill of zeros and 16 more zeros behind it. -/
def zeroFills (length : Nat) : TidBuffer :=
  { zeroBuffer with
    lastCompword := makeFillWord 0 length, lastWord := makeFillWord 0 1, isLastCompwordFill := true
    lastTid := ofNat 64 (16 * length + 1) }

theorem mergeInput_zeroFills {length : Nat} (hpos : 1 ≤ length) (hle : length ≤ maxFillLength) :
    MergeInput (zeroFills length) true := by
  have hlen := (makeFillWord_zero hle).1
  refine ⟨⟨le_refl _, fun n _ => ?_, rfl⟩, ?_, ?_⟩
  · rw [isFillWord_eq]
    exact BitVec.getLsbD_zero
  · intro hc
    have hbit := (makeFillWord_zero hle).2
    rw [show makeFillWord 0 length = literalAllOne from hc] at hbit
    exact absurd hbit (by decide)
  · intro c hc
    rcases mem_pair.mp hc with rfl | rfl
    · intro _
      show 1 ≤ fillLength (makeFillWord 0 length)
      rwa [hlen]
    · exact (by decide : (mk true (makeFillWord 0 1)).Valid)

theorem mergewords_iff_zeros : MergeSpec 0 (zeroFills 5) true (mergewords (zeroFills 5) true) :=
  (mergewords_iff 0 (zeroFills 5) true (mergeInput_zeroFills (by decide) (by decide))).mpr
    ⟨by decide, by decide, .inl (by decide)⟩

/-- 32766 words of zeros and one more leave a fill of no length. -/
theorem mergewords_empty_fill :
    MergeInput (zeroFills 32766) true ∧
      (mergewords (zeroFills 32766) true).complete = [⟨true, makeFillWord 0 32767⟩, ⟨true, makeFillWord 0 0⟩] ∧
      ¬MergeSpec 0 (zeroFills 32766) true (mergewords (zeroFills 32766) true) := by
  have hcells : (mergewords (zeroFills 32766) true).complete =
      [⟨true, makeFillWord 0 32767⟩, ⟨true, makeFillWord 0 0⟩] := by decide
  refine ⟨mergeInput_zeroFills (by decide) (by decide), hcells, fun h => ?_⟩
  have hvalid := h.fills ⟨true, makeFillWord 0 0⟩ (by rw [hcells]; decide)
  exact absurd hvalid (by decide)

end PgStorage.Hrl
