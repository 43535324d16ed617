import PgStorage.Hrl.Batch

/-! What the union of batches computes.

A vector is a fixed list of words. A batch stands somewhere in it: what the batch
holds in memory, followed by what has not been read from disk, is the vector from
word `nwordsread` on (`Reads`). The union never leaves that relation, and the words
it appends are the next words of the OR of all vectors. -/
namespace PgStorage.Hrl
open List Batch
open BitVec (ofNat toNat_add toNat_ofNat toNat_sub le_def zero_or)

namespace Batch

/-- The cells in memory. -/
def mem (b : Batch) : List Cell := cells b.hwords b.cwords b.startNo b.nwords

/-- The words in memory. -/
def words (b : Batch) : List Word := expand b.mem

variable {b : Batch}

theorem mem_cons (h : 0 < b.nwords) : b.mem = ⟨b.curWordIsFill, b.curWord⟩ :: b.advance.mem := by
  obtain ⟨n, hn⟩ : ∃ n, b.nwords = n + 1 := ⟨b.nwords - 1, by omega⟩
  simp only [mem, advance, hn, cells, Nat.add_sub_cancel]
  rfl

theorem mem_setCurWord (h : 0 < b.nwords) (w : Word) :
    (b.setCurWord w).mem = ⟨b.curWordIsFill, w⟩ :: b.advance.mem := by
  obtain ⟨n, hn⟩ : ∃ n, b.nwords = n + 1 := ⟨b.nwords - 1, by omega⟩
  simp only [mem, setCurWord, advance, hn, cells_set, Nat.add_sub_cancel]
  rfl

theorem words_eq_nil_iff (hv : ∀ c ∈ b.mem, c.Valid) : b.words = [] ↔ b.nwords = 0 := by
  constructor
  · intro h
    rcases Nat.eq_zero_or_pos b.nwords with h0 | hpos
    · exact h0
    · have hc := Cell.words_pos (hv _ (by rw [mem_cons hpos]; exact mem_cons_self))
      rw [words, mem_cons hpos, expand_cons, append_eq_nil_iff] at h
      rw [h.1] at hc
      simp at hc
  · intro h
    simp [words, mem, h, cells]

end Batch

theorem Cell.valid_literal (w : Word) : Cell.Valid ⟨false, w⟩ := fun h => absurd h Bool.false_ne_true

/-! ### Standing in a vector -/

/-- A batch stands in the vector `v`, at or before word `pos`, with the words `f` not
read from disk. -/
structure Reads (pos : Nat) (v f : List Word) (b : Batch) : Prop where
  valid : ∀ c ∈ b.mem, c.Valid
  rest : b.words ++ f = v.drop b.nwordsread.toNat
  behind : b.nwordsread.toNat ≤ pos

section
variable {pos : Nat} {v f : List Word} {b b' : Batch}

section
variable (h : Reads pos v f b)
include h

theorem Reads.length_le (hne : b.words ≠ []) :
    b.nwordsread.toNat + b.words.length ≤ v.length := by
  have hlen := congrArg length h.rest
  have hpos := length_pos_of_ne_nil hne
  rw [length_append, length_drop] at hlen
  omega

/-- Pass `k` words that are in memory. -/
theorem Reads.pass (hv : v.length < 2 ^ 32) {k pos' : Nat} (hk : k ≤ b.words.length)
    (hvalid : ∀ c ∈ b'.mem, c.Valid) (hwords : b'.words = b.words.drop k)
    (hread : b'.nwordsread = b.nwordsread + ofNat 32 k) (hpos : b.nwordsread.toNat + k ≤ pos') :
    Reads pos' v f b' := by
  have hto : b'.nwordsread.toNat = b.nwordsread.toNat + k := by
    have hlt := b.nwordsread.isLt
    rcases Nat.eq_zero_or_pos k with rfl | hkpos
    · rw [hread, toNat_add, toNat_ofNat]
      omega
    · have hle := h.length_le (ne_nil_of_length_pos (by omega))
      rw [hread, toNat_add, toNat_ofNat]
      omega
  refine ⟨hvalid, ?_, by omega⟩
  rw [hwords, hto, ← drop_drop, ← h.rest, drop_append_of_le_length hk]

/-- Pass the first word in memory. -/
theorem Reads.pass_cell (hv : v.length < 2 ^ 32) (hn : 0 < b.nwords) {pos' : Nat}
    (hread : b'.nwordsread = b.nwordsread + ofNat 32 (Cell.mk b.curWordIsFill b.curWord).words.length)
    (hmem : b'.mem = b.advance.mem)
    (hpos : b.nwordsread.toNat + (Cell.mk b.curWordIsFill b.curWord).words.length ≤ pos') : Reads pos' v f b' := by
  have hcons := mem_cons hn
  have hsplit : b.words = (Cell.mk b.curWordIsFill b.curWord).words ++ b.advance.words := by
    rw [words, hcons, expand_cons]
    rfl
  refine h.pass hv ?_ ?_ ?_ hread hpos
  · rw [hsplit, length_append]
    omega
  · intro c hc
    rw [hmem] at hc
    exact h.valid c (by rw [hcons]; exact mem_cons_of_mem _ hc)
  · rw [hsplit, drop_left, words, hmem]
    rfl

/-- Pass part of a fill. -/
theorem Reads.pass_part (hv : v.length < 2 ^ 32) (hn : 0 < b.nwords)
    (hfill : b.curWordIsFill = true) {k pos' : Nat} (hk : k < fillLength b.curWord)
    (hread : b'.nwordsread = b.nwordsread + ofNat 32 k)
    (hmem : b'.mem = (b.setCurWord (b.curWord - ofNat 16 k)).mem)
    (hpos : b.nwordsread.toNat + k ≤ pos') : Reads pos' v f b' := by
  have hcons := mem_cons hn
  rw [hfill] at hcons
  have hmem' := hmem.trans (mem_setCurWord hn _)
  rw [hfill] at hmem'
  have hlen : (Cell.mk true b.curWord).words.length = fillLength b.curWord := by simp [Cell.words]
  have hle : k ≤ (Cell.mk true b.curWord).words.length := by omega
  refine h.pass hv ?_ ?_ ?_ hread hpos
  · rw [words, hcons, expand_cons, length_append]
    omega
  · intro c hc
    rw [hmem'] at hc
    rcases mem_cons.mp hc with rfl | hc
    · intro _
      show 1 ≤ fillLength (b.curWord - ofNat 16 k)
      rw [(fill_sub (by omega)).1]
      omega
    · exact h.valid c (by rw [hcons]; exact mem_cons_of_mem _ hc)
  · rw [words, hmem', expand_cons, Cell.words_sub (by omega), words, hcons, expand_cons,
      drop_append_of_le_length hle]

theorem Reads.mono {pos' : Nat} (hle : pos ≤ pos') : Reads pos' v f b :=
  ⟨h.valid, h.rest, Nat.le_trans h.behind hle⟩

/-- The batch has reached `pos`: its words are the vector's from there on. -/
theorem Reads.getD (hat : b.nwordsread.toNat = pos) {i : Nat} (hi : i < b.words.length) :
    v.getD (pos + i) 0 = b.words.getD i 0 := by
  have hget : (v.drop pos).getD i 0 = v.getD (pos + i) 0 := by
    rw [getD_eq_getElem?_getD, getElem?_drop, getD_eq_getElem?_getD]
  rw [← hget, ← hat, ← h.rest, getD_append _ _ _ _ hi]

end

variable {next : BitVec 32}

theorem toNat_pred (h : next.toNat = pos + 1) : (next - 1).toNat = pos := by
  have hlt := next.isLt
  have hone : (1 : BitVec 32).toNat = 1 := rfl
  rw [toNat_sub, hone]
  omega

theorem skipWord_reads (hnext : next.toNat = pos + 1) (hv : v.length < 2 ^ 32)
    (h : Reads pos v f b) (hlag : lagging next b = true) :
    Reads pos v f (skipWord next b) ∧
      ((skipWord next b).nwords < b.nwords ∨ lagging next (skipWord next b) = false) := by
  obtain ⟨hn, hlt⟩ := of_decide_eq_true hlag
  have hone := toNat_pred hnext
  have hlt' : b.nwordsread.toNat < pos := by
    rw [← hone]
    exact hlt
  have hto : (next - b.nwordsread - 1).toNat = pos - b.nwordsread.toNat := by
    have := next.isLt
    have hone : (1 : BitVec 32).toNat = 1 := rfl
    rw [toNat_sub, toNat_sub, hone]
    omega
  have hfl := fillLength_lt b.curWord
  unfold skipWord
  split
  · rename_i hfill
    have hcell : (Cell.mk b.curWordIsFill b.curWord).words.length = fillLength b.curWord := by
      simp [Cell.words, hfill]
    dsimp only
    split
    · rename_i hle
      have hle' : fillLength b.curWord ≤ pos - b.nwordsread.toNat := by
        rw [le_def, hto, toNat_ofNat] at hle
        omega
      refine ⟨h.pass_cell hv hn ?_ rfl ?_, .inl ?_⟩
      · rw [hcell]
      · rw [hcell]
        omega
      · exact Nat.sub_lt hn Nat.one_pos
    · rename_i hgt
      have hgt' : pos - b.nwordsread.toNat < fillLength b.curWord := by
        rw [le_def, hto, toNat_ofNat] at hgt
        omega
      have hcut : (next - b.nwordsread - 1).setWidth 16 = ofNat 16 (pos - b.nwordsread.toNat) := by
        apply BitVec.eq_of_toNat_eq
        rw [BitVec.toNat_setWidth, hto, toNat_ofNat]
      refine ⟨h.pass_part hv hn hfill hgt' ?_ ?_ (by omega), .inr ?_⟩
      · apply BitVec.eq_of_toNat_eq
        have := next.isLt
        rw [hone, toNat_add, toNat_ofNat]
        omega
      · rw [hcut]
        rfl
      · exact decide_eq_false fun hc => Nat.lt_irrefl _ hc.2
  · rename_i hfill
    have hcell : (Cell.mk b.curWordIsFill b.curWord).words.length = 1 := by
      simp [Cell.words, hfill]
    refine ⟨h.pass_cell hv hn ?_ rfl ?_, .inl ?_⟩
    · rw [hcell]
      rfl
    · rw [hcell]
      omega
    · exact Nat.sub_lt hn Nat.one_pos

/-- Skipping to `pos` ends there, unless the words in memory end first. -/
theorem findnextword_reads (hnext : next.toNat = pos + 1) (hv : v.length < 2 ^ 32) (h : Reads pos v f b) :
    Reads pos v f (findnextword b next) ∧
      ((findnextword b next).nwords = 0 ∨ (findnextword b next).nwordsread.toNat = pos) := by
  have hone := toNat_pred hnext
  have hstep (b : Batch) (hb : Reads pos v f b) (hlag : lagging next b = true) :
      Reads pos v f (skipWord next b) ∧ (if lagging next (skipWord next b) then (skipWord next b).nwords else 0) <
        if lagging next b then b.nwords else 0 := by
    obtain ⟨hreads, hless⟩ := skipWord_reads hnext hv hb hlag
    have hpos := (of_decide_eq_true hlag).1
    refine ⟨hreads, ?_⟩
    rw [if_pos hlag]
    rcases hless with hless | hless
    · split <;> omega
    · rw [if_neg (by simp [hless])]
      exact hpos
  obtain ⟨hreads, hcond⟩ := Loop.whileN_of_invariant (Reads pos v f)
    (fun b => if lagging next b then b.nwords else 0) hstep b h (b.nwords + 1) (by split <;> omega)
  refine ⟨hreads, ?_⟩
  have hnot := of_decide_eq_false hcond
  have hbehind := hreads.behind
  change ¬(0 < (findnextword b next).nwords ∧ (findnextword b next).nwordsread < next - 1) at hnot
  rw [BitVec.lt_def, hone] at hnot
  change (findnextword b next).nwordsread.toNat ≤ pos at hbehind
  omega

/-- A batch that is not at a run of ones gives a word. -/
theorem readWord_reads (hv : v.length < 2 ^ 32) (h : Reads pos v f b) (hat : b.nwordsread.toNat = pos)
    (hn : 0 < b.nwords) (hones : atOnes b = false) :
    Reads (pos + 1) v f (readWord b) ∧ pos < v.length ∧
      v.getD pos 0 = if b.curWordIsFill then literalAllZero else b.curWord := by
  have hcons := mem_cons hn
  have hvalid : Cell.Valid ⟨b.curWordIsFill, b.curWord⟩ := h.valid _ (by rw [hcons]; exact mem_cons_self)
  have hpos : 0 < b.words.length :=
    length_pos_of_ne_nil fun hnil => by have := (words_eq_nil_iff h.valid).mp hnil; omega
  have hlen := h.length_le (ne_nil_of_length_pos hpos)
  have hget : v.getD pos 0 = b.words.getD 0 0 := h.getD hat hpos
  refine ⟨?_, by omega, ?_⟩
  · unfold readWord
    split
    · rename_i hfill
      have hcell : (Cell.mk b.curWordIsFill b.curWord).words.length = fillLength b.curWord := by
        simp [Cell.words, hfill]
      split
      · rename_i hone
        refine h.pass_cell hv hn ?_ rfl (by omega)
        rw [hcell, hone]
        rfl
      · have : 1 ≤ fillLength b.curWord := hvalid hfill
        refine h.pass_part hv hn hfill (show 1 < fillLength b.curWord by omega) rfl rfl (by omega)
    · rename_i hfill
      have hcell : (Cell.mk b.curWordIsFill b.curWord).words.length = 1 := by
        simp [Cell.words, hfill]
      refine h.pass_cell hv hn ?_ rfl (by omega)
      rw [hcell]
      rfl
  · rw [hget, words, hcons, expand_cons]
    cases hfill : b.curWordIsFill with
    | false => rfl
    | true =>
      have hzero : fillBit b.curWord ≠ 1 := by
        intro h1
        rw [atOnes, hfill, h1] at hones
        exact absurd hones (by decide)
      obtain ⟨n, hn1⟩ : ∃ n, fillLength b.curWord = n + 1 :=
        ⟨fillLength b.curWord - 1, by have : 1 ≤ fillLength b.curWord := hvalid hfill; omega⟩
      simp only [Cell.words, if_true, if_neg hzero, hn1, replicate_succ, cons_append,
        getD_cons_zero]

/-- `_bitmap_resetWord` undoes the reading of a word. -/
theorem resetWord_readWord (hn : 0 < b.nwords) : resetWord (readWord b) b.startNo = b := by
  have hback : b.nwords - 1 + 1 = b.nwords := by omega
  have hread : b.nwordsread + 1 - 1 = b.nwordsread := BitVec.add_sub_cancel ..
  have hadv : resetWord {b.advance with nwordsread := b.nwordsread + 1} b.startNo = b := by
    simp only [resetWord, advance, Nat.lt_succ_self, if_true, hback, hread]
  unfold readWord
  split
  · split
    · exact hadv
    · have hw : b.curWord - 1 + 1 = b.curWord := BitVec.sub_add_cancel ..
      have hc : (fun i => if i = b.startNo then b.curWord else if i = b.startNo then b.curWord - 1 else b.cwords i) =
          b.cwords := by
        funext i
        split
        · rename_i hi
          rw [hi, curWord]
        · rfl
      simp only [resetWord, setCurWord, curWord, Nat.lt_irrefl, if_false, if_true, hread] at hw hc ⊢
      rw [hw, hc]
  · exact hadv

/-- A run of ones gives its length in words at once. -/
theorem onesRun_reads (hv : v.length < 2 ^ 32) (h : Reads pos v f b) (hat : b.nwordsread.toNat = pos)
    (hn : 0 < b.nwords) (hones : atOnes b = true) :
    1 ≤ fillLength b.curWord ∧ pos + fillLength b.curWord ≤ v.length ∧
      (∀ i < fillLength b.curWord, v.getD (pos + i) 0 = literalAllOne) ∧
      Reads (pos + fillLength b.curWord) v f
        {b.advance with nwordsread := b.nwordsread + ofNat 32 (fillLength b.curWord)} := by
  obtain ⟨hfill, hbit⟩ : b.curWordIsFill = true ∧ fillBit b.curWord = 1 := by
    simpa [atOnes] using hones
  have hcons := mem_cons hn
  have hvalid : 1 ≤ fillLength b.curWord :=
    h.valid ⟨b.curWordIsFill, b.curWord⟩ (by rw [hcons]; exact mem_cons_self) hfill
  have hcell : (Cell.mk b.curWordIsFill b.curWord).words = replicate (fillLength b.curWord) literalAllOne := by
    simp [Cell.words, hfill, hbit]
  have hwords : b.words = replicate (fillLength b.curWord) literalAllOne ++ b.advance.words := by
    rw [words, hcons, expand_cons, hcell]
    rfl
  have hlen : fillLength b.curWord ≤ b.words.length := by
    rw [hwords, length_append, length_replicate]
    omega
  have hle := h.length_le (ne_nil_of_length_pos (by omega))
  refine ⟨hvalid, by omega, ?_, h.pass_cell hv hn ?_ rfl ?_⟩
  · intro i hi
    rw [h.getD hat (by omega), hwords, getD_append _ _ _ _ (by rw [length_replicate]; exact hi),
      getD_replicate _ hi]
  · rw [hcell, length_replicate]
  · rw [hcell, length_replicate]
    omega

end

/-! ### One pass over the batches -/

/-- A vector and what of it has not been read from disk. -/
abbrev Stream := List Word × List Word

/-- The batches stand in their vectors, each at or before word `pos`. -/
def AllRead (pos : Nat) (ss : List Stream) (bs : List Batch) : Prop :=
  List.Forall₂ (fun s b => Reads pos s.1 s.2 b) ss bs

/-- The OR of the vectors. -/
def orStreams (ss : List Stream) : List Word := orAll (ss.map (·.1))

variable {pos : Nat} {ss : List Stream} {r : Batch}

theorem AllRead.mono {pos' : Nat} {bs : List Batch} (h : AllRead pos ss bs)
    (hle : pos ≤ pos') : AllRead pos' ss bs :=
  List.Forall₂.imp (fun _ _ hr => hr.mono hle) h

theorem orStreams_getD (s : Stream) (ss : List Stream) (i : Nat) :
    (orStreams (s :: ss)).getD i 0 = s.1.getD i 0 ||| (orStreams ss).getD i 0 :=
  orWords_getD ..

theorem orStreams_length (s : Stream) (ss : List Stream) :
    (orStreams (s :: ss)).length = max s.1.length (orStreams ss).length :=
  orWords_length ..

/-- What a pass at word `pos` gives. -/
def PassSpec (pos : Nat) (ss : List Stream) (orWord : Word) : WordPass → Prop
  | .exhausted bs => AllRead pos ss bs
  | .literal w bs =>
    w = orWord ||| (orStreams ss).getD pos 0 ∧ (∀ s ∈ ss, pos < s.1.length) ∧ AllRead (pos + 1) ss bs
  | .ones w next _ bs => ∃ len, 1 ≤ len ∧ len < 2 ^ 15 ∧ w = makeFillWord 1 len ∧ next.toNat = pos + len + 1 ∧
      pos + len ≤ (orStreams ss).length ∧ (∀ i < len, (orStreams ss).getD (pos + i) 0 = literalAllOne) ∧
      AllRead (pos + len) ss bs

theorem allOne_or (w : Word) : literalAllOne ||| w = literalAllOne := BitVec.allOnes_or

theorem or_allOne (w : Word) : w ||| literalAllOne = literalAllOne := BitVec.or_allOnes

theorem unionWord_spec {next : BitVec 32} (hnext : next.toNat = pos + 1)
    {bs : List Batch} (hsize : ∀ s ∈ ss, s.1.length < 2 ^ 32 - 1) (h : AllRead pos ss bs) (orWord : Word) :
    PassSpec pos ss orWord (unionWord next orWord bs) := by
  induction h generalizing orWord with
  | nil => exact ⟨by simp [orStreams, orAll], by simp, .nil⟩
  | @cons s b ss bs hb hbs ih =>
    have hv : s.1.length < 2 ^ 32 - 1 := hsize s mem_cons_self
    obtain ⟨hb', hend⟩ := findnextword_reads hnext (by omega) hb
    replace ih := ih fun s hs => hsize s (mem_cons_of_mem _ hs)
    simp only [unionWord]
    generalize findnextword b next = c at hb' hend ⊢
    split
    · exact .cons hb' hbs
    · rename_i hn
      have hat : c.nwordsread.toNat = pos := hend.resolve_left hn
      replace hn : 0 < c.nwords := Nat.pos_of_ne_zero hn
      split
      · rename_i hones
        obtain ⟨hlen, hle, hget, hreads⟩ := onesRun_reads (by omega) hb' hat hn hones
        have hread : (c.nwordsread + ofNat 32 (fillLength c.curWord)).toNat =
            pos + fillLength c.curWord := by
          rw [toNat_add, toNat_ofNat]
          omega
        refine ⟨fillLength c.curWord, hlen, fillLength_lt _, ?_, ?_, ?_, ?_, .cons hreads (AllRead.mono hbs (by omega))⟩
        · congr 1
          have hone : (1 : BitVec 32).toNat = 1 := rfl
          rw [toNat_add, toNat_sub, hread, hnext, hone]
          omega
        · have hone : (1 : BitVec 32).toNat = 1 := rfl
          rw [toNat_add, hread, hone]
          omega
        · rw [orStreams_length]
          omega
        · intro i hi
          rw [orStreams_getD, hget i hi, allOne_or]
      · rename_i hones
        obtain ⟨hreads, hlt, hget⟩ := readWord_reads (by omega) hb' hat hn (by simpa using hones)
        have hor (x : Word) : (if c.curWordIsFill then orWord else orWord ||| c.curWord) ||| x =
            orWord ||| (s.1.getD pos 0 ||| x) := by
          rw [hget]
          cases c.curWordIsFill with
          | true => exact congrArg (orWord ||| ·) (zero_or).symm
          | false => exact BitVec.or_assoc ..
        have hrest := ih (if c.curWordIsFill then orWord else orWord ||| c.curWord)
        generalize unionWord next _ bs = pass at hrest
        cases pass with
        | exhausted bs' =>
          refine .cons ?_ hrest
          rw [resetWord_readWord hn]
          exact hb'
        | literal w bs' =>
          obtain ⟨hw, hall, hbs'⟩ := hrest
          refine ⟨?_, ?_, .cons hreads hbs'⟩
          · rw [hw, hor, orStreams_getD]
          · intro t ht
            rcases mem_cons.mp ht with rfl | ht
            · exact hlt
            · exact hall t ht
        | ones w next' last bs' =>
          obtain ⟨len, hlen, hlt', hw, hnext', hle, hget', hbs'⟩ := hrest
          refine ⟨len, hlen, hlt', hw, hnext', ?_, ?_, .cons (hreads.mono (by omega)) hbs'⟩
          · rw [orStreams_length]
            omega
          · intro i hi
            rw [orStreams_getD, hget' i hi, or_allOne]

/-- A batch runs out before any batch gives a run of ones. -/
def stuck (next : BitVec 32) : List Batch → Bool
  | [] => false
  | b :: bs =>
    let b := findnextword b next
    b.nwords == 0 || (!atOnes b && stuck next bs)

theorem unionWord_exhausted_iff (next : BitVec 32) (bs : List Batch) (orWord : Word) :
    (∃ bs', unionWord next orWord bs = .exhausted bs') ↔ stuck next bs = true := by
  induction bs generalizing orWord with
  | nil => simp [unionWord, stuck]
  | cons b bs ih =>
    simp only [unionWord, stuck]
    generalize findnextword b next = c
    split
    · rename_i hn
      simp [hn]
    · rename_i hn
      split
      · rename_i hones
        simp [hn, hones]
      · rename_i hones
        rw [Bool.not_eq_true] at hones
        have hbeq : (c.nwords == 0) = false := beq_eq_false_iff_ne.mpr hn
        rw [hbeq, hones, Bool.not_false, Bool.true_and, Bool.false_or,
          ← ih (if c.curWordIsFill then orWord else orWord ||| c.curWord)]
        generalize unionWord next _ bs = pass
        cases pass <;> simp

/-- A result under construction: its words start at 0, and header bits past its
words are clear. -/
structure Fresh (r : Batch) : Prop where
  start : r.startNo = 0
  valid : ∀ c ∈ r.mem, c.Valid
  clear : ∀ n, r.nwords ≤ n → isFillWord r.hwords n = false

theorem fresh_reset (r : Batch) : Fresh (resetBatchwords r) := by
  refine ⟨rfl, ?_, ?_⟩
  · intro c hc
    simp [resetBatchwords, mem, cells] at hc
  · intro n _
    rw [isFillWord_eq]
    exact BitVec.getLsbD_zero

theorem Fresh.mem_putWord (h : Fresh r) (fill : Bool) (w : Word) :
    (putWord r fill w).mem = r.mem ++ [⟨fill, w⟩] := by
  have hstart : (putWord r fill w).startNo = 0 := h.start
  rw [mem, mem, h.start, hstart]
  exact cells_snoc (h.clear r.nwords (Nat.le_refl _)) fill w

theorem Fresh.putWord (h : Fresh r) {fill : Bool} {w : Word} (hw : Cell.Valid ⟨fill, w⟩) :
    Fresh (putWord r fill w) := by
  refine ⟨h.start, ?_, ?_⟩
  · intro c hc
    rw [h.mem_putWord, mem_append, mem_singleton] at hc
    rcases hc with hc | rfl
    · exact h.valid c hc
    · exact hw
  · intro n hn
    have hn' : r.nwords + 1 ≤ n := hn
    show isFillWord (fun i => if i = r.nwords / 16 ∧ fill = true then _ else _) n = false
    rw [isFillWord_set, h.clear n (by omega), show decide (n = r.nwords) = false from decide_eq_false (by omega)]
    rfl

/-- The loop of the union, started at word `start` with an empty result `r`: the words
of the result are the next words of the OR of the vectors. -/
structure UnionInv (ss : List Stream) (start : Nat) (r : Batch) (s : UnionState) : Prop where
  fresh : Fresh s.result
  firstTid : s.result.firstTid = r.firstTid
  space : s.result.maxNumOfWords = r.maxNumOfWords
  next : s.nextReadNo.toNat = start + s.result.words.length + 1
  reads : AllRead (start + s.result.words.length) ss s.batches
  words : s.result.words ++ (orStreams ss).drop (start + s.result.words.length) = (orStreams ss).drop start

theorem orStreams_drop_run {w : Word} (len : Nat) (hle : pos + len ≤ (orStreams ss).length)
    (hget : ∀ i < len, (orStreams ss).getD (pos + i) 0 = w) :
    (orStreams ss).drop pos = replicate len w ++ (orStreams ss).drop (pos + len) := by
  induction len generalizing pos with
  | zero => rfl
  | succ len ih =>
    have hlt : pos < (orStreams ss).length := by omega
    have hhead : (orStreams ss)[pos] = w := by
      rw [← hget 0 (by omega), Nat.add_zero, getD_eq_getElem _ _ hlt]
    have hnext (i : Nat) (hi : i < len) : (orStreams ss).getD (pos + 1 + i) 0 = w := by
      rw [← hget (i + 1) (by omega)]
      congr 1
      omega
    rw [drop_eq_getElem_cons hlt, hhead, ih (by omega) hnext, replicate_succ, cons_append]
    congr 3
    omega

/-- Appending a cell that holds the next words. -/
theorem UnionInv.put {start : Nat} {s : UnionState} (h : UnionInv ss start r s)
    {c : Cell} (hc : c.Valid) {next : BitVec 32} {bs : List Batch} {done : Bool}
    (hnext : next.toNat = start + s.result.words.length + c.words.length + 1)
    (hreads : AllRead (start + s.result.words.length + c.words.length) ss bs)
    (hrun : (orStreams ss).drop (start + s.result.words.length) =
      c.words ++ (orStreams ss).drop (start + s.result.words.length + c.words.length)) :
    UnionInv ss start r {done, nextReadNo := next, batches := bs, result := putWord s.result c.fill c.word} := by
  have hwords : (putWord s.result c.fill c.word).words = s.result.words ++ c.words := by
    rw [Batch.words, h.fresh.mem_putWord, expand_append, expand_cons, expand_nil, append_nil]
    rfl
  refine ⟨h.fresh.putWord hc, h.firstTid, h.space, ?_, ?_, ?_⟩ <;>
    simp only [hwords, length_append, ← Nat.add_assoc]
  · exact hnext
  · exact hreads
  · rw [append_assoc, ← hrun, h.words]

theorem unionPass_inv (hne : ss ≠ []) (hsize : ∀ s ∈ ss, s.1.length < 2 ^ 32 - 1)
    {start : Nat} {s : UnionState} (h : UnionInv ss start r s) :
    UnionInv ss start r (unionPass s) := by
  have hpass := unionWord_spec h.next hsize h.reads literalAllZero
  unfold unionPass
  cases hu : unionWord s.nextReadNo literalAllZero s.batches with
  | exhausted bs =>
    rw [hu] at hpass
    exact ⟨h.fresh, h.firstTid, h.space, h.next, hpass, h.words⟩
  | literal w bs =>
    rw [hu] at hpass
    obtain ⟨hw, hall, hreads'⟩ := hpass
    obtain ⟨t, ts, rfl⟩ := exists_cons_of_ne_nil hne
    have ht := hall t mem_cons_self
    have hts := hsize t mem_cons_self
    have hlen := orStreams_length t ts
    have hone : (1 : BitVec 32).toNat = 1 := rfl
    have hw' : w = (orStreams (t :: ts)).getD (start + s.result.words.length) 0 := hw.trans zero_or
    refine h.put (Cell.valid_literal w) ?_ hreads' (orStreams_drop_run (w := w) 1 (by omega) ?_)
    · show (s.nextReadNo + 1).toNat = _ + 1 + 1
      rw [toNat_add, h.next, hone]
      omega
    · intro i hi
      rw [hw', show i = 0 by omega, Nat.add_zero]
  | ones w next last bs =>
    rw [hu] at hpass
    obtain ⟨len, hlen, hlt, hw, hnext', hle, hget, hreads'⟩ := hpass
    obtain ⟨hfl, hfb⟩ := makeFillWord_one hlt
    have hrun : (Cell.mk true w).words = replicate len literalAllOne := by
      simp only [Cell.words, if_true, hw, hfl, hfb]
    have hrlen : (Cell.mk true w).words.length = len := by rw [hrun, length_replicate]
    refine h.put (c := ⟨true, w⟩) (fun _ => by rw [hw, hfl]; exact hlen) ?_ ?_ ?_
    · rw [hrlen]
      exact hnext'
    · rw [hrlen]
      exact hreads'
    · rw [hrlen, hrun]
      exact orStreams_drop_run len hle hget

/-- A pass that is not stuck adds a word; a pass that is stuck is the last. -/
theorem unionPass_stuck (s : UnionState) :
    (stuck s.nextReadNo s.batches = true → (unionPass s).done = true ∧ (unionPass s).result = s.result) ∧
      (stuck s.nextReadNo s.batches = false → (unionPass s).result.nwords = s.result.nwords + 1) := by
  have hiff := unionWord_exhausted_iff s.nextReadNo s.batches literalAllZero
  unfold unionPass
  cases hu : unionWord s.nextReadNo literalAllZero s.batches with
  | exhausted bs => simp [← hiff, hu]
  | literal w bs | ones w next last bs =>
    rw [hu] at hiff
    exact ⟨fun hs => by simpa using hiff.mpr hs, fun _ => rfl⟩

/-- What a union that starts at word `pos` comes to. -/
structure UnionSpec (ss : List Stream) (pos : Nat) (r : Batch) (bs' : List Batch) (r' : Batch) : Prop where
  fresh : Fresh r'
  firstTid : r'.firstTid = r.firstTid
  space : r'.maxNumOfWords = r.maxNumOfWords
  next : ∀ b ∈ bs', b.nextread.toNat = pos + r'.words.length + 1
  reads : AllRead (pos + r'.words.length) ss bs'
  words : r'.words ++ (orStreams ss).drop (pos + r'.words.length) = (orStreams ss).drop pos

/-- The state a union starts in. -/
def unionStart (b : Batch) (bs : List Batch) (r : Batch) : UnionState :=
  {done := false, nextReadNo := b.nextread, batches := b :: bs, result := r}

/-- The loop condition of `_bitmap_union`. -/
def unionGoesOn (s : UnionState) : Bool := !s.done && decide (s.result.nwords < s.result.maxNumOfWords)

theorem union_eq (b : Batch) (bs : List Batch) (r : Batch) :
    union (b :: bs) r =
      (let s := Loop.whileN unionGoesOn unionPass (r.maxNumOfWords + 1) (unionStart b bs r)
       (s.batches.map fun b => {b with nextread := s.nextReadNo}, s.result)) := rfl

theorem UnionInv.start {b : Batch} {bs : List Batch} (hnext : b.nextread.toNat = pos + 1)
    (hreads : AllRead pos ss (b :: bs)) (hfresh : Fresh r) (hn : r.nwords = 0) :
    UnionInv ss pos r (unionStart b bs r) := by
  have hrnil : (unionStart b bs r).result.words = [] := (words_eq_nil_iff hfresh.valid).mpr hn
  refine ⟨hfresh, rfl, rfl, ?_, ?_, ?_⟩ <;> simp only [hrnil, length_nil, Nat.add_zero]
  · exact hnext
  · exact hreads
  · rfl

theorem UnionInv.finish {s : UnionState} (h : UnionInv ss pos r s) :
    UnionSpec ss pos r (s.batches.map fun b => {b with nextread := s.nextReadNo}) s.result := by
  refine ⟨h.fresh, h.firstTid, h.space, ?_, ?_, h.words⟩
  · intro c hc
    obtain ⟨c', _, rfl⟩ := mem_map.mp hc
    exact h.next
  · refine forall₂_map_right_iff.mpr (h.reads.imp ?_)
    intro t c hc
    exact ⟨hc.valid, hc.rest, hc.behind⟩

/-- **The union.** From word `pos` on it computes words of the OR of all vectors. -/
theorem union_spec (hsize : ∀ s ∈ ss, s.1.length < 2 ^ 32 - 1) {b : Batch}
    {bs : List Batch} (hnext : b.nextread.toNat = pos + 1) (hreads : AllRead pos ss (b :: bs))
    (hfresh : Fresh r) (hn : r.nwords = 0) : UnionSpec ss pos r (union (b :: bs) r).1 (union (b :: bs) r).2 := by
  have hne : ss ≠ [] := by
    rintro rfl
    cases hreads
  rw [union_eq]
  exact (Loop.whileN_induction (UnionInv ss pos r) (fun _ hs _ => unionPass_inv hne hsize hs) _
    (.start hnext hreads hfresh hn) _).finish

/-- With space in the result it gives no words exactly when the batches are stuck. -/
theorem union_nwords_iff (b : Batch) (bs : List Batch) (hn : r.nwords = 0) (hspace : 0 < r.maxNumOfWords) :
    (union (b :: bs) r).2.nwords = 0 ↔ stuck b.nextread (b :: bs) = true := by
  obtain ⟨hstuck, hfree⟩ := unionPass_stuck (unionStart b bs r)
  have hgoes : unionGoesOn (unionStart b bs r) = true := by simp [unionGoesOn, unionStart, hn, hspace]
  -- the first pass decides whether there is a word at all; later passes only add
  let Inv (s : UnionState) : Prop :=
    (unionPass (unionStart b bs r)).result.nwords ≤ s.result.nwords ∧
      ((unionPass (unionStart b bs r)).done = true → s = unionPass (unionStart b bs r))
  have hlast : Inv (Loop.whileN unionGoesOn unionPass r.maxNumOfWords (unionPass (unionStart b bs r))) := by
    refine Loop.whileN_induction Inv ?_ _ ⟨Nat.le_refl _, fun _ => rfl⟩ _
    rintro s ⟨hge, hdone⟩ hc
    constructor
    · obtain ⟨h1, h2⟩ := unionPass_stuck s
      cases hst : stuck s.nextReadNo s.batches with
      | true => rw [(h1 hst).2]; exact hge
      | false => rw [h2 hst]; omega
    · intro hd
      rw [hdone hd] at hc
      simp [unionGoesOn, hd] at hc
  rw [union_eq, Loop.whileN, if_pos hgoes]
  dsimp only
  generalize Loop.whileN unionGoesOn unionPass r.maxNumOfWords (unionPass (unionStart b bs r)) = s at hlast
  obtain ⟨hge, hdone⟩ := hlast
  change stuck b.nextread (b :: bs) = true → _ at hstuck
  change stuck b.nextread (b :: bs) = false → _ at hfree
  cases hst : stuck b.nextread (b :: bs) with
  | true =>
    obtain ⟨hd, hres⟩ := hstuck hst
    rw [hdone hd, hres]
    simpa [unionStart] using hn
  | false =>
    have h1 := hfree hst
    simp only [Bool.false_eq_true, iff_false]
    omega

end PgStorage.Hrl
