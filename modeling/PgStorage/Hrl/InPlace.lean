import PgStorage.Hrl.InPage

/-! `updatesetbit` on the two words of the LOV item.

A bit of the last word is set in place. A bit of the last complete word is set in place in a literal, where a literal
of length one in the sense of a fill is cleared first, and in a fill of length one, which is cleared and becomes a
literal. A longer fill is not split: the test of the last word's flag sends its bits to the search of the pages, which
end before. -/
namespace PgStorage.Hrl
open List
open BitVec (toNat_umod toNat_sub lt_def zero_or)

/-- The last complete word, when there is one. -/
def compCells (item : LovItem) : List Cell :=
  if item.lastCompword ≠ literalAllOne then [⟨lastCompwordIsFill item, item.lastCompword⟩] else []

theorem lovCells_eq (item : LovItem) : lovCells item = compCells item ++ [⟨lastwordIsFill item, item.lastWord⟩] := by
  unfold lovCells compCells
  split <;> rfl

/-- A vector with its LOV item as insertions leave them: the last word is incomplete and no fill, and the item's
location is the number of bits in front of it. -/
structure Located (idx : Index) (lov : Nat × Nat) (blocks : List Nat) : Prop where
  paged : Paged idx (idx.lov lov).lovHead blocks
  header : (idx.lov lov).wordsHeader = lovWordsNoFill ∨ (idx.lov lov).wordsHeader = lastCompwordBit
  valid : ∀ c ∈ lovCells (idx.lov lov), c.Valid
  place : (idx.lov lov).lastTidLocation.toNat =
    16 * ((chainWords idx.page blocks).length + (expand (compCells (idx.lov lov))).length)

/-- The bit is behind the pages, in one of the two words of the LOV item. -/
def InLovWords (idx : Index) (lov : Nat × Nat) (blocks : List Nat) (t : Nat) : Prop :=
  16 * (chainWords idx.page blocks).length < t ∧
    t ≤ 16 * ((chainWords idx.page blocks).length + (expand (compCells (idx.lov lov))).length + 1)

/-- `updatesetbit` gives a vector with the bits of the old one and this one. -/
def SetsBit (rel : Relation) (lov : Nat × Nat) (blocks : List Nat) (tidnum : BitVec 64) : Prop :=
  ∃ rel' blocks', updatesetbit rel lov tidnum = some rel' ∧ Chain rel'.page (rel'.lov lov).lovHead blocks' ∧
    ∀ p, 1 ≤ p → bitAt (vectorWords rel'.toIndex blocks' (rel'.lov lov)) p =
      (bitAt (vectorWords rel.toIndex blocks (rel.lov lov)) p || decide (p = tidnum.toNat))

/-- The bit of a tid in its word. -/
def tidBit (tidnum : BitVec 64) : Word := (1 : Word) <<< ((tidnum - 1) % 16).toNat

/-- When the bit gets to its place: it is in the last word; or in a literal that does not look like a fill of length
one unless it is the bit itself, and that does not become all ones; or in a fill of one word of zeros. -/
def SetInPlace (item : LovItem) (tidnum : BitVec 64) : Prop :=
  item.lastTidLocation < tidnum ∨
    if lastCompwordIsFill item then fillLength item.lastCompword = 1 ∧ fillBit item.lastCompword = 0
    else (fillLength item.lastCompword = 1 → item.lastCompword = tidBit tidnum) ∧
      item.lastCompword ||| tidBit tidnum ≠ literalAllOne

instance (idx : Index) (lov : Nat × Nat) (blocks : List Nat) (t : Nat) : Decidable (InLovWords idx lov blocks t) :=
  inferInstanceAs (Decidable (_ ∧ _))

instance (item : LovItem) (tidnum : BitVec 64) : Decidable (SetInPlace item tidnum) :=
  inferInstanceAs (Decidable (_ ∨ ite _ _ _))

/-- Word lists with the same bits. -/
theorem getD_eq_of_bitAt {xs ys : List Word} (h : ∀ p, 1 ≤ p → bitAt xs p = bitAt ys p) (i : Nat) :
    xs.getD i 0 = ys.getD i 0 := by
  apply BitVec.eq_of_getLsbD_eq
  intro j hj
  have hbit := h (16 * i + j + 1) (Nat.le_add_left ..)
  rw [bitAt, bitAt, show (16 * i + j + 1 - 1) / 16 = i by omega, show (16 * i + j + 1 - 1) % 16 = j by omega] at hbit
  exact hbit

theorem tidBit_eq {tidnum : BitVec 64} (hpos : 1 ≤ tidnum.toNat) :
    tidBit tidnum = (1 : Word) <<< ((tidnum.toNat - 1) % 16) := by
  have h1 : (1 : BitVec 64).toNat = 1 := rfl
  have h16 : (16 : BitVec 64).toNat = 16 := rfl
  have hlt := tidnum.isLt
  rw [tidBit, toNat_umod, toNat_sub, h1, h16]
  congr 2
  omega

theorem getD_append_length (xs : List Word) (w : Word) (ys : List Word) : (xs ++ w :: ys).getD xs.length 0 = w := by
  rw [getD_eq_getElem?_getD, getElem?_append_right (le_refl _), Nat.sub_self]
  rfl

theorem getD_append_succ (xs : List Word) (w : Word) (ys : List Word) :
    (xs ++ w :: ys).getD (xs.length + 1) 0 = ys.getD 0 0 := by
  rw [getD_eq_getElem?_getD, getElem?_append_right (Nat.le_add_right _ 1), Nat.add_sub_cancel_left]
  rfl

theorem tidBit_cases (tidnum : BitVec 64) :
    tidBit tidnum ≠ literalAllOne ∧ tidBit tidnum ≠ 0 ∧ ∀ c : Word, fillLength c = 1 → c ||| tidBit tidnum =
      tidBit tidnum → c = tidBit tidnum := by
  have hlt : ((tidnum - 1) % 16).toNat < 16 := by
    rw [toNat_umod]
    exact Nat.mod_lt _ (by decide)
  have hones : ∀ k < 16, (1 : Word) <<< k ≠ literalAllOne := by decide
  have hzero : ∀ k < 16, (1 : Word) <<< k ≠ 0 := by decide
  have hone : ∀ k < 16, (1 : Word) ||| (1 : Word) <<< k = (1 : Word) <<< k → (1 : Word) = (1 : Word) <<< k := by decide
  have htwo : ∀ k < 16, (0x8001 : Word) ||| (1 : Word) <<< k ≠ (1 : Word) <<< k := by decide
  refine ⟨hones _ hlt, hzero _ hlt, fun c hc hor => ?_⟩
  rw [fillLength_eq] at hc
  have hcases : c.toNat = (1 : Word).toNat ∨ c.toNat = (0x8001 : Word).toNat := by
    show c.toNat = 1 ∨ c.toNat = 0x8001
    omega
  rcases hcases with hc | hc
  · rw [BitVec.eq_of_toNat_eq hc] at hor ⊢
    exact hone _ hlt hor
  · rw [BitVec.eq_of_toNat_eq hc] at hor
    exact absurd hor (htwo _ hlt)

section
variable {rel : Relation} {lov : Nat × Nat} {blocks : List Nat} {tidnum : BitVec 64}

/-! ### The item after the update -/

theorem vectorWords_eq (idx : Index) (blocks : List Nat) (item : LovItem) :
    vectorWords idx blocks item = chainWords idx.page blocks ++ expand (compCells item) ++
      (Cell.mk (lastwordIsFill item) item.lastWord).words := by
  rw [vectorWords, vectorCells, lovCells_eq, expand_append, expand_append, expand_cons, expand_nil, append_nil,
    append_assoc]
  rfl

/-- An update of the item only. -/
theorem setsBit_item_iff (h : Located rel.toIndex lov blocks) {item : LovItem}
    (hhead : item.lovHead = (rel.lov lov).lovHead)
    (hrun : updatesetbit rel lov tidnum = some (logBitmapLastwords (rel.setLov lov item) lov item)) :
    SetsBit rel lov blocks tidnum ↔ ∀ p, 1 ≤ p → bitAt (vectorWords rel.toIndex blocks item) p =
      (bitAt (vectorWords rel.toIndex blocks (rel.lov lov)) p || decide (p = tidnum.toNat)) := by
  have hidx : (logBitmapLastwords (rel.setLov lov item) lov item).toIndex = (rel.setLov lov item).toIndex :=
    Relation.log_toIndex ..
  have hpage : (logBitmapLastwords (rel.setLov lov item) lov item).page = rel.page :=
    (congrArg Index.page hidx).trans rfl
  have hitem : (logBitmapLastwords (rel.setLov lov item) lov item).lov lov = item := by
    rw [show (logBitmapLastwords (rel.setLov lov item) lov item).lov =
      (rel.setLov lov item).lov from congrArg Index.lov hidx]
    exact Relation.setLov_lov_self ..
  have hwords (bs : List Nat) : vectorWords (logBitmapLastwords (rel.setLov lov item) lov item).toIndex bs item =
      vectorWords rel.toIndex bs item := by
    rw [vectorWords_eq, vectorWords_eq, hpage]
  constructor
  · rintro ⟨rel', blocks', hrel, hchain, hbits⟩
    rw [hrun, Option.some.injEq] at hrel
    subst hrel
    rw [hpage, hitem, hhead] at hchain
    rw [hitem, hwords, ← h.paged.chain.unique hchain] at hbits
    exact hbits
  · intro hbits
    refine ⟨_, blocks, hrun, ?_, fun p hp => ?_⟩
    · rw [hpage, hitem, hhead]
      exact h.paged.chain
    · rw [hitem, hwords]
      exact hbits p hp

/-- The item after an update of the last complete word. -/
def setComp (item : LovItem) (tidnum : BitVec 64) : LovItem :=
  {item with
    lastCompword := (if fillLength item.lastCompword = 1 then 0 else item.lastCompword) ||| tidBit tidnum
    wordsHeader := lovWordsNoFill}

/-- The words of a vector whose last complete word is one word. -/
theorem setsBit_comp_iff (h : Located rel.toIndex lov blocks) {u : Word}
    (hcomp : expand (compCells (rel.lov lov)) = [u])
    (hlow : 16 * (chainWords rel.page blocks).length < tidnum.toNat)
    (hhigh : tidnum.toNat ≤ 16 * ((chainWords rel.page blocks).length + 1))
    (hrun : updatesetbit rel lov tidnum = some (logBitmapLastwords (rel.setLov lov (setComp (rel.lov lov) tidnum)) lov
      (setComp (rel.lov lov) tidnum))) :
    SetsBit rel lov blocks tidnum ↔ (setComp (rel.lov lov) tidnum).lastCompword ≠ literalAllOne ∧
      (setComp (rel.lov lov) tidnum).lastCompword = u ||| tidBit tidnum := by
  obtain ⟨item, hitem⟩ : ∃ item, item = setComp (rel.lov lov) tidnum := ⟨_, rfl⟩
  have hhead : item.lovHead = (rel.lov lov).lovHead := by rw [hitem]; rfl
  have hheader : item.wordsHeader = lovWordsNoFill := by rw [hitem]; rfl
  have hlast : item.lastWord = (rel.lov lov).lastWord := by rw [hitem]; rfl
  rw [← hitem] at hrun ⊢
  generalize hword : item.lastCompword = w
  have hfill : lastCompwordIsFill item = false := by rw [lastCompwordIsFill, hheader]; rfl
  have hwords : (Cell.mk (lastwordIsFill item) item.lastWord).words = [item.lastWord] := by
    rw [lastwordIsFill, hheader]
    rfl
  have hwords' : (Cell.mk (lastwordIsFill (rel.lov lov)) (rel.lov lov).lastWord).words = [item.lastWord] := by
    rw [hlast, lastwordIsFill]
    obtain hh | hh := h.header <;> rw [hh] <;> rfl
  have hset : setBit (chainWords rel.page blocks ++ [u] ++ [item.lastWord]) tidnum.toNat =
      chainWords rel.page blocks ++ [u ||| tidBit tidnum] ++ [item.lastWord] := by
    have happ : setBit (chainWords rel.page blocks ++ [u] ++ [item.lastWord]) tidnum.toNat = _ :=
      setBit_append hlow hhigh
    rw [happ, setBit_literal u hlow hhigh, tidBit_eq (by omega)]
  have hbits (p : Nat) (hp : 1 ≤ p) : (bitAt (vectorWords rel.toIndex blocks (rel.lov lov)) p ||
      decide (p = tidnum.toNat)) = bitAt (chainWords rel.page blocks ++ [u ||| tidBit tidnum] ++ [item.lastWord])
        p := by
    rw [← hset, bitAt_setBit (by omega) (by simp only [length_append, length_singleton]; omega) hp,
      vectorWords_eq,
      hcomp, hwords']
  rw [setsBit_item_iff h hhead hrun, vectorWords_eq, hwords, compCells, hword, hfill]
  constructor
  · intro hall
    have hsame := getD_eq_of_bitAt fun p hp => (hall p hp).trans (hbits p hp)
    have hfirst := hsame (chainWords rel.page blocks).length
    have hsecond := hsame ((chainWords rel.page blocks).length + 1)
    rw [append_assoc, append_assoc, singleton_append, getD_append_length] at hfirst
    rw [append_assoc, append_assoc, singleton_append, getD_append_succ] at hsecond
    by_cases hones : w = literalAllOne
    · -- the word is taken for one that is not there, and the last word for this one
      rw [hones, if_neg (by decide), expand_nil, nil_append] at hfirst hsecond
      rw [getD_append_length] at hfirst
      have hend : (chainWords rel.page blocks ++ [item.lastWord]).getD ((chainWords rel.page blocks).length + 1) 0 =
        0 :=
        getD_append_succ ..
      have hnone : u ||| tidBit tidnum = 0 := hfirst.symm.trans (hsecond.symm.trans hend)
      exact absurd (BitVec.or_eq_zero_iff.mp hnone).2 (tidBit_cases tidnum).2.1
    · rw [if_pos hones, expand_cons, expand_nil, append_nil] at hfirst
      refine ⟨hones, (getD_append_length ..).symm.trans hfirst⟩
  · rintro ⟨hones, rfl⟩ p hp
    rw [if_pos hones, hbits p hp, expand_cons, expand_nil]
    rfl

/-- A bit behind the pages is in no page. -/
theorem findbitmappageFrom_none {head : Nat} (hchain : Chain rel.page head blocks) {n : Nat}
    (hends : EndsFrom rel.page n blocks) (hlow : 16 * (n + (chainWords rel.page blocks).length) < tidnum.toNat)
      (fuel : Nat)
    (first : BitVec 64) : findbitmappageFrom rel tidnum fuel head first = none := by
  induction hchain generalizing n fuel first with
  | done =>
    cases fuel with
    | zero => rfl
    | succ fuel => exact if_pos rfl
  | @page b bs hne hrest ih =>
    cases fuel with
    | zero => rfl
    | succ fuel =>
      obtain ⟨hend, hends⟩ := hends
      rw [chainWords_cons, length_append] at hlow
      rw [findbitmappageFrom, if_neg hne, if_neg]
      · exact ih hends (by omega) fuel _
      · rw [BitVec.le_def, hend]
        omega

section
variable (h : Located rel.toIndex lov blocks) (hin : InLovWords rel.toIndex lov blocks tidnum.toNat)
include h hin

theorem lastWord_set
    (hlast : (rel.lov lov).lastTidLocation < tidnum) : SetsBit rel lov blocks tidnum := by
  obtain ⟨item, hitem⟩ : ∃ item, item = {rel.lov lov with lastWord := (rel.lov lov).lastWord ||| tidBit tidnum} :=
    ⟨_, rfl⟩
  have hrun : updatesetbit rel lov tidnum = some (logBitmapLastwords (rel.setLov lov item) lov item) := by
    rw [hitem]
    exact if_pos hlast
  have hlit (w : Word) : (Cell.mk (lastwordIsFill (rel.lov lov)) w).words = [w] := by
    rw [lastwordIsFill]
    obtain hh | hh := h.header <;> rw [hh] <;> rfl
  obtain ⟨-, hhigh⟩ := hin
  rw [lt_def, h.place, ← length_append] at hlast
  rw [← length_append] at hhigh
  have happ : setBit (chainWords rel.page blocks ++ expand (compCells (rel.lov lov)) ++ [(rel.lov lov).lastWord] ++ [])
    tidnum.toNat = _ := setBit_append hlast hhigh
  rw [setBit_literal _ hlast hhigh, ← tidBit_eq (by omega), append_nil, append_nil] at happ
  refine (setsBit_item_iff h (by rw [hitem]) hrun).mpr fun p hp => ?_
  have hnew : vectorWords rel.toIndex blocks item = chainWords rel.page blocks ++ expand (compCells (rel.lov lov)) ++
      [(rel.lov lov).lastWord ||| tidBit tidnum] := by
    rw [vectorWords_eq, hitem]
    exact congrArg (_ ++ ·) (hlit _)
  rw [hnew, ← happ, vectorWords_eq, hlit, bitAt_setBit (by omega) ?_ hp]
  rw [length_append, length_singleton]
  exact hhigh

/-- A bit of the last complete word: the word is there, and it starts where the pages end. -/
theorem Located.comp
    (hlast : ¬(rel.lov lov).lastTidLocation < tidnum) :
    compCells (rel.lov lov) = [⟨lastCompwordIsFill (rel.lov lov), (rel.lov lov).lastCompword⟩] ∧
      (rel.lov lov).lastTidLocation - wordBits (lastCompwordIsFill (rel.lov lov)) (rel.lov lov).lastCompword < tidnum ∧
      tidnum.toNat ≤ 16 * ((chainWords rel.page blocks).length + (expand (compCells (rel.lov lov))).length) := by
  have hplace := h.place
  have hlow := hin.1
  rw [lt_def, hplace] at hlast
  have hcomp : compCells (rel.lov lov) = [⟨lastCompwordIsFill (rel.lov lov), (rel.lov lov).lastCompword⟩] := by
    unfold compCells
    split
    · rfl
    · next hnone =>
      rw [compCells, if_neg hnone, expand_nil, length_nil] at hlast
      omega
  refine ⟨hcomp, ?_, by omega⟩
  rw [hcomp, expand_cons, expand_nil, append_nil] at hplace
  have hlt := (rel.lov lov).lastTidLocation.isLt
  rw [lt_def, wordBits_eq, toNat_sub, BitVec.toNat_ofNat, hplace]
  omega

theorem Located.setComp
    (hlast : ¬(rel.lov lov).lastTidLocation < tidnum)
    (hshort : (rel.lov lov).wordsHeader = lovWordsNoFill ∨ fillLength (rel.lov lov).lastCompword = 1) :
    updatesetbit rel lov tidnum = some (logBitmapLastwords (rel.setLov lov (setComp (rel.lov lov) tidnum)) lov
      (setComp (rel.lov lov) tidnum)) :=
  (if_neg hlast).trans (if_pos ⟨(h.comp hin hlast).2.1, hshort⟩)

/-- A fill of more than one word is looked for in the pages. -/
theorem longFill_none
    (hlast : ¬(rel.lov lov).lastTidLocation < tidnum) (hfill : lastCompwordIsFill (rel.lov lov) = true)
    (hlong : fillLength (rel.lov lov).lastCompword ≠ 1) : updatesetbit rel lov tidnum = none := by
  have hheader : (rel.lov lov).wordsHeader = lastCompwordBit := by
    refine h.header.resolve_left fun hh => ?_
    rw [lastCompwordIsFill, hh] at hfill
    exact absurd hfill (by decide)
  have hnot : lastwordIsFill (rel.lov lov) = false := by rw [lastwordIsFill, hheader]; rfl
  have hnone : findbitmappage rel (rel.lov lov) tidnum = none :=
    findbitmappageFrom_none h.paged.chain h.paged.ends (by rw [zero_add]; exact hin.1) _ _
  rw [updatesetbit]
  dsimp only
  rw [if_neg hlast, if_neg, if_neg, hnone]
  · rw [hnot]
    exact fun hc => Bool.noConfusion hc.2
  · rintro ⟨-, hh | hone⟩
    · exact absurd (hheader.symm.trans hh) (by decide)
    · exact hlong hone

theorem literal_iff
    (hlast : ¬(rel.lov lov).lastTidLocation < tidnum) (hfill : lastCompwordIsFill (rel.lov lov) = false) :
    SetsBit rel lov blocks tidnum ↔
      (fillLength (rel.lov lov).lastCompword = 1 → (rel.lov lov).lastCompword = tidBit tidnum) ∧
        (rel.lov lov).lastCompword ||| tidBit tidnum ≠ literalAllOne := by
  obtain ⟨hcomp, -, hhigh⟩ := h.comp hin hlast
  have hheader : (rel.lov lov).wordsHeader = lovWordsNoFill := by
    refine h.header.resolve_right fun hh => ?_
    rw [lastCompwordIsFill, hh] at hfill
    exact absurd hfill (by decide)
  have hwords : expand (compCells (rel.lov lov)) = [(rel.lov lov).lastCompword] := by
    rw [hcomp, hfill]
    rfl
  rw [hwords] at hhigh
  rw [setsBit_comp_iff h hwords hin.1 hhigh (h.setComp hin hlast (.inl hheader)), setComp]
  dsimp only
  obtain ⟨hones, -, hbit⟩ := tidBit_cases tidnum
  by_cases hone : fillLength (rel.lov lov).lastCompword = 1
  · rw [if_pos hone, show (0 : Word) ||| tidBit tidnum = tidBit tidnum from zero_or]
    constructor
    · rintro ⟨-, hor⟩
      exact ⟨fun _ => hbit _ hone hor.symm, hor ▸ hones⟩
    · rintro ⟨heq, -⟩
      rw [heq hone, BitVec.or_self]
      exact ⟨hones, rfl⟩
  · rw [if_neg hone]
    exact ⟨fun hc => ⟨fun hc' => absurd hc' hone, hc.1⟩, fun hc => ⟨hc.2, rfl⟩⟩

theorem fill_iff
    (hlast : ¬(rel.lov lov).lastTidLocation < tidnum) (hfill : lastCompwordIsFill (rel.lov lov) = true) :
    SetsBit rel lov blocks tidnum ↔
      fillLength (rel.lov lov).lastCompword = 1 ∧ fillBit (rel.lov lov).lastCompword = 0 := by
  by_cases hone : fillLength (rel.lov lov).lastCompword = 1
  case neg =>
    refine ⟨fun ⟨_, _, hrun, _⟩ => ?_, fun hc => absurd hc.1 hone⟩
    rw [longFill_none h hin hlast hfill hone] at hrun
    exact nomatch hrun
  obtain ⟨hcomp, -, hhigh⟩ := h.comp hin hlast
  have hwords : expand (compCells (rel.lov lov)) =
      [if fillBit (rel.lov lov).lastCompword = 1 then literalAllOne else literalAllZero] := by
    rw [hcomp, hfill, expand_cons, expand_nil, append_nil, Cell.words, if_pos rfl, hone]
    rfl
  rw [hwords] at hhigh
  rw [setsBit_comp_iff h hwords hin.1 hhigh (h.setComp hin hlast (.inr hone)), setComp]
  dsimp only
  rw [if_pos hone, show (0 : Word) ||| tidBit tidnum = tidBit tidnum from zero_or]
  obtain ⟨hones, -, -⟩ := tidBit_cases tidnum
  obtain hb | hb := fillBit_cases (rel.lov lov).lastCompword
  · rw [hb, if_neg (by decide), show literalAllZero ||| tidBit tidnum = tidBit tidnum from zero_or]
    exact ⟨fun _ => ⟨hone, rfl⟩, fun _ => ⟨hones, rfl⟩⟩
  · rw [hb, if_pos rfl, allOne_or]
    exact ⟨fun hc => absurd hc.2 hones, fun hc => absurd hc.2 (by decide)⟩

end

end

/-- **A bit of the last two words gets to its place exactly when it is in the last word, in a literal that neither
looks like a fill of length one nor becomes all ones, or in one word of zeros.** -/
theorem updatesetbit_lovWords_iff (rel : Relation) (lov : Nat × Nat) (blocks : List Nat) (tidnum : BitVec 64)
    (h : Located rel.toIndex lov blocks) (hin : InLovWords rel.toIndex lov blocks tidnum.toNat) :
    SetsBit rel lov blocks tidnum ↔ SetInPlace (rel.lov lov) tidnum := by
  by_cases hlast : (rel.lov lov).lastTidLocation < tidnum
  · exact ⟨fun _ => .inl hlast, fun _ => lastWord_set h hin hlast⟩
  · rw [SetInPlace, or_iff_right hlast]
    cases hfill : lastCompwordIsFill (rel.lov lov) with
    | false => exact literal_iff h hin hlast hfill
    | true => exact fill_iff h hin hlast hfill

/-- A vector of one bit at `t`, without pages. -/
def newVector (t : BitVec 64) (lastWord : Word) : Relation :=
  {freshRelation with lov := fun _ => {formitem t with lastWord := lastWord, lastSetbit := t}}

theorem located_newVector : Located (newVector 33 1).toIndex (1, 1) [] :=
  ⟨⟨.done, nofun, nofun, trivial⟩, .inr (by decide), by decide, by decide⟩

theorem updatesetbit_lovWords_newVector : SetsBit (newVector 33 1) (1, 1) [] 40 :=
  (updatesetbit_lovWords_iff (newVector 33 1) (1, 1) [] 40 located_newVector (by decide)).mpr (by decide)

/-- Bit 20 in a run of 32 zeros in front of bit 33. -/
theorem updatesetbit_longFill :
    Located (newVector 33 1).toIndex (1, 1) [] ∧ InLovWords (newVector 33 1).toIndex (1, 1) [] 20 ∧
      20 ≤ ((newVector 33 1).lov (1, 1)).lastSetbit ∧ ¬ SetsBit (newVector 33 1) (1, 1) [] 20 := by
  refine ⟨located_newVector, by decide, by decide, fun ⟨rel', blocks', hrun, _⟩ => ?_⟩
  have hnone : updatesetbit (newVector 33 1) (1, 1) 20 = none :=
    longFill_none located_newVector (by decide) (by decide) (by decide) (by decide)
  exact nomatch hnone.symm.trans hrun

end PgStorage.Hrl
