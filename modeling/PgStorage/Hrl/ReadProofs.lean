import PgStorage.Hrl.BatchProofs
import PgStorage.Hrl.Scan

/-! Reading a vector from disk.

What is not read yet of a vector is given by the next block of its chain and by
whether the LOV item has been read (`Unread`). Each call of `read_words` puts the
next words of the vector into memory, at least one. -/
namespace PgStorage.Hrl

/-- The words `f` of a vector are not read from disk. -/
def Unread (idx : Index) (v : VectorPos) (f : List Word) : Prop :=
  if v.readLastWords then f = []
  else ∃ blocks, VectorValid idx {idx.lov v.lov with lovHead := v.nextBlockNo} blocks ∧
    f = vectorWords idx blocks (idx.lov v.lov)

theorem lovWords_number (item : LovItem) :
    0 < (readLovWords item).2.2 ∧ (readLovWords item).2.2 ≤ 2 := by
  unfold readLovWords
  split <;> simp

theorem and_one_ne_zero (x : BitVec 8) : (x &&& lastWordBit != 0) = x.getLsbD 0 := by
  have htwo : lastWordBit = BitVec.twoPow 8 0 := rfl
  rw [htwo, BitVec.and_twoPow]
  cases x.getLsbD 0 <;> rfl

theorem and_two_ne_zero (x : BitVec 8) : (x &&& lastCompwordBit != 0) = x.getLsbD 1 := by
  have htwo : lastCompwordBit = BitVec.twoPow 8 1 := rfl
  rw [htwo, BitVec.and_twoPow]
  cases x.getLsbD 1 <;> rfl

/-- Words of an array that agree with those read from the LOV item. -/
theorem cells_lov {item : LovItem} {h c : Nat → Word} {start : Nat}
    (hh : ∀ i < (readLovWords item).2.2, isFillWord h (start + i) = (readLovWords item).1.getLsbD (15 - i))
    (hc : ∀ i < (readLovWords item).2.2, c (start + i) = (readLovWords item).2.1 i) :
    cells h c start (readLovWords item).2.2 = lovCells item := by
  unfold readLovWords lovCells at *
  split at hh
  · rename_i hcomp
    simp only [if_pos hcomp] at hc ⊢
    have h0 : isFillWord h start = lastCompwordIsFill item := by
      refine (hh 0 Nat.zero_lt_two).trans ?_
      rw [lastCompwordIsFill, and_two_ne_zero]
      simp
    have h1 : isFillWord h (start + 1) = lastwordIsFill item := by
      refine (hh 1 Nat.one_lt_two).trans ?_
      rw [lastwordIsFill, and_one_ne_zero]
      simp
    have c0 : c start = item.lastCompword := hc 0 Nat.zero_lt_two
    have c1 : c (start + 1) = item.lastWord := hc 1 Nat.one_lt_two
    simp only [cells, h0, h1, c0, c1]
  · rename_i hcomp
    simp only [if_neg hcomp] at hc ⊢
    have h0 : isFillWord h start = lastwordIsFill item := by
      refine (hh 0 Nat.one_pos).trans ?_
      rw [lastwordIsFill, and_one_ne_zero]
      simp
    have c0 : c start = item.lastWord := hc 0 Nat.one_pos
    simp only [cells, h0, c0]

/-! ### One read -/

/-- What `read_words` must give: the next words, at least one, and the rest. -/
structure ReadSpec (idx : Index) (f : List Word) (v v' : VectorPos) : Prop where
  valid : ∀ c ∈ v'.batchWords.mem, c.Valid
  some : 0 < v'.batchWords.nwords
  start : v'.batchWords.startNo = 0
  rest : ∃ f', Unread idx v' f' ∧ f = v'.batchWords.words ++ f'
  nwordsread : v'.batchWords.nwordsread = v.batchWords.nwordsread
  nextread : v'.batchWords.nextread = v.batchWords.nextread
  firstTid : v'.batchWords.firstTid = v.batchWords.firstTid

/-- The header words of a page with those of the LOV item behind its `n` words. -/
theorem isFillWord_append {page : BMPage} (hp : PageValid page) {hword : Word}
    (hn : page.hrlWordsUsed ≤ hrlWordsPerPage - 2) (k : Nat) (hk : k < page.hrlWordsUsed + 2) :
    isFillWord (appendHeader page.hwords page.hrlWordsUsed hword) k =
      if k < page.hrlWordsUsed then isFillWord page.hwords k else hword.getLsbD (15 - (k - page.hrlWordsUsed)) := by
  have hclear (hge : page.hrlWordsUsed ≤ k) : (page.hwords (k / 16)).getLsbD (15 - k % 16) = false := by
    rw [← isFillWord_eq]
    refine hp.clear k hge ?_
    unfold hrlWordsPerPage at hn ⊢
    omega
  rw [isFillWord_eq, isFillWord_eq]
  generalize page.hrlWordsUsed = n at *
  simp only [appendHeader]
  by_cases hlt : k < n
  · rw [if_pos hlt, if_neg (by omega)]
    split
    · rename_i hdiv
      rw [BitVec.getLsbD_or, BitVec.getLsbD_ushiftRight, BitVec.getLsbD_of_ge hword _ (by omega), Bool.or_false]
    · rfl
  · rw [if_neg hlt]
    have hbit := hclear (by omega)
    by_cases hcross : n % 16 = 15 ∧ k / 16 = (n + 1) / 16
    · have hkn : k = n + 1 := by omega
      rw [if_pos hcross, if_neg (by omega), BitVec.getLsbD_or, hbit, Bool.false_or, BitVec.getLsbD_shiftLeft]
      have h1 : 15 - k % 16 = 15 := by omega
      have h2 : 15 - (k - n) = 14 := by omega
      rw [h1, h2]
      simp
    · rw [if_neg hcross, if_pos (by omega), BitVec.getLsbD_or, hbit, Bool.false_or, BitVec.getLsbD_ushiftRight]
      congr 1
      omega

theorem readWords_spec {idx : Index} {v : VectorPos} {f : List Word} (hun : Unread idx v f)
    (hlast : v.readLastWords = false) (hstart : v.batchWords.startNo = 0) : ReadSpec idx f v (readWords idx v) := by
  rw [Unread, hlast, if_neg (by decide)] at hun
  obtain ⟨blocks, hvalid, rfl⟩ := hun
  obtain ⟨hpos, hle⟩ := lovWords_number (idx.lov v.lov)
  have hchain : Chain idx.page v.nextBlockNo blocks := hvalid.chain
  have hlov : ∀ c ∈ lovCells (idx.lov v.lov), c.Valid := hvalid.last
  have hcells {h c : Nat → Word} {start : Nat} := @cells_lov (idx.lov v.lov) h c start
  unfold readWords
  generalize readLovWords (idx.lov v.lov) = lovWords at hpos hle hcells ⊢
  obtain ⟨hword, lovWords, lovN⟩ := lovWords
  dsimp only at hpos hle hcells ⊢
  split
  · rename_i hblock
    obtain ⟨bs, rfl, hchain'⟩ : ∃ bs, blocks = v.nextBlockNo :: bs ∧
        Chain idx.page (idx.page v.nextBlockNo).bitmapNext bs := by
      generalize v.nextBlockNo = b at hchain hblock
      cases hchain with
      | done => exact absurd rfl hblock
      | @page _ bs _ hrest => exact ⟨bs, rfl, hrest⟩
    have hpage := hvalid.pages v.nextBlockNo List.mem_cons_self
    have hfilled := hvalid.filled v.nextBlockNo List.mem_cons_self
    have hwords : vectorWords idx (v.nextBlockNo :: bs) (idx.lov v.lov) =
        expand (pageCells (idx.page v.nextBlockNo)) ++ vectorWords idx bs (idx.lov v.lov) := by
      simp only [vectorWords, vectorCells, List.flatMap_cons, List.append_assoc, expand_append]
    split
    · rename_i hend
      obtain ⟨hnext, hn⟩ := hend
      rw [hnext] at hchain'
      obtain rfl := hchain'.unique .done
      have hmem : cells (appendHeader (idx.page v.nextBlockNo).hwords (idx.page v.nextBlockNo).hrlWordsUsed hword)
          (fun i => if (idx.page v.nextBlockNo).hrlWordsUsed ≤ i ∧ i < (idx.page v.nextBlockNo).hrlWordsUsed + lovN then
              lovWords (i - (idx.page v.nextBlockNo).hrlWordsUsed)
            else if i < (idx.page v.nextBlockNo).hrlWordsUsed then (idx.page v.nextBlockNo).cwords i
            else v.batchWords.cwords i)
          v.batchWords.startNo ((idx.page v.nextBlockNo).hrlWordsUsed + lovN) =
            pageCells (idx.page v.nextBlockNo) ++ lovCells (idx.lov v.lov) := by
        rw [hstart, cells_add, zero_add]
        congr 1
        · refine cells_congr (fun i _ hi => ?_) (fun i _ hi => ?_)
          · exact (isFillWord_append hpage hn i (by omega)).trans (if_pos (by omega))
          · exact (if_neg (by omega)).trans (if_pos (by omega))
        · refine hcells (fun i hi => ?_) (fun i hi => ?_)
          · refine (isFillWord_append hpage hn _ (by omega)).trans ((if_neg (by omega)).trans ?_)
            rw [Nat.add_sub_cancel_left]
          · refine (if_pos ⟨by omega, by omega⟩).trans ?_
            rw [Nat.add_sub_cancel_left]
      refine ⟨?_, ?_, hstart, ⟨[], rfl, ?_⟩, rfl, rfl, rfl⟩
      · intro c hc
        rw [Batch.mem, hmem] at hc
        rcases List.mem_append.mp hc with hc | hc
        · exact hpage.cells c hc
        · exact hlov c hc
      · show 0 < (idx.page v.nextBlockNo).hrlWordsUsed + _
        omega
      · rw [Batch.words, Batch.mem, hmem, hwords, List.append_nil, expand_append]
        rfl
    · rename_i hend
      have hmem : cells (idx.page v.nextBlockNo).hwords (fun i => if i < (idx.page v.nextBlockNo).hrlWordsUsed then
          (idx.page v.nextBlockNo).cwords i else v.batchWords.cwords i) v.batchWords.startNo
          (idx.page v.nextBlockNo).hrlWordsUsed = pageCells (idx.page v.nextBlockNo) := by
        rw [hstart]
        exact cells_congr (fun i _ hi => rfl) (fun i _ hi => if_pos (by omega))
      refine ⟨?_, ?_, hstart, ⟨vectorWords idx bs (idx.lov v.lov), ?_, ?_⟩, rfl, rfl, rfl⟩
      · intro c hc
        rw [Batch.mem, hmem] at hc
        exact hpage.cells c hc
      · show 0 < (idx.page v.nextBlockNo).hrlWordsUsed
        by_cases hnext : (idx.page v.nextBlockNo).bitmapNext = invalidBlockNumber
        · have hn : ¬(idx.page v.nextBlockNo).hrlWordsUsed ≤ hrlWordsPerPage - 2 := fun hc => hend ⟨hnext, hc⟩
          omega
        · have := hfilled hnext
          omega
      · refine ⟨bs, ⟨hchain', ?_, ?_, hvalid.last⟩, rfl⟩
        · exact fun b hb => hvalid.pages b (List.mem_cons_of_mem _ hb)
        · exact fun b hb => hvalid.filled b (List.mem_cons_of_mem _ hb)
      · rw [Batch.words, Batch.mem, hmem, hwords]
  · rename_i hblock
    rw [not_not] at hblock
    rw [hblock] at hchain
    obtain rfl := hchain.unique .done
    have hmem : cells (fun i => if i = 0 then hword else v.batchWords.hwords i)
        (fun i => if i < lovN then lovWords i else v.batchWords.cwords i) v.batchWords.startNo lovN =
          lovCells (idx.lov v.lov) := by
      rw [hstart]
      refine hcells (fun i hi => ?_) (fun i hi => ?_)
      · rw [isFillWord_eq, if_pos (by omega), zero_add, Nat.mod_eq_of_lt (by omega)]
      · rw [if_pos (by omega), zero_add]
    refine ⟨?_, hpos, hstart, ⟨[], rfl, ?_⟩, rfl, rfl, rfl⟩
    · intro c hc
      rw [Batch.mem, hmem] at hc
      exact hlov c hc
    · rw [Batch.words, Batch.mem, hmem, List.append_nil]
      rfl

theorem Unread.init {idx : Index} {lov : Nat × Nat} {blocks : List Nat} (h : VectorValid idx (idx.lov lov) blocks) :
    Unread idx (initscanpos idx lov) (vectorWords idx blocks (idx.lov lov)) :=
  ⟨blocks, h, rfl⟩

/-- After a refill, a vector without words in memory has been read to its end. -/
theorem refill_reads {idx : Index} {pos : Nat} {w f : List Word} {v : VectorPos} (hun : Unread idx v f)
    (h : Reads pos w f v.batchWords) :
    ∃ f', Unread idx (refill idx v) f' ∧ Reads pos w f' (refill idx v).batchWords ∧
      (refill idx v).batchWords.nextread = v.batchWords.nextread ∧
      ((refill idx v).batchWords.nwords = 0 → v.batchWords.nwords = 0 ∧ f' = []) := by
  unfold refill
  split
  · rename_i hempty
    obtain ⟨hn, hlast⟩ := hempty
    have hspec := readWords_spec (v := {v with batchWords := resetBatchwords v.batchWords}) hun hlast rfl
    obtain ⟨f', hun', hf⟩ := hspec.rest
    refine ⟨f', hun', ⟨hspec.valid, ?_, ?_⟩, hspec.nextread, fun h0 => ?_⟩
    · rw [hspec.nwordsread, ← hf]
      have hrest := h.rest
      rw [(Batch.words_eq_nil_iff h.valid).mpr hn, List.nil_append] at hrest
      exact hrest
    · rw [hspec.nwordsread]
      exact h.behind
    · have := hspec.some
      omega
  · rename_i hmore
    refine ⟨f, hun, h, rfl, fun h0 => ⟨h0, ?_⟩⟩
    have hlast : v.readLastWords = true := by
      by_contra hc
      exact hmore ⟨h0, by simpa using hc⟩
    rw [Unread, hlast, if_pos rfl] at hun
    exact hun

end PgStorage.Hrl
