import PgStorage.Hrl.BatchProofs
import PgStorage.Hrl.Scan

/-! From words to tid locations.

The locations still to come from a batch are a function of the cells not scanned yet,
of `nextTid` and of the place in the current word (`pendingTids`). A pass of
`_bitmap_findnexttids` moves locations from there to `nextTids`, in order. -/
namespace PgStorage.Hrl
open List TidScan

/-- The positions of the set bits of a word after bit `pos`. -/
def wordTidsAfter (base : Nat) (w : Word) (pos : Nat) : List Nat :=
  ((List.range' pos (16 - pos)).filter (w.getLsbD ·)).map (base + 1 + ·)

theorem wordTidsAfter_zero (base : Nat) (w : Word) : wordTidsAfter base w 0 = wordTids base w := by
  rw [wordTidsAfter, wordTids, range_eq_range']

/-- The search finds the first set bit, if there is one. -/
theorem findBitsetFrom_spec (w : Word) (q n : Nat) :
    (findBitsetFrom w (q + 1) n = 0 ∧ (range' q n).filter (w.getLsbD ·) = []) ∨
      ∃ p, findBitsetFrom w (q + 1) n = p + 1 ∧ q ≤ p ∧ p < q + n ∧
        (range' q n).filter (w.getLsbD ·) =
          p :: (range' (p + 1) (q + n - (p + 1))).filter (w.getLsbD ·) := by
  induction n generalizing q with
  | zero => exact .inl ⟨rfl, rfl⟩
  | succ n ih =>
    simp only [findBitsetFrom, Nat.add_sub_cancel, range'_succ, filter_cons]
    split
    · refine .inr ⟨q, rfl, by omega, by omega, ?_⟩
      rw [show q + (n + 1) - (q + 1) = n by omega]
    · obtain ⟨h0, hnil⟩ | ⟨p, hp, hge, hlt, hcons⟩ := ih (q + 1)
      · exact .inl ⟨h0, hnil⟩
      · refine .inr ⟨p, hp, by omega, by omega, ?_⟩
        rw [hcons, show q + 1 + n - (p + 1) = q + (n + 1) - (p + 1) by omega]

theorem findBitset_spec (base : Nat) (w : Word) (pos : Nat) (h : pos ≤ 16) :
    (findBitset w pos = 0 ∧ wordTidsAfter base w pos = []) ∨
      (pos < findBitset w pos ∧ findBitset w pos ≤ 16 ∧
        wordTidsAfter base w pos = (base + findBitset w pos) :: wordTidsAfter base w (findBitset w pos)) := by
  obtain ⟨h0, hnil⟩ | ⟨p, hp, hge, hlt, hcons⟩ := findBitsetFrom_spec w pos (16 - pos)
  · exact .inl ⟨h0, by rw [wordTidsAfter, hnil]; rfl⟩
  · refine .inr ?_
    rw [findBitset, hp]
    refine ⟨by omega, by omega, ?_⟩
    rw [wordTidsAfter, hcons, map_cons, wordTidsAfter, show pos + (16 - pos) - (p + 1) = 16 - (p + 1) by omega]
    congr 1
    omega

/-- All locations of a word of ones. -/
theorem wordTids_allOne (base : Nat) : wordTids base literalAllOne = range' (base + 1) 16 := by
  have hall : (range 16).filter (literalAllOne.getLsbD ·) = range 16 := by decide
  rw [wordTids, hall, range_eq_range', map_add_range']

/-- The cells of a batch that are not scanned yet, the current one included. -/
def scanCells (words : Batch) (result : IterateResult) : List Cell :=
  cells words.hwords words.cwords result.lastScanWordNo words.nwords

/-- The locations still to come from cells, when `pos` bits of the first are scanned. -/
def pendingTids (nextTid pos : Nat) : List Cell → List Nat
  | [] => []
  | c :: cs =>
    if pos = 0 then tidsFrom nextTid (expand (c :: cs))
    else wordTidsAfter (nextTid - pos) c.word pos ++ tidsFrom (nextTid - pos + 16) (expand cs)

theorem pendingTids_zero (nextTid : Nat) (cs : List Cell) : pendingTids nextTid 0 cs = tidsFrom nextTid (expand cs) := by
  cases cs <;> rfl

theorem pendingTids_literal (nextTid pos : Nat) (w : Word) (cs : List Cell) :
    pendingTids nextTid pos (⟨false, w⟩ :: cs) =
      wordTidsAfter (nextTid - pos) w pos ++ tidsFrom (nextTid - pos + 16) (expand cs) := by
  simp only [pendingTids]
  split
  · rename_i hpos
    rw [hpos, wordTidsAfter_zero]
    rfl
  · rfl

/-- A state of the iteration: only a literal word is scanned in part. -/
structure TidsAt (words : Batch) (result : IterateResult) : Prop where
  valid : ∀ c ∈ scanCells words result, c.Valid
  inWord : result.lastScanPos ≤ 16
  inTid : result.lastScanPos ≤ result.nextTid
  literal : result.lastScanPos ≠ 0 → ∃ w cs, scanCells words result = ⟨false, w⟩ :: cs

/-- The locations still to come from the batch. -/
def TidScan.pending (s : TidScan) : List Nat :=
  pendingTids s.result.nextTid s.result.lastScanPos (scanCells s.words s.result)

/-- The location after which the words behind this batch start. -/
def endTid (words : Batch) (result : IterateResult) : Nat :=
  result.nextTid - result.lastScanPos + 16 * (expand (scanCells words result)).length

/-- What a pass from `s` to `s'` keeps. -/
structure Moves (s s' : TidScan) : Prop where
  at_ : TidsAt s'.words s'.result
  tids : s'.result.nextTids ++ s'.pending = s.result.nextTids ++ s.pending
  last : endTid s'.words s'.result = endTid s.words s.result
  space : s'.words.maxNumOfWords = s.words.maxNumOfWords
  loc : s'.result.nextTidLoc = s.result.nextTidLoc
  done : (s.done = true → s.result.nextTids ≠ []) → s'.done = true → s'.result.nextTids ≠ []

variable {s : TidScan} {words : Batch} {maxTids : Nat}

theorem Moves.trans {s' s'' : TidScan} (h : Moves s s') (h' : Moves s' s'') : Moves s s'' :=
  ⟨h'.at_, h'.tids.trans h.tids, h'.last.trans h.last, h'.space.trans h.space, h'.loc.trans h.loc,
    fun hd => h'.done (h.done hd)⟩

theorem Moves.of_eq {s' s'' : TidScan} (h : Moves s' s'')
    (htids : s'.result.nextTids ++ s'.pending = s.result.nextTids ++ s.pending)
    (hlast : endTid s'.words s'.result = endTid s.words s.result)
    (hspace : s'.words.maxNumOfWords = s.words.maxNumOfWords)
    (hloc : s'.result.nextTidLoc = s.result.nextTidLoc) (hdone : s'.done = false) : Moves s s'' :=
  ⟨h.at_, h.tids.trans htids, h.last.trans hlast, h.space.trans hspace, h.loc.trans hloc,
    fun _ => h.done fun hc => absurd (hdone.symm.trans hc) Bool.false_ne_true⟩

theorem scanCells_nextWord {c : Cell} {cs : List Cell} (h : scanCells s.words s.result = c :: cs) :
    scanCells s.nextWord.words s.nextWord.result = cs := by
  have hlen := congrArg length h
  rw [scanCells, cells_length, length_cons] at hlen
  simp only [scanCells, hlen, cells, cons.injEq] at h
  simp only [scanCells, nextWord, hlen, Nat.add_sub_cancel]
  exact h.2

theorem scanCells_cons (result : IterateResult) (h : 0 < words.nwords) :
    ∃ cs, scanCells words result =
      ⟨isFillWord words.hwords result.lastScanWordNo, words.cwords result.lastScanWordNo⟩ :: cs := by
  obtain ⟨n, hn⟩ : ∃ n, words.nwords = n + 1 := ⟨words.nwords - 1, by omega⟩
  exact ⟨_, by rw [scanCells, hn, cells]⟩

/-! ### Passes -/

/-- Go past a whole cell whose locations have been moved. -/
theorem moves_nextWord {t : TidScan} {c : Cell} {cs : List Cell} (hvalid : ∀ d ∈ cs, d.Valid)
    (hcells : scanCells s.words s.result = c :: cs) (hcells' : ∃ c', scanCells t.words t.result = c' :: cs)
    (htid : t.result.nextTid = s.result.nextTid - s.result.lastScanPos + 16 * c.words.length)
    (htids : t.result.nextTids ++ tidsFrom t.result.nextTid (expand cs) = s.result.nextTids ++ s.pending)
    (hspace : t.words.maxNumOfWords = s.words.maxNumOfWords)
    (hloc : t.result.nextTidLoc = s.result.nextTidLoc) (hdone : t.done = s.done)
    (hgrow : s.result.nextTids ≠ [] → t.result.nextTids ≠ []) : Moves s t.nextWord := by
  obtain ⟨c', hc'⟩ := hcells'
  have hnext := scanCells_nextWord hc'
  refine ⟨⟨?_, Nat.zero_le _, Nat.zero_le _, fun hc => absurd rfl hc⟩, ?_, ?_, hspace, hloc, ?_⟩
  · rw [hnext]
    exact hvalid
  · rw [pending, hnext]
    show t.result.nextTids ++ pendingTids t.result.nextTid 0 cs = _
    rw [pendingTids_zero, htids]
  · rw [endTid, hnext, endTid, hcells, expand_cons, length_append]
    show t.result.nextTid - 0 + 16 * _ = _
    omega
  · intro hs ht
    exact hgrow (hs (by rw [← hdone]; exact ht))

theorem explainFill_moves (hmax : 16 ≤ maxTids) (n : Nat) {w : Word} {cs : List Cell}
    (hcells : scanCells s.words s.result = ⟨true, w⟩ :: cs) (hlen : fillLength w = n) (hbit : fillBit w = 1)
    (hpos : s.result.lastScanPos = 0) (hvalid : ∀ c ∈ cs, c.Valid) (hdone : s.done = false) :
    Moves s (explainFill maxTids n s) ∧
      ((explainFill maxTids n s).words.nwords < s.words.nwords ∨ (explainFill maxTids n s).done = true) := by
  induction n generalizing s w with
  | zero =>
    have hn : 0 < s.words.nwords := by
      have := congrArg length hcells
      rw [scanCells, cells_length, length_cons] at this
      omega
    have hwords : (Cell.mk true w).words = [] := by simp only [Cell.words, if_true, hlen, replicate_zero]
    refine ⟨moves_nextWord hvalid hcells ⟨_, hcells⟩ ?_ ?_ rfl rfl rfl id, .inl (Nat.sub_lt hn Nat.one_pos)⟩
    · rw [hwords, hpos]
      rfl
    · rw [pending, hcells, hpos, pendingTids_zero, expand_cons, hwords, nil_append]
  | succ n ih =>
    have hrun (m : Nat) (x : Word) (hm : fillLength x = m) (hx : fillBit x = 1) :
        (Cell.mk true x).words = replicate m literalAllOne := by
      simp only [Cell.words, if_true, hm, hx]
    simp only [explainFill]
    split
    · rename_i hroom
      -- one word of the run is expanded, and the count in the word goes down by one
      obtain ⟨hlen', hbit'⟩ := fill_sub (show 1 ≤ fillLength w by omega)
      have hcells' : scanCells {s.words with
          cwords := fun i => if i = s.result.lastScanWordNo then s.words.cwords s.result.lastScanWordNo - 1
            else s.words.cwords i} s.result = ⟨true, w - 1⟩ :: cs := by
        have hnw := congrArg length hcells
        rw [scanCells, cells_length, length_cons] at hnw
        simp only [scanCells, hnw, cells, cons.injEq, Cell.mk.injEq] at hcells
        obtain ⟨⟨hf, hw⟩, hrest⟩ := hcells
        rw [scanCells]
        simp only [hnw]
        rw [cells_set, hf, hw, hrest]
      obtain ⟨hmoves, hprog⟩ := ih (s := {s with
        words := {s.words with
          cwords := fun i => if i = s.result.lastScanWordNo then s.words.cwords s.result.lastScanWordNo - 1
            else s.words.cwords i}
        result := {s.result with
          nextTids := s.result.nextTids ++ range' (s.result.nextTid + 1) 16
          nextTid := s.result.nextTid + 16}}) hcells' (hlen'.trans (by omega)) (hbit'.trans hbit) hpos hdone
      refine ⟨hmoves.of_eq ?_ ?_ rfl rfl hdone, hprog⟩
      · have hpend : s.pending = range' (s.result.nextTid + 1) 16 ++
            tidsFrom (s.result.nextTid + 16) (replicate n literalAllOne ++ expand cs) := by
          rw [pending, hcells, hpos, pendingTids_zero, expand_cons, hrun _ w hlen hbit, replicate_succ,
            cons_append, tidsFrom, wordTids_allOne]
        rw [hpend, pending]
        show _ ++ pendingTids _ s.result.lastScanPos (scanCells _ s.result) = _
        rw [hcells', hpos, pendingTids_zero, expand_cons, hrun n (w - 1) (hlen'.trans (by omega)) (hbit'.trans hbit),
          append_assoc]
      · show s.result.nextTid + 16 - s.result.lastScanPos + 16 * (expand (scanCells _ s.result)).length = _
        rw [hcells', endTid, hcells, hpos, expand_cons, expand_cons, hrun _ w hlen hbit,
          hrun n (w - 1) (hlen'.trans (by omega)) (hbit'.trans hbit)]
        simp only [length_append, length_replicate]
        omega
    · rename_i hroom
      refine ⟨⟨⟨?_, ?_, ?_, fun hc => absurd hpos hc⟩, rfl, rfl, rfl, rfl, fun _ _ => ?_⟩, .inr rfl⟩
      · show ∀ c ∈ scanCells s.words s.result, c.Valid
        rw [hcells]
        intro c hc
        rcases mem_cons.mp hc with rfl | hc
        · intro _
          show 1 ≤ fillLength w
          omega
        · exact hvalid c hc
      · show s.result.lastScanPos ≤ 16
        omega
      · show s.result.lastScanPos ≤ s.result.nextTid
        omega
      · intro hnil
        change s.result.nextTids = [] at hnil
        rw [hnil, length_nil] at hroom
        omega

theorem scanLiteral_moves (maxTids fuel : Nat) {w : Word} {cs : List Cell}
    (h : TidsAt s.words s.result) (hcells : scanCells s.words s.result = ⟨false, w⟩ :: cs)
    (hw : s.words.cwords s.result.lastScanWordNo = w) (hfuel : 16 - s.result.lastScanPos < fuel) :
    Moves s (scanLiteral maxTids fuel s.result.lastScanPos s) ∧
      ((scanLiteral maxTids fuel s.result.lastScanPos s).words.nwords < s.words.nwords ∨
        maxTids ≤ (scanLiteral maxTids fuel s.result.lastScanPos s).result.nextTids.length) := by
  have hinWord := h.inWord
  have hinTid := h.inTid
  induction fuel generalizing s with
  | zero => omega
  | succ fuel ih =>
    simp only [scanLiteral]
    split
    · rename_i hroom
      have hpend : s.pending = wordTidsAfter (s.result.nextTid - s.result.lastScanPos) w s.result.lastScanPos ++
          tidsFrom (s.result.nextTid - s.result.lastScanPos + 16) (expand cs) := by
        rw [pending, hcells, pendingTids_literal]
      obtain ⟨h0, hnil⟩ | ⟨hgt, hle, hcons⟩ :=
        findBitset_spec (s.result.nextTid - s.result.lastScanPos) w s.result.lastScanPos hinWord
      · rw [hw, h0, if_neg (by simp)]
        have hn : 0 < s.words.nwords := by
          have := congrArg length hcells
          rw [scanCells, cells_length, length_cons] at this
          omega
        refine ⟨moves_nextWord ?_ hcells ⟨_, hcells⟩ ?_ ?_ rfl rfl rfl id, .inl (Nat.sub_lt hn Nat.one_pos)⟩
        · intro d hd
          exact h.valid d (by rw [hcells]; exact mem_cons_of_mem _ hd)
        · show s.result.nextTid + (16 - s.result.lastScanPos) = _ + 16 * [w].length
          simp only [length_singleton]
          omega
        · rw [hpend, hnil, nil_append]
          show _ ++ tidsFrom (s.result.nextTid + (16 - s.result.lastScanPos)) _ = _
          congr 2
          omega
      · rw [hw, if_pos (by omega)]
        generalize findBitset w s.result.lastScanPos = pos at hgt hle hcons
        have hbase : s.result.nextTid + (pos - s.result.lastScanPos) - pos =
            s.result.nextTid - s.result.lastScanPos := by omega
        have htid : s.result.nextTid + (pos - s.result.lastScanPos) =
            s.result.nextTid - s.result.lastScanPos + pos := by omega
        obtain ⟨hmoves, hprog⟩ := ih (s := {s with result := {s.result with
            lastScanPos := pos, nextTid := s.result.nextTid + (pos - s.result.lastScanPos)
            nextTids := s.result.nextTids ++ [s.result.nextTid + (pos - s.result.lastScanPos)]}})
          ⟨h.valid, hle, by dsimp only; omega, fun _ => ⟨w, cs, hcells⟩⟩ hcells hw (by dsimp only; omega) hle
          (by dsimp only; omega)
        refine ⟨⟨hmoves.at_, hmoves.tids.trans ?_, hmoves.last.trans ?_, hmoves.space, hmoves.loc, ?_⟩, hprog⟩
        · rw [hpend, hcons, pending]
          show _ ++ pendingTids _ pos (scanCells s.words s.result) = _
          rw [hcells, pendingTids_literal, hbase, htid]
          simp
        · show _ - pos + 16 * (expand (scanCells s.words s.result)).length = _
          rw [hbase]
          rfl
        · intro _
          exact hmoves.done fun _ => by simp
    · rename_i hroom
      exact ⟨⟨h, rfl, rfl, rfl, rfl, id⟩, .inr (by omega)⟩

/-- One pass moves locations, and uses up a word, fills the space or ends the loop. -/
theorem tidsPass_moves (hmax : 16 ≤ maxTids) (h : TidsAt s.words s.result)
    (hn : 0 < s.words.nwords) (hdone : s.done = false) :
    Moves s (tidsPass maxTids s) ∧ ((tidsPass maxTids s).words.nwords < s.words.nwords ∨
      maxTids ≤ (tidsPass maxTids s).result.nextTids.length ∨ (tidsPass maxTids s).done = true) := by
  obtain ⟨cs, hcells⟩ := scanCells_cons s.result hn
  have hvalid := h.valid
  rw [hcells] at hvalid
  have hfirst := hvalid _ mem_cons_self
  replace hvalid : ∀ c ∈ cs, c.Valid := fun c hc => hvalid c (mem_cons_of_mem _ hc)
  simp only [tidsPass]
  split
  · rename_i hzero
    obtain ⟨hpos, hword⟩ := hzero
    have hlit : s.words.cwords s.result.lastScanWordNo = 0 →
        isFillWord s.words.hwords s.result.lastScanWordNo = false := by
      intro hw
      by_contra hf
      have : 1 ≤ fillLength (s.words.cwords s.result.lastScanWordNo) := hfirst (by simpa using hf)
      rw [hw] at this
      exact absurd this (by decide)
    have hwords : (Cell.mk (isFillWord s.words.hwords s.result.lastScanWordNo)
        (s.words.cwords s.result.lastScanWordNo)).words =
        replicate (if s.words.cwords s.result.lastScanWordNo = 0 then 1
          else fillLength (s.words.cwords s.result.lastScanWordNo)) 0 := by
      by_cases hw : s.words.cwords s.result.lastScanWordNo = 0
      · rw [Cell.words, hlit hw, if_pos hw, hw]
        rfl
      · obtain ⟨hf, hb⟩ := hword.resolve_right hw
        rw [if_neg hw]
        simp only [Cell.words, hf, hb, if_true]
        rfl
    generalize (if s.words.cwords s.result.lastScanWordNo = 0 then 1
      else fillLength (s.words.cwords s.result.lastScanWordNo)) = len at hwords ⊢
    refine ⟨moves_nextWord hvalid hcells ⟨_, hcells⟩ ?_ ?_ rfl rfl rfl id, .inl (Nat.sub_lt hn Nat.one_pos)⟩
    · rw [hwords, length_replicate, hpos]
      dsimp only
      omega
    · rw [pending, hcells, hpos, pendingTids_zero, expand_cons, hwords, tidsFrom_append, tidsFrom_zeros,
        length_replicate, nil_append, mul_comm 16]
  · rename_i hzero
    split
    · rename_i hones
      obtain ⟨hf, hb⟩ := hones
      rw [hf] at hcells
      have hpos : s.result.lastScanPos = 0 := by
        by_contra hc
        obtain ⟨w, cs', hlit⟩ := h.literal hc
        rw [hlit] at hcells
        simp at hcells
      obtain ⟨hmoves, hprog⟩ := explainFill_moves hmax _ hcells rfl hb hpos hvalid hdone
      exact ⟨hmoves, hprog.imp_right .inr⟩
    · rename_i hones
      have hf : isFillWord s.words.hwords s.result.lastScanWordNo = false := by
        by_contra hc
        replace hc : isFillWord s.words.hwords s.result.lastScanWordNo = true := by simpa using hc
        have hpos : s.result.lastScanPos = 0 := by
          by_contra hne
          obtain ⟨w, cs', hlit⟩ := h.literal hne
          rw [hlit, hc] at hcells
          simp at hcells
        rcases fillBit_cases (s.words.cwords s.result.lastScanWordNo) with hb | hb
        · exact hzero ⟨hpos, .inl ⟨hc, hb⟩⟩
        · exact hones ⟨hc, hb⟩
      rw [hf] at hcells
      obtain ⟨hmoves, hprog⟩ := scanLiteral_moves maxTids 17 h hcells rfl (by omega)
      exact ⟨hmoves, hprog.imp_right .inl⟩

/-! ### The iteration -/

/-- What `_bitmap_findnexttids` does: it takes locations off the front of those to come,
and none only if the words end. -/
theorem findnexttids_spec {result : IterateResult} (hmax : 16 ≤ maxTids) (h : TidsAt words result) :
    TidsAt (findnexttids words result maxTids).1 (findnexttids words result maxTids).2 ∧
      (findnexttids words result maxTids).2.nextTids ++
          pendingTids (findnexttids words result maxTids).2.nextTid (findnexttids words result maxTids).2.lastScanPos
            (scanCells (findnexttids words result maxTids).1 (findnexttids words result maxTids).2) =
        pendingTids result.nextTid result.lastScanPos (scanCells words result) ∧
      endTid (findnexttids words result maxTids).1 (findnexttids words result maxTids).2 = endTid words result ∧
      (findnexttids words result maxTids).1.maxNumOfWords = words.maxNumOfWords ∧
      (findnexttids words result maxTids).2.nextTidLoc = 0 ∧
      ((findnexttids words result maxTids).2.nextTids = [] → (findnexttids words result maxTids).1.nwords = 0) := by
  let start : TidScan := ⟨words, {result with nextTidLoc := 0, nextTids := []}, false⟩
  let cond (s : TidScan) : Bool := decide (0 < s.words.nwords ∧ s.result.nextTids.length < maxTids) && !s.done
  let meas (s : TidScan) : Nat := if cond s then s.words.nwords else 0
  have hopen (s : TidScan) (hc : cond s = true) :
      (0 < s.words.nwords ∧ s.result.nextTids.length < maxTids) ∧ s.done = false := by
    simpa [cond] using hc
  have hstep (s : TidScan) (hs : Moves start s) (hc : cond s = true) :
      Moves start (tidsPass maxTids s) ∧ meas (tidsPass maxTids s) < meas s := by
    obtain ⟨⟨hn, hroom⟩, hd⟩ := hopen s hc
    obtain ⟨hmoves, hprog⟩ := tidsPass_moves hmax hs.at_ hn hd
    refine ⟨hs.trans hmoves, ?_⟩
    simp only [meas, if_pos hc]
    split
    · rename_i hc'
      obtain ⟨⟨_, hroom'⟩, hd'⟩ := hopen _ hc'
      rcases hprog with hprog | hprog | hprog
      · exact hprog
      · omega
      · exact absurd (hd'.symm.trans hprog) Bool.false_ne_true
    · exact hn
  have hstart : Moves start start := ⟨⟨h.valid, h.inWord, h.inTid, h.literal⟩, rfl, rfl, rfl, rfl, id⟩
  obtain ⟨hend, hcond⟩ := Loop.whileN_of_invariant (Moves start) meas hstep start hstart (words.nwords + 1) (by
    show (if cond start then words.nwords else 0) ≤ _
    split <;> omega)
  have hdef : findnexttids words result maxTids =
      ((Loop.whileN cond (tidsPass maxTids) (words.nwords + 1) start).words,
        (Loop.whileN cond (tidsPass maxTids) (words.nwords + 1) start).result) := rfl
  rw [hdef]
  generalize Loop.whileN cond (tidsPass maxTids) (words.nwords + 1) start = s at hend hcond ⊢
  refine ⟨hend.at_, hend.tids, hend.last, hend.space, hend.loc, fun hnil => ?_⟩
  have hnd : s.done = false := by
    by_contra hd
    exact hend.done (fun hs => absurd hs Bool.false_ne_true) (by simpa using hd) hnil
  change s.result.nextTids = [] at hnil
  have hmax' : 0 < maxTids := by omega
  simpa [cond, hnd, hnil, hmax'] using hcond

/-- The locations still to come from memory: those computed, then those of the words. -/
def remaining (words : Batch) (result : IterateResult) : List Nat :=
  result.nextTids.drop result.nextTidLoc ++
    pendingTids result.nextTid result.lastScanPos (scanCells words result)

/-- What a call that returns `tid` keeps. -/
structure Returns (words : Batch) (result : IterateResult) (tid : Nat) (words' : Batch) (result' : IterateResult) :
    Prop where
  at_ : TidsAt words' result'
  last : endTid words' result' = endTid words result
  space : words'.maxNumOfWords = words.maxNumOfWords
  tids : remaining words result = if tid = 0 then remaining words' result' else tid :: remaining words' result'
  ended : tid = 0 → words'.nwords = 0 ∧ result'.nextTids.length ≤ result'.nextTidLoc

theorem findnexttid_spec {result : IterateResult} (h : TidsAt words result)
    (hpos : ∀ t ∈ remaining words result, t ≠ 0) :
    Returns words result (findnexttid words result).1 (findnexttid words result).2.1
      (findnexttid words result).2.2 := by
  -- after the refill of `nextTids`, if it was needed
  have htake {words' : Batch} {result' : IterateResult} (hat : TidsAt words' result')
      (hlast : endTid words' result' = endTid words result) (hspace : words'.maxNumOfWords = words.maxNumOfWords)
      (hrem : remaining words' result' = remaining words result)
      (hempty : result'.nextTids.length ≤ result'.nextTidLoc → words'.nwords = 0) :
      Returns words result
        (if result'.nextTidLoc < result'.nextTids.length then
          (result'.nextTids.getD result'.nextTidLoc 0, words', {result' with nextTidLoc := result'.nextTidLoc + 1})
        else (0, words', result')).1
        (if result'.nextTidLoc < result'.nextTids.length then
          (result'.nextTids.getD result'.nextTidLoc 0, words', {result' with nextTidLoc := result'.nextTidLoc + 1})
        else (0, words', result')).2.1
        (if result'.nextTidLoc < result'.nextTids.length then
          (result'.nextTids.getD result'.nextTidLoc 0, words', {result' with nextTidLoc := result'.nextTidLoc + 1})
        else (0, words', result')).2.2 := by
    split
    · rename_i hlt
      have hcons : remaining words result = result'.nextTids.getD result'.nextTidLoc 0 ::
          remaining words' {result' with nextTidLoc := result'.nextTidLoc + 1} := by
        rw [← hrem, remaining, drop_eq_getElem_cons hlt, getD_eq_getElem _ _ hlt]
        rfl
      have hne := hpos _ (by rw [hcons]; exact mem_cons_self)
      refine ⟨⟨hat.valid, hat.inWord, hat.inTid, hat.literal⟩, hlast, hspace, ?_, fun h0 => absurd h0 hne⟩
      rw [if_neg hne]
      exact hcons
    · rename_i hge
      exact ⟨hat, hlast, hspace, hrem.symm, fun _ => ⟨hempty (by omega), by dsimp only; omega⟩⟩
  simp only [findnexttid]
  split
  · rename_i hload
    obtain ⟨hat, htids, hlast, hspace, hloc, hnil⟩ := findnexttids_spec (show 16 ≤ batchTids by decide) h
    refine htake hat hlast hspace ?_ ?_
    · rw [remaining, hloc, drop_zero, htids, remaining, drop_eq_nil_of_le hload, nil_append]
    · intro hle
      exact hnil (eq_nil_of_length_eq_zero (by omega))
  · rename_i hload
    exact htake h rfl rfl rfl fun hle => absurd hle hload

theorem tidsFrom_pos (base : Nat) (ws : List Word) : ∀ t ∈ tidsFrom base ws, t ≠ 0 := by
  induction ws generalizing base with
  | nil => simp [tidsFrom]
  | cons w ws ih =>
    intro t ht
    rcases mem_append.mp ht with ht | ht
    · obtain ⟨i, _, rfl⟩ := mem_map.mp ht
      omega
    · exact ih _ t ht

end PgStorage.Hrl
