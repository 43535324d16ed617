import PgStorage.Hrl.Mark
import PgStorage.Hrl.TidProofs

/-! What a restored scan returns.

The words in memory, and what has been read of each vector, are those of the scan as far
as it has gone; the restored position has only its tid locations back. And the buffers of
the LOV items are released. So the scan goes on as from the mark if it needs neither:
every vector has been read to its end, and either the words in memory have not been
touched since the mark or there were none left. -/
namespace PgStorage.Hrl
open ScanOpaque List

/-- All words of all vectors have been read. -/
def FullyRead (s : ScanPos) : Prop := ∀ v ∈ s.posvecs, v.readLastWords = true

theorem refill_read (idx : Index) {v : VectorPos} (h : v.readLastWords = true) : refill idx v = v :=
  if_neg (by simp [h])

variable {s : ScanPos} {so so' : ScanOpaque} {idx : Index} {fuel : Nat}

theorem FullyRead.refill (h : FullyRead s) (idx : Index) : s.posvecs.map (refill idx) = s.posvecs := by
  rw [map_congr_left fun v hv => refill_read idx (h v hv), map_id']

theorem FullyRead.setBatchWords (h : FullyRead s) (words : Batch) : FullyRead (s.setBatchWords words) := by
  unfold ScanPos.setBatchWords
  split
  · rename_i v hv
    intro u hu
    obtain rfl := mem_singleton.mp hu
    exact h v (by rw [hv]; exact mem_cons_self)
  · exact h

theorem putBack_read (vs : List VectorPos) (bs : List Batch) (h : ∀ v ∈ vs, v.readLastWords = true) :
    ∀ v ∈ putBack vs bs, v.readLastWords = true := by
  induction vs generalizing bs with
  | nil => exact h
  | cons u vs ih =>
    have hu := h u mem_cons_self
    have hvs : ∀ v ∈ vs, v.readLastWords = true := fun v hv => h v (mem_cons_of_mem _ hv)
    unfold putBack
    split
    · intro v hv
      rcases mem_cons.mp hv with rfl | hv
      · exact hu
      · exact ih bs hvs v hv
    · cases bs with
      | nil => exact h
      | cons b bs =>
        intro v hv
        rcases mem_cons.mp hv with rfl | hv
        · exact hu
        · exact ih bs hvs v hv

theorem FullyRead.nextBatchWords (h : FullyRead s) (idx : Index) : FullyRead (nextBatchWords idx s) := by
  simp only [Hrl.nextBatchWords, h.refill idx]
  split
  · split <;> exact h
  · split
    · exact h
    · exact putBack_read _ _ h

theorem FullyRead.nextWords (h : FullyRead s) (idx : Index) : FullyRead (nextWords idx s) :=
  (h.setBatchWords _).nextBatchWords idx

/-- What a pass leaves. -/
theorem FullyRead.nextPass (h : FullyRead s) (idx : Index) :
    (∀ t, nextPass idx s = .again t → FullyRead t) ∧ ∀ r t, nextPass idx s = .leave (r, t) → FullyRead t := by
  have hnext : FullyRead (if drained s then Hrl.nextWords idx s else s) := by
    split
    · exact h.nextWords idx
    · exact h
  simp only [Hrl.nextPass]
  generalize (if drained s then Hrl.nextWords idx s else s) = u at hnext
  have hset := hnext.setBatchWords (findnexttid u.batchWords u.result).2.1
  split
  · exact ⟨by simp, fun r t ht => by cases ht; exact hnext⟩
  · split
    · exact ⟨fun t ht => by cases ht; exact hset, by simp⟩
    · exact ⟨by simp, fun r t ht => by cases ht; exact hset⟩

theorem unreadable_read (idx : Index) (h : FullyRead so.currPos) : unreadable idx so = false := by
  have hany : (so.currPos.posvecs.any fun v => v.batchWords.nwords == 0 && !v.readLastWords && readsLov idx v) = false := by
    rw [any_eq_false]
    intro v hv
    simp [h v hv]
  rw [unreadable, hany, Bool.and_false]

/-- Passes that do the same leave with the same location. -/
def SameNext (R : ScanOpaque → ScanOpaque → Prop) :
    Option (Option Nat × ScanOpaque) → Option (Option Nat × ScanOpaque) → Prop :=
  Option.Rel fun a b => a.1 = b.1 ∧ R a.2 b.2

/-- **Scans whose passes do the same return the same locations.** -/
theorem rest_alike {R : ScanOpaque → ScanOpaque → Prop}
    (hdone : ∀ so so', R so so' → so.currPos.done = so'.currPos.done)
    (hpass : ∀ so so', R so so' → Loop.Alike R (SameNext R) (markedPass idx so) (markedPass idx so'))
    (h : R so so') (fuel n : Nat) : so.rest idx fuel n = so'.rest idx fuel n := by
  have hnext {so so' : ScanOpaque} (h : R so so') : SameNext R (so.next idx fuel) (so'.next idx fuel) := by
    unfold ScanOpaque.next
    rw [← hdone so so' h]
    split
    · exact .some ⟨rfl, h⟩
    · have hrel := Loop.iterate_alike hpass fuel h
      generalize Loop.iterate (markedPass idx) fuel so = a at hrel
      generalize Loop.iterate (markedPass idx) fuel so' = b at hrel
      cases hrel with
      | none => exact .none
      | some h => exact h
  induction n generalizing so so' with
  | zero => rfl
  | succ n ih =>
    have hs := hnext h
    unfold rest
    generalize so.next idx fuel = a at hs
    generalize so'.next idx fuel = b at hs
    cases hs with
    | none => rfl
    | @some x y h =>
      obtain ⟨r, t⟩ := x
      obtain ⟨r', t'⟩ := y
      obtain ⟨rfl, ht⟩ := h
      cases r with
      | none => rfl
      | some tid => exact congrArg (Option.map (tid :: ·)) (ih ht)

/-- The same position, with everything read. -/
theorem rest_read (hread : FullyRead so.currPos) (h : so.currPos = so'.currPos)
    (fuel n : Nat) : so.rest idx fuel n = so'.rest idx fuel n := by
  refine rest_alike (R := fun so so' => so.currPos = so'.currPos ∧ FullyRead so.currPos) (fun _ _ h => congrArg _ h.1)
    (fun t t' ht => ?_) ⟨h, hread⟩ fuel n
  obtain ⟨heq, hread⟩ := ht
  obtain ⟨hagain, hleave⟩ := hread.nextPass idx
  have hr : unreadable idx t' = false := unreadable_read idx (heq ▸ hread)
  simp only [markedPass, unreadable_read idx hread, hr, Bool.false_eq_true, if_false, ← heq]
  cases hp : Hrl.nextPass idx t.currPos with
  | again s => exact .again ⟨rfl, hagain s hp⟩
  | leave r =>
    obtain ⟨r, s⟩ := r
    exact .leave (.some ⟨rfl, rfl, hleave r s hp⟩)

/-! ### Positions without words -/

/-- No words are left, in memory or to read. -/
structure Spent (s : ScanPos) : Prop where
  read : FullyRead s
  words : s.batchWords.nwords = 0
  vectors : ∀ v ∈ s.posvecs, v.batchWords.nwords = 0

theorem Spent.result (h : Spent s) (result : IterateResult) : Spent {s with result} :=
  ⟨h.read, h.words, h.vectors⟩

theorem Spent.setBatchWords (h : Spent s) {words : Batch} (hwords : words.nwords = 0) :
    Spent (s.setBatchWords words) := by
  refine ⟨h.read.setBatchWords words, ?_, ?_⟩
  · unfold ScanPos.setBatchWords
    split
    · exact hwords
    · rename_i hnot
      unfold ScanPos.batchWords
      split
      · rename_i v hv
        exact absurd hv (hnot v)
      · exact hwords
  · unfold ScanPos.setBatchWords
    split
    · intro u hu
      obtain rfl := mem_singleton.mp hu
      exact hwords
    · exact h.vectors

/-- The next words of a position without words: there are none. -/
theorem Spent.nextWords (h : Spent s) (idx : Index) :
    Spent (nextWords idx s) ∧ (nextWords idx s).done = true ∧ (nextWords idx s).result.nextTids = [] ∧
      (nextWords idx s).result.nextTidLoc = 0 := by
  have hset : Spent (s.setBatchWords {resetBatchwords s.batchWords with firstTid := s.result.nextTid}) :=
    h.setBatchWords rfl
  simp only [Hrl.nextWords]
  generalize s.setBatchWords {resetBatchwords s.batchWords with firstTid := s.result.nextTid} = t at hset
  have hend : nextBatchWords idx t = {t with done := true} := by
    have hempty : (batches t.posvecs).isEmpty = true := by
      rw [batches, List.isEmpty_iff, List.filter_eq_nil_iff]
      intro b hb
      obtain ⟨v, hv, rfl⟩ := mem_map.mp hb
      simp [hset.vectors v hv]
    simp only [nextBatchWords, hset.read.refill idx]
    split
    · rename_i v hv
      rw [if_pos (hset.vectors v (by rw [hv]; exact mem_cons_self))]
    · rw [if_pos hempty]
  rw [hend]
  exact ⟨⟨hset.read, hset.words, hset.vectors⟩, rfl, rfl, rfl⟩

/-- A pass over a position without words takes the next location. -/
theorem Spent.nextPass (h : Spent s) (idx : Index) :
    nextPass idx s =
      if s.result.nextTids.length ≤ s.result.nextTidLoc then .leave (none, Hrl.nextWords idx s)
      else
        let t := {s.setBatchWords s.batchWords with result := {s.result with nextTidLoc := s.result.nextTidLoc + 1}}
        if s.result.nextTids.getD s.result.nextTidLoc 0 = 0 then .again t
        else .leave (some (s.result.nextTids.getD s.result.nextTidLoc 0), t) := by
  have hdrained (u : ScanPos) (hu : Spent u) :
      drained u = decide (u.result.nextTids.length ≤ u.result.nextTidLoc) := by
    rw [drained, hu.words]
    rfl
  obtain ⟨hnext, -, htids, hloc⟩ := h.nextWords idx
  by_cases hle : s.result.nextTids.length ≤ s.result.nextTidLoc
  · have hd : drained s = true := by rw [hdrained s h]; exact decide_eq_true hle
    have hd' : drained (Hrl.nextWords idx s) = true := by
      rw [hdrained _ hnext, htids, hloc]
      rfl
    simp only [Hrl.nextPass, hd, if_true, hd', if_pos hle]
  · have hd : drained s = false := by rw [hdrained s h]; exact decide_eq_false hle
    have hfind : findnexttid s.batchWords s.result = (s.result.nextTids.getD s.result.nextTidLoc 0, s.batchWords,
        {s.result with nextTidLoc := s.result.nextTidLoc + 1}) := by
      simp only [findnexttid, if_neg hle]
      exact if_pos (Nat.lt_of_not_le hle)
    simp only [Hrl.nextPass, hd, Bool.false_eq_true, if_false, if_neg hle, hfind]

/-- Positions without words that have the same locations left. -/
structure SameTids (s s' : ScanPos) : Prop where
  left : Spent s
  right : Spent s'
  done : s.done = s'.done
  tids : s.result.nextTids = s'.result.nextTids
  loc : s.result.nextTidLoc = s'.result.nextTidLoc

theorem setBatchWords_done (s : ScanPos) (words : Batch) : (s.setBatchWords words).done = s.done := by
  unfold ScanPos.setBatchWords
  split <;> rfl

/-- They return the same. -/
theorem rest_sameTids (h : SameTids so.currPos so'.currPos) (fuel n : Nat) :
    so.rest idx fuel n = so'.rest idx fuel n := by
  refine rest_alike (R := fun so so' => SameTids so.currPos so'.currPos) (fun _ _ h => h.done) (fun t t' ht => ?_) h
    fuel n
  have hp := ht.left.nextPass idx
  have hp' := ht.right.nextPass idx
  rw [ht.tids, ht.loc] at hp
  simp only [markedPass, unreadable_read idx ht.left.read, unreadable_read idx ht.right.read, Bool.false_eq_true, if_false]
  by_cases hle : t'.currPos.result.nextTids.length ≤ t'.currPos.result.nextTidLoc
  · rw [if_pos hle] at hp hp'
    obtain ⟨hs, hdone, htids, hloc⟩ := ht.left.nextWords idx
    obtain ⟨hs', hdone', htids', hloc'⟩ := ht.right.nextWords idx
    rw [hp, hp']
    exact .leave (.some ⟨rfl, hs, hs', hdone.trans hdone'.symm, htids.trans htids'.symm, hloc.trans hloc'.symm⟩)
  · rw [if_neg hle] at hp hp'
    have hsame : SameTids
        {t.currPos.setBatchWords t.currPos.batchWords with
          result := {t.currPos.result with nextTidLoc := t'.currPos.result.nextTidLoc + 1}}
        {t'.currPos.setBatchWords t'.currPos.batchWords with
          result := {t'.currPos.result with nextTidLoc := t'.currPos.result.nextTidLoc + 1}} :=
      ⟨(ht.left.setBatchWords ht.left.words).result _, (ht.right.setBatchWords ht.right.words).result _,
        by simp only [setBatchWords_done, ht.done], ht.tids, rfl⟩
    by_cases hzero : t'.currPos.result.nextTids.getD t'.currPos.result.nextTidLoc 0 = 0
    · simp only [if_pos hzero] at hp hp'
      rw [hp, hp']
      exact .again hsame
    · simp only [if_neg hzero] at hp hp'
      rw [hp, hp']
      exact .leave (.some ⟨rfl, hsame⟩)

theorem setBatchWords_self (s : ScanPos) : s.setBatchWords s.batchWords = s := by
  obtain ⟨done, posvecs, unionWords, result⟩ := s
  cases posvecs with
  | nil => rfl
  | cons v vs => cases vs <;> rfl

/-- What every pass keeps holds after a call, and the mark stays. -/
theorem next_spec {P : ScanPos → Prop}
    (hP : ∀ s, P s → (∀ t, nextPass idx s = .again t → P t) ∧ ∀ r t, nextPass idx s = .leave (r, t) → P t)
    {r : Option Nat} (h : P so.currPos) (hnext : so.next idx fuel = some (r, so')) :
    P so'.currPos ∧ so'.markDone = so.markDone ∧ so'.markResult = so.markResult ∧
      so'.markPosValid = so.markPosValid ∧ (so.curPosValid = true → so'.curPosValid = true) := by
  let Inv (t : ScanOpaque) : Prop := P t.currPos ∧ t.markDone = so.markDone ∧ t.markResult = so.markResult ∧
    t.markPosValid = so.markPosValid ∧ (so.curPosValid = true → t.curPosValid = true)
  have hso : Inv so := ⟨h, rfl, rfl, rfl, id⟩
  unfold ScanOpaque.next at hnext
  split at hnext
  · cases hnext
    exact hso
  · refine Loop.iterate_induction Inv (fun out => ∀ r t, out = some (r, t) → Inv t) ?_ ?_ hso
      (Option.join_eq_some_iff.mp hnext) r so' rfl
    · intro t t' ht hb
      unfold markedPass at hb
      split at hb
      · cases hb
      · split at hb
        · rename_i s hs
          cases hb
          exact ⟨(hP _ ht.1).1 s hs, ht.2⟩
        · cases hb
    · intro t out ht hb
      unfold markedPass at hb
      split at hb
      · cases hb
        simp
      · split at hb
        · cases hb
        · rename_i r' s hs
          cases hb
          rintro r'' t'' heq
          cases heq
          refine ⟨(hP _ ht.1).2 r' s hs, ht.2.1, ht.2.2.1, ht.2.2.2.1, fun hv => ?_⟩
          show (t.curPosValid || r'.isSome) = true
          rw [ht.2.2.2.2 hv, Bool.true_or]

/-- The same for a number of calls. -/
theorem calls_spec {P : ScanPos → Prop}
    (hP : ∀ s, P s → (∀ t, nextPass idx s = .again t → P t) ∧ ∀ r t, nextPass idx s = .leave (r, t) → P t)
    {n : Nat} (h : P so.currPos) (hcalls : so.calls idx fuel n = some so') :
    P so'.currPos ∧ so'.markDone = so.markDone ∧ so'.markResult = so.markResult ∧
      so'.markPosValid = so.markPosValid ∧ (so.curPosValid = true → so'.curPosValid = true) := by
  induction n generalizing so with
  | zero =>
    cases hcalls
    exact ⟨h, rfl, rfl, rfl, id⟩
  | succ n ih =>
    unfold calls at hcalls
    cases hnext : so.next idx fuel with
    | none =>
      rw [hnext] at hcalls
      cases hcalls
    | some out =>
      obtain ⟨r, t⟩ := out
      rw [hnext] at hcalls
      obtain ⟨hP', hd, hr, hm, hv⟩ := next_spec hP h hnext
      obtain ⟨hP'', hd', hr', hm', hv'⟩ := ih hP' hcalls
      exact ⟨hP'', hd'.trans hd, hr'.trans hr, hm'.trans hm, fun h => hv' (hv h)⟩

/-- The locations in memory are not 0, which `_bitmap_findnexttid` returns for none. -/
def Positive (result : IterateResult) : Prop := ∀ t ∈ result.nextTids, t ≠ 0

theorem explainFill_positive (maxTids n : Nat) (s : TidScan) (h : Positive s.result) :
    Positive (explainFill maxTids n s).result := by
  induction n generalizing s with
  | zero => exact h
  | succ n ih =>
    unfold explainFill
    split
    · refine ih _ fun t ht => ?_
      rcases mem_append.mp ht with ht | ht
      · exact h t ht
      · have := (mem_range'.mp ht)
        omega
    · exact h

theorem findBitset_lt {w : Word} {pos : Nat} (h : findBitset w pos ≠ 0) : pos < findBitset w pos := by
  obtain ⟨h0, -⟩ | ⟨p, hp, hge, -, -⟩ := findBitsetFrom_spec w pos (16 - pos)
  · exact absurd h0 h
  · rw [findBitset, hp]
    omega

theorem scanLiteral_positive (maxTids fuel pos : Nat) (s : TidScan) (h : Positive s.result) :
    Positive (scanLiteral maxTids fuel pos s).result := by
  induction fuel generalizing s pos with
  | zero => exact h
  | succ fuel ih =>
    simp only [scanLiteral]
    split
    · split
      · rename_i hfound
        have hlt := findBitset_lt hfound
        refine ih _ _ fun t ht => ?_
        rcases mem_append.mp ht with ht | ht
        · exact h t ht
        · obtain rfl := mem_singleton.mp ht
          omega
      · exact h
    · exact h

theorem findnexttids_positive (words : Batch) (result : IterateResult) (maxTids : Nat) :
    Positive (findnexttids words result maxTids).2 := by
  refine Loop.whileN_induction (fun s : TidScan => Positive s.result) (fun s hs _ => ?_) _ ?_ _
  · simp only [tidsPass]
    split
    · exact hs
    · split
      · exact explainFill_positive _ _ s hs
      · exact scanLiteral_positive _ _ _ s hs
  · intro t ht
    exact absurd ht not_mem_nil

theorem positive_nextPass (idx : Index) (s : ScanPos) (h : Positive s.result) :
    (∀ t, nextPass idx s = .again t → Positive t.result) ∧
      ∀ r t, nextPass idx s = .leave (r, t) → Positive t.result := by
  have hnext : Positive (if drained s then nextWords idx s else s).result := by
    split
    · intro t ht
      exact absurd ht not_mem_nil
    · exact h
  have hfind (words : Batch) (result : IterateResult) (hr : Positive result) :
      Positive (findnexttid words result).2.2 := by
    simp only [findnexttid]
    split
    · have hf := findnexttids_positive words result batchTids
      split <;> exact hf
    · split <;> exact hr
  simp only [nextPass]
  generalize (if drained s then nextWords idx s else s) = u at hnext
  have htid := hfind u.batchWords u.result hnext
  split
  · exact ⟨by simp, fun r t ht => by cases ht; exact hnext⟩
  · split
    · exact ⟨fun t ht => by cases ht; exact htid, by simp⟩
    · exact ⟨by simp, fun r t ht => by cases ht; exact htid⟩

/-! ### Mark and restore -/

/-- A mark takes the locations of the position. -/
theorem bmmarkpos_eq (so : ScanOpaque) :
    ∃ lovBuffers, so.curPosValid = true ∧
        bmmarkpos so = {so with
          markDone := so.currPos.done, markResult := so.currPos.result, markPosValid := true, lovBuffers} ∨
      so.curPosValid = false ∧ bmmarkpos so = {so with markPosValid := false, lovBuffers} := by
  obtain ⟨currPos, curPosValid, markDone, markResult, markPosValid, lovBuffers⟩ := so
  cases markPosValid with
  | false =>
    refine ⟨lovBuffers, ?_⟩
    cases curPosValid with
    | false => exact .inr ⟨rfl, rfl⟩
    | true => exact .inl ⟨rfl, rfl⟩
  | true =>
    refine ⟨false, ?_⟩
    cases curPosValid with
    | false => exact .inr ⟨rfl, rfl⟩
    | true => exact .inl ⟨rfl, rfl⟩

/-- A restored position has them back, and the words of the position before. -/
theorem bmrestrpos_eq (h : so.markPosValid = true) :
    ∃ lovBuffers, bmrestrpos so = {so with
      currPos := {so.currPos with done := so.markDone, result := so.markResult}, curPosValid := true, lovBuffers} := by
  unfold bmrestrpos
  cases hc : so.curPosValid with
  | false => exact ⟨so.lovBuffers, by simp [h]⟩
  | true => exact ⟨false, by simp [h]⟩

/-- In every state of a scan, at the position and at the mark. -/
theorem ScanState.positive {lovs : List (Nat × Nat)} (h : ScanState idx lovs so) :
    Positive so.currPos.result ∧ Positive so.markResult := by
  induction h with
  | start =>
    refine ⟨?_, ?_⟩
    · intro t ht
      exact absurd ht not_mem_nil
    · intro t ht
      exact absurd ht not_mem_nil
  | next _ hnext ih =>
    obtain ⟨hpos, -, hr, -, -⟩ := next_spec (P := fun s => Positive s.result) (positive_nextPass idx) ih.1 hnext
    exact ⟨hpos, hr ▸ ih.2⟩
  | @mark so _ ih =>
    obtain ⟨lovBuffers, ⟨-, heq⟩ | ⟨-, heq⟩⟩ := bmmarkpos_eq so
    · rw [heq]
      exact ⟨ih.1, ih.1⟩
    · rw [heq]
      exact ih
  | restore _ hmark ih =>
    obtain ⟨lovBuffers, heq⟩ := bmrestrpos_eq hmark
    rw [heq]
    exact ⟨ih.2, ih.2⟩

theorem markedPass_leave {r : Option Nat} (hread : unreadable idx so = false)
    (h : nextPass idx so.currPos = .leave (r, s)) :
    markedPass idx so = .leave (some (r, {so with currPos := s, curPosValid := so.curPosValid || r.isSome})) := by
  simp only [markedPass, hread, Bool.false_eq_true, if_false, h]

/-- A call with locations in memory returns one of them, and touches nothing else. -/
theorem next_buffered (idx : Index) (hpos : Positive so.currPos.result)
    (hlt : so.currPos.result.nextTidLoc < so.currPos.result.nextTids.length) (fuel : Nat) :
    ∃ r so', so.next idx (fuel + 1) = some (r, so') ∧ so'.currPos.posvecs = so.currPos.posvecs ∧
      so'.currPos.unionWords = so.currPos.unionWords ∧
      so'.currPos.result.nextTids = so.currPos.result.nextTids ∧
      so'.currPos.result.nextTidLoc ≤ so.currPos.result.nextTidLoc + 1 := by
  unfold ScanOpaque.next
  split
  · exact ⟨none, so, rfl, rfl, rfl, rfl, Nat.le_succ _⟩
  · have hdrained : drained so.currPos = false := by
      rw [drained, decide_eq_false (Nat.not_le.mpr hlt), Bool.and_false]
    have hfind : findnexttid so.currPos.batchWords so.currPos.result =
        (so.currPos.result.nextTids.getD so.currPos.result.nextTidLoc 0, so.currPos.batchWords,
          {so.currPos.result with nextTidLoc := so.currPos.result.nextTidLoc + 1}) := by
      simp only [findnexttid, if_neg (Nat.not_le.mpr hlt)]
      exact if_pos hlt
    have htid : so.currPos.result.nextTids.getD so.currPos.result.nextTidLoc 0 ≠ 0 := by
      rw [getD_eq_getElem _ _ hlt]
      exact hpos _ (getElem_mem hlt)
    have hpass : nextPass idx so.currPos = .leave (some (so.currPos.result.nextTids.getD so.currPos.result.nextTidLoc 0),
        {so.currPos with result := {so.currPos.result with nextTidLoc := so.currPos.result.nextTidLoc + 1}}) := by
      simp only [nextPass, hdrained, Bool.false_eq_true, if_false, hfind, if_neg htid, setBatchWords_self]
    have hread : unreadable idx so = false := by simp [unreadable, hdrained]
    rw [Loop.iterate_leave (markedPass_leave hread hpass)]
    exact ⟨_, _, rfl, rfl, rfl, rfl, le_refl _⟩

/-- Calls that the locations in memory are enough for. -/
theorem calls_buffered (idx : Index) {n : Nat} (hpos : Positive so.currPos.result)
    (hle : so.currPos.result.nextTidLoc + n ≤ so.currPos.result.nextTids.length) :
    (∃ so', so.calls idx 1 n = some so') ∧ ∀ fuel so', so.calls idx fuel n = some so' →
      so'.currPos.posvecs = so.currPos.posvecs ∧ so'.currPos.unionWords = so.currPos.unionWords := by
  induction n generalizing so with
  | zero =>
    refine ⟨⟨so, rfl⟩, fun fuel so' h => ?_⟩
    cases h
    exact ⟨rfl, rfl⟩
  | succ n ih =>
    have hkeep {t : ScanOpaque} (htids : t.currPos.result.nextTids = so.currPos.result.nextTids)
        (hloc : t.currPos.result.nextTidLoc ≤ so.currPos.result.nextTidLoc + 1) := by
      have hpos' : Positive t.currPos.result := by
        unfold Positive
        rw [htids]
        exact hpos
      exact ih hpos' (by rw [htids]; omega)
    constructor
    · obtain ⟨r, t, hnext, -, -, htids, hloc⟩ := next_buffered idx hpos (by omega) 0
      obtain ⟨so', hcalls⟩ := (hkeep htids hloc).1
      exact ⟨so', by simp only [calls, hnext]; exact hcalls⟩
    · intro fuel so' hcalls
      unfold calls at hcalls
      cases fuel with
      | zero =>
        -- without fuel only a scan that is done returns
        unfold ScanOpaque.next at hcalls
        split at hcalls
        · cases hcalls
        · rename_i out t hnext
          split at hnext
          · cases hnext
            exact (hkeep rfl (Nat.le_succ _)).2 0 so' hcalls
          · cases hnext
      | succ fuel =>
        obtain ⟨r, t, hnext, hvecs, hunion, htids, hloc⟩ := next_buffered idx hpos (by omega) fuel
        rw [hnext] at hcalls
        obtain ⟨hvecs', hunion'⟩ := (hkeep htids hloc).2 (fuel + 1) so' hcalls
        exact ⟨hvecs'.trans hvecs, hunion'.trans hunion⟩

theorem spent_nextPass (idx : Index) (s : ScanPos) (h : Spent s) :
    (∀ t, nextPass idx s = .again t → Spent t) ∧ ∀ r t, nextPass idx s = .leave (r, t) → Spent t := by
  rw [h.nextPass idx, setBatchWords_self]
  split
  · exact ⟨by simp, fun r t ht => by cases ht; exact (h.nextWords idx).1⟩
  · have ht := h.result {s.result with nextTidLoc := s.result.nextTidLoc + 1}
    simp only
    split
    · exact ⟨fun t heq => by cases heq; exact ht, by simp⟩
    · exact ⟨by simp, fun r t heq => by cases heq; exact ht⟩

/-- Calls at a position without words. -/
theorem calls_spent {n : Nat} (hpos : Positive so.currPos.result)
    (hspent : Spent so.currPos) (fuel : Nat) : ∃ so', so.calls idx (fuel + 1) n = some so' := by
  induction n generalizing so with
  | zero => exact ⟨so, rfl⟩
  | succ n ih =>
    obtain ⟨r, t, hnext⟩ : ∃ r t, so.next idx (fuel + 1) = some (r, t) := by
      by_cases hlt : so.currPos.result.nextTidLoc < so.currPos.result.nextTids.length
      · obtain ⟨r, t, hnext, -⟩ := next_buffered idx hpos hlt fuel
        exact ⟨r, t, hnext⟩
      · have hpass := hspent.nextPass idx
        rw [if_pos (Nat.not_lt.mp hlt)] at hpass
        unfold ScanOpaque.next
        split
        · exact ⟨_, _, rfl⟩
        · rw [Loop.iterate_leave (markedPass_leave (unreadable_read idx hspent.read) hpass)]
          exact ⟨_, _, rfl⟩
    have hpos' := (next_spec (P := fun s => Positive s.result) (positive_nextPass idx) hpos hnext).1
    have hspent' := (next_spec (spent_nextPass idx) hspent hnext).1
    obtain ⟨so', hcalls⟩ := ih hpos' hspent'
    refine ⟨so', ?_⟩
    simp only [calls, hnext]
    exact hcalls

/-- A mark, `n` calls and a restore leave a scan that returns what it would have returned
from the mark on. -/
def Restores (idx : Index) (so : ScanOpaque) (n : Nat) : Prop :=
  (∃ fuel so', (bmmarkpos so).calls idx fuel n = some so') ∧
    ∀ fuel so', (bmmarkpos so).calls idx fuel n = some so' →
      ∀ tids, (bmrestrpos so').Returns idx tids ↔ so.Returns idx tids

/-- All words of all vectors have been read, and either the locations in memory are enough
for `n` calls or no words are left. -/
def MarkSafe (s : ScanPos) (n : Nat) : Prop :=
  FullyRead s ∧ s.result.nextTidLoc + n ≤ s.result.nextTids.length ∨ Spent s

/-- The position after mark, calls and restore. -/
theorem restored {n : Nat} (hvalid : so.curPosValid = true)
    (hcalls : (bmmarkpos so).calls idx fuel n = some so') :
    (bmrestrpos so').currPos = {so'.currPos with done := so.currPos.done, result := so.currPos.result} := by
  obtain ⟨lovBuffers, ⟨-, hmark⟩ | ⟨hno, -⟩⟩ := bmmarkpos_eq so
  · obtain ⟨-, hdone, hresult, hm, -⟩ := calls_spec (P := fun _ => True) (fun _ _ => ⟨fun _ _ => trivial, fun _ _ _ => trivial⟩)
      trivial hcalls
    rw [hmark] at hdone hresult hm
    obtain ⟨lovBuffers', hrestr⟩ := bmrestrpos_eq hm
    rw [hrestr, hdone, hresult]
  · rw [hvalid] at hno
    cases hno

/-- **When a scan can be restored.** -/
theorem mark_restores (idx : Index) (lovs : List (Nat × Nat)) (so : ScanOpaque) (h : ScanState idx lovs so)
    (hvalid : so.curPosValid = true) (n : Nat) (hsafe : MarkSafe so.currPos n) : Restores idx so n := by
  obtain ⟨lovBuffers, ⟨-, hmark⟩ | ⟨hno, -⟩⟩ := bmmarkpos_eq so
  · have hcurr : (bmmarkpos so).currPos = so.currPos := by rw [hmark]
    have hpos : Positive (bmmarkpos so).currPos.result := hcurr ▸ h.positive.1
    rcases hsafe with ⟨hread, hle⟩ | hspent
    · obtain ⟨hex, hkeep⟩ := calls_buffered idx hpos (by rw [hcurr]; exact hle)
      refine ⟨⟨1, hex⟩, fun fuel so' hcalls tids => ?_⟩
      obtain ⟨hvecs, hunion⟩ := hkeep fuel so' hcalls
      have hsame : so.currPos = (bmrestrpos so').currPos := by
        rw [restored hvalid hcalls]
        show so.currPos = ⟨so.currPos.done, so'.currPos.posvecs, so'.currPos.unionWords, so.currPos.result⟩
        rw [hvecs, hunion, hcurr]
      unfold ScanOpaque.Returns
      simp only [rest_read hread hsame]
    · refine ⟨⟨1, calls_spent hpos (hcurr ▸ hspent) 0⟩, fun fuel so' hcalls tids => ?_⟩
      have hspent' := (calls_spec (spent_nextPass idx) (hcurr ▸ hspent) hcalls).1
      have hsame : SameTids (bmrestrpos so').currPos so.currPos := by
        rw [restored hvalid hcalls]
        exact ⟨⟨hspent'.read, hspent'.words, hspent'.vectors⟩, hspent, rfl, rfl, rfl⟩
      unfold ScanOpaque.Returns
      simp only [rest_sameTids hsame]
  · rw [hvalid] at hno
    cases hno

theorem next_mono {fuel' : Nat} (hle : fuel ≤ fuel') {out : Option Nat × ScanOpaque}
    (h : so.next idx fuel = some out) : so.next idx fuel' = some out := by
  unfold ScanOpaque.next at h ⊢
  split
  · rename_i hdone
    rw [if_pos hdone] at h
    exact h
  · rename_i hdone
    rw [if_neg hdone] at h
    rw [Loop.iterate_mono fuel' hle (Option.join_eq_some_iff.mp h)]
    rfl

/-- A scan that returns a location does not end at once. -/
theorem not_returns_nil {tid : Nat} (h : so.next idx fuel = some (some tid, so')) : ¬so.Returns idx [] := by
  rintro ⟨fuel', n, hrest⟩
  cases n with
  | zero => cases hrest
  | succ n =>
    unfold rest at hrest
    cases hnext : so.next idx fuel' with
    | none =>
      rw [hnext] at hrest
      cases hrest
    | some out =>
      have h1 := next_mono (le_max_left fuel fuel') h
      have h2 := next_mono (le_max_right fuel fuel') hnext
      rw [h1] at h2
      cases h2
      rw [hnext] at hrest
      simp at hrest

/-- A vector with the bits 1 and 17, on a page each. -/
def twoPages : Index where
  nblocks := 4
  page := fun i =>
    { hwords := fun _ => 0, cwords := fun _ => 1, hrlWordsUsed := 1
      bitmapNext := if i = 2 then 3 else invalidBlockNumber, lastTidLocation := if i = 2 then 16 else 32 }
  lov := fun _ =>
    { lovHead := 2, lovTail := 3, lastCompword := literalAllOne, lastWord := 0, lastTidLocation := 32, lastSetbit := 17
      wordsHeader := lovWordsNoFill }

/-- The scan has returned bit 1. -/
def atFirst : ScanOpaque := (((beginScan twoPages [(1, 1)]).next twoPages 1).getD (none, beginScan twoPages [])).2

theorem atFirst_next : (beginScan twoPages [(1, 1)]).next twoPages 1 = some (some 1, atFirst) := rfl

theorem atFirst_state : ScanState twoPages [(1, 1)] atFirst := ScanState.start.next atFirst_next

/-- The scan has returned both bits. -/
def atSecond : ScanOpaque := ((atFirst.next twoPages 1).getD (none, atFirst)).2

theorem atSecond_next : atFirst.next twoPages 1 = some (some 17, atSecond) := rfl

theorem atSecond_spent : Spent atSecond.currPos := by
  refine ⟨?_, rfl, ?_⟩
  · intro v hv
    obtain rfl := mem_singleton.mp hv
    rfl
  · intro v hv
    obtain rfl := mem_singleton.mp hv
    rfl

theorem mark_restores_second : Restores twoPages atSecond 3 :=
  mark_restores twoPages [(1, 1)] atSecond (atFirst_state.next atSecond_next) rfl 3 (.inr atSecond_spent)

/-- Marked after bit 1 and restored after bit 17, the scan ends without bit 17. -/
theorem mark_loses_tid :
    (ScanState twoPages [(1, 1)] atFirst ∧ atFirst.curPosValid = true ∧ atFirst.Returns twoPages [17]) ∧
      ¬Restores twoPages atFirst 1 := by
  refine ⟨⟨atFirst_state, rfl, 1, 2, rfl⟩, fun h => ?_⟩
  have hcalls : (bmmarkpos atFirst).calls twoPages 1 1 = some ((bmmarkpos atFirst).calls twoPages 1 1 |>.getD atFirst) := rfl
  have hends : (bmrestrpos ((bmmarkpos atFirst).calls twoPages 1 1 |>.getD atFirst)).Returns twoPages [] := ⟨1, 1, rfl⟩
  exact not_returns_nil atSecond_next ((h.2 1 _ hcalls []).mp hends)

end PgStorage.Hrl
