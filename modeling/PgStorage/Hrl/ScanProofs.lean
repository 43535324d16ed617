import PgStorage.Hrl.ReadProofs
import PgStorage.Hrl.TidProofs

/-! What a scan returns.

A scan that has read `pos` words of its vectors has to return the locations still in
memory, then those of the OR of the vectors from word `pos` on (`toCome`). Every step of
`_bitmap_next` takes one location off the front or moves words into memory. The
scan ends too early in one case only: the words in memory are stuck (`stalls`), so
that the union gives no word, while set bits are left. -/
namespace PgStorage.Hrl
open List ScanPos
open List (Forall₂)

/-- A vector of a scan of several, when the scan is at word `pos`. -/
structure VecAt (idx : Index) (pos : Nat) (w : List Word) (v : VectorPos) : Prop where
  reads : ∃ f, Unread idx v f ∧ Reads pos w f v.batchWords
  next : v.batchWords.nwords ≠ 0 ∨ v.readLastWords = false → v.batchWords.nextread.toNat = pos + 1

/-- Nothing is left of a vector. -/
def Finished (v : VectorPos) : Prop := v.batchWords.nwords = 0 → v.readLastWords = true

variable {idx : Index} {v : VectorPos} {ws : List (List Word)} {s : ScanPos}

theorem refill_finished {f : List Word} (hun : Unread idx v f) :
    Finished (refill idx v) := by
  intro h0
  unfold refill at h0 ⊢
  split at h0
  · rename_i hempty
    have := (readWords_spec (v := {v with batchWords := resetBatchwords v.batchWords}) hun hempty.2 rfl).some
    omega
  · rename_i hmore
    rw [if_neg hmore]
    by_contra hc
    exact hmore ⟨h0, by simpa using hc⟩

theorem VecAt.refill {pos : Nat} {w : List Word} (h : VecAt idx pos w v) :
    VecAt idx pos w (refill idx v) ∧ Finished (refill idx v) := by
  obtain ⟨f, hun, hreads⟩ := h.reads
  obtain ⟨f', hun', hreads', hnext, -⟩ := refill_reads hun hreads
  refine ⟨⟨⟨f', hun', hreads'⟩, fun hmore => ?_⟩, refill_finished hun⟩
  rw [hnext]
  apply h.next
  by_contra hc
  rw [not_or, not_not, Bool.not_eq_false] at hc
  rw [Hrl.refill, if_neg (by simp [hc.2])] at hmore
  rcases hmore with hmore | hmore
  · exact hmore hc.1
  · exact absurd (hc.2.symm.trans hmore) (by decide)

/-- The batches with words, and the vectors they come from: the others have nothing
from `pos` on. -/
theorem batches_streams {pos : Nat} {vs : List VectorPos}
    (h : Forall₂ (fun w v => VecAt idx pos w v ∧ Finished v) ws vs) :
    ∃ ss, AllRead pos ss (batches vs) ∧ (∀ s ∈ ss, s.1 ∈ ws) ∧
      (orStreams ss).drop pos = (orAll ws).drop pos ∧ (∀ b ∈ batches vs, b.nextread.toNat = pos + 1) ∧
      ∀ pos' bs, pos ≤ pos' → AllRead pos' ss bs → (∀ b ∈ bs, b.nextread.toNat = pos' + 1) →
        Forall₂ (VecAt idx pos') ws (putBack vs bs) := by
  induction h with
  | nil =>
    refine ⟨[], .nil, by simp, rfl, by simp [batches], ?_⟩
    intro pos' bs _ _ _
    exact .nil
  | @cons w v ws vs hv _ ih =>
    obtain ⟨ss, hreads, hmem, hor, hnext, hback⟩ := ih
    obtain ⟨hat, hfin⟩ := hv
    obtain ⟨f, hun, hr⟩ := hat.reads
    by_cases h0 : v.batchWords.nwords = 0
    · have hlast := hfin h0
      have hb : batches (v :: vs) = batches vs := by simp [batches, h0]
      have hnil : f = [] := by
        rw [Unread, hlast, if_pos rfl] at hun
        exact hun
      have hrest := hr.rest
      have hbehind := hr.behind
      rw [(Batch.words_eq_nil_iff hr.valid).mpr h0, hnil, nil_append, eq_comm, drop_eq_nil_iff] at hrest
      have hw : w.drop pos = [] := drop_eq_nil_of_le (by omega)
      refine ⟨ss, ?_, ?_, ?_, ?_, ?_⟩
      · rw [hb]
        exact hreads
      · exact fun s hs => mem_cons_of_mem _ (hmem s hs)
      · rw [hor, orAll_cons, orWords_drop, hw, orWords_nil_left]
      · rw [hb]
        exact hnext
      · intro pos' bs hle hbs hn
        unfold putBack
        rw [if_pos h0]
        refine .cons ⟨⟨f, hun, hr.mono hle⟩, fun hmore => ?_⟩ (hback pos' bs hle hbs hn)
        exact absurd hmore (by simp [h0, hlast])
    · have hb : batches (v :: vs) = v.batchWords :: batches vs := by simp [batches, h0]
      refine ⟨(w, f) :: ss, ?_, ?_, ?_, ?_, ?_⟩
      · rw [hb]
        exact .cons hr hreads
      · intro s hs
        rcases mem_cons.mp hs with rfl | hs
        · exact mem_cons_self
        · exact mem_cons_of_mem _ (hmem s hs)
      · rw [orAll_cons, orWords_drop, ← hor]
        exact orWords_drop ..
      · rw [hb]
        intro b hbm
        rcases mem_cons.mp hbm with rfl | hbm
        · exact hat.next (.inl h0)
        · exact hnext b hbm
      · intro pos' bs hle hbs hn
        cases hbs with
        | @cons _ b _ bs hb' hbs' =>
          unfold putBack
          rw [if_neg h0]
          refine .cons ⟨⟨f, hun, hb'⟩, fun _ => hn b mem_cons_self⟩ ?_
          exact hback pos' bs hle hbs' fun c hc => hn c (mem_cons_of_mem _ hc)

/-- The scan stalls here: it needs words, and the union of those in memory, once every
vector has been refilled, is stuck. -/
def stalls (idx : Index) (s : ScanPos) : Bool :=
  match s.posvecs with
  | [_] => false
  | vs =>
    match batches (vs.map (refill idx)) with
    | [] => false
    | b :: bs => stuck b.nextread (b :: bs)

/-- The words of the vectors `ws` from word `pos` on are not in `batchWords` yet. Several
vectors are short enough for their words to be counted in 32 bits. -/
def Ahead (idx : Index) (ws : List (List Word)) (pos : Nat) (s : ScanPos) : Prop :=
  match s.posvecs with
  | [v] => Unread idx v ((orAll ws).drop pos)
  | vs => s.unionWords.maxNumOfWords = hrlWordsPerPage ∧ (∀ w ∈ ws, w.length < 2 ^ 32 - 1) ∧
    Forall₂ (VecAt idx pos) ws vs

/-- What the computation of the next words comes to. -/
structure NextWords (idx : Index) (ws : List (List Word)) (pos : Nat) (s s' : ScanPos) : Prop where
  ahead : Ahead idx ws (pos + s'.batchWords.words.length) s'
  words : s'.batchWords.words ++ (orAll ws).drop (pos + s'.batchWords.words.length) = (orAll ws).drop pos
  valid : ∀ c ∈ s'.batchWords.mem, c.Valid
  result : s'.result = beginIterate s'.batchWords
  firstTid : s'.batchWords.firstTid = s.result.nextTid
  done : s'.done = true → s'.batchWords.nwords = 0
  ended : s'.batchWords.nwords = 0 ↔ (orAll ws).drop pos = [] ∨ stalls idx s = true

/-- Refilling a vector whose words in memory are used up. -/
theorem refill_empty {f : List Word} (hun : Unread idx v f) (hn : v.batchWords.nwords = 0) :
    (∀ c ∈ (refill idx v).batchWords.mem, c.Valid) ∧
      (∃ f', Unread idx (refill idx v) f' ∧ f = (refill idx v).batchWords.words ++ f') ∧
      (refill idx v).batchWords.firstTid = v.batchWords.firstTid ∧
      ((refill idx v).batchWords.nwords = 0 ↔ f = []) := by
  have hempty {b : Batch} (hb : b.nwords = 0) : b.mem = [] := by rw [Batch.mem, hb]; rfl
  unfold refill
  split
  · rename_i hlast
    have hspec := readWords_spec (v := {v with batchWords := resetBatchwords v.batchWords}) hun hlast.2 rfl
    obtain ⟨f', hun', hf⟩ := hspec.rest
    refine ⟨hspec.valid, ⟨f', hun', hf⟩, hspec.firstTid, ?_⟩
    have hsome := hspec.some
    constructor
    · intro h0
      omega
    · intro hnil
      rw [hnil, eq_comm, append_eq_nil_iff] at hf
      exact (Batch.words_eq_nil_iff hspec.valid).mp hf.1
  · rename_i hmore
    have hlast : v.readLastWords = true := by
      by_contra hc
      exact hmore ⟨hn, by simpa using hc⟩
    have hnil : f = [] := by
      rw [Unread, hlast, if_pos rfl] at hun
      exact hun
    refine ⟨by simp [hempty hn], ⟨f, hun, ?_⟩, rfl, by simp [hn, hnil]⟩
    rw [Batch.words, hempty hn, expand_nil, nil_append]

theorem nextWords_one {pos : Nat}
    (hvs : s.posvecs = [v]) (hahead : Ahead idx ws pos s) (hdone : s.done = false) :
    NextWords idx ws pos s (nextWords idx s) := by
  have hun : Unread idx v ((orAll ws).drop pos) := by
    rw [Ahead, hvs] at hahead
    exact hahead
  have hstalls : stalls idx s = false := by rw [stalls, hvs]
  set v' : VectorPos := {v with batchWords :=
    {resetBatchwords v.batchWords with firstTid := s.result.nextTid}} with hv'
  obtain ⟨hvalid, ⟨f', hun', hf⟩, hfirst, hended⟩ := refill_empty (v := v') hun rfl
  have hf' : f' = (orAll ws).drop (pos + (refill idx v').batchWords.words.length) := by
    rw [← drop_drop, hf, drop_left]
  have hcommon {d : Bool} (hd : d = true → (refill idx v').batchWords.nwords = 0) :
      NextWords idx ws pos s
        {s with done := d, posvecs := [refill idx v'], result := beginIterate (refill idx v').batchWords} := by
    refine ⟨?_, ?_, hvalid, rfl, hfirst, hd, ?_⟩
    · show Unread idx (refill idx v') ((orAll ws).drop (pos + (refill idx v').batchWords.words.length))
      rw [← hf']
      exact hun'
    · show (refill idx v').batchWords.words ++ (orAll ws).drop (pos + (refill idx v').batchWords.words.length) = _
      rw [← hf', hf]
    · rw [hstalls, show (false = true) = False from eq_false Bool.false_ne_true, or_false]
      exact hended
  have hnext : nextWords idx s =
      (if (refill idx v').batchWords.nwords = 0 then
        {s with done := true, posvecs := [refill idx v'], result := beginIterate (refill idx v').batchWords}
      else {s with posvecs := [refill idx v'], result := beginIterate (refill idx v').batchWords}) := by
    simp only [nextWords, setBatchWords, batchWords, hvs, nextBatchWords, map_cons, map_nil,
      ← hv']
    split <;> rfl
  rw [hnext]
  split
  · rename_i h0
    exact hcommon fun _ => h0
  · exact hcommon fun hc => absurd (hdone.symm.trans hc) Bool.false_ne_true

section
variable {s : ScanPos} (hlen : s.posvecs.length ≠ 1)
include hlen

theorem batchWords_several : s.batchWords = s.unionWords := by
  unfold batchWords
  split
  · rename_i v hvs
    rw [hvs] at hlen
    exact absurd rfl hlen
  · rfl

theorem setBatchWords_several (words : Batch) : s.setBatchWords words = {s with unionWords := words} := by
  unfold setBatchWords
  split
  · rename_i v hvs
    rw [hvs] at hlen
    exact absurd rfl hlen
  · rfl

theorem ahead_several {idx : Index} {ws : List (List Word)} {pos : Nat} :
    Ahead idx ws pos s ↔ s.unionWords.maxNumOfWords = hrlWordsPerPage ∧ (∀ w ∈ ws, w.length < 2 ^ 32 - 1) ∧
      Forall₂ (VecAt idx pos) ws s.posvecs := by
  unfold Ahead
  split
  · rename_i v hvs
    rw [hvs] at hlen
    exact absurd rfl hlen
  · rfl

theorem stalls_several (idx : Index) : stalls idx s =
    match batches (s.posvecs.map (refill idx)) with
    | [] => false
    | b :: bs => stuck b.nextread (b :: bs) := by
  unfold stalls
  split
  · rename_i v hvs
    rw [hvs] at hlen
    exact absurd rfl hlen
  · rfl

theorem nextBatchWords_several (idx : Index) : nextBatchWords idx s =
    if (batches (s.posvecs.map (refill idx))).isEmpty then {s with done := true, posvecs := s.posvecs.map (refill idx)}
    else {s with
      posvecs := putBack (s.posvecs.map (refill idx)) (union (batches (s.posvecs.map (refill idx))) s.unionWords).1
      unionWords := (union (batches (s.posvecs.map (refill idx))) s.unionWords).2} := by
  simp only [nextBatchWords]
  split
  · rename_i v hvs
    have := congrArg length hvs
    rw [length_map] at this
    exact absurd this hlen
  · rfl

end

theorem putBack_length (vs : List VectorPos) (bs : List Batch) : (putBack vs bs).length = vs.length := by
  induction vs generalizing bs with
  | nil => rfl
  | cons v vs ih =>
    unfold putBack
    split
    · rw [length_cons, ih, length_cons]
    · cases bs with
      | nil => rfl
      | cons b bs => exact congrArg (· + 1) (ih bs)

theorem NextWords.several {pos : Nat} {d : Bool}
    {vs : List VectorPos} {r q : Batch} (hlen : vs.length ≠ 1) (hspace : r.maxNumOfWords = hrlWordsPerPage)
    (hsize : ∀ w ∈ ws, w.length < 2 ^ 32 - 1) (hvecs : Forall₂ (VecAt idx (pos + r.words.length)) ws vs)
    (hwords : r.words ++ (orAll ws).drop (pos + r.words.length) = (orAll ws).drop pos) (hfresh : Fresh r)
    (hfirst : r.firstTid = s.result.nextTid) (hdone : d = true → r.nwords = 0)
    (hended : r.nwords = 0 ↔ (orAll ws).drop pos = [] ∨ stalls idx s = true) (hq : q = r) :
    NextWords idx ws pos s ⟨d, vs, r, beginIterate q⟩ := by
  have hb : batchWords ⟨d, vs, r, beginIterate q⟩ = r := batchWords_several hlen
  refine ⟨?_, ?_, ?_, ?_, ?_, ?_, ?_⟩
  · rw [hb]
    exact (ahead_several hlen).mpr ⟨hspace, hsize, hvecs⟩
  · rw [hb]
    exact hwords
  · rw [hb]
    exact hfresh.valid
  · rw [hb, hq]
  · rw [hb]
    exact hfirst
  · rw [hb]
    exact hdone
  · rw [hb]
    exact hended

theorem nextWords_several {pos : Nat}
    (hlen : s.posvecs.length ≠ 1) (hahead : Ahead idx ws pos s) (hdone : s.done = false) :
    NextWords idx ws pos s (nextWords idx s) := by
  obtain ⟨hspace, hsize, hvecs⟩ := (ahead_several hlen).mp hahead
  have hrefill : Forall₂ (fun w v => VecAt idx pos w v ∧ Finished v) ws (s.posvecs.map (refill idx)) :=
    forall₂_map_right_iff.mpr (hvecs.imp fun _ _ h => h.refill)
  obtain ⟨ss, hreads, hmem, hor, hnext, hback⟩ := batches_streams hrefill
  have hlen' : (s.posvecs.map (refill idx)).length ≠ 1 := by rw [length_map]; exact hlen
  set r : Batch := {resetBatchwords s.unionWords with firstTid := s.result.nextTid} with hr
  have hfresh : Fresh r := ⟨rfl, (fresh_reset s.unionWords).valid, (fresh_reset s.unionWords).clear⟩
  have hstep : nextWords idx s =
      {nextBatchWords idx {s with unionWords := r} with
        result := beginIterate (nextBatchWords idx {s with unionWords := r}).batchWords} := by
    rw [nextWords, batchWords_several hlen, setBatchWords_several hlen]
  have hstalls := stalls_several hlen idx
  rw [hstep, nextBatchWords_several (s := {s with unionWords := r}) hlen]
  dsimp only
  cases hbs : batches (s.posvecs.map (refill idx)) with
  | nil =>
    rw [hbs] at hreads
    cases hreads
    have hnil : (orAll ws).drop pos = [] := hor.symm.trans (by simp [orStreams, orAll])
    rw [isEmpty_nil, if_pos rfl]
    refine NextWords.several hlen' hspace hsize (hrefill.imp fun _ _ h => h.1) ?_ hfresh rfl (fun _ => rfl) ?_
      (batchWords_several hlen')
    · rfl
    · simp only [hnil, true_or, iff_true]
      rfl
  | cons b bs =>
    rw [hbs] at hreads hnext hstalls
    have hspec := union_spec (fun t ht => hsize t.1 (hmem t ht)) (hnext b mem_cons_self) hreads hfresh rfl
    have hended := union_nwords_iff b bs (r := r) rfl (by rw [show r.maxNumOfWords = hrlWordsPerPage from hspace]; decide)
    rw [isEmpty_cons, if_neg (by decide)]
    generalize union (b :: bs) r = out at hspec hended
    obtain ⟨bs', r'⟩ := out
    have hput : (putBack (s.posvecs.map (refill idx)) bs').length ≠ 1 := by rw [putBack_length]; exact hlen'
    have hdrop : (orStreams ss).drop (pos + r'.words.length) = (orAll ws).drop (pos + r'.words.length) := by
      rw [← drop_drop, hor, drop_drop]
    have hwords := hspec.words
    rw [hdrop, hor] at hwords
    refine NextWords.several hput (hspec.space.trans hspace) hsize
      (hback _ bs' (Nat.le_add_right ..) hspec.reads hspec.next) hwords hspec.fresh hspec.firstTid
      (fun hc => absurd (hdone.symm.trans hc) Bool.false_ne_true) ?_ (batchWords_several hput)
    rw [hstalls, ← hended]
    constructor
    · exact .inr
    · rintro (hnil | h0)
      · rw [hnil, append_eq_nil_iff] at hwords
        exact (Batch.words_eq_nil_iff hspec.fresh.valid).mp hwords.1
      · exact h0

theorem nextWords_spec {pos : Nat}
    (hahead : Ahead idx ws pos s) (hdone : s.done = false) : NextWords idx ws pos s (nextWords idx s) := by
  by_cases hlen : s.posvecs.length = 1
  · obtain ⟨v, hvs⟩ := length_eq_one_iff.mp hlen
    exact nextWords_one hvs hahead hdone
  · exact nextWords_several hlen hahead hdone

/-! ### One pass of `_bitmap_next` -/

/-- The number of words of the vectors that have been moved to memory. -/
def ScanPos.pos (s : ScanPos) : Nat := endTid s.batchWords s.result / 16

structure ScanInv (idx : Index) (ws : List (List Word)) (s : ScanPos) : Prop where
  notDone : s.done = false
  ahead : Ahead idx ws s.pos s
  at_ : TidsAt s.batchWords s.result
  last : endTid s.batchWords s.result = 16 * s.pos

/-- The locations the scan has still to return. -/
def toCome (ws : List (List Word)) (s : ScanPos) : List Nat :=
  remaining s.batchWords s.result ++ tidsFrom (16 * s.pos) ((orAll ws).drop s.pos)

theorem ScanInv.of_pos {pos : Nat} (hdone : s.done = false)
    (hahead : Ahead idx ws pos s) (hat : TidsAt s.batchWords s.result)
    (hlast : endTid s.batchWords s.result = 16 * pos) : ScanInv idx ws s ∧ s.pos = pos := by
  have hpos : s.pos = pos := by
    rw [ScanPos.pos, hlast, Nat.mul_div_cancel_left _ (by decide)]
  refine ⟨⟨hdone, ?_, hat, ?_⟩, hpos⟩
  · rw [hpos]
    exact hahead
  · rw [hpos]
    exact hlast

theorem drained_iff (s : ScanPos) :
    drained s = true ↔ s.batchWords.nwords = 0 ∧ s.result.nextTids.length ≤ s.result.nextTidLoc := by
  simp [drained]

/-- A drained scan has to return the locations of the words not in memory. -/
theorem ScanInv.drained (h : ScanInv idx ws s) (hd : drained s = true) :
    s.result.nextTid = 16 * s.pos ∧ toCome ws s = tidsFrom (16 * s.pos) ((orAll ws).drop s.pos) := by
  obtain ⟨hn, hloc⟩ := (drained_iff s).mp hd
  have hcells : scanCells s.batchWords s.result = [] := by rw [scanCells, hn]; rfl
  have hpos0 : s.result.lastScanPos = 0 := by
    by_contra hc
    obtain ⟨w, cs, hlit⟩ := h.at_.literal hc
    rw [hcells] at hlit
    exact absurd hlit (by simp)
  constructor
  · have := h.last
    rw [endTid, hcells, hpos0] at this
    simpa using this
  · rw [toCome, remaining, hcells, drop_eq_nil_of_le hloc]
    rfl

/-- Moving the next words to memory keeps what is to come. -/
theorem nextWords_inv (h : ScanInv idx ws s) (hd : drained s = true) :
    toCome ws (nextWords idx s) = toCome ws s ∧
      (Hrl.drained (nextWords idx s) = true ↔ (orAll ws).drop s.pos = [] ∨ stalls idx s = true) ∧
      (Hrl.drained (nextWords idx s) = false → ScanInv idx ws (nextWords idx s) ∧ s.pos < (nextWords idx s).pos ∧
        s.pos < (orAll ws).length) := by
  obtain ⟨htid, hcome⟩ := h.drained hd
  have hnw := nextWords_spec h.ahead h.notDone
  generalize nextWords idx s = s' at hnw ⊢
  have hdr : Hrl.drained s' = true ↔ s'.batchWords.nwords = 0 := by
    rw [drained_iff, hnw.result]
    simp [beginIterate]
  have hcells : scanCells s'.batchWords s'.result = s'.batchWords.mem := by
    rw [scanCells, hnw.result]
    rfl
  have hlast : endTid s'.batchWords s'.result = 16 * (s.pos + s'.batchWords.words.length) := by
    rw [endTid, hcells, hnw.result]
    show s'.batchWords.firstTid - 0 + 16 * s'.batchWords.words.length = _
    rw [hnw.firstTid, htid]
    omega
  have hat : TidsAt s'.batchWords s'.result := by
    refine ⟨?_, ?_, ?_, ?_⟩
    · rw [hcells]
      exact hnw.valid
    all_goals rw [hnw.result]
    · exact Nat.zero_le _
    · exact Nat.zero_le _
    · exact fun hc => absurd rfl hc
  have hpos : s'.pos = s.pos + s'.batchWords.words.length := by
    rw [pos, hlast, Nat.mul_div_cancel_left _ (by decide)]
  refine ⟨?_, hdr.trans hnw.ended, fun hnd => ?_⟩
  · rw [hcome, toCome, hpos, remaining, hcells, hnw.result]
    show [] ++ pendingTids s'.batchWords.firstTid 0 s'.batchWords.mem ++ _ = _
    rw [nil_append, pendingTids_zero, hnw.firstTid, htid, ← hnw.words, tidsFrom_append]
    congr 2
    rw [mul_add]
  · have hn : s'.batchWords.nwords ≠ 0 := fun hc => by
      rw [hdr.mpr hc] at hnd
      exact absurd hnd (by decide)
    have hdone : s'.done = false := by
      by_contra hc
      exact hn (hnw.done (by simpa using hc))
    have hwords : 0 < s'.batchWords.words.length := by
      apply length_pos_of_ne_nil
      exact fun hc => hn ((Batch.words_eq_nil_iff hnw.valid).mp hc)
    have hlen := congrArg length hnw.words
    rw [length_append, length_drop, length_drop] at hlen
    refine ⟨(ScanInv.of_pos hdone hnw.ahead hat hlast).1, by omega, by omega⟩

/-- Words of the batch change, and the result. -/
theorem setBatchWords_spec {pos : Nat} {words : Batch}
    (hspace : words.maxNumOfWords = s.batchWords.maxNumOfWords) (result : IterateResult) (h : Ahead idx ws pos s) :
    batchWords {s.setBatchWords words with result} = words ∧
      Ahead idx ws pos {s.setBatchWords words with result} ∧ (s.setBatchWords words).done = s.done := by
  by_cases hlen : s.posvecs.length = 1
  · obtain ⟨v, hvs⟩ := length_eq_one_iff.mp hlen
    have hset : s.setBatchWords words = {s with posvecs := [{v with batchWords := words}]} := by
      simp only [setBatchWords, hvs]
    have hun : Unread idx v ((orAll ws).drop pos) := by
      rw [Ahead, hvs] at h
      exact h
    rw [hset]
    exact ⟨rfl, hun, rfl⟩
  · obtain ⟨hmax, hsize, hvecs⟩ := (ahead_several hlen).mp h
    rw [batchWords_several hlen] at hspace
    rw [setBatchWords_several hlen]
    refine ⟨batchWords_several (s := {s with unionWords := words, result}) hlen, ?_, rfl⟩
    exact (ahead_several (s := {s with unionWords := words, result}) hlen).mpr ⟨hspace.trans hmax, hsize, hvecs⟩

/-- The state after a call of `_bitmap_findnexttid`. -/
def afterTid (s : ScanPos) : ScanPos :=
  {s.setBatchWords (findnexttid s.batchWords s.result).2.1 with result := (findnexttid s.batchWords s.result).2.2}

theorem afterTid_inv (h : ScanInv idx ws s) (hpos : ∀ t ∈ toCome ws s, t ≠ 0) (hd : drained s = false) :
    ScanInv idx ws (afterTid s) ∧ (afterTid s).pos = s.pos ∧
      (toCome ws s = if (findnexttid s.batchWords s.result).1 = 0 then toCome ws (afterTid s)
        else (findnexttid s.batchWords s.result).1 :: toCome ws (afterTid s)) ∧
      ((findnexttid s.batchWords s.result).1 = 0 → (afterTid s).batchWords.nwords = 0 ∧ s.batchWords.nwords ≠ 0) := by
  have hret := findnexttid_spec h.at_ fun t ht => hpos t (mem_append_left _ ht)
  unfold afterTid
  generalize findnexttid s.batchWords s.result = out at hret
  obtain ⟨t, words, result⟩ := out
  dsimp only at hret ⊢
  obtain ⟨hb, hahead, hdone⟩ := setBatchWords_spec hret.space result h.ahead
  generalize hs' : ({s.setBatchWords words with result} : ScanPos) = s' at hb hahead
  have hres : s'.result = result := by rw [← hs']
  have hdone' : s'.done = false := by rw [← hs']; exact hdone.trans h.notDone
  have hat : TidsAt s'.batchWords s'.result := by rw [hb, hres]; exact hret.at_
  have hlast : endTid s'.batchWords s'.result = 16 * s.pos := by rw [hb, hres, hret.last]; exact h.last
  obtain ⟨hinv, hspos⟩ := ScanInv.of_pos hdone' hahead hat hlast
  refine ⟨hinv, hspos, ?_, fun ht => ?_⟩
  · rw [toCome, toCome, hspos, hb, hres, hret.tids]
    split <;> rfl
  · obtain ⟨hn, hloc⟩ := hret.ended ht
    rw [hb]
    refine ⟨hn, fun h0 => ?_⟩
    -- without words the locations already computed would be left
    have hcells : scanCells words result = [] := by rw [scanCells, hn]; rfl
    have hcells0 : scanCells s.batchWords s.result = [] := by rw [scanCells, h0]; rfl
    have htids := hret.tids
    rw [if_pos ht, remaining, remaining, hcells, hcells0, drop_eq_nil_of_le hloc] at htids
    have hempty : s.result.nextTids.length ≤ s.result.nextTidLoc := by simpa [pendingTids] using htids
    rw [(drained_iff s).mpr ⟨h0, hempty⟩] at hd
    exact absurd hd (by decide)

/-- Falls with every pass that returns nothing. -/
def passesLeft (ws : List (List Word)) (s : ScanPos) : Nat :=
  2 * ((orAll ws).length - s.pos) + if s.batchWords.nwords = 0 then 0 else 1

/-- What a pass comes to. -/
def NextSpec (idx : Index) (ws : List (List Word)) (s : ScanPos) : Pass ScanPos (Option Nat × ScanPos) → Prop
  | .again s' => ScanInv idx ws s' ∧ toCome ws s = toCome ws s' ∧ passesLeft ws s' < passesLeft ws s
  | .leave (none, _) => drained s = true ∧ (toCome ws s = [] ∨ stalls idx s = true)
  | .leave (some t, s') => ScanInv idx ws s' ∧ toCome ws s = t :: toCome ws s'

theorem nextPass_eq (idx : Index) (s : ScanPos) : nextPass idx s =
    let s := if drained s then nextWords idx s else s
    if drained s then .leave (none, s)
    else if (findnexttid s.batchWords s.result).1 = 0 then .again (afterTid s)
    else .leave (some (findnexttid s.batchWords s.result).1, afterTid s) := rfl

theorem nextPass_spec (h : ScanInv idx ws s)
    (hpos : ∀ t ∈ toCome ws s, t ≠ 0) : NextSpec idx ws s (nextPass idx s) := by
  rw [nextPass_eq]
  cases hd : drained s with
  | true =>
    obtain ⟨hcome, hend, hmore⟩ := nextWords_inv h hd
    simp only [if_true]
    generalize nextWords idx s = s1 at hcome hend hmore
    split
    · rename_i hd1
      refine ⟨hd, (hend.mp hd1).imp_left fun hnil => ?_⟩
      rw [(h.drained hd).2, hnil]
      rfl
    · rename_i hd1
      rw [Bool.not_eq_true] at hd1
      obtain ⟨hinv, hlt, hlt'⟩ := hmore hd1
      obtain ⟨hinv', hpos', hstep, hzero⟩ := afterTid_inv hinv (by rw [hcome]; exact hpos) hd1
      split
      · rename_i ht
        rw [if_pos ht] at hstep
        refine ⟨hinv', hcome.symm.trans hstep, ?_⟩
        rw [passesLeft, passesLeft, hpos', if_pos (hzero ht).1]
        omega
      · rename_i ht
        rw [if_neg ht] at hstep
        exact ⟨hinv', hcome.symm.trans hstep⟩
  | false =>
    simp only [Bool.false_eq_true, if_false, hd]
    obtain ⟨hinv', hpos', hstep, hzero⟩ := afterTid_inv h hpos hd
    split
    · rename_i ht
      rw [if_pos ht] at hstep
      refine ⟨hinv', hstep, ?_⟩
      rw [passesLeft, passesLeft, hpos', if_pos (hzero ht).1, if_neg (hzero ht).2]
      omega
    · rename_i ht
      rw [if_neg ht] at hstep
      exact ⟨hinv', hstep⟩

/-- Where the scan stalls, `_bitmap_next` returns false. -/
theorem nextPass_stalls (h : ScanInv idx ws s)
    (hd : drained s = true) (hs : stalls idx s = true) : ∃ s', nextPass idx s = .leave (none, s') := by
  obtain ⟨-, hend, -⟩ := nextWords_inv h hd
  have hd1 := hend.mpr (.inr hs)
  rw [nextPass_eq]
  simp only [hd, if_true, hd1]
  exact ⟨_, rfl⟩

/-- The scan from `s` returns the locations `out`, and then false. -/
def Scans (idx : Index) (s : ScanPos) (out : List Nat) : Prop :=
  ∃ n, ∀ fuel calls, n ≤ fuel → n ≤ calls → scan idx fuel calls s = some out

/-- The states of a scan between passes of the loop of `_bitmap_next`. -/
inductive Reached (idx : Index) (s : ScanPos) : ScanPos → Prop where
  | start : Reached idx s s
  | again {t t' : ScanPos} : Reached idx s t → nextPass idx t = .again t' → Reached idx s t'
  | tid {t t' : ScanPos} {tid : Nat} : Reached idx s t → nextPass idx t = .leave (some tid, t') → Reached idx s t'

theorem Scans.unique {out out' : List Nat} (h : Scans idx s out) (h' : Scans idx s out') : out = out' := by
  obtain ⟨n, hn⟩ := h
  obtain ⟨n', hn'⟩ := h'
  have h1 := hn (n + n') (n + n') (by omega) (by omega)
  have h2 := hn' (n + n') (n + n') (by omega) (by omega)
  exact Option.some.inj (h1.symm.trans h2)

section
variable {idx : Index} {s s' : ScanPos} {out : List Nat}

theorem bitmapNext_leave {r : Option Nat × ScanPos} (hd : s.done = false) (h : nextPass idx s = .leave r)
    {fuel : Nat} (hfuel : 0 < fuel) : bitmapNext idx fuel s = some r := by
  obtain ⟨n, rfl⟩ : ∃ n, fuel = n + 1 := ⟨fuel - 1, by omega⟩
  rw [bitmapNext, hd, if_neg (by decide), Loop.iterate_leave h]

theorem Scans.leave_none (hd : s.done = false) (h : nextPass idx s = .leave (none, s')) : Scans idx s [] := by
  refine ⟨1, fun fuel calls hf hc => ?_⟩
  obtain ⟨n, rfl⟩ : ∃ n, calls = n + 1 := ⟨calls - 1, by omega⟩
  simp only [scan, bitmapNext_leave hd h hf]

theorem Scans.leave_some {t : Nat} (hd : s.done = false) (h : nextPass idx s = .leave (some t, s'))
    (hs : Scans idx s' out) : Scans idx s (t :: out) := by
  obtain ⟨n, hn⟩ := hs
  refine ⟨n + 1, fun fuel calls hf hc => ?_⟩
  obtain ⟨m, rfl⟩ : ∃ m, calls = m + 1 := ⟨calls - 1, by omega⟩
  simp only [scan, bitmapNext_leave hd h (show 0 < fuel by omega), hn fuel m (by omega) (by omega), Option.map_some]

theorem Scans.again (hd : s.done = false) (hd' : s'.done = false) (h : nextPass idx s = .again s')
    (hs : Scans idx s' out) : Scans idx s out := by
  obtain ⟨n, hn⟩ := hs
  refine ⟨n + 1, fun fuel calls hf hc => ?_⟩
  obtain ⟨k, rfl⟩ : ∃ k, fuel = k + 1 := ⟨fuel - 1, by omega⟩
  have hnext : bitmapNext idx (k + 1) s = bitmapNext idx k s' := by
    rw [bitmapNext, bitmapNext, hd, hd', if_neg (by decide), if_neg (by decide), Loop.iterate_again h]
  have hsame : bitmapNext idx k s' = bitmapNext idx (k + 1) s' := by
    cases hr : bitmapNext idx k s' with
    | none =>
      have hk := hn k calls (by omega) (by omega)
      obtain ⟨m, rfl⟩ | rfl : (∃ m, calls = m + 1) ∨ calls = 0 := by
        cases calls with
        | zero => exact .inr rfl
        | succ m => exact .inl ⟨m, rfl⟩
      · simp [scan, hr] at hk
      · simp [scan] at hk
    | some r =>
      rw [bitmapNext, hd', if_neg (by decide)] at hr ⊢
      exact (Loop.iterate_mono (k + 1) (by omega) hr).symm
  rw [← hn (k + 1) calls (by omega) (by omega)]
  cases calls with
  | zero => rfl
  | succ m => simp only [scan, hnext, hsame]

end

/-- A scan that is at `t` has returned what was to come before what is to come now. -/
theorem reached_toCome {t : ScanPos} (h : Reached idx s t)
    (hinv : ScanInv idx ws s) (hpos : ∀ t ∈ toCome ws s, t ≠ 0) :
    ScanInv idx ws t ∧ ∃ pre, toCome ws s = pre ++ toCome ws t ∧
      ∀ out, Scans idx t out → Scans idx s (pre ++ out) := by
  induction h with
  | start => exact ⟨hinv, [], rfl, fun out h => h⟩
  | @again t t' _ hstep ih =>
    obtain ⟨ht, pre, hpre, hscan⟩ := ih
    have hspec := nextPass_spec ht fun x hx => hpos x (by rw [hpre]; exact mem_append_right _ hx)
    rw [hstep] at hspec
    obtain ⟨ht', hcome, -⟩ := hspec
    refine ⟨ht', pre, by rw [hpre, hcome], fun out hout => hscan out ?_⟩
    exact hout.again ht.notDone ht'.notDone hstep
  | @tid t t' tid _ hstep ih =>
    obtain ⟨ht, pre, hpre, hscan⟩ := ih
    have hspec := nextPass_spec ht fun x hx => hpos x (by rw [hpre]; exact mem_append_right _ hx)
    rw [hstep] at hspec
    obtain ⟨ht', hcome⟩ := hspec
    refine ⟨ht', pre ++ [tid], ?_, fun out hout => ?_⟩
    · rw [hpre, hcome, append_assoc]
      rfl
    · rw [append_assoc]
      exact hscan _ (hout.leave_some ht.notDone hstep)

/-- A scan that never stalls with locations to come returns them all. -/
theorem scans_toCome (hcond : ∀ t, Reached idx s t → drained t = true → stalls idx t = true → toCome ws t = [])
    (hinv : ScanInv idx ws s) (hpos : ∀ t ∈ toCome ws s, t ≠ 0) : Scans idx s (toCome ws s) := by
  have hgen (k : Nat) : ∀ t, Reached idx s t → ScanInv idx ws t → (∀ x ∈ toCome ws t, x ≠ 0) →
      (toCome ws t).length * (2 * (orAll ws).length + 2) + passesLeft ws t < k → Scans idx t (toCome ws t) := by
    induction k with
    | zero => intro t _ _ _ hk; omega
    | succ k ih =>
      intro t hreach ht hx hk
      have hspec := nextPass_spec ht hx
      cases hstep : nextPass idx t with
      | again t' =>
        rw [hstep] at hspec
        obtain ⟨ht', hcome, hless⟩ := hspec
        rw [hcome] at hx hk ⊢
        exact (ih t' (hreach.again hstep) ht' hx (by omega)).again ht.notDone ht'.notDone hstep
      | leave r =>
        rw [hstep] at hspec
        obtain ⟨_ | tid, t'⟩ := r
        · obtain ⟨hd, hend⟩ := hspec
          have hnil : toCome ws t = [] := hend.elim id (hcond t hreach hd)
          rw [hnil]
          exact Scans.leave_none ht.notDone hstep
        · obtain ⟨ht', hcome⟩ := hspec
          have hbound : passesLeft ws t' < 2 * (orAll ws).length + 2 := by
            unfold passesLeft
            split <;> omega
          rw [hcome] at hx hk ⊢
          rw [length_cons, add_mul] at hk
          refine Scans.leave_some ht.notDone hstep (ih t' (hreach.tid hstep) ht' ?_ (by omega))
          exact fun x hx' => hx x (mem_cons_of_mem _ hx')
  exact hgen _ s .start hinv hpos (Nat.lt_succ_self _)

/-! ### Scans of stored vectors -/

/-- A vector of a scan: the place of its LOV item, and its pages. -/
abbrev Vector := (Nat × Nat) × List Nat

def scanStart (idx : Index) (vecs : List Vector) : ScanPos := findbitmaps idx (vecs.map (·.1))

/-- The words of the vectors. -/
def scanWords (idx : Index) (vecs : List Vector) : List (List Word) :=
  vecs.map fun v => vectorWords idx v.2 (idx.lov v.1)

/-- Wherever the scan stalls, all vectors have been read to their last set bit. -/
def NeverStalls (idx : Index) (vecs : List Vector) : Prop :=
  ∀ t, Reached idx (scanStart idx vecs) t → drained t = true → stalls idx t = true →
    ∀ w ∈ scanWords idx vecs, ∀ p, t.result.nextTid < p → bitAt w p = false

theorem VecAt.init {v : Vector} (h : VectorValid idx (idx.lov v.1) v.2) :
    VecAt idx 0 (vectorWords idx v.2 (idx.lov v.1)) (initscanpos idx v.1) := by
  refine ⟨⟨_, .init h, ?_, rfl, le_refl _⟩, fun _ => rfl⟩
  intro c hc
  exact absurd hc (by simp [initscanpos, initBatchwords, Batch.mem, cells])

theorem scanStart_inv {vecs : List Vector} (hne : vecs ≠ [])
    (hvalid : ∀ v ∈ vecs, VectorValid idx (idx.lov v.1) v.2)
    (hsize : vecs.length = 1 ∨ ∀ w ∈ scanWords idx vecs, w.length < 2 ^ 32 - 1) :
    ScanInv idx (scanWords idx vecs) (scanStart idx vecs) ∧
      toCome (scanWords idx vecs) (scanStart idx vecs) = setPositions (scanWords idx vecs) := by
  have hb : (scanStart idx vecs).batchWords = initBatchwords hrlWordsPerPage := by
    unfold batchWords
    split
    · rename_i v hvs
      obtain ⟨u, rfl⟩ : ∃ u, vecs = [u] := length_eq_one_iff.mp (by
        have := congrArg length hvs
        simpa [scanStart, findbitmaps] using this)
      have hv : [initscanpos idx u.1] = [v] := hvs
      rw [← singleton_inj.mp hv]
      rfl
    · rfl
  have hlast : endTid (scanStart idx vecs).batchWords (scanStart idx vecs).result = 16 * 0 := by
    rw [hb]
    rfl
  have hcells : scanCells (scanStart idx vecs).batchWords (scanStart idx vecs).result = [] := by
    rw [hb]
    rfl
  have hat : TidsAt (scanStart idx vecs).batchWords (scanStart idx vecs).result :=
    ⟨by simp [hcells], Nat.zero_le _, Nat.zero_le _, fun hc => absurd rfl hc⟩
  have hdone : (scanStart idx vecs).done = false := by
    cases vecs with
    | nil => exact absurd rfl hne
    | cons v vs => rfl
  have hahead : Ahead idx (scanWords idx vecs) 0 (scanStart idx vecs) := by
    by_cases hlen : vecs.length = 1
    · obtain ⟨v, rfl⟩ := length_eq_one_iff.mp hlen
      show Unread idx (initscanpos idx v.1) (orAll [vectorWords idx v.2 (idx.lov v.1)])
      rw [orAll_cons, show orAll [] = [] from rfl, orWords_nil_right]
      exact .init (hvalid v mem_cons_self)
    · refine (ahead_several (by simpa [scanStart, findbitmaps] using hlen)).mpr
        ⟨rfl, hsize.resolve_left hlen, ?_⟩
      simp only [scanStart, findbitmaps, scanWords, map_map, forall₂_map_left_iff,
        forall₂_map_right_iff, forall₂_same]
      exact fun v hv => .init (hvalid v hv)
  obtain ⟨hinv, hpos⟩ := ScanInv.of_pos hdone hahead hat hlast
  refine ⟨hinv, ?_⟩
  rw [toCome, remaining, hcells, hpos, Nat.mul_zero, drop_zero, tidsFrom_orAll]
  rfl

/-- When the scan stalls, the locations left are the positions after `nextTid`. -/
theorem toCome_eq_nil_iff {vecs : List Vector} {t : ScanPos} (ht : ScanInv idx (scanWords idx vecs) t)
    (hd : drained t = true) :
    toCome (scanWords idx vecs) t = [] ↔
      ∀ w ∈ scanWords idx vecs, ∀ p, t.result.nextTid < p → bitAt w p = false := by
  obtain ⟨htid, hnil⟩ := ht.drained hd
  rw [hnil, htid]
  exact tidsFrom_drop_eq_nil_iff ..

section
variable {idx : Index} {vecs : List Vector} (hne : vecs ≠ [])
  (hvalid : ∀ v ∈ vecs, VectorValid idx (idx.lov v.1) v.2)
  (hsize : vecs.length = 1 ∨ ∀ w ∈ scanWords idx vecs, w.length < 2 ^ 32 - 1)
include hne hvalid hsize

theorem scanStart_pos : ∀ t ∈ toCome (scanWords idx vecs) (scanStart idx vecs), t ≠ 0 := by
  rw [(scanStart_inv hne hvalid hsize).2, ← tidsFrom_orAll]
  exact tidsFrom_pos 0 _

theorem scans_of_neverStalls (h : NeverStalls idx vecs) :
    Scans idx (scanStart idx vecs) (setPositions (scanWords idx vecs)) := by
  obtain ⟨hinv, hcome⟩ := scanStart_inv hne hvalid hsize
  have hpos := scanStart_pos hne hvalid hsize
  rw [← hcome]
  refine scans_toCome (fun t hreach hd hs => ?_) hinv hpos
  obtain ⟨ht, -⟩ := reached_toCome hreach hinv hpos
  exact (toCome_eq_nil_iff ht hd).mpr (h t hreach hd hs)

theorem neverStalls_of_scans (h : Scans idx (scanStart idx vecs) (setPositions (scanWords idx vecs))) :
    NeverStalls idx vecs := by
  obtain ⟨hinv, hcome⟩ := scanStart_inv hne hvalid hsize
  rw [← hcome] at h
  intro t hreach hd hs
  obtain ⟨ht, pre, hpre, hext⟩ := reached_toCome hreach hinv (scanStart_pos hne hvalid hsize)
  obtain ⟨t', hstop⟩ := nextPass_stalls ht hd hs
  have hsame := h.unique (hext [] (Scans.leave_none ht.notDone hstop))
  rw [hpre, append_nil] at hsame
  exact (toCome_eq_nil_iff ht hd).mp (append_right_eq_self.mp hsame)

end

/-- **Scans.** A scan returns the positions set in its vectors, in ascending order and
each once, if and only if it never stalls before the last of them. -/
theorem scan_complete_iff (idx : Index) (vecs : List Vector) (hne : vecs ≠ [])
    (hvalid : ∀ v ∈ vecs, VectorValid idx (idx.lov v.1) v.2)
    (hsize : vecs.length = 1 ∨ ∀ w ∈ scanWords idx vecs, w.length < 2 ^ 32 - 1) :
    Scans idx (scanStart idx vecs) (setPositions (scanWords idx vecs)) ↔ NeverStalls idx vecs :=
  ⟨neverStalls_of_scans hne hvalid hsize, scans_of_neverStalls hne hvalid hsize⟩

/-! ### One vector

A scan of one vector reads it without a union, so that it never stalls. -/

/-- More passes and more calls change nothing. -/
theorem scan_mono {fuel fuel' calls calls' : Nat} (hf : fuel ≤ fuel') (hc : calls ≤ calls')
    {out : List Nat} (h : scan idx fuel calls s = some out) : scan idx fuel' calls' s = some out := by
  induction calls generalizing calls' s out with
  | zero => exact absurd h (by simp [scan])
  | succ calls ih =>
    obtain ⟨m, rfl⟩ : ∃ m, calls' = m + 1 := ⟨calls' - 1, by omega⟩
    have hnext {r : Option Nat × ScanPos} (hr : bitmapNext idx fuel s = some r) : bitmapNext idx fuel' s = some r := by
      unfold bitmapNext at hr ⊢
      split at hr
      · rw [if_pos ‹_›]
        exact hr
      · rw [if_neg ‹_›]
        exact Loop.iterate_mono fuel' hf hr
    unfold scan at h ⊢
    cases hr : bitmapNext idx fuel s with
    | none => simp [hr] at h
    | some r =>
      rw [hnext hr]
      rw [hr] at h
      obtain ⟨_ | tid, s'⟩ := r
      · exact h
      · obtain ⟨rest, hrest, rfl⟩ := Option.map_eq_some_iff.mp h
        exact Option.map_eq_some_iff.mpr ⟨rest, ih (by omega) hrest, rfl⟩

/-- An index of three vectors without pages. The first two hold two literal words, the
third two words of ones and then a literal. -/
def stallIndex : Index where
  nblocks := 1
  page := fun _ => ⟨fun _ => 0, fun _ => 0, 0, invalidBlockNumber, 0⟩
  lov := fun l =>
    { lovHead := invalidBlockNumber, lovTail := invalidBlockNumber
      lastCompword := if l.2 = 3 then makeFillWord 1 2 else 1, lastWord := 1
      lastTidLocation := 0, lastSetbit := 0, wordsHeader := if l.2 = 3 then lastCompwordBit else 0 }

def stallVectors : List Vector := [((0, 1), []), ((0, 2), []), ((0, 3), [])]

theorem stallVectors_valid : ∀ v ∈ stallVectors, VectorValid stallIndex (stallIndex.lov v.1) v.2 := by
  have hlov (n : Nat) (h : ∀ c ∈ lovCells (stallIndex.lov (0, n)), 1 ≤ fillLength c.word ∨ c.fill = false) :
      VectorValid stallIndex (stallIndex.lov (0, n)) [] := by
    refine ⟨.done, by simp, by simp, fun c hc hfill => ?_⟩
    exact (h c hc).resolve_right (by simp [hfill])
  simp only [stallVectors, forall_mem_cons]
  refine ⟨hlov 1 ?_, hlov 2 ?_, hlov 3 ?_, by simp⟩ <;> decide

theorem scan_complete_iff_stall :
    Scans stallIndex (scanStart stallIndex stallVectors) (setPositions (scanWords stallIndex stallVectors)) ↔
      NeverStalls stallIndex stallVectors :=
  scan_complete_iff stallIndex stallVectors (by decide) stallVectors_valid (.inr (by decide))

/-- The third vector ends with bit 33, but the scan returns 1 to 32 only: the second
vector is used up before the third is looked at. -/
theorem scan_stops_early :
    (∃ w ∈ scanWords stallIndex stallVectors, bitAt w 33 = true) ∧
      Scans stallIndex (scanStart stallIndex stallVectors) (List.range' 1 32) ∧
      ¬Scans stallIndex (scanStart stallIndex stallVectors) (setPositions (scanWords stallIndex stallVectors)) := by
  have hscan : Scans stallIndex (scanStart stallIndex stallVectors) (range' 1 32) :=
    ⟨40, fun fuel calls hf hc => scan_mono hf hc
      (show scan stallIndex 40 40 (scanStart stallIndex stallVectors) = some (range' 1 32) by decide +kernel)⟩
  refine ⟨by decide, hscan, fun hall => ?_⟩
  exact absurd (hall.unique hscan) (by decide)

end PgStorage.Hrl
