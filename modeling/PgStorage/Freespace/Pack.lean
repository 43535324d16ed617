import PgStorage.Lib.Bits

/-! Per-page free space packed into less memory, as in release 8.0.

Memory is addressed in words of 16 bits. A page's entry is the two halves of its block number and the free space. The
pages kept are those above a bin of the histogram of free space, and the first ones of that bin. -/
namespace PgStorage.Freespace
open List

def blcksz : Nat := 8192

def histogramBins : Nat := 64

abbrev BlockNumber := BitVec 32

structure PageFreeSpaceInfo where
  blkno : BlockNumber
  avail : Nat
  deriving DecidableEq

abbrev Memory := Nat → BitVec 16

/-- `sizeof(FSMPageData)` in words. -/
def pageSize : Nat := 3

def fsmPageGetPageNum (mem : Memory) (ptr : Nat) : BlockNumber := mem ptr ++ mem (ptr + 1)

def fsmPageGetSpace (mem : Memory) (ptr : Nat) : Nat := (mem (ptr + 2)).toNat

def fsmPageSetPageNum (mem : Memory) (ptr : Nat) (pg : BlockNumber) : Memory :=
  Function.update (Function.update mem ptr ((pg >>> 16).setWidth 16)) (ptr + 1) (pg.setWidth 16)

def fsmPageSetSpace (mem : Memory) (ptr : Nat) (sz : Nat) : Memory :=
  Function.update mem (ptr + 2) (BitVec.ofNat 16 sz)

def pageAt (mem : Memory) (ptr : Nat) : PageFreeSpaceInfo := ⟨fsmPageGetPageNum mem ptr, fsmPageGetSpace mem ptr⟩

/-- An array of entries. -/
def pagesAt (mem : Memory) : Nat → Nat → List PageFreeSpaceInfo
  | _, 0 => []
  | ptr, n + 1 => pageAt mem ptr :: pagesAt mem (ptr + pageSize) n

/-- The loop over the free space amounts. -/
def buildHistogram : List Nat → List Nat → Except String (List Nat)
  | histogram, [] => .ok histogram
  | histogram, avail :: rest =>
    if blcksz ≤ avail then .error "bogus freespace amount"
    else buildHistogram (histogram.modify (avail / (blcksz / histogramBins)) (· + 1)) rest

/-- The loop that finds the breakpoint bin, with so many bins left: the bin and the pages above it. -/
def findBreakpoint (histogram : List Nat) (newPages : Nat) : Nat → Nat → Int × Nat
  | 0, above => (-1, above)
  | i + 1, above =>
    if newPages < above + histogram.getD i 0 then (i, above)
    else findBreakpoint histogram newPages i (above + histogram.getD i 0)

/-- `i * BLCKSZ / HISTOGRAM_BINS` as a `Size` -/
def threshold (i : Int) : Nat := (i * blcksz / histogramBins % 2 ^ 64).toNat

structure Copying where
  mem : Memory
  newLocation : Nat
  newPages : Int
  binct : Int
  /-- The words written so far. -/
  written : List Nat

def Copying.save (s : Copying) (page : BlockNumber) (avail : Nat) : Copying :=
  { s with
    mem := fsmPageSetSpace (fsmPageSetPageNum s.mem s.newLocation page) s.newLocation avail
    newLocation := s.newLocation + pageSize
    newPages := s.newPages - 1
    written := s.written ++ [s.newLocation, s.newLocation + 1, s.newLocation + 2] }

/-- Save this page? -/
def Copying.visit (thresholdL thresholdU : Nat) (s : Copying) (p : PageFreeSpaceInfo) : Copying :=
  if thresholdU ≤ p.avail then s.save p.blkno p.avail
  else if thresholdL ≤ p.avail then
    let s := { s with binct := s.binct - 1 }
    if 0 ≤ s.binct then s.save p.blkno p.avail else s
  else s

/-- The copy loop of `pack_incoming_pages`, behind a page. An error comes with what was done before. -/
def copyIncoming (thresholdL thresholdU : Nat) : Option BlockNumber → List PageFreeSpaceInfo → Copying →
    Except (String × Copying) Copying
  | _, [], s => .ok s
  | prior, p :: rest, s =>
    if prior.any fun blkno => p.blkno ≤ blkno then .error ("free-space data is not in page order", s)
    else copyIncoming thresholdL thresholdU (some p.blkno) rest (s.visit thresholdL thresholdU p)

/-- So many rounds of the copy loop of `pack_existing_pages`. -/
def copyExisting (thresholdL thresholdU : Nat) : Nat → Nat → Copying → Copying
  | _, 0, s => s
  | oldLocation, n + 1, s =>
    copyExisting thresholdL thresholdU (oldLocation + pageSize) n
      (s.visit thresholdL thresholdU (pageAt s.mem oldLocation))

def packIncomingPages (mem : Memory) (newLocation newPages : Nat) (pageSpaces : List PageFreeSpaceInfo) :
    Except (String × Copying) Copying :=
  let s : Copying := ⟨mem, newLocation, newPages, 0, []⟩
  match buildHistogram (List.replicate histogramBins 0) (pageSpaces.map PageFreeSpaceInfo.avail) with
  | .error e => .error (e, s)
  | .ok histogram =>
    let (i, above) := findBreakpoint histogram newPages histogramBins 0
    copyIncoming (threshold i) (threshold (i + 1)) none pageSpaces { s with binct := newPages - above }

/-- `pack_existing_pages`, until so many rounds of its copy loop are done. -/
def packExistingRounds (mem : Memory) (newLocation newPages oldLocation oldPages rounds : Nat) :
    Except (String × Copying) Copying :=
  let s : Copying := ⟨mem, newLocation, newPages, 0, []⟩
  let avails := (pagesAt mem oldLocation oldPages).map PageFreeSpaceInfo.avail
  match buildHistogram (List.replicate histogramBins 0) avails with
  | .error e => .error (e, s)
  | .ok histogram =>
    let (i, above) := findBreakpoint histogram newPages histogramBins 0
    .ok (copyExisting (threshold i) (threshold (i + 1)) oldLocation rounds { s with binct := newPages - above })

def packExistingPages (mem : Memory) (newLocation newPages oldLocation oldPages : Nat) :
    Except (String × Copying) Copying :=
  packExistingRounds mem newLocation newPages oldLocation oldPages oldPages

/-! ### What packing means -/

variable {l r r' : List PageFreeSpaceInfo} {p : PageFreeSpaceInfo} {s s' s'' : Copying} {mem : Memory}
  {newPages newLocation oldLocation b : Nat} {histogram : List Nat}

def PageFreeSpaceInfo.bin (p : PageFreeSpaceInfo) : Nat := p.avail / (blcksz / histogramBins)

/-- `r` is the `newPages` roomiest pages of `l`, by bins. -/
structure Packs (newPages : Nat) (l r : List PageFreeSpaceInfo) : Prop where
  length : r.length = newPages
  sublist : r.Sublist l
  roomiest : ∀ p ∈ l, p ∉ r → ∀ q ∈ r, p.bin ≤ q.bin
  /-- There is a breakpoint bin. -/
  breakpoint : ∃ b k, (∀ p ∈ l, b < p.bin → p ∈ r) ∧ (∀ p ∈ r, b ≤ p.bin) ∧
    r.filter (·.bin = b) = (l.filter (·.bin = b)).take k

/-- The pages that are kept, with `c` pages of bin `b`. -/
def keep (b : Nat) : Int → List PageFreeSpaceInfo → List PageFreeSpaceInfo
  | _, [] => []
  | c, p :: l =>
    if b < p.bin then p :: keep b c l
    else if p.bin = b then if 0 ≤ c - 1 then p :: keep b (c - 1) l else keep b (c - 1) l
    else keep b c l

theorem keep_sublist (b : Nat) (c : Int) (l : List PageFreeSpaceInfo) : (keep b c l).Sublist l := by
  induction l generalizing c with
  | nil => exact List.Sublist.refl _
  | cons p l ih =>
    unfold keep
    split
    · exact (ih c).cons_cons p
    split
    · split
      · exact (ih (c - 1)).cons_cons p
      · exact (ih (c - 1)).cons p
    · exact (ih c).cons p

theorem keep_above (b : Nat) (c : Int) (l : List PageFreeSpaceInfo) : ∀ p ∈ l, b < p.bin → p ∈ keep b c l := by
  induction l generalizing c with
  | nil => exact nofun
  | cons q l ih =>
    intro p hp hbin
    unfold keep
    rcases mem_cons.mp hp with rfl | hp
    · rw [if_pos hbin]
      exact mem_cons_self ..
    split
    · exact mem_cons_of_mem _ (ih c p hp hbin)
    split
    · split
      · exact mem_cons_of_mem _ (ih (c - 1) p hp hbin)
      · exact ih (c - 1) p hp hbin
    · exact ih c p hp hbin

theorem keep_bin (b : Nat) (c : Int) (l : List PageFreeSpaceInfo) : ∀ p ∈ keep b c l, b ≤ p.bin := by
  induction l generalizing c with
  | nil => exact nofun
  | cons q l ih =>
    unfold keep
    split
    next habove => exact forall_mem_cons.mpr ⟨le_of_lt habove, ih c⟩
    split
    next heq =>
      split
      · exact forall_mem_cons.mpr ⟨le_of_eq heq.symm, ih (c - 1)⟩
      · exact ih (c - 1)
    · exact ih c

/-- Of bin `b` the first ones. -/
theorem keep_first (b : Nat) (c : Int) (l : List PageFreeSpaceInfo) :
    (keep b c l).filter (·.bin = b) = (l.filter (·.bin = b)).take c.toNat := by
  induction l generalizing c with
  | nil => rw [filter_nil, take_nil, keep, filter_nil]
  | cons q l ih =>
    unfold keep
    split
    next habove =>
      rw [filter_cons_of_neg (by simp; omega), filter_cons_of_neg (by simp; omega)]
      exact ih c
    split
    next hne heq =>
      rw [filter_cons_of_pos (by simpa using heq)]
      split
      next hleft =>
        rw [filter_cons_of_pos (by simpa using heq), ih, show c.toNat = (c - 1).toNat + 1 by omega,
          take_succ_cons]
      next hnone =>
        rw [ih, show (c - 1).toNat = 0 by omega, show c.toNat = 0 by omega, take_zero, take_zero]
    next hne hlow =>
      rw [filter_cons_of_neg (by simpa using hlow)]
      exact ih c

theorem keep_length (b : Nat) (c : Int) (l : List PageFreeSpaceInfo) :
    (keep b c l).length = l.countP (fun p => b < p.bin) + min c.toNat (l.countP fun p => p.bin = b) := by
  induction l generalizing c with
  | nil => simp [keep]
  | cons q l ih =>
    unfold keep
    rw [countP_cons, countP_cons]
    rcases lt_trichotomy b q.bin with habove | heq | hbelow
    · rw [if_pos habove, length_cons, ih, if_pos (decide_eq_true habove), if_neg (by simp; omega)]
      omega
    · have hnot : ¬decide (b < q.bin) = true := by
        rw [decide_eq_true_eq]
        omega
      rw [if_neg (by omega), if_pos heq.symm, if_neg hnot, if_pos (decide_eq_true heq.symm)]
      split
      · rw [length_cons, ih]
        omega
      · rw [ih]
        omega
    · have hnot : ¬decide (b < q.bin) = true ∧ ¬decide (q.bin = b) = true := by
        rw [decide_eq_true_eq, decide_eq_true_eq]
        omega
      rw [if_neg (by omega), if_neg (by omega), ih, if_neg hnot.1, if_neg hnot.2, add_zero, add_zero]

theorem countP_bin (k : Nat) (l : List PageFreeSpaceInfo) :
    l.countP (fun p => k ≤ p.bin) = l.countP (fun p => k < p.bin) + l.countP fun p => p.bin = k := by
  induction l with
  | nil => rfl
  | cons q l ih =>
    rw [countP_cons, countP_cons, countP_cons, ih]
    rcases lt_trichotomy k q.bin with habove | heq | hbelow
    · rw [if_pos (by simp; omega), if_pos (by simp; omega), if_neg (by simp; omega)]
      omega
    · rw [if_pos (by simp; omega), if_neg (by simp; omega), if_pos (by simp; omega)]
      omega
    · rw [if_neg (by simp; omega), if_neg (by simp; omega), if_neg (by simp; omega)]
      omega

theorem Packs.of_keep {c : Int} (h : (keep b c l).length = newPages) : Packs newPages l (keep b c l) := by
  refine ⟨h, keep_sublist b c l, fun p hp hnot q hq => ?_, b, c.toNat, keep_above b c l, keep_bin b c l,
    keep_first b c l⟩
  have hpbin : p.bin ≤ b := Nat.le_of_not_lt fun habove => hnot (keep_above b c l p hp habove)
  exact le_trans hpbin (keep_bin b c l q hq)

theorem buildHistogram_spec (l : List PageFreeSpaceInfo) (histogram : List Nat)
    (hlen : histogram.length = histogramBins) (h : ∀ p ∈ l, p.avail < blcksz) :
    ∃ histogram', buildHistogram histogram (l.map PageFreeSpaceInfo.avail) = .ok histogram' ∧
      ∀ i, histogram'.getD i 0 = histogram.getD i 0 + l.countP fun p => p.bin = i := by
  induction l generalizing histogram with
  | nil => exact ⟨histogram, rfl, fun i => rfl⟩
  | cons p l ih =>
    have hp := h p (mem_cons_self ..)
    obtain ⟨histogram', hbuild, hcount⟩ := ih (histogram.modify p.bin (· + 1)) (by rw [length_modify, hlen])
      fun q hq => h q (mem_cons_of_mem _ hq)
    refine ⟨histogram', ?_, fun i => ?_⟩
    · rw [map_cons, buildHistogram, if_neg (Nat.not_le.mpr hp)]
      exact hbuild
    · have hbin : p.bin < histogram.length := by
        rw [hlen]
        unfold PageFreeSpaceInfo.bin
        unfold blcksz histogramBins at *
        omega
      rw [hcount, countP_cons, getD_eq_getElem?_getD, getD_eq_getElem?_getD, getElem?_modify]
      by_cases heq : p.bin = i
      · obtain rfl := heq
        rw [getElem?_eq_getElem hbin]
        simp
        omega
      · simp [heq]

theorem findBreakpoint_spec (k above : Nat) (hhist : ∀ i, histogram.getD i 0 = l.countP fun p => p.bin = i)
    (habove : above = l.countP fun p => k ≤ p.bin) (hle : above ≤ newPages) (hlt : newPages < l.length) :
    ∃ i < k, findBreakpoint histogram newPages k above = ((i : Int), l.countP fun p => i < p.bin) ∧
      l.countP (fun p => i < p.bin) ≤ newPages ∧
      newPages < l.countP (fun p => i < p.bin) + l.countP fun p => p.bin = i := by
  induction k generalizing above with
  | zero =>
    have hall : l.countP (fun p => decide (0 ≤ p.bin)) = l.length := countP_eq_length.mpr (by simp)
    omega
  | succ k ih =>
    have hsum : above + histogram.getD k 0 = l.countP fun p => k ≤ p.bin := by
      rw [habove, hhist, countP_bin k]
      rfl
    unfold findBreakpoint
    split
    next hover =>
      rw [hhist] at hover
      exact ⟨k, Nat.lt_succ_self k, by rw [habove]; rfl, habove ▸ hle, habove ▸ hover⟩
    next hfits =>
      obtain ⟨i, hi, hrest⟩ := ih _ hsum (Nat.le_of_not_lt hfits)
      exact ⟨i, Nat.lt_succ_of_lt hi, hrest⟩

theorem threshold_eq (i : Nat) (h : i ≤ histogramBins) : threshold i = i * 128 := by
  unfold threshold
  unfold blcksz histogramBins at *
  omega

@[simp] theorem fsmPageSet_apply (mem : Memory) (ptr : Nat) (pg : BlockNumber) (sz a : Nat) :
    fsmPageSetSpace (fsmPageSetPageNum mem ptr pg) ptr sz a =
      if a = ptr + 2 then BitVec.ofNat 16 sz else if a = ptr + 1 then pg.setWidth 16
      else if a = ptr then (pg >>> 16).setWidth 16 else mem a := by
  simp only [fsmPageSetSpace, fsmPageSetPageNum, Function.update_apply]

theorem halves (pg : BitVec 32) : (pg >>> 16).setWidth 16 ++ pg.setWidth 16 = (pg : BitVec (16 + 16)) :=
  Bits.halves_append (m := 16) (n := 16) pg

theorem pageAt_set (mem : Memory) (ptr : Nat) (p : PageFreeSpaceInfo) (h : p.avail < blcksz) :
    pageAt (fsmPageSetSpace (fsmPageSetPageNum mem ptr p.blkno) ptr p.avail) ptr = p := by
  unfold blcksz at h
  unfold pageAt fsmPageGetPageNum fsmPageGetSpace
  rw [fsmPageSet_apply, fsmPageSet_apply, fsmPageSet_apply, if_neg (by omega), if_neg (by omega), if_pos rfl,
    if_neg (by omega), if_pos rfl, if_pos rfl, halves, BitVec.toNat_ofNat, Nat.mod_eq_of_lt (by omega)]

/-- Entries in memory that is left alone. -/
theorem pagesAt_congr {mem mem' : Memory} (ptr n : Nat) (h : ∀ a, ptr ≤ a → a < ptr + pageSize * n → mem' a = mem a) :
    pagesAt mem' ptr n = pagesAt mem ptr n := by
  induction n generalizing ptr with
  | zero => rfl
  | succ n ih =>
    unfold pageSize at h ih
    have hrest : pagesAt mem' (ptr + pageSize) n = pagesAt mem (ptr + pageSize) n := ih _ fun a hle hlt => by
      unfold pageSize at hle hlt
      exact h a (by omega) (by omega)
    rw [pagesAt, pagesAt, hrest]
    unfold pageAt fsmPageGetPageNum fsmPageGetSpace
    rw [h ptr (by omega) (by omega), h (ptr + 1) (by omega) (by omega), h (ptr + 2) (by omega) (by omega)]

theorem pagesAt_append (mem : Memory) (ptr m n : Nat) :
    pagesAt mem ptr (m + n) = pagesAt mem ptr m ++ pagesAt mem (ptr + pageSize * m) n := by
  induction m generalizing ptr with
  | zero => rw [zero_add, Nat.mul_zero, add_zero, pagesAt, nil_append]
  | succ m ih =>
    rw [Nat.succ_add, pagesAt, pagesAt, ih, cons_append, Nat.mul_succ, add_comm (pageSize * m),
      ← add_assoc ptr]

theorem pagesAt_length (mem : Memory) (ptr n : Nat) : (pagesAt mem ptr n).length = n := by
  induction n generalizing ptr with
  | zero => rfl
  | succ n ih => rw [pagesAt, length_cons, ih]

/-- The pages `r` were saved. -/
structure Saved (s s' : Copying) (r : List PageFreeSpaceInfo) : Prop where
  newLocation : s'.newLocation = s.newLocation + pageSize * r.length
  newPages : s'.newPages = s.newPages - r.length
  pages : pagesAt s'.mem s.newLocation r.length = r
  frame : ∀ a, a < s.newLocation ∨ s'.newLocation ≤ a → s'.mem a = s.mem a
  written : ∀ a ∈ s'.written, a ∈ s.written ∨ s.newLocation ≤ a ∧ a < s'.newLocation

theorem Saved.refl (s : Copying) (c : Int) : Saved s { s with binct := c } [] :=
  ⟨rfl, (Int.sub_zero _).symm, rfl, fun _ _ => rfl, fun _ ha => .inl ha⟩

theorem Saved.trans (h : Saved s s' r) (h' : Saved s' s'' r') : Saved s s'' (r ++ r') := by
  have hloc := h.newLocation
  have hloc' := h'.newLocation
  refine ⟨?_, ?_, ?_, fun a ha => ?_, fun a ha => ?_⟩
  · rw [hloc', hloc, length_append, mul_add, add_assoc]
  · rw [h'.newPages, h.newPages, length_append]
    omega
  · have hkept : pagesAt s''.mem s.newLocation r.length = r := by
      rw [pagesAt_congr _ _ fun a _ hlt => h'.frame a (.inl (by omega)), h.pages]
    rw [length_append, pagesAt_append, hkept, ← hloc, h'.pages]
  · rw [h'.frame a (by omega), h.frame a (by omega)]
  · rcases h'.written a ha with hold | hnew
    · rcases h.written a hold with hold | hmid
      · exact .inl hold
      · exact .inr (by omega)
    · exact .inr (by omega)

theorem Saved.save (s : Copying) (h : p.avail < blcksz) : Saved s (s.save p.blkno p.avail) [p] := by
  refine ⟨rfl, rfl, ?_, fun a ha => ?_, fun a ha => ?_⟩
  · show [pageAt _ _] = [p]
    rw [Copying.save, pageAt_set _ _ _ h]
  · change a < s.newLocation ∨ s.newLocation + 3 ≤ a at ha
    unfold Copying.save
    dsimp only
    rw [fsmPageSet_apply, if_neg (by omega), if_neg (by omega), if_neg (by omega)]
  · change a ∈ s.written ++ [s.newLocation, s.newLocation + 1, s.newLocation + 2] at ha
    show a ∈ s.written ∨ s.newLocation ≤ a ∧ a < s.newLocation + 3
    rcases mem_append.mp ha with hold | hnew
    · exact .inl hold
    · simp only [mem_cons, not_mem_nil, or_false] at hnew
      exact .inr (by omega)

/-- A round of either copy loop. -/
theorem Copying.visit_saved (s : Copying) (p : PageFreeSpaceInfo) (h : p.avail < blcksz) :
    ∃ r, Saved s (s.visit (b * 128) ((b + 1) * 128) p) r ∧ r.length ≤ 1 ∧
      ∀ l, keep b s.binct (p :: l) = r ++ keep b (s.visit (b * 128) ((b + 1) * 128) p).binct l := by
  have habove : (b + 1) * 128 ≤ p.avail ↔ b < p.bin := by
    show _ ↔ b < p.avail / 128
    omega
  have hbin : ¬b < p.bin → (b * 128 ≤ p.avail ↔ p.bin = b) := by
    show ¬b < p.avail / 128 → (_ ↔ p.avail / 128 = b)
    omega
  unfold Copying.visit
  split
  next hroomy =>
    refine ⟨[p], Saved.save s h, le_refl 1, fun l => ?_⟩
    rw [keep, if_pos (habove.mp hroomy)]
    rfl
  next hless =>
    have hnot : ¬b < p.bin := fun hlt => hless (habove.mpr hlt)
    split
    next hbreak =>
      have heq := (hbin hnot).mp hbreak
      dsimp only
      split
      next hleft =>
        refine ⟨[p], (Saved.refl s (s.binct - 1)).trans (Saved.save _ h), le_refl 1, fun l => ?_⟩
        rw [keep, if_neg hnot, if_pos heq, if_pos hleft]
        rfl
      next hnone =>
        refine ⟨[], Saved.refl s (s.binct - 1), Nat.zero_le 1, fun l => ?_⟩
        rw [keep, if_neg hnot, if_pos heq, if_neg hnone]
        rfl
    next hlow =>
      refine ⟨[], Saved.refl s s.binct, Nat.zero_le 1, fun l => ?_⟩
      rw [keep, if_neg hnot, if_neg (mt (hbin hnot).mpr hlow)]
      rfl

theorem copyIncoming_saved (prior : Option BlockNumber) (s : Copying)
    (hprior : ∀ blkno ∈ prior, ∀ p ∈ l, blkno < p.blkno)
    (hsorted : l.Pairwise fun p q => p.blkno < q.blkno) (hspace : ∀ p ∈ l, p.avail < blcksz) :
    ∃ s', copyIncoming (b * 128) ((b + 1) * 128) prior l s = .ok s' ∧ Saved s s' (keep b s.binct l) := by
  induction l generalizing prior s with
  | nil => exact ⟨s, rfl, Saved.refl s s.binct⟩
  | cons p l ih =>
    have hnext := pairwise_cons.mp hsorted
    have hinorder : (prior.any fun blkno => p.blkno ≤ blkno) = false := by
      cases prior with
      | none => rfl
      | some blkno =>
        have hlt := hprior blkno rfl p (mem_cons_self ..)
        exact decide_eq_false (BitVec.not_le.mpr hlt)
    obtain ⟨r, hround, -, hkeep⟩ := s.visit_saved (b := b) p (hspace p (mem_cons_self ..))
    obtain ⟨s', hcopy, hrest⟩ := ih (some p.blkno) (s.visit (b * 128) ((b + 1) * 128) p)
      (fun blkno hblkno q hq => Option.some.inj hblkno ▸ hnext.1 q hq) hnext.2
      fun q hq => hspace q (mem_cons_of_mem _ hq)
    refine ⟨s', ?_, ?_⟩
    · rw [copyIncoming, hinorder]
      exact hcopy
    · rw [hkeep]
      exact hround.trans hrest

/-- In place too: what is still to be read is ahead of what is written. -/
theorem copyExisting_saved (n : Nat) (s : Copying) (hold : pagesAt s.mem oldLocation n = l)
    (hspace : ∀ p ∈ l, p.avail < blcksz)
    (hplace : s.newLocation ≤ oldLocation ∨ oldLocation + pageSize * n ≤ s.newLocation) :
    Saved s (copyExisting (b * 128) ((b + 1) * 128) oldLocation n s) (keep b s.binct l) := by
  induction n generalizing oldLocation s l with
  | zero =>
    obtain rfl := hold
    exact Saved.refl s s.binct
  | succ n ih =>
    obtain rfl := hold
    rw [pagesAt] at hspace ⊢
    obtain ⟨r, hround, hone, hkeep⟩ := s.visit_saved (b := b) _ (hspace _ (mem_cons_self ..))
    have hloc := hround.newLocation
    unfold pageSize at hplace hloc
    have hahead : pagesAt (s.visit (b * 128) ((b + 1) * 128) (pageAt s.mem oldLocation)).mem (oldLocation + pageSize)
        n = pagesAt s.mem (oldLocation + pageSize) n :=
      pagesAt_congr _ _ fun a hle hlt => hround.frame a (by unfold pageSize at *; omega)
    rw [hkeep, copyExisting]
    refine hround.trans (ih _ hahead (fun q hq => hspace q (mem_cons_of_mem _ hq)) ?_)
    unfold pageSize
    omega

/-! ### Both packings -/

/-- The space before, and the copy loop at its end. -/
structure PackedAt (mem : Memory) (newLocation : Nat) (r : List PageFreeSpaceInfo) (s : Copying) : Prop where
  pages : pagesAt s.mem newLocation r.length = r
  newPages : s.newPages = 0
  frame : ∀ a, a < newLocation ∨ newLocation + pageSize * r.length ≤ a → s.mem a = mem a

theorem Saved.packedAt {c : Int} (h : Saved ⟨mem, newLocation, newPages, c, []⟩ s r) (hlen : r.length = newPages) :
    PackedAt mem newLocation r s := by
  refine ⟨h.pages, ?_, fun a ha => h.frame a ?_⟩
  · rw [h.newPages, hlen]
    exact Int.sub_self _
  · rw [h.newLocation]
    exact ha

theorem pagesAt_take {n i : Nat} (hold : pagesAt mem oldLocation n = l) (hi : i ≤ n) :
    pagesAt mem oldLocation i = l.take i := by
  rw [← hold, show n = i + (n - i) by omega, pagesAt_append, take_left' (pagesAt_length ..)]

/-- **Packing keeps the roomiest pages**, from a list or in place. -/
theorem packing_keeps_roomiest (newPages : Nat) (l : List PageFreeSpaceInfo)
    (hsorted : l.Pairwise fun p q => p.blkno < q.blkno) (hspace : ∀ p ∈ l, p.avail < blcksz)
    (hlt : newPages < l.length) :
    ∃ r, Packs newPages l r ∧
      (∀ mem newLocation, ∃ s, packIncomingPages mem newLocation newPages l = .ok s ∧ PackedAt mem newLocation r s) ∧
      ∀ mem newLocation oldLocation, pagesAt mem oldLocation l.length = l →
        newLocation ≤ oldLocation ∨ oldLocation + pageSize * l.length ≤ newLocation →
        (∃ s, packExistingPages mem newLocation newPages oldLocation l.length = .ok s ∧ PackedAt mem newLocation r s) ∧
          ∀ i < l.length, ∃ s, packExistingRounds mem newLocation newPages oldLocation l.length i = .ok s ∧
            ∀ a ∈ s.written, a < oldLocation + pageSize * i ∨ oldLocation + pageSize * l.length ≤ a := by
  obtain ⟨histogram, hbuild, hcount⟩ := buildHistogram_spec l (replicate histogramBins 0) length_replicate
    hspace
  have hhist : ∀ i, histogram.getD i 0 = l.countP fun p => p.bin = i := fun i => by
    rw [hcount, getD_eq_getElem?_getD, getElem?_replicate]
    split <;> exact zero_add _
  have hnone : 0 = l.countP fun p => histogramBins ≤ p.bin := by
    refine (countP_eq_zero.mpr fun p hp => ?_).symm
    have hp := hspace p hp
    unfold PageFreeSpaceInfo.bin
    unfold blcksz histogramBins at *
    simp only [decide_eq_true_eq]
    omega
  obtain ⟨b, hb, hbreak, hle, hover⟩ := findBreakpoint_spec histogramBins 0 hhist hnone (Nat.zero_le newPages) hlt
  have hL : threshold b = b * 128 := threshold_eq b (le_of_lt hb)
  have hU : threshold ((b : Int) + 1) = (b + 1) * 128 := threshold_eq (b + 1) hb
  set above := l.countP fun p => b < p.bin with habove
  have hlen : (keep b ((newPages : Int) - above) l).length = newPages := by
    rw [keep_length, ← habove]
    omega
  refine ⟨_, Packs.of_keep hlen, fun mem newLocation => ?_, fun mem newLocation oldLocation hold hplace => ?_⟩
  · obtain ⟨s, hcopy, hsaved⟩ := copyIncoming_saved (b := b) none ⟨mem, newLocation, newPages, newPages - above, []⟩
      nofun hsorted hspace
    refine ⟨s, ?_, hsaved.packedAt hlen⟩
    rw [packIncomingPages, hbuild]
    dsimp only
    rw [hbreak]
    dsimp only
    rw [hL, hU]
    exact hcopy
  · have hrounds (i : Nat) : packExistingRounds mem newLocation newPages oldLocation l.length i =
        .ok (copyExisting (b * 128) ((b + 1) * 128) oldLocation i
          ⟨mem, newLocation, newPages, newPages - above, []⟩) := by
      rw [packExistingRounds, hold]
      dsimp only
      rw [hbuild]
      dsimp only
      rw [hbreak]
      dsimp only
      rw [hL, hU]
    refine ⟨⟨_, hrounds l.length, (copyExisting_saved l.length _ hold hspace hplace).packedAt hlen⟩, fun i hi => ?_⟩
    have hsaved := copyExisting_saved (b := b) i ⟨mem, newLocation, newPages, newPages - above, []⟩
      (pagesAt_take hold (le_of_lt hi)) (fun p hp => hspace p (mem_of_mem_take hp)) (by
        unfold pageSize at *
        dsimp only
        omega)
    have hshort := (keep_sublist b ((newPages : Int) - above) (l.take i)).length_le
    have hloc := hsaved.newLocation
    rw [length_take] at hshort
    refine ⟨_, hrounds i, fun a ha => ?_⟩
    rcases hsaved.written a ha with hold | ⟨hfrom, hto⟩
    · exact nomatch hold
    · unfold pageSize at *
      dsimp only at *
      omega

/-- One of the pages of the breakpoint bin, and one above. -/
def threePages : List PageFreeSpaceInfo := [⟨1, 100⟩, ⟨4, 120⟩, ⟨7, 8000⟩]

theorem packing_keeps_roomiest_three :
    ∃ r, Packs 2 threePages r ∧ ∃ s, packIncomingPages (fun _ => 0) 5 2 threePages = .ok s ∧
      PackedAt (fun _ => 0) 5 r s := by
  obtain ⟨r, hpacks, hincoming, -⟩ := packing_keeps_roomiest 2 threePages (by decide) (by decide) (by decide)
  exact ⟨r, hpacks, hincoming (fun _ => 0) 5⟩

end PgStorage.Freespace
