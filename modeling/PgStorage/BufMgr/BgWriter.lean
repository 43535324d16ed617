import PgStorage.Lib.Circular

/-! The cleaning scan of the background writer.

It keeps ahead of the clock sweep, one lap at most. A position is a buffer and a pass, where passes are counted modulo
2^32; a position without wrap-around is the number of buffers that were passed to get there. What the floating-point
averages come to, and what syncing a buffer returns, is left open. -/
namespace PgStorage.BgWriter
open List Nat

/-- The static variables of `BgBufferSync` that hold positions. -/
structure State where
  savedInfoValid : Bool
  prevStrategyBufId : Int
  prevStrategyPasses : Nat
  nextToClean : Int
  nextPasses : Nat

def start : State := ⟨false, 0, 0, 0, 0⟩

/-- What `SyncOneBuffer` returns: `BUF_WRITTEN` and `BUF_REUSABLE`. -/
structure SyncState where
  written : Bool
  reusable : Bool

/-- What one call finds: the report of `StrategySyncStart` (its passes before they are cut to 32 bits), the estimates,
and what syncing a buffer returns when so many are left to scan. -/
structure Call where
  strategyPasses : Nat
  strategyBufId : Nat
  recentAlloc : Nat
  bgwriterLruMaxpages : Int
  reusableBuffersEst : Int
  upcomingAllocEst : Int
  minScanBuffers : Int
  syncOneBuffer : Nat → Int → SyncState

/-- The signed difference of two pass counts. -/
def passesDelta (a b : Nat) : Int := ((a : Int) - b).bmod (2 ^ 32)

/-- What the first part of a call decides. -/
structure Plan where
  strategyDelta : Int
  nextToClean : Int
  nextPasses : Nat
  bufsToLap : Int

/-- Compares the clock sweep with the saved positions, and moves the cleaning point up when it is behind. -/
def plan (nBuffers : Int) (s : State) (strategyBufId : Int) (strategyPasses : Nat) : Plan :=
  if s.savedInfoValid then
    let strategyDelta :=
      strategyBufId - s.prevStrategyBufId + passesDelta strategyPasses s.prevStrategyPasses * nBuffers
    if passesDelta s.nextPasses strategyPasses > 0 then
      -- one pass ahead of the strategy point
      ⟨strategyDelta, s.nextToClean, s.nextPasses, strategyBufId - s.nextToClean⟩
    else if s.nextPasses = strategyPasses ∧ s.nextToClean ≥ strategyBufId then
      ⟨strategyDelta, s.nextToClean, s.nextPasses, nBuffers - (s.nextToClean - strategyBufId)⟩
    else ⟨strategyDelta, strategyBufId, strategyPasses, nBuffers⟩
  else ⟨0, strategyBufId, strategyPasses, nBuffers⟩

/-- The variables of the scanning loop, with the buffers it has visited. -/
structure Scan where
  nextToClean : Int
  nextPasses : Nat
  numWritten : Int
  reusableBuffers : Int
  visited : List Int

/-- Moves the cleaning point past the buffer that was just visited. -/
def Scan.advance (nBuffers : Int) (t : Scan) : Scan :=
  let t := {t with visited := t.visited ++ [t.nextToClean]}
  if t.nextToClean + 1 ≥ nBuffers then {t with nextToClean := 0, nextPasses := (t.nextPasses + 1) % 2 ^ 32}
  else {t with nextToClean := t.nextToClean + 1}

/-- The scanning loop, with the number of buffers left to scan. -/
def scan (nBuffers : Int) (c : Call) (upcomingAllocEst : Int) : Nat → Scan → Scan
  | 0, t => t
  | numToScan + 1, t =>
    if t.reusableBuffers < upcomingAllocEst then
      let syncState := c.syncOneBuffer (numToScan + 1) t.nextToClean
      let t := t.advance nBuffers
      if syncState.written then
        let t := {t with reusableBuffers := t.reusableBuffers + 1, numWritten := t.numWritten + 1}
        if t.numWritten ≥ c.bgwriterLruMaxpages then t else scan nBuffers c upcomingAllocEst numToScan t
      else if syncState.reusable then
        scan nBuffers c upcomingAllocEst numToScan {t with reusableBuffers := t.reusableBuffers + 1}
      else scan nBuffers c upcomingAllocEst numToScan t
    else t

/-- What a call worked out when it ran the scan. -/
structure Outcome where
  strategyDelta : Int
  bufsToLap : Int
  visited : List Int
  hibernate : Bool

/-- `BgBufferSync`; there is no outcome when the scan is off. -/
def bgBufferSync (nBuffers : Nat) (s : State) (c : Call) : State × Option Outcome :=
  if c.bgwriterLruMaxpages ≤ 0 then ({s with savedInfoValid := false}, none)
  else
    let strategyPasses := c.strategyPasses % 2 ^ 32
    let p := plan nBuffers s c.strategyBufId strategyPasses
    let upcomingAllocEst :=
      if c.upcomingAllocEst < c.minScanBuffers + c.reusableBuffersEst then c.minScanBuffers + c.reusableBuffersEst
      else c.upcomingAllocEst
    let t := scan nBuffers c upcomingAllocEst p.bufsToLap.toNat
      ⟨p.nextToClean, p.nextPasses, 0, c.reusableBuffersEst, []⟩
    (⟨true, c.strategyBufId, strategyPasses, t.nextToClean, t.nextPasses⟩,
      some ⟨p.strategyDelta, p.bufsToLap, t.visited, decide (p.bufsToLap = 0 ∧ c.recentAlloc = 0)⟩)

/-- The state after a sequence of calls. -/
def run (nBuffers : Nat) (calls : List Call) : State :=
  calls.foldl (fun s c => (bgBufferSync nBuffers s c).1) start

variable {nBuffers : Nat}

/-- The strategy point that a call finds, without wrap-around. -/
def Call.position (nBuffers : Nat) (c : Call) : Nat := c.strategyPasses * nBuffers + c.strategyBufId

def Call.Scans (c : Call) : Prop := 0 < c.bgwriterLruMaxpages

instance (c : Call) : Decidable c.Scans := inferInstanceAs (Decidable (_ < _))

/-- The report does not go back, and advances by less than 2^31 passes. -/
def Advances (nBuffers : Nat) (c d : Call) : Prop :=
  c.position nBuffers ≤ d.position nBuffers ∧ d.strategyPasses < c.strategyPasses + 2 ^ 31

instance (c d : Call) : Decidable (Advances nBuffers c d) := inferInstanceAs (Decidable (_ ∧ _))

/-- A buffer and a pass count stand for a position without wrap-around. -/
def At (nBuffers : Nat) (bufId : Int) (passes : Nat) (m : Nat) : Prop :=
  bufId = (m % nBuffers : Nat) ∧ passes = m / nBuffers % 2 ^ 32

variable {c : Call} {m : Nat} {s : State}

theorem Call.position_div (hlt : c.strategyBufId < nBuffers) :
    c.position nBuffers / nBuffers = c.strategyPasses ∧ c.position nBuffers % nBuffers = c.strategyBufId :=
  (Nat.div_mod_unique (Nat.zero_lt_of_lt hlt)).mpr ⟨by rw [position, Nat.mul_comm, Nat.add_comm], hlt⟩

theorem Call.at_position (hlt : c.strategyBufId < nBuffers) :
    At nBuffers c.strategyBufId (c.strategyPasses % 2 ^ 32) (c.position nBuffers) := by
  obtain ⟨hdiv, hmod⟩ := position_div hlt
  exact ⟨by rw [hmod], by rw [hdiv]⟩

/-- The signed difference is exact for counts less than 2^31 apart. -/
theorem passesDelta_mod {a b : Nat} (hab : a < b + 2 ^ 31) (hba : b ≤ a + 2 ^ 31) :
    passesDelta (a % 2 ^ 32) (b % 2 ^ 32) = (a : Int) - b := by
  simp only [passesDelta, Int.bmod]
  split <;> omega

theorem div_succ_of_lt {n : Nat} (h : m % n + 1 < n) : (m + 1) / n = m / n ∧ (m + 1) % n = m % n + 1 :=
  (Nat.div_mod_unique (Nat.zero_lt_of_lt h)).mpr ⟨by have := Nat.mod_add_div m n; omega, h⟩

theorem div_succ_of_eq {n : Nat} (hpos : 0 < n) (h : n ≤ m % n + 1) : (m + 1) / n = m / n + 1 ∧ (m + 1) % n = 0 := by
  have hlt := Nat.mod_lt m hpos
  have hsum := Nat.mod_add_div m n
  exact (Nat.div_mod_unique hpos).mpr ⟨by rw [Nat.mul_add]; omega, hpos⟩

/-! ### One call -/

/-- The saved state: a cleaning point that is not behind the strategy point and at most one lap ahead. -/
structure Ahead (nBuffers : Nat) (s : State) (strategy clean : Nat) : Prop where
  saved : s.savedInfoValid = true → At nBuffers s.prevStrategyBufId s.prevStrategyPasses strategy
  point : At nBuffers s.nextToClean s.nextPasses clean
  behind : strategy ≤ clean
  lap : clean ≤ strategy + nBuffers

/-- The plan starts at a position from which one lap past the strategy point is what may be scanned. -/
theorem plan_spec {strategy clean : Nat} (h : Ahead nBuffers s strategy clean)
    (hlt : c.strategyBufId < nBuffers)
    (hadv : s.savedInfoValid = true → strategy ≤ c.position nBuffers ∧
      c.strategyPasses < strategy / nBuffers + 2 ^ 31) :
    let p := plan nBuffers s c.strategyBufId (c.strategyPasses % 2 ^ 32)
    (p.strategyDelta = if s.savedInfoValid then (c.position nBuffers : Int) - strategy else 0) ∧
      ∃ m, At nBuffers p.nextToClean p.nextPasses m ∧ c.position nBuffers ≤ m ∧
        p.bufsToLap = (c.position nBuffers + nBuffers : Int) - m ∧ m ≤ c.position nBuffers + nBuffers := by
  have hpos : 0 < nBuffers := zero_lt_of_lt hlt
  have hat := Call.at_position hlt
  obtain ⟨hdiv, hmod⟩ := Call.position_div hlt
  unfold plan
  dsimp only
  by_cases hvalid : s.savedInfoValid = true
  · rw [if_pos hvalid, if_pos hvalid]
    obtain ⟨hle, hnear⟩ := hadv hvalid
    obtain ⟨hbuf, hpass⟩ := h.saved hvalid
    obtain ⟨hnext, hnextPass⟩ := h.point
    have hpassLe : strategy / nBuffers ≤ c.strategyPasses := hdiv ▸ Nat.div_le_div_right hle
    have hlow : strategy / nBuffers ≤ clean / nBuffers := Nat.div_le_div_right h.behind
    have hhigh : clean / nBuffers ≤ strategy / nBuffers + 1 :=
      Nat.add_div_right strategy hpos ▸ Nat.div_le_div_right h.lap
    have hstrategy := Nat.mod_add_div strategy nBuffers
    have hclean := mod_add_div clean nBuffers
    have hposition : c.position nBuffers = c.strategyPasses * nBuffers + c.strategyBufId := rfl
    have hdelta : (c.strategyBufId : Int) - s.prevStrategyBufId +
        passesDelta (c.strategyPasses % 2 ^ 32) s.prevStrategyPasses * nBuffers =
        (c.position nBuffers : Int) - strategy := by
      rw [hpass, hbuf, passesDelta_mod hnear (by omega), hposition, Int.sub_mul]
      have hs : ((strategy % nBuffers : Nat) : Int) + (strategy / nBuffers : Nat) * nBuffers = strategy := by
        rw [Int.mul_comm]
        exact_mod_cast hstrategy
      push_cast at hs ⊢
      omega
    have hdiff : passesDelta s.nextPasses (c.strategyPasses % 2 ^ 32) =
        ((clean / nBuffers : Nat) : Int) - c.strategyPasses := by
      rw [hnextPass, passesDelta_mod (by omega) (by omega)]
    have hlap : clean ≤ c.position nBuffers + nBuffers := Nat.le_trans h.lap (Nat.add_le_add_right hle _)
    rw [hdiff]
    split
    · next hahead =>
      have hone : clean / nBuffers = c.strategyPasses + 1 := by omega
      rw [hone, Nat.mul_add, Nat.mul_comm nBuffers c.strategyPasses] at hclean
      exact ⟨hdelta, clean, h.point, by omega, by dsimp only; omega, hlap⟩
    · next hnot =>
      split
      · next hsame =>
        have hone : clean / nBuffers = c.strategyPasses := by
          have := hsame.1
          omega
        have hge := hsame.2
        rw [hone, Nat.mul_comm nBuffers] at hclean
        exact ⟨hdelta, clean, h.point, by omega, by dsimp only; omega, hlap⟩
      · exact ⟨hdelta, _, hat, le_refl _, by dsimp only; omega, le_add_right _ _⟩
  · rw [if_neg hvalid, if_neg hvalid]
    exact ⟨rfl, _, hat, le_refl _, by dsimp only; omega, le_add_right _ _⟩

theorem Scan.advance_spec {t : Scan} (hpos : 0 < nBuffers) (h : At nBuffers t.nextToClean t.nextPasses m) :
    At nBuffers (t.advance nBuffers).nextToClean (t.advance nBuffers).nextPasses (m + 1) ∧
      (t.advance nBuffers).visited = t.visited ++ [((m % nBuffers : Nat) : Int)] := by
  obtain ⟨hnext, hpass⟩ := h
  unfold Scan.advance
  dsimp only
  rw [hnext]
  split
  · next hwrap =>
    obtain ⟨hdiv, hmod⟩ := div_succ_of_eq hpos (m := m) (by omega)
    refine ⟨⟨by rw [hmod]; rfl, ?_⟩, rfl⟩
    dsimp only
    rw [hdiv, hpass, mod_add_mod]
  · next hno =>
    obtain ⟨hdiv, hmod⟩ := div_succ_of_lt (m := m) (n := nBuffers) (by omega)
    exact ⟨⟨by rw [hmod]; rfl, by rw [hdiv]; exact hpass⟩, rfl⟩

/-- The loop visits consecutive buffers, as many as it was given at most. -/
theorem scan_spec (hpos : 0 < nBuffers) (c : Call) (est : Int) (numToScan : Nat) (t : Scan)
    (h : At nBuffers t.nextToClean t.nextPasses m) :
    let u := scan nBuffers c est numToScan t
    ∃ k ≤ numToScan, At nBuffers u.nextToClean u.nextPasses (m + k) ∧
      u.visited = t.visited ++ (range' m k).map fun x => ((x % nBuffers : Nat) : Int) := by
  induction numToScan generalizing t m with
  | zero => exact ⟨0, le_refl _, h, (append_nil _).symm⟩
  | succ n ih =>
    obtain ⟨hat, hvisited⟩ := Scan.advance_spec hpos h
    have hmore (v : Scan) (hnext : v.nextToClean = (t.advance nBuffers).nextToClean)
        (hpass : v.nextPasses = (t.advance nBuffers).nextPasses)
        (hv : v.visited = (t.advance nBuffers).visited) :
        ∃ k ≤ n + 1, At nBuffers (scan nBuffers c est n v).nextToClean (scan nBuffers c est n v).nextPasses (m + k) ∧
          (scan nBuffers c est n v).visited =
            t.visited ++ (range' m k).map fun x => ((x % nBuffers : Nat) : Int) := by
      obtain ⟨k, hk, hend, hlist⟩ := ih v (m := m + 1) (by rw [hnext, hpass]; exact hat)
      refine ⟨k + 1, by omega, by rwa [Nat.add_right_comm, Nat.add_assoc m] at hend, ?_⟩
      rw [hlist, hv, hvisited, range'_succ, map_cons, append_assoc, singleton_append]
    have hstop (v : Scan) (hnext : v.nextToClean = (t.advance nBuffers).nextToClean)
        (hpass : v.nextPasses = (t.advance nBuffers).nextPasses)
        (hv : v.visited = (t.advance nBuffers).visited) :
        ∃ k ≤ n + 1, At nBuffers v.nextToClean v.nextPasses (m + k) ∧
          v.visited = t.visited ++ (range' m k).map fun x => ((x % nBuffers : Nat) : Int) :=
      ⟨1, by omega, by rw [hnext, hpass]; exact hat, by rw [hv, hvisited]; rfl⟩
    simp only [scan]
    split
    · split
      · split
        · exact hstop _ rfl rfl rfl
        · exact hmore _ rfl rfl rfl
      · split
        · exact hmore _ rfl rfl rfl
        · exact hmore _ rfl rfl rfl
    · exact ⟨0, by omega, h, (append_nil _).symm⟩

/-- Fewer than a lap of consecutive buffers are different ones. -/
theorem nodup_lap {k : Nat} (hk : k ≤ nBuffers) :
    ((range' m k).map fun x => ((x % nBuffers : Nat) : Int)).Nodup := by
  refine List.Nodup.map_on ?_ nodup_range'
  intro x hx y hy heq
  have hx := mem_range'_1.mp hx
  have hy := mem_range'_1.mp hy
  have heq : x % nBuffers = y % nBuffers := by exact_mod_cast heq
  by_contra hne
  rcases lt_or_gt_of_ne hne with hlt | hlt
  · exact Circular.mod_ne hlt (by omega) heq
  · exact Circular.mod_ne hlt (by omega) heq.symm

/-- The call before, when it ran the scan. -/
def previousScan (before : List Call) : Option Call := before.getLast?.filter fun d => decide d.Scans

/-- How far the strategy point advanced since the call before; nothing is assumed where none was saved. -/
def advance (nBuffers : Nat) (before : List Call) (c : Call) : Int :=
  match previousScan before with
  | some d => (c.position nBuffers : Int) - d.position nBuffers
  | none => 0

/-- The state of a run stands for positions, and the strategy point was saved by the call before. -/
def Saved (nBuffers : Nat) (before : List Call) (s : State) : Prop :=
  ∃ strategy clean, Ahead nBuffers s strategy clean ∧ s.savedInfoValid = (previousScan before).isSome ∧
    ∀ d ∈ previousScan before, strategy = d.position nBuffers

theorem previousScan_append (before : List Call) (c : Call) :
    previousScan (before ++ [c]) = if c.Scans then some c else none := by
  rw [previousScan, getLast?_append_of_ne_nil _ (cons_ne_nil _ _)]
  by_cases h : c.Scans
  · simp [Option.filter, h]
  · simp [Option.filter, h]

theorem run_append (before : List Call) (c : Call) :
    run nBuffers (before ++ [c]) = (bgBufferSync nBuffers (run nBuffers before) c).1 := by
  rw [run, foldl_append]
  rfl

theorem saved_start : Saved nBuffers [] start :=
  ⟨0, 0, ⟨fun h => Bool.noConfusion h, ⟨by simp [start], by simp [start]⟩, le_refl _, zero_le _⟩, rfl,
    fun _ h => nomatch h⟩

/-- A call that runs the scan ends at most one lap ahead, has visited no buffer twice, and saves its strategy point. -/
theorem bgBufferSync_scans {before : List Call} (h : Saved nBuffers before s)
    (hlt : c.strategyBufId < nBuffers) (hadv : ∀ d ∈ before.getLast?, Advances nBuffers d c)
    (hd : ∀ d ∈ before.getLast?, d.strategyBufId < nBuffers) (hscans : c.Scans) :
    ∃ out m, (bgBufferSync nBuffers s c).2 = some out ∧
      Ahead nBuffers (bgBufferSync nBuffers s c).1 (c.position nBuffers) m ∧
      (bgBufferSync nBuffers s c).1.savedInfoValid = true ∧
      out.strategyDelta = advance nBuffers before c ∧ 0 ≤ out.bufsToLap ∧ out.bufsToLap ≤ nBuffers ∧
      out.visited.Nodup := by
  have hpos : 0 < nBuffers := zero_lt_of_lt hlt
  obtain ⟨strategy, clean, hahead, hvalid, hpoint⟩ := h
  have hplan := plan_spec hahead hlt (c := c) (by
    intro hv
    rw [hvalid, Option.isSome_iff_exists] at hv
    obtain ⟨d, hsome⟩ := hv
    have hmem := (Option.filter_eq_some_iff.mp hsome).1
    rw [hpoint d hsome, (Call.position_div (hd d hmem)).1]
    exact hadv d hmem)
  obtain ⟨hdelta, m, hat, hge, hbufs, hle⟩ := hplan
  rw [bgBufferSync, if_neg (Int.not_le.mpr hscans)]
  dsimp only
  generalize plan nBuffers s c.strategyBufId (c.strategyPasses % 2 ^ 32) = p at *
  obtain ⟨k, hk, hend, hvisited⟩ := scan_spec hpos c
    (if c.upcomingAllocEst < c.minScanBuffers + c.reusableBuffersEst then c.minScanBuffers + c.reusableBuffersEst
      else c.upcomingAllocEst) p.bufsToLap.toNat ⟨p.nextToClean, p.nextPasses, 0, c.reusableBuffersEst, []⟩ hat
  refine ⟨_, m + k, rfl, ⟨fun _ => Call.at_position hlt, hend, by omega, by omega⟩, rfl, ?_, by dsimp only; omega,
    by dsimp only; omega, ?_⟩
  · dsimp only
    rw [hdelta, advance, hvalid]
    cases hprev : previousScan before with
    | none => rfl
    | some d =>
      rw [hpoint d hprev]
      rfl
  · dsimp only
    rw [hvisited, nil_append]
    exact nodup_lap (by omega)

theorem Saved.step {before : List Call} (h : Saved nBuffers before s)
    (hlt : c.strategyBufId < nBuffers) (hadv : ∀ d ∈ before.getLast?, Advances nBuffers d c)
    (hd : ∀ d ∈ before.getLast?, d.strategyBufId < nBuffers) :
    Saved nBuffers (before ++ [c]) (bgBufferSync nBuffers s c).1 := by
  unfold Saved
  rw [previousScan_append]
  by_cases hscans : c.Scans
  · obtain ⟨_, m, _, hahead, hvalid, _⟩ := bgBufferSync_scans h hlt hadv hd hscans
    rw [if_pos hscans]
    exact ⟨_, m, hahead, hvalid, fun d hmem => by cases hmem; rfl⟩
  · obtain ⟨strategy, clean, hahead, _⟩ := h
    rw [if_neg hscans, bgBufferSync, if_pos (Int.not_lt.mp hscans)]
    exact ⟨strategy, clean, ⟨fun hv => Bool.noConfusion hv, hahead.point, hahead.behind, hahead.lap⟩, rfl,
      fun _ hmem => nomatch hmem⟩

theorem run_saved (calls : List Call) (hrange : ∀ d ∈ calls, d.strategyBufId < nBuffers)
    (hadv : calls.IsChain (Advances nBuffers)) : Saved nBuffers calls (run nBuffers calls) := by
  induction calls using reverseRecOn with
  | nil => exact saved_start
  | append_singleton before c ih =>
    obtain ⟨hbefore, _, hlast⟩ := isChain_append.mp hadv
    rw [run_append]
    refine (ih (fun d hd => hrange d (mem_append_left _ hd)) hbefore).step
      (hrange c mem_concat_self) (fun d hd => hlast d hd c rfl) fun d hd => ?_
    exact hrange d (mem_append_left _ (mem_of_getLast? hd))

/-- **Never more than one lap ahead** after any call of a sequence in which the reports do not go back; a call with the
scan off forgets the saved strategy point only. -/
theorem bgBufferSync_within_lap (nBuffers : Nat) (before : List Call) (c : Call)
    (hrange : ∀ d ∈ before ++ [c], d.strategyBufId < nBuffers) (hadv : (before ++ [c]).IsChain (Advances nBuffers)) :
    let s := run nBuffers before
    let t := bgBufferSync nBuffers s c
    (0 ≤ t.1.nextToClean ∧ t.1.nextToClean < nBuffers) ∧
      (¬ c.Scans → t = ({s with savedInfoValid := false}, none)) ∧
      (c.Scans → ∃ out m, t.2 = some out ∧ At nBuffers t.1.nextToClean t.1.nextPasses m ∧
        c.position nBuffers ≤ m ∧ m ≤ c.position nBuffers + nBuffers ∧ 0 ≤ out.bufsToLap ∧ out.bufsToLap ≤ nBuffers ∧
        out.strategyDelta = advance nBuffers before c ∧ out.visited.Nodup) := by
  dsimp only
  obtain ⟨hbefore, _, hlast⟩ := isChain_append.mp hadv
  have hlt : c.strategyBufId < nBuffers := hrange c mem_concat_self
  have hsaved := run_saved before (fun d hd => hrange d (mem_append_left _ hd)) hbefore
  have hlast := fun d hd => hlast d hd c rfl
  have hd : ∀ d ∈ before.getLast?, d.strategyBufId < nBuffers := fun d hd =>
    hrange d (mem_append_left _ (mem_of_getLast? hd))
  refine ⟨?_, fun hoff => ?_, fun hscans => ?_⟩
  · obtain ⟨_, clean, hahead, _⟩ := hsaved.step hlt hlast hd
    have hmod := mod_lt clean (zero_lt_of_lt hlt)
    rw [hahead.point.1]
    omega
  · rw [bgBufferSync, if_pos (Int.not_lt.mp hoff)]
  · obtain ⟨out, m, hout, hahead, _, hdelta, hlow, hhigh, hnodup⟩ := bgBufferSync_scans hsaved hlt hlast hd hscans
    exact ⟨out, m, hout, hahead.point, hahead.behind, hahead.lap, hlow, hhigh, hdelta, hnodup⟩

/-- A report of a pass and a buffer, with nothing known about the buffers that are scanned. -/
def reported (passes bufId : Nat) (maxpages upcoming : Int) : Call :=
  ⟨passes, bufId, 0, maxpages, 0, upcoming, 0, fun _ _ => ⟨false, false⟩⟩

/-- The cleaner finishes its lap, and is overtaken before the next call. -/
theorem lapped_within : ∃ before c, before = [reported 0 1 100 9] ∧ c = reported 2 3 100 9 ∧
    (bgBufferSync 4 (run 4 before) c).2.map Outcome.strategyDelta = some (advance 4 before c) ∧
    advance 4 before c = 10 := by
  refine ⟨[reported 0 1 100 9], reported 2 3 100 9, rfl, rfl, ?_, by decide⟩
  obtain ⟨_, _, hscans⟩ := bgBufferSync_within_lap 4 [reported 0 1 100 9] (reported 2 3 100 9) (by decide)
    (by decide)
  obtain ⟨out, _, hout, _, _, _, _, _, hdelta, _⟩ := hscans (by decide)
  rw [hout, ← hdelta]
  rfl

/-- The scan is off for one call: the strategy point moves past the cleaning point, and the next call assumes that it
has not moved. -/
theorem switchedOff_delta :
    let off := reported 0 1 0 0
    let on := reported 0 3 100 0
    [reported 0 0 100 0, off, on].IsChain (Advances 4) ∧
      (bgBufferSync 4 (run 4 [reported 0 0 100 0]) off).1.nextToClean = 0 ∧
      (bgBufferSync 4 (run 4 [reported 0 0 100 0]) off).1.nextPasses = 0 ∧
      (on.position 4 : Int) - off.position 4 = 2 ∧
      (bgBufferSync 4 (run 4 [reported 0 0 100 0, off]) on).2.map Outcome.strategyDelta = some 0 := by
  decide

end PgStorage.BgWriter
