import PgStorage.Hrl.TidProofs

/-! Enumerating a batch in several calls.

Each call of `_bitmap_findnexttids` takes the locations to come from where the last one left off, inside of a word, a run
or between words, and no more of them than it is asked for. -/
namespace PgStorage.Hrl
open List

variable {maxTids : Nat} {s : TidScan} {words : Batch} {result : IterateResult}

theorem explainFill_room (n : Nat) (h : s.result.nextTids.length ≤ maxTids) :
    (explainFill maxTids n s).result.nextTids.length ≤ maxTids := by
  induction n generalizing s with
  | zero => exact h
  | succ n ih =>
    rw [explainFill]
    split
    next hroom =>
      apply ih
      show (s.result.nextTids ++ range' _ 16).length ≤ _
      rwa [length_append, length_range']
    next => exact h

theorem scanLiteral_room (fuel pos : Nat) (h : s.result.nextTids.length ≤ maxTids) :
    (scanLiteral maxTids fuel pos s).result.nextTids.length ≤ maxTids := by
  induction fuel generalizing s pos with
  | zero => exact h
  | succ fuel ih =>
    rw [scanLiteral]
    split
    next hroom =>
      dsimp only
      split
      · apply ih
        dsimp only
        rw [length_append, length_singleton]
        exact hroom
      · exact h
    next => exact h

theorem tidsPass_room (h : s.result.nextTids.length ≤ maxTids) :
    (tidsPass maxTids s).result.nextTids.length ≤ maxTids := by
  rw [tidsPass]
  dsimp only
  split
  · exact h
  · split
    · exact explainFill_room _ h
    · exact scanLiteral_room 17 _ h

theorem findnexttids_room (words : Batch) (result : IterateResult) (maxTids : Nat) :
    (findnexttids words result maxTids).2.nextTids.length ≤ maxTids :=
  Loop.whileN_induction (fun s : TidScan => s.result.nextTids.length ≤ maxTids) (fun _ hs _ => tidsPass_room hs)
    ⟨words, {result with nextTidLoc := 0, nextTids := []}, false⟩ (Nat.zero_le _) (words.nwords + 1)

theorem tidsFrom_shift (base n : Nat) (ws : List Word) : tidsFrom (n + base) ws = (tidsFrom base ws).map (n + ·) := by
  induction ws generalizing base with
  | nil => rfl
  | cons w ws ih =>
    rw [tidsFrom, tidsFrom, map_append, add_assoc, ih, wordTids, wordTids, map_map]
    congr 2
    funext i
    show n + base + 1 + i = n + (base + 1 + i)
    omega

/-- The locations of the bits set, for a batch whose first word comes behind `firstTid` bits. -/
def setTids (firstTid : Nat) (ws : List Word) : List Nat :=
  ((List.range' 1 (16 * ws.length)).filter (bitAt ws)).map (firstTid + ·)

theorem tidsFrom_setTids (firstTid : Nat) (ws : List Word) : tidsFrom firstTid ws = setTids firstTid ws := by
  have h := tidsFrom_eq 0 ws
  rw [Nat.mul_zero, zero_add] at h
  have hshift := tidsFrom_shift 0 firstTid ws
  rw [add_zero, h] at hshift
  exact hshift

theorem setTids_sorted (firstTid : Nat) (ws : List Word) : (setTids firstTid ws).Pairwise (· < ·) :=
  List.Pairwise.map _ (fun _ _ hlt => Nat.add_lt_add_left hlt firstTid) ((pairwise_lt_range' ..).filter _)

/-- The calls with these limits, one behind the other: what each returns, and where the last one stops. -/
def enumerate : List Nat → Batch → IterateResult → List (List Nat) × Batch × IterateResult
  | [], words, result => ([], words, result)
  | maxTids :: limits, words, result =>
    let (words, result) := findnexttids words result maxTids
    let (tids, stop) := enumerate limits words result
    (result.nextTids :: tids, stop)

theorem enumerate_cons (maxTids : Nat) (limits : List Nat) (words : Batch) (result : IterateResult) :
    enumerate (maxTids :: limits) words result =
      ((findnexttids words result maxTids).2.nextTids ::
        (enumerate limits (findnexttids words result maxTids).1 (findnexttids words result maxTids).2).1,
        (enumerate limits (findnexttids words result maxTids).1 (findnexttids words result maxTids).2).2) := rfl

theorem enumerate_limits (limits : List Nat) (words : Batch) (result : IterateResult) :
    List.Forall₂ (fun tids maxTids => tids.length ≤ maxTids) (enumerate limits words result).1 limits := by
  induction limits generalizing words result with
  | nil => exact .nil
  | cons maxTids limits ih =>
    rw [enumerate_cons]
    exact .cons (findnexttids_room words result maxTids) (ih _ _)

theorem enumerate_pending (limits : List Nat) (hl : ∀ m ∈ limits, 16 ≤ m) (h : TidsAt words result) :
    TidsAt (enumerate limits words result).2.1 (enumerate limits words result).2.2 ∧
      (enumerate limits words result).1.flatten ++ pendingTids (enumerate limits words result).2.2.nextTid
          (enumerate limits words result).2.2.lastScanPos
          (scanCells (enumerate limits words result).2.1 (enumerate limits words result).2.2) =
        pendingTids result.nextTid result.lastScanPos (scanCells words result) := by
  induction limits generalizing words result with
  | nil => exact ⟨h, rfl⟩
  | cons maxTids limits ih =>
    obtain ⟨hat, htids, -⟩ := findnexttids_spec (hl maxTids (mem_cons_self ..)) h
    obtain ⟨hat', htids'⟩ := ih (fun m hm => hl m (mem_cons_of_mem _ hm)) hat
    rw [enumerate_cons]
    refine ⟨hat', ?_⟩
    dsimp only
    rw [flatten_cons, append_assoc, htids', htids]

/-! ### The batch runs empty -/

theorem findnexttids_empty (h : words.nwords = 0) (maxTids : Nat) :
    (findnexttids words result maxTids).1.nwords = 0 := by
  rw [findnexttids, Loop.whileN, if_neg (by rw [h]; simp)]
  exact h

theorem enumerate_empty (h : words.nwords = 0) (limits : List Nat) : (enumerate limits words result).2.1.nwords = 0 := by
  induction limits generalizing words result with
  | nil => exact h
  | cons maxTids limits ih => exact ih (findnexttids_empty h maxTids)

/-- A call uses up a word or returns something, and if it returns nothing, it uses up all words. -/
theorem findnexttids_progress (hmax : 16 ≤ maxTids) (h : TidsAt words result) (hn : 0 < words.nwords) :
    (findnexttids words result maxTids).1.nwords < words.nwords ∨ (findnexttids words result maxTids).2.nextTids ≠ [] := by
  obtain ⟨-, -, -, -, -, hnil⟩ := findnexttids_spec hmax h
  by_cases htids : (findnexttids words result maxTids).2.nextTids = []
  · exact .inl ((hnil htids).symm ▸ hn)
  · exact .inr htids

/-- As long as words are left, every call has returned something. -/
theorem enumerate_progress (limits : List Nat) (hl : ∀ m ∈ limits, 16 ≤ m) (h : TidsAt words result)
    (hn : (enumerate limits words result).2.1.nwords ≠ 0) :
    limits.length ≤ (enumerate limits words result).1.flatten.length := by
  induction limits generalizing words result with
  | nil => exact Nat.zero_le _
  | cons maxTids limits ih =>
    obtain ⟨hat, -, -, -, -, hnil⟩ := findnexttids_spec (hl maxTids (mem_cons_self ..)) h
    rw [enumerate_cons] at hn ⊢
    have hrest := ih (fun m hm => hl m (mem_cons_of_mem _ hm)) hat hn
    have hsome : (findnexttids words result maxTids).2.nextTids ≠ [] := fun htids =>
      hn (enumerate_empty (hnil htids) limits)
    have hpos := length_pos_iff.mpr hsome
    dsimp only
    rw [flatten_cons, length_append, length_cons]
    omega

theorem tidsAt_beginIterate {b : Batch} (hv : ∀ c ∈ b.mem, c.Valid) : TidsAt b (beginIterate b) :=
  ⟨hv, Nat.zero_le _, Nat.zero_le _, fun hc => absurd rfl hc⟩

/-- A literal word with two bits set, then a run of ones: the run does not fit into the first call. -/
def literalThenOnes : Batch :=
  { maxNumOfWords := 2, nwordsread := 0, nextread := 1, firstTid := 0, startNo := 0, nwords := 2
    hwords := fun _ => headerBit 1, cwords := fun i => if i = 0 then 5 else makeFillWord 1 1 }

end PgStorage.Hrl
