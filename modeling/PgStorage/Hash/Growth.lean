import PgStorage.Hash.FiniteMap

/-! Growth beyond the directory, and failed allocations.

A table has a header with `dsize` and `max_dsize` and a directory with a number of slots; the directory of a table in
shared memory is given by the caller. `expand_table` raises `max_bucket` before it has a segment for the new bucket,
does not look at the result of `dir_realloc`, and `dir_realloc` takes the first segment for the directory. A call that
fails for lack of elements comes before all this. -/
namespace PgStorage.Hash
open Links Trace
open Option Nat
open BitVec (ofNat)

/-- What `alloc` gives in a call: a chunk of elements, a directory, a segment. -/
structure Memory where
  elements : Bool
  directory : Bool
  segment : Bool

/-- A table whose directory has `table.dsize` slots; `dsize` and `maxDsize` are those of the header, the latter `none`
for `NO_MAX_DSIZE`. -/
structure DirTable (K : Type) where
  table : Htab K
  dsize : Nat
  maxDsize : Option Nat

section Calls
variable {K : Type} [DecidableEq K]

/-- `hash_create` with `dsize` and `max_size` of `HASH_DIRSIZE`, and with the slots of a directory that is given. -/
def createDir (hash : K → BitVec 64) (ffactor nelem : Int) (key : Nat → K) (dirsize : Option (Int × Int))
    (slots : Option Nat) : Option (DirTable K) :=
  (hashCreate hash ffactor nelem key).bind fun t =>
  ((dirsize.map fun (dsize, _) => myLog2 dsize).getD (some defDirsize)).bind fun dsize =>
  ((dirsize.map fun (_, maxSize) => (myLog2 maxSize).map some).getD (some none)).bind fun maxDsize =>
    let dsize := if dsize < t.nsegs then t.nsegs else dsize
    -- the first segments go to slots that the directory has
    if slots.getD dsize < t.nsegs then none else some ⟨{t with dsize := slots.getD dsize}, dsize, maxDsize⟩

/-- `dir_realloc`. With a new directory it copies and clears memory beyond the first segment. -/
def dirRealloc (d : DirTable K) (m : Memory) : Option (DirTable K) :=
  if d.maxDsize ≠ none then some d else if m.directory then none else some d

/-- `expand_table`, and whether it has a segment for the new bucket. A slot that the directory does not have is not
written without harm. -/
def expandTableIn (d : DirTable K) (m : Memory) : Option (DirTable K × Bool) :=
  let newSegnum := (d.table.maxBucket + 1) >>> defSegsizeShift
  if d.table.nsegs ≤ newSegnum then
    (if d.dsize ≤ newSegnum then dirRealloc d m else some d).bind fun d =>
      if d.table.dsize ≤ newSegnum then none
      else if m.segment then (expandTable d.table).map fun t => ({d with table := t}, true)
      else some ({d with table := {d.table with maxBucket := d.table.maxBucket + 1}}, false)
  else (expandTable d.table).map fun t => ({d with table := t}, true)

/-- The table with a free element. -/
def withFree (t : Htab K) : Htab K := if t.freeBucketIndex = none then bucketAlloc t else t

/-- The table with the free element `e` behind a link, as the element of a key. -/
def linkElement (t : Htab K) (k : K) (prevIndexPtr : Link) (e : Nat) : Htab K :=
  let u := {t with freeBucketIndex := t.next e}.setLink (some e) prevIndexPtr
  {u with key := Function.update u.key e k, next := Function.update u.next e none, nkeys := u.nkeys + 1}

/-- The rest of `hash_search` for a key that is entered; no element is `NULL`. -/
def enterElementIn (d : DirTable K) (k : K) (prevIndexPtr : Link) (m : Memory) : Option (DirTable K × Option Nat) :=
  if d.table.freeBucketIndex = none ∧ m.elements = false then some (d, none)
  else
    (withFree d.table).freeBucketIndex.bind fun currIndex =>
      let u := linkElement (withFree d.table) k prevIndexPtr currIndex
      if u.ffactor < ((u.nkeys / (u.maxBucket + 1) : Nat) : Int) then
        (expandTableIn {d with table := u} m).map fun (d, ok) => (d, if ok then some currIndex else none)
      else some ({d with table := u}, some currIndex)

/-- `hash_search` with `HASH_ENTER`. -/
def hashEnter (d : DirTable K) (k : K) (m : Memory) : Option (DirTable K × Bool × Option Nat) :=
  (lookUp d.table k).bind fun
  | (_, some currIndex) => some (d, true, some currIndex)
  | (prevIndexPtr, none) => (enterElementIn d k prevIndexPtr m).map fun (d, currIndex) => (d, false, currIndex)

def Found (t : Htab K) (k : K) : Prop := ∃ link e, lookUp t k = some (link, some e)

/-- An element with the key is in a chain. -/
def Present (t : Htab K) (k : K) : Prop :=
  ∃ b l, b < t.nsegs * defSegsize ∧ t.Chain b l ∧ ∃ e ∈ l, t.key e = k

/-- A call writes no slot that the directory does not have; every bucket has its segment in the directory, which has
the segments it had; the keys that were found are found; and `NULL` is given for a key only that is not there. -/
def EnterKeeps (d : DirTable K) (k : K) (m : Memory) : Prop :=
  ∃ d' found e, hashEnter d k m = some (d', found, e) ∧
    d'.table.maxBucket >>> defSegsizeShift < d'.table.nsegs ∧ d'.table.nsegs ≤ d'.table.dsize ∧
    d.table.nsegs ≤ d'.table.nsegs ∧ (∀ k', Found d.table k' → Found d'.table k') ∧ (e = none → ¬ Present d'.table k)

/-- Tables with their keys. -/
structure DirDict (K : Type) where
  dir : DirTable K
  keys : Finset K

def growStep (s : DirDict K) : HashAct K × Memory → Option (DirDict K)
  | (.enter k, m) => (hashEnter s.dir k m).map fun (d, _, e) => ⟨d, if e.isSome then insert k s.keys else s.keys⟩
  | (a, _) => (hashStep ⟨s.dir.table, s.keys⟩ a).map fun u => ⟨{s.dir with table := u.table}, u.keys⟩

/-- A bucket in a new segment has a slot and gets the segment, and `dir_realloc` is not called for a new directory. -/
def HasSegment (d : DirTable K) (m : Memory) : Prop :=
  d.table.nsegs ≤ (d.table.maxBucket + 1) >>> defSegsizeShift →
    (d.table.maxBucket + 1) >>> defSegsizeShift < d.table.dsize ∧ m.segment = true ∧
      (d.dsize ≤ (d.table.maxBucket + 1) >>> defSegsizeShift → d.maxDsize ≠ none ∨ m.directory = false)

/-- If keys have the bucket that is divided, one of them keeps it. -/
def KeepsOne (t : Htab K) (keys : Finset K) : Prop :=
  (∃ k ∈ keys, callHash t k = t.oldBucket) → ∃ k ∈ keys, callHash (growMasks t) k = t.oldBucket

/-- The condition on a call that enters a key: when the table grows, there is a segment for the new bucket, and the
bucket that is divided keeps a key. -/
def GrowthOk (s : DirDict K) : HashAct K × Memory → Prop
  | (.enter k, m) => k ∉ s.keys → (s.dir.table.freeBucketIndex = none → m.elements = true) → s.dir.table.Splits →
    HasSegment s.dir m ∧ KeepsOne s.dir.table (insert k s.keys)
  | _ => True

end Calls

section Proofs
variable {K : Type} {d : DirTable K} {m : Memory} {t u : Htab K} {k : K} {link : Link} {e : Nat}
  {keys : Finset K} {chains : Nat → List Nat} {free : List Nat}

theorem expandTableIn_eq (h : HasSegment d m) :
    expandTableIn d m = (expandTable d.table).map fun t => ({d with table := t}, true) := by
  rw [expandTableIn]
  dsimp only
  split
  · next hnew =>
    obtain ⟨hslot, hseg, hdir⟩ := h hnew
    have hrealloc : (if d.dsize ≤ (d.table.maxBucket + 1) >>> defSegsizeShift then dirRealloc d m else some d) =
      some d := by
      split
      · next hfull =>
        rcases hdir hfull with hmax | hnone
        · exact if_pos hmax
        · rw [dirRealloc, hnone]
          split <;> rfl
      · rfl
    rw [hrealloc, bind_some, if_neg (not_le.mpr hslot), if_pos hseg]
  · rfl

/-- Tables of one size. -/
structure SameSize (t u : Htab K) : Prop where
  maxBucket : u.maxBucket = t.maxBucket
  nsegs : u.nsegs = t.nsegs
  dsize : u.dsize = t.dsize
  ffactor : u.ffactor = t.ffactor

theorem linkElement_size (t : Htab K) (k : K) (link : Link) (e : Nat) :
    SameSize t (linkElement (withFree t) k link e) ∧ (linkElement (withFree t) k link e).nkeys = t.nkeys + 1 := by
  obtain ⟨hsize, hnkeys⟩ : SameSize t (withFree t) ∧ (withFree t).nkeys = t.nkeys := by
    unfold withFree
    split <;> exact ⟨⟨rfl, rfl, rfl, rfl⟩, rfl⟩
  obtain ⟨h1, h2, h3, h4⟩ := hsize
  rw [linkElement]
  obtain ⟨dir, next, hset⟩ := setLink_eq ({withFree t with freeBucketIndex := (withFree t).next e} : Htab K) (some e)
    link
  dsimp only
  rw [hset]
  exact ⟨⟨h1, h2, h3, h4⟩, congrArg (· + 1) hnkeys⟩

/-- Whether the table grows. -/
theorem linkElement_splits (t : Htab K) (k : K) (link : Link) (e : Nat) :
    (linkElement (withFree t) k link e).ffactor < (((linkElement (withFree t) k link e).nkeys /
      ((linkElement (withFree t) k link e).maxBucket + 1) : Nat) : Int) ↔ t.Splits := by
  obtain ⟨hsize, hnkeys⟩ := linkElement_size t k link e
  rw [Htab.Splits, hsize.ffactor, hsize.maxBucket, hnkeys]

theorem hasElements (helem : d.table.freeBucketIndex = none → m.elements = true) :
    ¬(d.table.freeBucketIndex = none ∧ m.elements = false) := fun hc => by
  rw [helem hc.1] at hc
  exact Bool.noConfusion hc.2

theorem enterElement_eq : enterElement t k link = (withFree t).freeBucketIndex.bind fun e =>
    let u := linkElement (withFree t) k link e
    if u.ffactor < ((u.nkeys / (u.maxBucket + 1) : Nat) : Int) then (expandTable u).map fun u => (u, e)
    else some (u, e) := rfl

/-- With memory for it, an element is entered as in a table that has the directory. -/
theorem enterElementIn_eq (helem : d.table.freeBucketIndex = none → m.elements = true)
    (hgrow : d.table.Splits → HasSegment d m) :
    enterElementIn d k link m = (enterElement d.table k link).map fun (t, e) => ({d with table := t}, some e) := by
  rw [enterElementIn, if_neg (hasElements helem)]
  rw [enterElement_eq]
  cases (withFree d.table).freeBucketIndex with
  | none => rfl
  | some e =>
    simp only [bind_some]
    split
    · next hs =>
      obtain ⟨hmax, hsegs, hdsize, -⟩ := (linkElement_size d.table k link e).1
      have hseg : HasSegment {d with table := linkElement (withFree d.table) k link e} m := by
        rw [HasSegment, hmax, hsegs, hdsize]
        exact hgrow ((linkElement_splits ..).mp hs)
      rw [expandTableIn_eq hseg, map_map, map_map]
      rfl
    · rfl

/-! ### Segments and slots -/

/-- Segments are added, in slots that are there. -/
structure Grown (t u : Htab K) : Prop where
  dsize : u.dsize = t.dsize
  nsegs : t.nsegs ≤ u.nsegs
  room : t.nsegs ≤ t.dsize → u.nsegs ≤ u.dsize

theorem SameSize.grown (h : SameSize t u) : Grown t u :=
  ⟨h.dsize, le_of_eq h.nsegs.symm, fun hle => by rw [h.nsegs, h.dsize]; exact hle⟩

theorem Grown.trans {v : Htab K} (h : Grown t u) (h' : Grown u v) : Grown t v :=
  ⟨h'.dsize.trans h.dsize, le_trans h.nsegs h'.nsegs, fun hle => h'.room (h.room hle)⟩

theorem relocate_same (ob fuel : Nat) (t : Htab K) (o : Option Nat) (old newbi : Link)
    (h : relocate ob fuel t o old newbi = some u) :
    SameButLinks t u := by
  induction fuel generalizing t o old newbi with
  | zero =>
    cases o with
    | none => cases h; exact ⟨_, _, rfl⟩
    | some e => exact nomatch h
  | succ fuel ih =>
    cases o with
    | none => cases h; exact ⟨_, _, rfl⟩
    | some e =>
      rw [relocate] at h
      dsimp only at h
      have hset (p : Link) : SameButLinks t
          {t.setLink (some e) p with next := Function.update (t.setLink (some e) p).next e none} := by
        obtain ⟨dir, next, heq⟩ := setLink_eq t (some e) p
        rw [heq]
        exact ⟨_, _, rfl⟩
      split at h
      · exact (hset old).trans (ih _ _ _ _ h)
      · exact (hset newbi).trans (ih _ _ _ _ h)

theorem expandTable_grown (h : expandTable t = some u) : Grown t u := by
  rw [expandTable] at h
  obtain ⟨v, hv, h⟩ := bind_eq_some_iff.mp h
  obtain ⟨dir, next, rfl⟩ := relocate_same _ _ _ _ _ _ h
  have hgrow : Grown t v := by
    rw [growDir] at hv
    split_ifs at hv with hnew hfull
    · cases hv
      exact ⟨rfl, le_succ _, fun _ => lt_of_le_of_lt hnew (not_le.mp hfull)⟩
    · cases hv
      exact ⟨rfl, le_refl _, id⟩
  exact ⟨hgrow.dsize, hgrow.nsegs, hgrow.room⟩

theorem enterElement_grown (h : enterElement t k link = some (u, e)) : Grown t u := by
  rw [enterElement_eq] at h
  obtain ⟨x, -, h⟩ := bind_eq_some_iff.mp h
  have hsize := (linkElement_size t k link x).1.grown
  dsimp only at h
  split at h
  · obtain ⟨v, hv, heq⟩ := map_eq_some_iff.mp h
    cases heq
    exact hsize.trans (expandTable_grown hv)
  · cases h
    exact hsize

theorem enterElement_size (hs : ¬t.Splits) (h : enterElement t k link = some (u, e)) : SameSize t u := by
  rw [enterElement_eq] at h
  obtain ⟨x, -, h⟩ := bind_eq_some_iff.mp h
  dsimp only at h
  rw [if_neg fun hc => hs ((linkElement_splits t k link x).mp hc)] at h
  have hsize := (linkElement_size t k link x).1
  cases h
  exact hsize

theorem removeElement_grown (h : removeElement t link e = some u) : Grown t u := by
  rw [removeElement] at h
  split_ifs at h
  cases h
  obtain ⟨dir, next, heq⟩ := setLink_eq t (t.next e) link
  rw [heq]
  exact ⟨rfl, le_refl _, id⟩

variable [DecidableEq K]

theorem hashStep_grown {s v : Dict K} {a : HashAct K} (h : hashStep s a = some v) : Grown s.table v.table := by
  cases a with
  | find k =>
    obtain ⟨⟨t, r⟩, hs, rfl⟩ := map_eq_some_iff.mp h
    obtain ⟨x, -, hx⟩ := map_eq_some_iff.mp hs
    cases hx
    exact ⟨rfl, le_refl _, id⟩
  | enter k =>
    obtain ⟨⟨t, r⟩, hs, rfl⟩ := map_eq_some_iff.mp h
    obtain ⟨⟨p, x⟩, -, hx⟩ := bind_eq_some_iff.mp hs
    cases x with
    | some e => cases hx; exact ⟨rfl, le_refl _, id⟩
    | none =>
      obtain ⟨⟨u, e⟩, hu, hx⟩ := map_eq_some_iff.mp hx
      cases hx
      exact enterElement_grown hu
  | remove k =>
    obtain ⟨⟨t, r⟩, hs, rfl⟩ := map_eq_some_iff.mp h
    obtain ⟨⟨p, x⟩, -, hx⟩ := bind_eq_some_iff.mp hs
    cases x with
    | none => cases hx; exact ⟨rfl, le_refl _, id⟩
    | some e =>
      obtain ⟨u, hu, hx⟩ := map_eq_some_iff.mp hx
      cases hx
      exact removeElement_grown hu
  | removeSaved k =>
    obtain ⟨⟨t, r⟩, hs, h⟩ := bind_eq_some_iff.mp h
    obtain ⟨⟨t', r'⟩, hs', rfl⟩ := map_eq_some_iff.mp h
    have hfind : Grown s.table t := by
      obtain ⟨⟨p, x⟩, -, hx⟩ := map_eq_some_iff.mp hs
      cases x <;> cases hx <;> exact ⟨rfl, le_refl _, id⟩
    obtain ⟨⟨p, e⟩, -, hx⟩ := bind_eq_some_iff.mp hs'
    obtain ⟨u, hu, hx⟩ := map_eq_some_iff.mp hx
    cases hx
    obtain ⟨h1, h2, h3⟩ := removeElement_grown hu
    exact hfind.trans ⟨h1, h2, h3⟩

theorem found_iff (h : HashInv t keys chains free) : Found t k ↔ k ∈ keys := by
  rcases lookUp_spec h k with ⟨hk, l1, l2, e, -, -, hl⟩ | ⟨hk, hl⟩
  · exact ⟨fun _ => hk, fun _ => ⟨_, _, hl⟩⟩
  · refine ⟨fun ⟨p, e, hf⟩ => ?_, fun hc => absurd hc hk⟩
    rw [hl] at hf
    cases hf

omit [DecidableEq K] in
theorem present_iff (h : HashInv t keys chains free) : Present t k ↔ k ∈ keys := by
  rw [h.mem]
  constructor
  · rintro ⟨b, l, hb, hl, e, he, hk⟩
    rw [linked_unique hl (h.chained b hb)] at he
    exact ⟨b, e, he, hk⟩
  · rintro ⟨b, e, he, hk⟩
    have hlt := h.callHash_lt (t.key e)
    rw [h.home b e he] at hlt
    exact ⟨b, _, hlt, h.chained b hlt, e, he, hk⟩

/-- What holds of a table in a run. -/
structure DirInv (s : DirDict K) : Prop where
  inv : ∃ chains free, HashInv s.dir.table s.keys chains free
  saved : s.dir.table.saveState = none
  room : s.dir.table.nsegs ≤ s.dir.table.dsize

variable {s : DirDict K}

/-- A key that is not there, and memory for it. -/
theorem hashEnter_new (h : DirInv s) (hinv : HashInv s.dir.table s.keys chains free) (hk : k ∉ s.keys)
    (helem : s.dir.table.freeBucketIndex = none → m.elements = true) (hok : GrowthOk s (.enter k, m)) :
    ∃ u e chains' free', hashEnter s.dir k m = some ({s.dir with table := u}, false, some e) ∧
      HashInv u (insert k s.keys) chains' free' ∧ u.saveState = none ∧ Grown s.dir.table u ∧
      (¬s.dir.table.Splits → SameSize s.dir.table u) := by
  have hgrow (hs : s.dir.table.Splits) : GrowOk s.dir.table (insert k s.keys) := by
    obtain ⟨hseg, hkeep⟩ := hok hk helem hs
    refine ⟨?_, hkeep⟩
    by_cases hnew : s.dir.table.nsegs ≤ (s.dir.table.maxBucket + 1) >>> defSegsizeShift
    · exact (hseg hnew).1
    · exact lt_of_lt_of_le (not_le.mp hnew) h.room
  obtain ⟨u, e, chains', free', hu, hinv', hsaved⟩ := enterElement_spec hinv hk hgrow
  refine ⟨u, e, chains', free', ?_, hinv', hsaved.trans h.saved, enterElement_grown hu,
    fun hs => enterElement_size hs hu⟩
  rcases lookUp_spec hinv k with ⟨hc, -⟩ | ⟨-, hl⟩
  · exact absurd hc hk
  · rw [hashEnter, hl, bind_some]
    dsimp only
    rw [enterElementIn_eq helem fun hs => (hok hk helem hs).1, hu]
    rfl

omit [DecidableEq K] in
theorem HashInv.segment (h : HashInv t keys chains free) : t.maxBucket >>> defSegsizeShift < t.nsegs := by
  obtain ⟨n, hn⟩ := h.sized
  exact shift_lt hn.segs

/-- A call that enters a key keeps the table. -/
theorem hashEnter_keeps (h : DirInv s) (hok : GrowthOk s (.enter k, m)) :
    EnterKeeps s.dir k m ∧ ∃ u, growStep s (.enter k, m) = some u ∧ DirInv u := by
  obtain ⟨chains, free, hinv⟩ := h.inv
  by_cases hk : k ∈ s.keys
  · rcases lookUp_spec hinv k with ⟨-, l1, l2, e, -, -, hl⟩ | ⟨hc, -⟩
    · have hrun : hashEnter s.dir k m = some (s.dir, true, some e) := by
        rw [hashEnter, hl, bind_some]
      refine ⟨⟨_, _, _, hrun, hinv.segment, h.room, le_refl _, fun _ hf => hf, nofun⟩, s, ?_, h⟩
      simp only [growStep, hrun, map_some, isSome_some, if_true, Finset.insert_eq_of_mem hk]
    · exact absurd hk hc
  · by_cases helem : s.dir.table.freeBucketIndex = none → m.elements = true
    · obtain ⟨u, e, chains', free', hrun, hinv', hsaved, hgrown, -⟩ := hashEnter_new h hinv hk helem hok
      refine ⟨⟨_, _, _, hrun, hinv'.segment, hgrown.room h.room, hgrown.nsegs, fun k' hf => ?_, nofun⟩,
        ⟨{s.dir with table := u}, insert k s.keys⟩, ?_, ⟨chains', free', hinv'⟩, hsaved, hgrown.room h.room⟩
      · exact (found_iff hinv').mpr (Finset.mem_insert_of_mem ((found_iff hinv).mp hf))
      · simp only [growStep, hrun, map_some, isSome_some, if_true]
    · -- no element: nothing has happened
      obtain ⟨hnone, hfail⟩ := Classical.not_imp.mp helem
      have hrun : hashEnter s.dir k m = some (s.dir, false, none) := by
        rcases lookUp_spec hinv k with ⟨hc, -⟩ | ⟨-, hl⟩
        · exact absurd hc hk
        · rw [hashEnter, hl, bind_some]
          dsimp only
          rw [enterElementIn, if_pos ⟨hnone, Bool.eq_false_iff.mpr hfail⟩]
          rfl
      refine ⟨⟨_, _, _, hrun, hinv.segment, h.room, le_refl _, fun _ hf => hf, fun _ hp => ?_⟩, s, ?_, h⟩
      · exact hk ((present_iff hinv).mp hp)
      · simp only [growStep, hrun, map_some, isSome_none, Bool.false_eq_true, if_false]

/-- Every call keeps the invariant. -/
theorem growStep_keeps (h : DirInv s) {a : HashAct K × Memory} (hok : GrowthOk s a) {u : DirDict K}
    (hs : growStep s a = some u) : DirInv u := by
  obtain ⟨a, m⟩ := a
  obtain ⟨chains, free, hinv⟩ := h.inv
  have hother (hstep : growStep s (a, m) = (hashStep ⟨s.dir.table, s.keys⟩ a).map fun u =>
      ⟨{s.dir with table := u.table}, u.keys⟩) (hok : HashOk ⟨s.dir.table, s.keys⟩ a) : DirInv u := by
    rw [hstep] at hs
    obtain ⟨v, hv, rfl⟩ := map_eq_some_iff.mp hs
    rcases hashStep_spec (s := ⟨s.dir.table, s.keys⟩) hinv h.saved a hok with
      ⟨hnone, -⟩ | ⟨w, chains', free', hw, hinv', hsaved'⟩
    · rw [hnone] at hv
      cases hv
    · rw [hw] at hv
      cases hv
      exact ⟨⟨chains', free', hinv'⟩, hsaved', (hashStep_grown hw).room h.room⟩
  cases a with
  | enter k =>
    obtain ⟨v, hv, hinv'⟩ := (hashEnter_keeps h hok).2
    rw [hv] at hs
    cases hs
    exact hinv'
  | find k | remove k | removeSaved k => exact hother rfl trivial

variable {hash : K → BitVec 64} {ffactor nelem : Int} {key : Nat → K} {dirsize : Option (Int × Int)}
    {slots : Option Nat}

omit [DecidableEq K] in
theorem dirInv_create (hc : createDir hash ffactor nelem key dirsize slots = some d) : DirInv ⟨d, ∅⟩ := by
  obtain ⟨t, ht, hc⟩ := bind_eq_some_iff.mp hc
  obtain ⟨dsize, -, hc⟩ := bind_eq_some_iff.mp hc
  obtain ⟨maxDsize, -, hc⟩ := bind_eq_some_iff.mp hc
  dsimp only at hc
  generalize (if dsize < t.nsegs then t.nsegs else dsize) = size at hc
  split_ifs at hc with hroom
  cases hc
  obtain ⟨hinv, hsaved⟩ := hashInv_create ht
  refine ⟨⟨_, _, ⟨⟨hinv.chained, hinv.home, hinv.spare, hinv.apart, hinv.chunks, hinv.placed⟩,
    hinv.sized.imp fun _ hn => ⟨hn.low, hn.high, hn.min, hn.max, hn.segs⟩, hinv.distinct, hinv.mem, hinv.count⟩⟩,
      hsaved, ?_⟩
  exact not_lt.mp hroom

/-- **In every run whose calls have a segment for each bucket they add, and keep a key in each bucket they divide,
entering a key stays in the directory, keeps the keys, and gives `NULL` only for a key that is not there.** -/
theorem growth_keeps (hc : createDir hash ffactor nelem key dirsize slots = some d)
    (h : Reaches growStep GrowthOk ⟨d, ∅⟩ s) (k : K) (m : Memory) (hok : GrowthOk s (.enter k, m)) : EnterKeeps s.dir k m := by
  have hinv : DirInv s := h.keeps (dirInv_create hc) fun s a u hok hs hinv => growStep_keeps hinv hok hs
  exact (hashEnter_keeps hinv hok).1

/-! ### A segment that is not there -/

omit [DecidableEq K] in
theorem expandTableIn_noSegment (hnew : d.table.nsegs ≤ (d.table.maxBucket + 1) >>> defSegsizeShift)
    (hroom : (d.table.maxBucket + 1) >>> defSegsizeShift < d.dsize)
    (hslot : (d.table.maxBucket + 1) >>> defSegsizeShift < d.table.dsize) (hseg : m.segment = false) :
    expandTableIn d m = some ({d with table := {d.table with maxBucket := d.table.maxBucket + 1}}, false) := by
  rw [expandTableIn]
  dsimp only
  rw [if_pos hnew, if_neg (not_le.mpr hroom), bind_some, if_neg (not_le.mpr hslot), hseg,
    if_neg Bool.false_ne_true]

/-- Without memory for a segment the new key is in its chain, and the call gives `NULL`. -/
theorem enter_without_segment (hinv : HashInv s.dir.table s.keys chains free) (hk : k ∉ s.keys)
    (helem : s.dir.table.freeBucketIndex = none → m.elements = true) (hsplits : s.dir.table.Splits)
    (hnew : s.dir.table.nsegs ≤ (s.dir.table.maxBucket + 1) >>> defSegsizeShift)
    (hslot : (s.dir.table.maxBucket + 1) >>> defSegsizeShift < s.dir.table.dsize)
    (hroom : (s.dir.table.maxBucket + 1) >>> defSegsizeShift < s.dir.dsize) (hseg : m.segment = false) :
    ¬ EnterKeeps s.dir k m := by
  obtain ⟨v, e, free', hv, hinv', he, hhash, -, -, -⟩ := exists_free hinv
  change v = withFree s.dir.table at hv
  rw [hv] at hinv' he hhash
  have hlink := linkElement_spec hinv' hk
  rw [hhash] at hlink
  generalize hend : endLink (callHash s.dir.table k) (chains (callHash s.dir.table k)) = link at hlink
  obtain ⟨hmax, hsegs, hdsize, -⟩ := (linkElement_size s.dir.table k link e).1
  have hrun : hashEnter s.dir k m = some ({s.dir with table := {linkElement (withFree s.dir.table) k link e with
      maxBucket := (linkElement (withFree s.dir.table) k link e).maxBucket + 1}}, false, none) := by
    rcases lookUp_spec hinv k with ⟨hc, -⟩ | ⟨-, hl⟩
    · exact absurd hc hk
    · rw [hashEnter, hl, bind_some, hend]
      dsimp only
      rw [enterElementIn, if_neg (hasElements helem), he, bind_some]
      dsimp only
      rw [if_pos ((linkElement_splits ..).mpr hsplits), expandTableIn_noSegment _ _ _ hseg]
      · rfl
      · rw [hmax, hsegs]
        exact hnew
      · rw [hmax]
        exact hroom
      · rw [hmax, hdsize]
        exact hslot
  rintro ⟨d', found, r, hr, -, -, -, -, hnull⟩
  rw [hrun] at hr
  cases hr
  have hp := (present_iff hlink).mpr (Finset.mem_insert_self k s.keys)
  obtain ⟨dir, next, hset⟩ := setLink_eq
    ({withFree s.dir.table with freeBucketIndex := (withFree s.dir.table).next e} : Htab K) (some e) link
  have hp' : Present (linkElement (withFree s.dir.table) k link e) k := by
    rw [hset] at hp
    rw [linkElement, hset]
    exact hp
  exact hnull rfl hp'

end Proofs

instance (t : Htab Nat) (keys : Finset Nat) : Decidable (KeepsOne t keys) :=
  inferInstanceAs (Decidable ((∃ k ∈ keys, _) → ∃ k ∈ keys, _))

instance (d : DirTable Nat) (m : Memory) : Decidable (HasSegment d m) :=
  inferInstanceAs (Decidable (_ → _ ∧ _ ∧ (_ → _ ∨ _)))

instance (s : DirDict Nat) : (a : HashAct Nat × Memory) → Decidable (GrowthOk s a)
  | (.enter k, m) => inferInstanceAs (Decidable (k ∉ s.keys → (s.dir.table.freeBucketIndex = none → m.elements = true) →
      s.dir.table.Splits → HasSegment s.dir m ∧ KeepsOne s.dir.table (insert k s.keys)))
  | (.find _, _) | (.remove _, _) | (.removeSaved _, _) => isTrue trivial

/-- A new bucket in the segment that is there, with nothing left to allocate. -/
theorem growth_keeps_withoutMemory : ∃ (d : DirTable Nat) (s : DirDict Nat),
    createDir (ofNat 64) 1 1 id none none = some d ∧ Reaches growStep GrowthOk ⟨d, ∅⟩ s ∧ s.keys = {1, 2} ∧
      EnterKeeps s.dir 4 ⟨false, false, false⟩ := by
  obtain ⟨d, s, hc, hr, hkeys, hok⟩ : ∃ (d : DirTable Nat) (s : DirDict Nat),
      createDir (ofNat 64) 1 1 id none none = some d ∧ Reaches growStep GrowthOk ⟨d, ∅⟩ s ∧ s.keys = {1, 2} ∧
        GrowthOk s (.enter 4, ⟨false, false, false⟩) :=
    ⟨_, _, rfl, .of_follow (l := [(.enter 2, ⟨true, false, false⟩), (.enter 1, ⟨false, false, false⟩)]) .start rfl,
      by decide, by decide⟩
  exact ⟨d, s, hc, hr, hkeys, growth_keeps hc hr 4 ⟨false, false, false⟩ hok⟩

/-- A table of 256 buckets, in one segment. -/
theorem create_256 : ∃ d : DirTable Nat, createDir (ofNat 64) 1 256 id none none = some d ∧
    d.table.maxBucket = 255 ∧ d.table.nsegs = 1 ∧ d.table.dsize = 256 ∧ d.table.ffactor = 1 ∧ d.dsize = 256 ∧ d.maxDsize = none := by
  have hbuckets : myLog2 ((256 - 1 : Int).tdiv 1 + 1) = some 8 := by
    rw [myLog2, if_pos (by decide)]
    exact congrArg some (clog_pow 2 8 (by decide))
  have hsegs : myLog2 (((2 ^ 8 - 1) / defSegsize + 1 : Nat) : Int) = some 0 := by
    rw [myLog2, if_pos (by decide)]
    exact congrArg some (clog_one_right 2)
  rw [createDir, hashCreate, if_neg (by decide), hbuckets, bind_some, hsegs]
  exact ⟨_, rfl, rfl, rfl, rfl, rfl, rfl, rfl⟩

/-- The table with the keys below `n`. -/
theorem full_segment {n : Nat} (hn : n ≤ 511) {d : DirTable Nat}
    (hc : createDir (ofNat 64) 1 256 id none none = some d)
    (hmax : d.table.maxBucket = 255) (hfill : d.table.ffactor = 1) :
    ∃ s : DirDict Nat, Reaches growStep GrowthOk ⟨d, ∅⟩ s ∧ s.keys = Finset.range n ∧ SameSize d.table s.dir.table ∧ s.dir.dsize = d.dsize ∧ s.dir.maxDsize = d.maxDsize := by
  induction n with
  | zero => exact ⟨_, .start, rfl, ⟨rfl, rfl, rfl, rfl⟩, rfl, rfl⟩
  | succ n ih =>
    obtain ⟨s, hr, hkeys, hsize, hdsize, hnolimit⟩ := ih (le_of_succ_le hn)
    have hinv : DirInv s := hr.keeps (dirInv_create hc) fun s a u hok hs hinv => growStep_keeps hinv hok hs
    obtain ⟨chains, free, hhash⟩ := hinv.inv
    have hcount : s.dir.table.nkeys = n := by rw [hhash.count, hkeys, Finset.card_range]
    have hsplits : ¬s.dir.table.Splits := by
      rw [Htab.Splits, hsize.ffactor, hsize.maxBucket, hcount, hmax, hfill]
      omega
    have hk : n ∉ s.keys := by rw [hkeys]; exact Finset.notMem_range_self
    have hok : GrowthOk s (.enter n, ⟨true, true, true⟩) := fun _ _ hs => absurd hs hsplits
    obtain ⟨u, e, -, -, hrun, -, -, -, hsame⟩ := hashEnter_new hinv hhash hk (fun _ => rfl) hok
    obtain ⟨h1, h2, h3, h4⟩ := hsame hsplits
    refine ⟨⟨{s.dir with table := u}, insert n s.keys⟩, hr.snoc hok ?_, ?_,
      ⟨h1.trans hsize.maxBucket, h2.trans hsize.nsegs,
      h3.trans hsize.dsize, h4.trans hsize.ffactor⟩, hdsize, hnolimit⟩
    · simp only [growStep, hrun, map_some, isSome_some, if_true]
    · rw [hkeys, Finset.range_add_one]

/-- The 512th key needs a second segment, for which there is no memory. -/
theorem segment_failure : ¬ ∀ (d : DirTable Nat) (s : DirDict Nat),
    createDir (ofNat 64) 1 256 id none none = some d →
    Reaches growStep GrowthOk ⟨d, ∅⟩ s → ∀ k m, EnterKeeps s.dir k m := by
  intro h
  obtain ⟨d, hc, hmax, hsegs, hslots, hfill, hdsize, -⟩ := create_256
  obtain ⟨s, hr, hkeys, hsize, hdsize', -⟩ := full_segment (le_refl 511) hc hmax hfill
  have hinv : DirInv s := hr.keeps (dirInv_create hc) fun s a u hok hs hinv => growStep_keeps hinv hok hs
  obtain ⟨chains, free, hhash⟩ := hinv.inv
  refine enter_without_segment (m := ⟨true, true, false⟩) (k := 511) hhash ?_ (fun _ => rfl) ?_ ?_ ?_ ?_ rfl
    (h d s hc hr _ _)
  · rw [hkeys]
    exact Finset.notMem_range_self
  · rw [Htab.Splits, hsize.ffactor, hsize.maxBucket, hhash.count, hkeys, Finset.card_range, hmax, hfill]
    decide
  · rw [hsize.nsegs, hsize.maxBucket, hmax, hsegs]
    decide
  · rw [hsize.dsize, hsize.maxBucket, hmax, hslots]
    decide
  · rw [hdsize', hsize.maxBucket, hmax, hdsize]
    decide

end PgStorage.Hash
