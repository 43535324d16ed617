import PgStorage.Hash.DynahashProofs
import PgStorage.Lib.Trace

/-! Hash tables as finite maps.

A run of `hash_search` calls keeps the set of the keys that have been entered and not been removed.
`expand_table` writes the head of the chain it divides only when an element stays in it. -/
namespace PgStorage.Hash
open Links Trace
open List
open BitVec (ofNat)
open Option (bind_some map_some)

section Calls
variable {K : Type} [DecidableEq K] {t : Htab K} {keys : Finset K} {chains : Nat → List Nat} {free : List Nat} {k : K}

/-- The table is too full after the next key. -/
def Htab.Splits (t : Htab K) : Prop := t.ffactor < (((t.nkeys + 1) / (t.maxBucket + 1) : Nat) : Int)

omit [DecidableEq K] in
/-- The table with a free element. -/
theorem exists_free (h : HashInv t keys chains free) : ∃ u e free', u = (if t.freeBucketIndex = none then bucketAlloc t else t) ∧
    HashInv u keys chains (e :: free') ∧ u.freeBucketIndex = some e ∧ callHash u = callHash t ∧
    (∀ keys', GrowOk t keys' → GrowOk u keys') ∧ (u.Splits ↔ t.Splits) ∧ u.saveState = t.saveState := by
  by_cases hfree : t.freeBucketIndex = none
  · have hnil : free = [] := by
      have hspare := h.spare
      rw [hfree] at hspare
      exact linked_none.mp hspare
    subst hnil
    refine ⟨_, t.allocated, range' (t.allocated + 1) (bucketAllocIncr - 2), rfl, ?_, ?_⟩
    · rw [if_pos hfree]
      exact bucketAlloc_spec h
    · rw [if_pos hfree]
      exact ⟨rfl, rfl, fun _ hg => hg, Iff.rfl, rfl⟩
  · obtain ⟨e, he⟩ := Option.ne_none_iff_exists'.mp hfree
    have hspare := h.spare
    rw [he] at hspare
    obtain ⟨free', rfl, -⟩ := linked_some hspare
    exact ⟨t, e, free', by rw [if_neg hfree], h, he, rfl, fun _ hg => hg, Iff.rfl, rfl⟩

theorem enterElement_spec (h : HashInv t keys chains free) (hk : k ∉ keys)
    (hok : t.Splits → GrowOk t (insert k keys)) : ∃ u e chains' free',
      enterElement t k (endLink (callHash t k) (chains (callHash t k))) = some (u, e) ∧
        HashInv u (insert k keys) chains' free' ∧ u.saveState = t.saveState := by
  obtain ⟨v, e, free', hv, hinv, he, hhash, hgrow, hsplits, hsaved⟩ := exists_free h
  have hlink := linkElement_spec hinv hk
  rw [hhash] at hlink
  obtain ⟨dir, next, hset⟩ := setLink_eq ({v with freeBucketIndex := v.next e} : Htab K) (some e)
    (endLink (callHash t k) (chains (callHash t k)))
  rw [enterElement, ← hv]
  dsimp only
  rw [he, bind_some, hset]
  rw [hset] at hlink
  dsimp only at hlink ⊢
  by_cases hs : v.ffactor < (((v.nkeys + 1) / (v.maxBucket + 1) : Nat) : Int)
  · rw [if_pos hs]
    obtain ⟨u, chains', hu, hinv', hsaved'⟩ := expandTable_spec hlink (hgrow _ (hok (hsplits.mp hs)))
    exact ⟨u, e, chains', free', by rw [hu]; rfl, hinv', hsaved'.trans hsaved⟩
  · rw [if_neg hs]
    exact ⟨_, e, _, free', rfl, hlink, hsaved⟩

end Calls

/-! ### Sequential search -/

section Seq
variable {K : Type} {t : Htab K} {keys : Finset K} {chains : Nat → List Nat} {free : List Nat} {s : SeqState} {e : Nat}
  {rest : List Nat}

/-- The elements that are still to come. -/
def SeqAt (t : Htab K) (chains : Nat → List Nat) (s : SeqState) (rest : List Nat) : Prop :=
  match s.curIndex with
  | none => rest = (List.range' s.curBucket (t.maxBucket + 1 - s.curBucket)).flatMap chains
  | some e => s.curBucket ≤ t.maxBucket ∧ ∃ l, Linked t.next (some e) l ∧
    rest = l ++ (List.range' (s.curBucket + 1) (t.maxBucket - s.curBucket)).flatMap chains

/-- What a call gives. -/
def SeqGives (t : Htab K) (chains : Nat → List Nat) (rest : List Nat) (r : Option (SeqState × Option Nat)) : Prop :=
  match rest with
  | [] => ∃ s, r = some (s, none)
  | e :: rest => ∃ s, r = some (s, some e) ∧ SeqAt t chains s rest

theorem seqLoop_element {fuel : Nat} (hs : SeqAt t chains s rest) (he : s.curIndex = some e) :
    SeqGives t chains rest (seqLoop t (fuel + 1) s) := by
  rw [SeqAt, he] at hs
  obtain ⟨hle, chain, hchain, rfl⟩ := hs
  obtain ⟨l, rfl, hl⟩ := linked_some hchain
  refine ⟨_, by rw [seqLoop, if_neg (by omega), he], ?_⟩
  cases hnext : t.next e with
  | none =>
    rw [hnext, linked_none] at hl
    rw [hl, if_pos rfl]
    show _ = (range' (s.curBucket + 1) (t.maxBucket + 1 - (s.curBucket + 1))).flatMap chains
    rw [Nat.add_sub_add_right]
    rfl
  | some x =>
    rw [hnext] at hl
    rw [if_neg (by nofun)]
    exact ⟨hle, l, hl, rfl⟩

theorem seqLoop_spec (h : HashInv t keys chains free) (fuel : Nat) (hs : SeqAt t chains s rest)
    (hfuel : t.maxBucket + 1 - s.curBucket + 1 ≤ fuel) : SeqGives t chains rest (seqLoop t fuel s) := by
  obtain ⟨n, hn⟩ := h.sized
  induction hd : t.maxBucket + 1 - s.curBucket generalizing s fuel with
  | zero =>
    cases fuel with
    | zero => exact absurd hfuel (Nat.not_succ_le_zero _)
    | succ fuel =>
      cases he : s.curIndex with
      | some e => exact seqLoop_element hs he
      | none =>
        rw [SeqAt, he, hd] at hs
        rw [hs]
        exact ⟨s, by rw [seqLoop, if_pos (by omega)]⟩
  | succ d ih =>
    cases fuel with
    | zero => exact absurd hfuel (Nat.not_succ_le_zero _)
    | succ fuel =>
      cases he : s.curIndex with
      | some e => exact seqLoop_element hs he
      | none =>
        have hle : s.curBucket ≤ t.maxBucket := by omega
        have hsegs := hn.segs
        rw [SeqAt, he, hd, range'_succ, flatMap_cons] at hs
        have hchain := h.chained s.curBucket (by omega)
        rw [seqLoop, if_neg (by omega), he]
        dsimp only
        rw [if_pos (shift_lt (by omega : s.curBucket < t.nsegs * defSegsize))]
        cases hhead : t.link (bucketLink s.curBucket) with
        | none =>
          rw [Htab.Chain, hhead, linked_none] at hchain
          rw [if_pos rfl]
          refine ih fuel ?_ (by show t.maxBucket + 1 - (s.curBucket + 1) + 1 ≤ fuel; omega) (by show _ - (s.curBucket + 1) = d; omega)
          rw [hs, hchain, nil_append]
          show _ = (range' (s.curBucket + 1) (t.maxBucket + 1 - (s.curBucket + 1))).flatMap chains
          rw [show t.maxBucket + 1 - (s.curBucket + 1) = d by omega]
        | some x =>
          rw [Htab.Chain, hhead] at hchain
          rw [if_neg (by simp)]
          obtain ⟨fuel, rfl⟩ : ∃ m, fuel = m + 1 := ⟨fuel - 1, by omega⟩
          refine seqLoop_element (e := x) ⟨hle, chains s.curBucket, hchain, ?_⟩ rfl
          rw [hs, show t.maxBucket - s.curBucket = d by omega]

theorem hashSeqAll_spec (h : HashInv t keys chains free) (hs : SeqAt t chains s rest) {calls : Nat}
    (hcalls : rest.length + 1 ≤ calls) : hashSeqAll t calls s = some rest := by
  induction rest generalizing s calls with
  | nil =>
    obtain ⟨calls, rfl⟩ : ∃ m, calls = m + 1 := ⟨calls - 1, by omega⟩
    obtain ⟨s', hs'⟩ := seqLoop_spec h (t.maxBucket + 3) hs (by omega)
    rw [hashSeqAll, hashSeq, hs']
    rfl
  | cons e rest ih =>
    obtain ⟨calls, rfl⟩ : ∃ m, calls = m + 1 := ⟨calls - 1, by omega⟩
    obtain ⟨s', hs', hat⟩ := seqLoop_spec h (t.maxBucket + 3) hs (by omega)
    rw [hashSeqAll, hashSeq, hs', bind_some]
    dsimp only
    rw [ih hat (Nat.le_of_succ_le_succ hcalls)]
    rfl

/-- From the reset state, `hash_seq` gives the element of every key once, and then `TRUE`. -/
theorem hashSeq_complete [DecidableEq K] (h : HashInv t keys chains free) :
    ∃ l, hashSeqAll t (t.nkeys + 1) .reset = some l ∧ (l.map t.key).Nodup ∧ ∀ k, k ∈ l.map t.key ↔ k ∈ keys := by
  obtain ⟨n, hn⟩ := h.sized
  generalize hl : (range' 0 (t.maxBucket + 1)).flatMap chains = l
  have hmem (x : Nat) : x ∈ l ↔ ∃ b, x ∈ chains b := by
    rw [← hl, mem_flatMap]
    refine ⟨fun ⟨b, _, hx⟩ => ⟨b, hx⟩, fun ⟨b, hx⟩ => ⟨b, ?_, hx⟩⟩
    have hle := hn.callHash_le (t.key x)
    rw [h.home b x hx] at hle
    exact mem_range'_1.mpr ⟨Nat.zero_le b, by omega⟩
  have hnodup : l.Nodup := by
    rw [← hl, nodup_flatMap]
    refine ⟨fun b _ => h.chain_nodup b, List.Pairwise.imp_of_mem ?_ (nodup_range' 1)⟩
    intro b c _ _ hne x hx hx'
    exact hne (by rw [← h.home b x hx, h.home c x hx'])
  have hkeys : (l.map t.key).Nodup := by
    refine hnodup.map_on fun x hx y hy hk => ?_
    obtain ⟨b, hx⟩ := (hmem x).mp hx
    obtain ⟨c, hy⟩ := (hmem y).mp hy
    exact h.distinct b c x hx y hy hk
  have hkeyMem (k : K) : k ∈ l.map t.key ↔ k ∈ keys := by
    rw [h.mem, mem_map]
    constructor
    · rintro ⟨x, hx, rfl⟩
      obtain ⟨b, hx⟩ := (hmem x).mp hx
      exact ⟨b, x, hx, rfl⟩
    · rintro ⟨b, x, hx, rfl⟩
      exact ⟨x, (hmem x).mpr ⟨b, hx⟩, rfl⟩
  have hat : SeqAt t chains .reset l := hl.symm
  refine ⟨l, hashSeqAll_spec h hat ?_, hkeys, hkeyMem⟩
  have hset : (l.map t.key).toFinset = keys := by
    ext k
    rw [mem_toFinset, hkeyMem]
  rw [h.count, ← hset, toFinset_card_of_nodup hkeys, length_map]

end Seq

/-- A table, and the keys that have been entered and not been removed. -/
structure Dict (K : Type) where
  table : Htab K
  keys : Finset K

/-- A call of `hash_search`; `removeSaved` is a `HASH_FIND_SAVE` and the `HASH_REMOVE_SAVED` after it. -/
inductive HashAct (K : Type) where
  | find (k : K)
  | enter (k : K)
  | remove (k : K)
  | removeSaved (k : K)

section Runs
variable {K : Type} [DecidableEq K] {t : Htab K} {keys : Finset K} {chains : Nat → List Nat} {free : List Nat} {k : K}
  {s u : Dict K} {hash : K → BitVec 64} {ffactor nelem : Int} {key : Nat → K}

def hashStep (s : Dict K) : HashAct K → Option (Dict K)
  | .find k => (hashSearch s.table k .find).map fun (t, _) => {s with table := t}
  | .enter k => (hashSearch s.table k .enter).map fun (t, _) => ⟨t, insert k s.keys⟩
  | .remove k => (hashSearch s.table k .remove).map fun (t, _) => ⟨t, s.keys.erase k⟩
  | .removeSaved k =>
    (hashSearch s.table k .findSave).bind fun (t, _) =>
      (hashSearch t k .removeSaved).map fun (t, _) => ⟨t, s.keys.erase k⟩

/-- When the table grows for a new key, the directory has room, and of the keys whose bucket is
divided one stays. -/
def HashOk (s : Dict K) : HashAct K → Prop
  | .enter k => k ∉ s.keys → s.table.Splits → GrowOk s.table (insert k s.keys)
  | _ => True

/-- The table is the map of its keys, and so are its chains. -/
structure FiniteMap (s : Dict K) : Prop where
  found : ∀ k, ∃ e, hashSearch s.table k .find = some (s.table, decide (k ∈ s.keys), e) ∧
    ∀ x, e = some x → s.table.key x = k
  placed : ∃ (chains : Nat → List Nat) (free : List Nat), (∀ b, b ≤ s.table.maxBucket → s.table.Chain b (chains b)) ∧
    Linked s.table.next s.table.freeBucketIndex free ∧
    ∀ e, e < s.table.allocated → e % bucketAllocIncr ≠ bucketAllocIncr - 1 →
      (e ∈ free ∧ ∀ b, b ≤ s.table.maxBucket → e ∉ chains b) ∨
      (e ∉ free ∧ callHash s.table (s.table.key e) ≤ s.table.maxBucket ∧
        ∀ b, b ≤ s.table.maxBucket → (e ∈ chains b ↔ b = callHash s.table (s.table.key e)))
  count : s.table.nkeys = s.keys.card
  seq : ∃ l, hashSeqAll s.table (s.table.nkeys + 1) .reset = some l ∧ (l.map s.table.key).Nodup ∧
    ∀ k, k ∈ l.map s.table.key ↔ k ∈ s.keys

omit [DecidableEq K] in
theorem hashInv_create (hc : hashCreate hash ffactor nelem key = some t) :
    HashInv t ∅ (fun _ => []) [] ∧ t.saveState = none := by
  rw [hashCreate] at hc
  split_ifs at hc
  obtain ⟨l2, -, hc⟩ := Option.bind_eq_some_iff.mp hc
  obtain ⟨l2segs, hsegs, rfl⟩ := Option.map_eq_some_iff.mp hc
  rw [myLog2] at hsegs
  split_ifs at hsegs
  have hsegs := Option.some.inj hsegs
  rw [Int.toNat_natCast] at hsegs
  have hle := Nat.le_pow_clog (b := 2) (by decide) ((2 ^ l2 - 1) / defSegsize + 1)
  rw [hsegs] at hle
  have hpos := Nat.two_pow_pos l2
  refine ⟨⟨⟨fun _ _ => rfl, fun _ _ => nofun, rfl, nofun, rfl, fun e => ?_⟩,
    ⟨l2, rfl, rfl, le_refl _, ?_, ?_⟩, fun _ _ _ => nofun, fun k => ?_, rfl⟩, rfl⟩
  · simp
  · show 2 ^ l2 - 1 ≤ 2 ^ (l2 + 1) - 1
    rw [pow_succ]
    omega
  · show 2 ^ l2 - 1 < 2 ^ l2segs * defSegsize
    generalize 2 ^ l2 - 1 = n at hle ⊢
    simp only [defSegsize] at hle ⊢
    omega
  · simp

omit [DecidableEq K] in
/-- The saved element is not part of the table. -/
theorem HashInv.saved (h : HashInv t keys chains free) (saved : Option (Link × Nat)) :
    HashInv {t with saveState := saved} keys chains free :=
  ⟨⟨h.chained, h.home, h.spare, h.apart, h.chunks, h.placed⟩,
    h.sized.imp fun _ hn => ⟨hn.low, hn.high, hn.min, hn.max, hn.segs⟩, h.distinct, h.mem, h.count⟩

/-- Every call keeps the invariant; a call that meets the condition returns. -/
theorem hashStep_spec (h : HashInv s.table s.keys chains free) (hsaved : s.table.saveState = none) (a : HashAct K)
    (hok : HashOk s a) : (hashStep s a = none ∧ ∃ k, a = .removeSaved k ∧ k ∉ s.keys) ∨
      ∃ u chains' free', hashStep s a = some u ∧ HashInv u.table u.keys chains' free' ∧ u.table.saveState = none := by
  cases a with
  | find k =>
    rcases lookUp_spec h k with ⟨-, l1, l2, e, -, -, hl⟩ | ⟨-, hl⟩ <;>
      exact .inr ⟨s, chains, free, by simp only [hashStep, hashSearch]; rw [hl]; rfl, h, hsaved⟩
  | enter k =>
    rcases lookUp_spec h k with ⟨hk, l1, l2, e, -, -, hl⟩ | ⟨hk, hl⟩
    · refine .inr ⟨s, chains, free, ?_, h, hsaved⟩
      simp only [hashStep, hashSearch]
      rw [hl, Finset.insert_eq_of_mem hk]
      rfl
    · obtain ⟨u, e, chains', free', hu, hinv, hsaved'⟩ := enterElement_spec h hk (hok hk)
      refine .inr ⟨⟨u, insert k s.keys⟩, chains', free', ?_, hinv, ?_⟩
      · simp only [hashStep, hashSearch]
        rw [hl, bind_some]
        dsimp only
        rw [hu]
        rfl
      · exact hsaved'.trans hsaved
  | remove k =>
    rcases lookUp_spec h k with ⟨hk, l1, l2, e, hchain, rfl, hl⟩ | ⟨hk, hl⟩
    · obtain ⟨u, hu, hinv, hsaved'⟩ := removeElement_spec h hchain
      refine .inr ⟨⟨u, s.keys.erase (s.table.key e)⟩, _, _, ?_, hinv, ?_⟩
      · simp only [hashStep, hashSearch]
        rw [hl, bind_some]
        dsimp only
        rw [hu]
        rfl
      · exact hsaved'.trans hsaved
    · refine .inr ⟨s, chains, free, ?_, h, hsaved⟩
      simp only [hashStep, hashSearch]
      rw [hl, Finset.erase_eq_of_notMem hk]
      rfl
  | removeSaved k =>
    rcases lookUp_spec h k with ⟨hk, l1, l2, e, hchain, rfl, hl⟩ | ⟨hk, hl⟩
    · obtain ⟨u, hu, hinv, hsaved'⟩ := removeElement_spec (h.saved none) hchain
      refine .inr ⟨⟨u, s.keys.erase (s.table.key e)⟩, _, _, ?_, hinv, ?_⟩
      · simp only [hashStep, hashSearch]
        rw [hl, map_some, bind_some]
        dsimp only
        rw [bind_some]
        dsimp only
        rw [hu]
        rfl
      · exact hsaved'
    · refine .inl ⟨?_, k, rfl, hk⟩
      simp only [hashStep, hashSearch]
      rw [hl, map_some, bind_some]
      dsimp only
      rw [hsaved]
      rfl

theorem FiniteMap.of_inv (h : HashInv s.table s.keys chains free) : FiniteMap s := by
  obtain ⟨n, hn⟩ := h.sized
  have hsegs := hn.segs
  refine ⟨fun k => ?_, ⟨chains, free, fun b hb => h.chained b (by omega), h.spare, fun e he hlast => ?_⟩, h.count,
    hashSeq_complete h⟩
  · rcases lookUp_spec h k with ⟨hk, l1, l2, e, -, hkey, hl⟩ | ⟨hk, hl⟩
    · refine ⟨some e, ?_, fun x hx => by cases hx; exact hkey⟩
      rw [hashSearch, hl, decide_eq_true hk]
      rfl
    · refine ⟨none, ?_, nofun⟩
      rw [hashSearch, hl, decide_eq_false hk]
      rfl
  · rcases (h.placed e).mpr ⟨he, hlast⟩ with hf | ⟨b, hb⟩
    · exact .inl ⟨hf, fun b _ => h.apart e hf b⟩
    · refine .inr ⟨fun hf => h.apart e hf b hb, hn.callHash_le _, fun c _ => ⟨fun hc => (h.home c e hc).symm, ?_⟩⟩
      rintro rfl
      rw [h.home b e hb]
      exact hb

theorem hashInv_reaches (hc : hashCreate hash ffactor nelem key = some t) (h : Reaches hashStep HashOk ⟨t, ∅⟩ s) :
    ∃ chains free, HashInv s.table s.keys chains free ∧ s.table.saveState = none := by
  refine h.keeps (P := fun s => ∃ chains free, HashInv s.table s.keys chains free ∧ s.table.saveState = none) ?_ ?_
  · obtain ⟨hinv, hsaved⟩ := hashInv_create hc
    exact ⟨_, _, hinv, hsaved⟩
  · rintro s a u hok hs ⟨chains, free, hinv, hsaved⟩
    rcases hashStep_spec hinv hsaved a hok with ⟨hnone, -⟩ | ⟨v, chains', free', hv, hinv', hsaved'⟩
    · rw [hnone] at hs
      cases hs
    · rw [hv] at hs
      cases hs
      exact ⟨chains', free', hinv', hsaved'⟩

/-- **In every run in which a bucket that is divided keeps one of its keys, and the directory has
room, the table is the finite map of its keys, and every call returns.** -/
theorem hash_is_finite_map (hc : hashCreate hash ffactor nelem key = some t)
    (h : Reaches hashStep HashOk ⟨t, ∅⟩ s) : FiniteMap s ∧
      ∀ a, HashOk s a → (∀ k, a = .removeSaved k → k ∈ s.keys) → ∃ u, hashStep s a = some u := by
  obtain ⟨chains, free, hinv, hsaved⟩ := hashInv_reaches hc h
  refine ⟨.of_inv hinv, fun a hok hpresent => ?_⟩
  rcases hashStep_spec hinv hsaved a hok with ⟨-, k, ha, hk⟩ | ⟨u, -, -, hu, -⟩
  · exact absurd (hpresent k ha) hk
  · exact ⟨u, hu⟩

end Runs

instance (t : Htab Nat) : Decidable t.Splits := inferInstanceAs (Decidable (_ < _))

instance (t : Htab Nat) (keys : Finset Nat) : Decidable (GrowOk t keys) := inferInstanceAs (Decidable (_ ∧ _))

instance (s : Dict Nat) : (a : HashAct Nat) → Decidable (HashOk s a)
  | .enter k => inferInstanceAs (Decidable (k ∉ s.keys → s.table.Splits → GrowOk s.table (insert k s.keys)))
  | .find _ | .remove _ | .removeSaved _ => isTrue trivial

theorem hash_is_finite_map_divided : ∃ (t : Htab Nat) (s : Dict Nat), hashCreate (ofNat 64) 1 1 id = some t ∧
    Reaches hashStep HashOk ⟨t, ∅⟩ s ∧ s.keys = {1, 4} ∧ s.table.maxBucket = 1 ∧ FiniteMap s ∧
      ∀ a, HashOk s a → (∀ k, a = .removeSaved k → k ∈ s.keys) → ∃ u, hashStep s a = some u := by
  obtain ⟨t, s, hc, hr, hkeys, hmax⟩ : ∃ (t : Htab Nat) (s : Dict Nat), hashCreate (ofNat 64) 1 1 id = some t ∧
      Reaches hashStep HashOk ⟨t, ∅⟩ s ∧ s.keys = {1, 4} ∧ s.table.maxBucket = 1 :=
    ⟨_, _, rfl, .of_follow (l := [.enter 2, .enter 1, .removeSaved 2, .find 2, .enter 4]) .start rfl, by decide, rfl⟩
  exact ⟨t, s, hc, hr, hkeys, hmax, hash_is_finite_map hc hr⟩

/-- All elements of a chain move, and its head is not written: they are in two chains. -/
theorem divided_chain_kept : ¬ ∀ (t : Htab Nat) (s : Dict Nat), hashCreate (ofNat 64) 1 1 id = some t →
    Reaches hashStep (fun _ _ => True) ⟨t, ∅⟩ s → FiniteMap s := by
  intro h
  obtain ⟨t, s, hc, hr, hseq⟩ : ∃ (t : Htab Nat) (s : Dict Nat), hashCreate (ofNat 64) 1 1 id = some t ∧
      Reaches hashStep (fun _ _ => True) ⟨t, ∅⟩ s ∧ hashSeqAll s.table (s.table.nkeys + 1) .reset = none :=
    ⟨_, _, rfl, .of_follow (l := [.enter 1, .enter 3]) .start rfl, rfl⟩
  obtain ⟨l, hl, -⟩ := (h t s hc hr).seq
  rw [hseq] at hl
  cases hl

end PgStorage.Hash
