import PgStorage.Hash.Dynahash
import PgStorage.Lib.LinearHash
import PgStorage.Lib.Links

/-! Chains of a hash table.

Every bucket has a chain with the elements whose keys have that address. Linking an element in
and taking one out write the link at which a part of the chain ends (`endLink`), and leave the
other chains alone. -/
namespace PgStorage.Hash
open Links LinearHash
open Function List Nat

section Chains
variable {K : Type} {t : Htab K} {b c e : Nat} {l l' : List Nat} {o : Option Nat} {k : K}

theorem bucketLink_inj (h : bucketLink b = bucketLink c) : b = c := by
  have hs (n : Nat) : n >>> defSegsizeShift = n / 256 := shiftRight_eq_div_pow n 8
  have hm (n : Nat) : n &&& (defSegsize - 1) = n % 256 := and_two_pow_sub_one_eq_mod n 8
  have h1 := Link.bucket.inj h
  rw [hs, hs, hm, hm] at h1
  omega

def Htab.Chain (t : Htab K) (b : Nat) (l : List Nat) : Prop := Linked t.next (t.link (bucketLink b)) l

/-- The link at the end of a part of the chain of a bucket. -/
def endLink (b : Nat) (l : List Nat) : Link :=
  match l.getLast? with
  | none => bucketLink b
  | some p => .next p

@[simp] theorem endLink_nil : endLink b [] = bucketLink b := rfl

@[simp] theorem endLink_concat {p : Nat} : endLink b (l ++ [p]) = .next p := by
  rw [endLink, getLast?_concat]

theorem setLink_bucket (v : Option Nat) :
    (t.setLink v (bucketLink b)).next = t.next ∧ (t.setLink v (bucketLink b)).link (bucketLink b) = v ∧
      ∀ c, b ≠ c → (t.setLink v (bucketLink b)).link (bucketLink c) = t.link (bucketLink c) := by
  refine ⟨rfl, ?_, fun c hne => ?_⟩
  · simp only [bucketLink, Htab.setLink, Htab.link, update_self]
  · simp only [bucketLink, Htab.setLink, Htab.link]
    by_cases hs : c >>> defSegsizeShift = b >>> defSegsizeShift
    · rw [hs, update_self, update_of_ne]
      exact fun hm => hne (bucketLink_inj (by rw [bucketLink, bucketLink, hs, hm]))
    · rw [update_of_ne hs]

/-- Writing a link changes the links only. -/
theorem setLink_eq (t : Htab K) (v : Option Nat) (p : Link) :
    ∃ dir next, t.setLink v p = {t with dir := dir, next := next} := by
  cases p with
  | bucket segmentNum segmentNdx => exact ⟨_, _, rfl⟩
  | next e => exact ⟨_, _, rfl⟩

/-- What writing a chain's last link and the link of an element leaves alone. -/
theorem linked_setLink {v w : Option Nat} (h : Linked t.next o l') (hl : ∀ p ∈ l, p ∉ l') (he : e ∉ l') :
    Linked (update (t.setLink v (endLink b l)).next e w) o l' := by
  have hset : Linked (t.setLink v (endLink b l)).next o l' := by
    rcases eq_nil_or_concat l with rfl | ⟨init, p, hp⟩
    · exact h
    · rw [concat_eq_append] at hp
      subst hp
      rw [endLink_concat]
      exact path_congr (fun y hy => update_of_ne (fun hyp => hl p (by simp) (by rwa [← hyp])) ..) h
  exact path_congr (fun y hy => update_of_ne (fun hye => he (by rwa [← hye])) ..) hset

theorem chain_setLink {v w : Option Nat} (h : t.Chain c l') (hne : b ≠ c) (hl : ∀ p ∈ l, p ∉ l') (he : e ∉ l') :
    ({t.setLink v (endLink b l) with next := update (t.setLink v (endLink b l)).next e w} : Htab K).Chain c l' := by
  have hhead : (t.setLink v (endLink b l)).link (bucketLink c) = t.link (bucketLink c) := by
    rcases eq_nil_or_concat l with rfl | ⟨init, p, hp⟩
    · exact (setLink_bucket v).2.2 c hne
    · rw [concat_eq_append] at hp
      subst hp
      rw [endLink_concat]
      rfl
  show Linked _ ((t.setLink v (endLink b l)).link (bucketLink c)) l'
  rw [hhead]
  exact linked_setLink h hl he

/-- An element is linked in at the end of a chain; an empty chain need not be one yet. -/
theorem chain_snoc (h : l ≠ [] → t.Chain b l) (he : e ∉ l) :
    ({t.setLink (some e) (endLink b l) with
      next := update (t.setLink (some e) (endLink b l)).next e none} : Htab K).Chain b (l ++ [e]) := by
  rcases eq_nil_or_concat l with rfl | ⟨init, p, hp⟩
  · exact ⟨(setLink_bucket _).2.1, update_self ..⟩
  · rw [concat_eq_append] at hp
    subst hp
    have hne : e ≠ p := fun hep => he (by rw [hep]; simp)
    rw [endLink_concat]
    show Linked (update (update t.next p (some e)) e none) (t.link (bucketLink b)) _
    rw [update_comm hne.symm, append_assoc]
    exact linked_snoc (h (by simp)) he

/-- An element is taken out of a chain. -/
theorem chain_unlink {w : Option Nat} (h : t.Chain b (l ++ e :: l')) :
    ({t.setLink (t.next e) (endLink b l) with
      next := update (t.setLink (t.next e) (endLink b l)).next e w} : Htab K).Chain b (l ++ l') := by
  rcases eq_nil_or_concat l with rfl | ⟨init, p, hp⟩
  · show Linked _ ((t.setLink (t.next e) (bucketLink b)).link (bucketLink b)) l'
    rw [(setLink_bucket _).2.1]
    exact linked_rest h
  · rw [concat_eq_append] at hp
    subst hp
    rw [endLink_concat, append_assoc]
    rw [append_assoc] at h
    exact linked_unlink h

/-- Two tables that differ in their links only. -/
def SameButLinks (t u : Htab K) : Prop := ∃ dir next, u = {t with dir := dir, next := next}

theorem SameButLinks.trans {u v : Htab K} (h : SameButLinks t u) (h' : SameButLinks u v) : SameButLinks t v := by
  obtain ⟨dir, next, rfl⟩ := h
  obtain ⟨dir', next', rfl⟩ := h'
  exact ⟨dir', next', rfl⟩

/-- The table after an element has been linked in at the end of a chain. -/
theorem linkLast_spec (h : l ≠ [] → t.Chain b l) (he : e ∉ l) :
    ∃ u : Htab K, u = {t.setLink (some e) (endLink b l) with
        next := update (t.setLink (some e) (endLink b l)).next e none} ∧ SameButLinks t u ∧
      u.Chain b (l ++ [e]) ∧
      (∀ c l', c ≠ b → t.Chain c l' → (∀ x ∈ l ++ [e], x ∉ l') → u.Chain c l') ∧
      ∀ o l', Linked t.next o l' → (∀ x ∈ l ++ [e], x ∉ l') → Linked u.next o l' := by
  refine ⟨_, rfl, ?_, chain_snoc h he, fun c l' hc hl hx => ?_, fun o l' hl hx => ?_⟩
  · obtain ⟨dir, next, hset⟩ := setLink_eq t (some e) (endLink b l)
    rw [hset]
    exact ⟨_, _, rfl⟩
  · exact chain_setLink hl hc.symm (fun p hp => hx p (mem_append_left _ hp)) (hx e (by simp))
  · exact linked_setLink hl (fun p hp => hx p (mem_append_left _ hp)) (hx e (by simp))

variable [DecidableEq K]

theorem followChain_spec (b : Nat) {fuel : Nat} (before : List Nat) (h : Linked t.next o l) (hl : l.length ≤ fuel) :
    (∃ l1 l2 : List Nat, ∃ e, l = l1 ++ e :: l2 ∧ t.key e = k ∧
      followChain t k fuel (endLink b before) o = some (endLink b (before ++ l1), some e)) ∨
    ((∀ x ∈ l, t.key x ≠ k) ∧ followChain t k fuel (endLink b before) o = some (endLink b (before ++ l), none)) := by
  induction l generalizing o fuel before with
  | nil =>
    cases h
    refine .inr ⟨nofun, ?_⟩
    rw [append_nil]
    cases fuel <;> rfl
  | cons e l ih =>
    cases h.1
    cases fuel with
    | zero => exact absurd hl (not_succ_le_zero _)
    | succ fuel =>
      by_cases hk : t.key e = k
      · exact .inl ⟨[], l, e, rfl, hk, by rw [followChain, if_pos hk, append_nil]⟩
      · have hstep := ih (before ++ [e]) h.2 (le_of_succ_le_succ hl)
        rw [endLink_concat] at hstep
        rw [followChain, if_neg hk]
        rcases hstep with ⟨l1, l2, x, rfl, hx, hf⟩ | ⟨hall, hf⟩
        · refine .inl ⟨e :: l1, l2, x, rfl, hx, ?_⟩
          rw [hf, append_assoc, singleton_append]
        · refine .inr ⟨fun x hx => ?_, ?_⟩
          · rcases mem_cons.mp hx with rfl | hx
            · exact hk
            · exact hall x hx
          · rw [hf, append_assoc, singleton_append]

end Chains

section Table
variable {K : Type} {t u : Htab K} {keys : Finset K} {chains : Nat → List Nat} {free : List Nat}
  {n b e : Nat} {k : K}

/-- The masks, for `2^n` buckets that have been doubled in part. -/
structure Sized (t : Htab K) (n : Nat) : Prop where
  low : t.lowMask = 2 ^ n - 1
  high : t.highMask = 2 ^ (n + 1) - 1
  min : t.lowMask ≤ t.maxBucket
  max : t.maxBucket ≤ t.highMask
  segs : t.maxBucket < t.nsegs * defSegsize

/-- Every element that was linked after its allocation is in one place; the last one of each chunk
never is. -/
structure Placed (t : Htab K) (chains : Nat → List Nat) (free : List Nat) : Prop where
  chained : ∀ b, b < t.nsegs * defSegsize → t.Chain b (chains b)
  home : ∀ b, ∀ e ∈ chains b, callHash t (t.key e) = b
  spare : Linked t.next t.freeBucketIndex free
  apart : ∀ e ∈ free, ∀ b, e ∉ chains b
  chunks : t.allocated % bucketAllocIncr = 0
  placed : ∀ e, (e ∈ free ∨ ∃ b, e ∈ chains b) ↔ e < t.allocated ∧ e % bucketAllocIncr ≠ bucketAllocIncr - 1

structure HashInv (t : Htab K) (keys : Finset K) (chains : Nat → List Nat) (free : List Nat) : Prop extends
    Placed t chains free where
  sized : ∃ n, Sized t n
  distinct : ∀ b c, ∀ e ∈ chains b, ∀ e' ∈ chains c, t.key e = t.key e' → e = e'
  mem : ∀ k, k ∈ keys ↔ ∃ b, ∃ e ∈ chains b, t.key e = k
  count : t.nkeys = keys.card

theorem Sized.callHash (h : Sized t n) (k : K) : callHash t k = address n t.maxBucket (t.hash k).toNat := by
  have hmod (x m : Nat) : x &&& (2 ^ m - 1) = x % 2 ^ m := Nat.and_two_pow_sub_one_eq_mod x m
  simp only [Hash.callHash, address]
  rw [h.low, h.high, hmod, hmod, Nat.mod_mod_of_dvd _ (Nat.pow_dvd_pow 2 (Nat.le_succ n))]

theorem Sized.callHash_le (h : Sized t n) (k : K) : Hash.callHash t k ≤ t.maxBucket := by
  have hpos := Nat.two_pow_pos n
  have hmin := h.min
  rw [h.low] at hmin
  rw [h.callHash]
  exact address_le (by omega)

theorem shift_lt {m : Nat} (h : b < m * defSegsize) : b >>> defSegsizeShift < m := by
  have hs : b >>> defSegsizeShift = b / 256 := shiftRight_eq_div_pow b 8
  simp only [defSegsize] at h
  omega

theorem HashInv.callHash_lt (h : HashInv t keys chains free) (k : K) : callHash t k < t.nsegs * defSegsize := by
  obtain ⟨n, hn⟩ := h.sized
  exact lt_of_le_of_lt (hn.callHash_le k) hn.segs

/-- The element of a key is in the chain of its address. -/
theorem HashInv.mem_iff (h : HashInv t keys chains free) : k ∈ keys ↔ ∃ e ∈ chains (callHash t k), t.key e = k := by
  rw [h.mem]
  constructor
  · rintro ⟨b, e, he, rfl⟩
    exact ⟨e, by rwa [h.home b e he], rfl⟩
  · rintro ⟨e, he, hk⟩
    exact ⟨_, e, he, hk⟩

theorem Placed.used_lt (h : Placed t chains free) (he : e ∈ chains b) : e < t.allocated :=
  ((h.placed e).mp (.inr ⟨b, he⟩)).1

theorem HashInv.chain_nodup (h : HashInv t keys chains free) (b : Nat) : (chains b).Nodup := by
  by_cases hb : b < t.nsegs * defSegsize
  · exact linked_nodup (h.chained b hb)
  · cases hc : chains b with
    | nil => exact nodup_nil
    | cons e l =>
      have he : e ∈ chains b := by rw [hc]; exact mem_cons_self
      have hlt := h.callHash_lt (t.key e)
      rw [h.home b e he] at hlt
      exact absurd hlt hb

theorem length_le_of_lt {l : List Nat} {m : Nat} (hnd : l.Nodup) (hlt : ∀ x ∈ l, x < m) : l.length ≤ m := by
  have hsub : l ⊆ range m := fun x hx => mem_range.mpr (hlt x hx)
  have hle := (hnd.subperm hsub).length_le
  rwa [length_range] at hle

theorem HashInv.chain_length (h : HashInv t keys chains free) (b : Nat) : (chains b).length ≤ t.allocated :=
  length_le_of_lt (h.chain_nodup b) fun _ he => h.used_lt he

variable [DecidableEq K]

/-- `hash_search` finds the element of a key that is present, or the end of its chain. -/
theorem lookUp_spec (h : HashInv t keys chains free) (k : K) :
    (k ∈ keys ∧ ∃ l1 l2 e, chains (callHash t k) = l1 ++ e :: l2 ∧ t.key e = k ∧
      lookUp t k = some (endLink (callHash t k) l1, some e)) ∨
    (k ∉ keys ∧ lookUp t k = some (endLink (callHash t k) (chains (callHash t k)), none)) := by
  have hlt := h.callHash_lt k
  have hlook : lookUp t k = followChain t k t.allocated (bucketLink (callHash t k)) (t.link (bucketLink (callHash t k))) :=
    if_pos (shift_lt hlt)
  rw [hlook]
  have hfollow := followChain_spec (k := k) (callHash t k) [] (h.chained _ hlt) (h.chain_length _)
  rw [endLink_nil] at hfollow
  rcases hfollow with ⟨l1, l2, e, hl, hk, hf⟩ | ⟨hall, hf⟩
  · refine .inl ⟨h.mem_iff.mpr ⟨e, by rw [hl]; simp, hk⟩, l1, l2, e, hl, hk, ?_⟩
    rw [hf, nil_append]
  · refine .inr ⟨fun hmem => ?_, ?_⟩
    · obtain ⟨e, he, hk⟩ := h.mem_iff.mp hmem
      exact hall e he hk
    · rw [hf, nil_append]

/-! ### Removal -/

theorem removeElement_spec (h : HashInv t keys chains free) {l1 l2 : List Nat} (hl : chains b = l1 ++ e :: l2) :
    ∃ u, removeElement t (endLink b l1) e = some u ∧
      HashInv u (keys.erase (t.key e)) (update chains b (l1 ++ l2)) (e :: free) ∧
      u.saveState = t.saveState := by
  have he : e ∈ chains b := by rw [hl]; simp
  have hkey : t.key e ∈ keys := (h.mem _).mpr ⟨b, e, he, rfl⟩
  have hb : b < t.nsegs * defSegsize := by
    have hlt := h.callHash_lt (t.key e)
    rwa [h.home b e he] at hlt
  have hnd := h.chain_nodup b
  rw [hl] at hnd
  have hpos : 0 < t.nkeys := by
    rw [h.count]
    exact Finset.card_pos.mpr ⟨_, hkey⟩
  have hmem (x c : Nat) : x ∈ update chains b (l1 ++ l2) c ↔ x ∈ chains c ∧ x ≠ e := by
    by_cases hc : c = b
    · subst hc
      have hx : e ∉ l1 ++ l2 := (nodup_cons.mp (nodup_middle.mp hnd)).1
      rw [update_self, hl]
      constructor
      · intro hm
        exact ⟨by simp only [mem_append, mem_cons] at hm ⊢; tauto, fun hxe => hx (by rwa [← hxe])⟩
      · rintro ⟨hm, hxe⟩
        simp only [mem_append, mem_cons] at hm ⊢
        tauto
    · rw [update_of_ne hc]
      refine ⟨fun hm => ⟨hm, fun hxe => hc ?_⟩, And.left⟩
      subst hxe
      rw [← h.home c x hm, h.home b x he]
  have hl1 : ∀ p ∈ l1, p ∈ chains b := fun p hp => by rw [hl]; exact mem_append_left _ hp
  have hchain := h.chained b hb
  rw [hl] at hchain
  have hself := chain_unlink (w := t.freeBucketIndex) hchain
  have hother {c : Nat} (hc : c < t.nsegs * defSegsize) (hne : c ≠ b) :=
    chain_setLink (l := l1) (e := e) (v := t.next e) (w := t.freeBucketIndex) (h.chained c hc) hne.symm
      (fun p hp hm => hne (by rw [← h.home c p hm, h.home b p (hl1 p hp)]))
      (fun hm => hne (by rw [← h.home c e hm, h.home b e he]))
  have hspare := linked_setLink (l := l1) (e := e) (b := b) (v := t.next e) (w := t.freeBucketIndex) h.spare
    (fun p hp hm => h.apart p hm b (hl1 p hp)) (fun hm => h.apart e hm b he)
  obtain ⟨dir, next, hset⟩ := setLink_eq t (t.next e) (endLink b l1)
  rw [hset] at hself hspare
  simp only [hset] at hother
  refine ⟨{t with
    dir := dir
    nkeys := t.nkeys - 1
    next := update next e t.freeBucketIndex
    freeBucketIndex := some e}, ?_, ⟨⟨fun c hc => ?_, fun c x hx => ?_, ?_, fun x hx c hm => ?_, h.chunks, fun x => ?_⟩,
    h.sized.imp fun n hn => ⟨hn.low, hn.high, hn.min, hn.max, hn.segs⟩, fun c d x hx y hy hk => ?_, fun k => ?_, ?_⟩, rfl⟩
  · rw [removeElement, if_pos hpos, hset]
  · by_cases hcb : c = b
    · subst hcb
      rw [update_self]
      exact hself
    · rw [update_of_ne hcb]
      exact hother hc hcb
  · exact h.home c x ((hmem x c).mp hx).1
  · refine ⟨rfl, ?_⟩
    dsimp only
    rw [update_self]
    exact hspare
  · obtain ⟨hm, hxe⟩ := (hmem x c).mp hm
    rcases mem_cons.mp hx with rfl | hx
    · exact hxe rfl
    · exact h.apart x hx c hm
  · rw [← h.placed x]
    constructor
    · rintro (hx | ⟨c, hx⟩)
      · rcases mem_cons.mp hx with rfl | hx
        · exact .inr ⟨b, he⟩
        · exact .inl hx
      · exact .inr ⟨c, ((hmem x c).mp hx).1⟩
    · rintro (hx | ⟨c, hx⟩)
      · exact .inl (mem_cons_of_mem e hx)
      · by_cases hxe : x = e
        · exact .inl (by rw [hxe]; exact mem_cons_self)
        · exact .inr ⟨c, (hmem x c).mpr ⟨hx, hxe⟩⟩
  · exact h.distinct c d x ((hmem x c).mp hx).1 y ((hmem y d).mp hy).1 hk
  · rw [Finset.mem_erase, h.mem]
    constructor
    · rintro ⟨hne, c, x, hx, rfl⟩
      exact ⟨c, x, (hmem x c).mpr ⟨hx, fun hxe => hne (by rw [hxe])⟩, rfl⟩
    · rintro ⟨c, x, hx, rfl⟩
      obtain ⟨hx, hxe⟩ := (hmem x c).mp hx
      exact ⟨fun hk => hxe (h.distinct c b x hx e he hk), c, x, hx, rfl⟩
  · rw [Finset.card_erase_of_mem hkey, ← h.count]

/-! ### Insertion -/

omit [DecidableEq K] in
/-- A chunk of elements is allocated when the free list is empty. -/
theorem bucketAlloc_spec (h : HashInv t keys chains []) :
    HashInv (bucketAlloc t) keys chains (range' t.allocated (bucketAllocIncr - 1)) := by
  have hold {x : Nat} (hx : x < t.allocated) : (bucketAlloc t).next x = t.next x := by
    simp only [bucketAlloc]
    rw [if_neg (by omega), if_neg (by omega)]
  have hempty : t.freeBucketIndex = none := h.spare
  have hfree (i m : Nat) (hm : i + m = t.allocated + (bucketAllocIncr - 2)) (hi : t.allocated ≤ i) :
      Linked (bucketAlloc t).next (some i) (range' i (m + 1)) := by
    induction m generalizing i with
    | zero =>
      refine ⟨rfl, ?_⟩
      simp only [bucketAlloc]
      rw [if_neg (by omega), if_pos (by omega), hempty]
      rfl
    | succ m ih =>
      refine ⟨rfl, ?_⟩
      simp only [bucketAlloc]
      rw [if_pos (by omega)]
      exact ih (i + 1) (by omega) (by omega)
  have hrange (x : Nat) : x ∈ range' t.allocated (bucketAllocIncr - 1) ↔
      t.allocated ≤ x ∧ x < t.allocated + (bucketAllocIncr - 1) := mem_range'_1
  refine ⟨⟨fun c hc => ?_, h.home, hfree t.allocated (bucketAllocIncr - 2) rfl (le_refl _), fun x hx c hm => ?_, ?_,
    fun x => ?_⟩, h.sized.imp fun n hn => ⟨hn.low, hn.high, hn.min, hn.max, hn.segs⟩, h.distinct, h.mem, h.count⟩
  · exact path_congr (fun y hy => hold (h.used_lt hy)) (h.chained c hc)
  · have hlt := h.used_lt hm
    have hle := ((hrange x).mp hx).1
    omega
  · show (t.allocated + bucketAllocIncr) % bucketAllocIncr = 0
    rw [add_mod_right]
    exact h.chunks
  · show _ ↔ x < t.allocated + bucketAllocIncr ∧ _
    have hplaced := h.placed x
    have hchunks := h.chunks
    rw [hrange]
    simp only [not_mem_nil, false_or] at hplaced
    rw [hplaced]
    simp only [bucketAllocIncr] at hchunks ⊢
    omega

/-- The table after an element has been linked in, before it grows. -/
theorem linkElement_spec (h : HashInv t keys chains (e :: free)) (hk : k ∉ keys) :
    HashInv {({t with freeBucketIndex := t.next e} : Htab K).setLink (some e)
        (endLink (callHash t k) (chains (callHash t k))) with
      key := update t.key e k
      next := update (({t with freeBucketIndex := t.next e} : Htab K).setLink (some e)
        (endLink (callHash t k) (chains (callHash t k)))).next e none
      nkeys := t.nkeys + 1} (insert k keys)
      (update chains (callHash t k) (chains (callHash t k) ++ [e])) free := by
  generalize hb : callHash t k = b
  have hlt : b < t.nsegs * defSegsize := by rw [← hb]; exact h.callHash_lt k
  have hapart : ∀ c, e ∉ chains c := h.apart e mem_cons_self
  have hef : e ∉ free := (nodup_cons.mp (linked_nodup h.spare)).1
  have hkeyOf {x c : Nat} (hx : x ∈ chains c) : update t.key e k x = t.key x :=
    update_of_ne (fun hxe => hapart c (by rwa [← hxe])) ..
  have hmem (x c : Nat) : x ∈ update chains b (chains b ++ [e]) c ↔ x ∈ chains c ∨ (c = b ∧ x = e) := by
    by_cases hc : c = b
    · subst hc
      rw [update_self, mem_append, mem_singleton]
      tauto
    · rw [update_of_ne hc]
      tauto
  have hchain : ({t with freeBucketIndex := t.next e} : Htab K).Chain b (chains b) := h.chained b hlt
  obtain ⟨u, hu, ⟨dir, next, hsame⟩, hself, hother, hlinked⟩ := linkLast_spec (fun _ => hchain) (hapart b)
  have hdis {c : Nat} (hne : c ≠ b) : ∀ x ∈ chains b ++ [e], x ∉ chains c := fun x hx hm => by
    rcases mem_append.mp hx with hx | hx
    · exact hne (by rw [← h.home c x hm, h.home b x hx])
    · exact hapart c (by rwa [mem_singleton.mp hx] at hm)
  have hspare : Linked u.next (t.next e) free := hlinked _ free h.spare.2 fun x hx hm => by
    rcases mem_append.mp hx with hx | hx
    · exact h.apart x (mem_cons_of_mem e hm) b hx
    · exact hef (by rwa [mem_singleton.mp hx] at hm)
  have hfinal (key : Nat → K) (nkeys : Nat) : ({({t with freeBucketIndex := t.next e} : Htab K).setLink (some e)
        (endLink b (chains b)) with
      key := key
      next := update (({t with freeBucketIndex := t.next e} : Htab K).setLink (some e)
        (endLink b (chains b))).next e none
      nkeys := nkeys} : Htab K) = {u with key := key, nkeys := nkeys} := by
    rw [hu]
  rw [hfinal]
  subst hsame
  refine ⟨⟨fun c hc => ?_, fun c x hx => ?_, hspare, fun x hx c hm => ?_, h.chunks, fun x => ?_⟩,
    h.sized.imp fun n hn => ⟨hn.low, hn.high, hn.min, hn.max, hn.segs⟩, fun c d x hx y hy hkey => ?_, fun k' => ?_, ?_⟩
  · by_cases hcb : c = b
    · subst hcb
      rw [update_self]
      exact hself
    · rw [update_of_ne hcb]
      exact hother c _ hcb (h.chained c hc) (hdis hcb)
  · rcases (hmem x c).mp hx with hx | ⟨rfl, rfl⟩
    · dsimp only
      rw [hkeyOf hx]
      exact h.home c x hx
    · dsimp only
      rw [update_self]
      exact hb
  · rcases (hmem x c).mp hm with hm | ⟨-, rfl⟩
    · exact h.apart x (mem_cons_of_mem e hx) c hm
    · exact hef hx
  · rw [← h.placed x]
    constructor
    · rintro (hx | ⟨c, hx⟩)
      · exact .inl (mem_cons_of_mem e hx)
      · rcases (hmem x c).mp hx with hx | ⟨-, rfl⟩
        · exact .inr ⟨c, hx⟩
        · exact .inl mem_cons_self
    · rintro (hx | ⟨c, hx⟩)
      · rcases mem_cons.mp hx with rfl | hx
        · exact .inr ⟨b, (hmem x b).mpr (.inr ⟨rfl, rfl⟩)⟩
        · exact .inl hx
      · exact .inr ⟨c, (hmem x c).mpr (.inl hx)⟩
  · have hnew {x c : Nat} (hx : x ∈ chains c) : t.key x ≠ k := fun hxk => hk ((h.mem k).mpr ⟨c, x, hx, hxk⟩)
    dsimp only at hkey
    rcases (hmem x c).mp hx with hxc | ⟨-, hxe⟩ <;> rcases (hmem y d).mp hy with hyd | ⟨-, hye⟩
    · rw [hkeyOf hxc, hkeyOf hyd] at hkey
      exact h.distinct c d x hxc y hyd hkey
    · rw [hkeyOf hxc, hye, update_self] at hkey
      exact absurd hkey (hnew hxc)
    · rw [hkeyOf hyd, hxe, update_self] at hkey
      exact absurd hkey.symm (hnew hyd)
    · rw [hxe, hye]
  · rw [Finset.mem_insert, h.mem]
    constructor
    · rintro (rfl | ⟨c, x, hx, rfl⟩)
      · exact ⟨b, e, (hmem e b).mpr (.inr ⟨rfl, rfl⟩), update_self ..⟩
      · exact ⟨c, x, (hmem x c).mpr (.inl hx), hkeyOf hx⟩
    · rintro ⟨c, x, hx, rfl⟩
      dsimp only
      rcases (hmem x c).mp hx with hx | ⟨-, rfl⟩
      · rw [hkeyOf hx]
        exact .inr ⟨c, x, hx, rfl⟩
      · rw [update_self]
        exact .inl rfl
  · rw [Finset.card_insert_of_notMem hk, ← h.count]

/-! ### Growth -/

omit [DecidableEq K] in
/-- The loop divides the rest of a chain between two chains, and leaves all others alone. -/
theorem relocate_spec {ob nb : Nat} (fuel : Nat) {o : Option Nat} (stays moves : List Nat) {rest : List Nat}
    (hne : ob ≠ nb) (hrest : Linked t.next o rest) (hstays : stays ≠ [] → t.Chain ob stays) (hmoves : t.Chain nb moves)
    (hnd : (stays ++ moves ++ rest).Nodup) (hfuel : rest.length ≤ fuel) :
    let stay := fun x => decide (callHash t (t.key x) = ob)
    ∃ w, relocate ob fuel t o (endLink ob stays) (endLink nb moves) = some w ∧ SameButLinks t w ∧
      (stays ++ rest.filter stay ≠ [] → w.Chain ob (stays ++ rest.filter stay)) ∧
      w.Chain nb (moves ++ rest.filter (fun x => !stay x)) ∧ (rest = [] → w = t) ∧
      (∀ c l, c ≠ ob → c ≠ nb → t.Chain c l → (∀ x ∈ stays ++ moves ++ rest, x ∉ l) → w.Chain c l) ∧
      ∀ o l, Linked t.next o l → (∀ x ∈ stays ++ moves ++ rest, x ∉ l) → Linked w.next o l := by
  intro stay
  induction rest generalizing t o stays moves fuel with
  | nil =>
    cases hrest
    refine ⟨t, by cases fuel <;> rfl, ⟨_, _, rfl⟩, ?_, ?_, fun _ => rfl, fun c l _ _ h _ => h, fun o l h _ => h⟩
    · simpa using hstays
    · simpa using hmoves
  | cons e rest ih =>
    cases hrest.1
    cases fuel with
    | zero => exact absurd hfuel (not_succ_le_zero _)
    | succ fuel =>
      have hdis : ∀ p ∈ stays, p ∉ moves :=
        fun p hp hm => (nodup_append.mp (nodup_append.mp hnd).1).2.2 p hp p hm rfl
      have hdis' : ∀ p ∈ stays ++ moves, p ∉ e :: rest := fun p hp hm => (nodup_append.mp hnd).2.2 p hp p hm rfl
      have hes : e ∉ stays := fun hm => hdis' e (mem_append_left _ hm) mem_cons_self
      have hem : e ∉ moves := fun hm => hdis' e (mem_append_right _ hm) mem_cons_self
      have her : e ∉ rest := (nodup_cons.mp (nodup_append.mp hnd).2.1).1
      have hfuel' : rest.length ≤ fuel := le_of_succ_le_succ hfuel
      by_cases hstay : callHash t (t.key e) = ob
      · obtain ⟨u, hu, hsame, hstays', hother, hlinked⟩ := linkLast_spec hstays hes
        have hmoves' : u.Chain nb moves := hother nb moves hne.symm hmoves fun x hx hm => by
          rcases mem_append.mp hx with hx | hx
          · exact hdis x hx hm
          · exact hem (by rwa [mem_singleton.mp hx] at hm)
        have hrest' : Linked u.next (t.next e) rest := hlinked _ rest hrest.2 fun x hx hm => by
          rcases mem_append.mp hx with hx | hx
          · exact hdis' x (mem_append_left _ hx) (mem_cons_of_mem e hm)
          · exact her (by rwa [mem_singleton.mp hx] at hm)
        have hnd' : (stays ++ [e] ++ moves ++ rest).Nodup := by
          refine (List.Perm.nodup_iff ?_).mp hnd
          rw [append_assoc stays [e] moves, append_assoc, append_assoc]
          exact List.Perm.append_left stays perm_middle
        have hkeep {l : List Nat} (hl : ∀ x ∈ stays ++ moves ++ e :: rest, x ∉ l) :
            (∀ x ∈ stays ++ [e], x ∉ l) ∧ ∀ x ∈ stays ++ [e] ++ moves ++ rest, x ∉ l := by
          refine ⟨fun x hx => hl x ?_, fun x hx => hl x ?_⟩ <;>
            simp only [mem_append, mem_cons, not_mem_nil, or_false] at hx ⊢ <;> tauto
        have hhash : (fun x => decide (callHash u (u.key x) = ob)) = stay := by
          obtain ⟨dir, next, rfl⟩ := hsame
          rfl
        obtain ⟨w, hw, hsame', hwstays, hwmoves, -, hwother, hwlinked⟩ :=
          ih _ _ _ hrest' (fun _ => hstays') hmoves' hnd' hfuel'
        rw [hhash] at hwstays hwmoves
        have hfilter : (e :: rest).filter stay = e :: rest.filter stay :=
          filter_cons_of_pos (by simp only [stay, hstay, decide_true])
        have hfilter' : (e :: rest).filter (fun x => !stay x) = rest.filter fun x => !stay x :=
          filter_cons_of_neg (by simp only [stay, hstay, decide_true, Bool.not_true, Bool.false_eq_true,
            not_false_eq_true])
        refine ⟨w, ?_, hsame.trans hsame', fun _ => ?_, ?_, nofun, fun c l hc hc' h hl => ?_, fun o l h hl => ?_⟩
        · rw [relocate]
          dsimp only
          rw [if_pos hstay, ← hu]
          rw [endLink_concat] at hw
          exact hw
        · rw [hfilter]
          have := hwstays (by simp)
          rwa [append_assoc] at this
        · rw [hfilter']
          exact hwmoves
        · exact hwother c l hc hc' (hother c l hc h (hkeep hl).1) (hkeep hl).2
        · exact hwlinked o l (hlinked o l h (hkeep hl).1) (hkeep hl).2
      · obtain ⟨u, hu, hsame, hmoves', hother, hlinked⟩ := linkLast_spec (fun _ => hmoves) hem
        have hstays' (h : stays ≠ []) : u.Chain ob stays := hother ob stays hne (hstays h) fun x hx hm => by
          rcases mem_append.mp hx with hx | hx
          · exact hdis x hm hx
          · exact hes (by rwa [mem_singleton.mp hx] at hm)
        have hrest' : Linked u.next (t.next e) rest := hlinked _ rest hrest.2 fun x hx hm => by
          rcases mem_append.mp hx with hx | hx
          · exact hdis' x (mem_append_right _ hx) (mem_cons_of_mem e hm)
          · exact her (by rwa [mem_singleton.mp hx] at hm)
        have hnd' : (stays ++ (moves ++ [e]) ++ rest).Nodup := by
          rw [show stays ++ (moves ++ [e]) ++ rest = stays ++ moves ++ e :: rest by simp]
          exact hnd
        have hkeep {l : List Nat} (hl : ∀ x ∈ stays ++ moves ++ e :: rest, x ∉ l) :
            (∀ x ∈ moves ++ [e], x ∉ l) ∧ ∀ x ∈ stays ++ (moves ++ [e]) ++ rest, x ∉ l := by
          refine ⟨fun x hx => hl x ?_, fun x hx => hl x ?_⟩ <;>
            simp only [mem_append, mem_cons, not_mem_nil, or_false] at hx ⊢ <;> tauto
        have hhash : (fun x => decide (callHash u (u.key x) = ob)) = stay := by
          obtain ⟨dir, next, rfl⟩ := hsame
          rfl
        obtain ⟨w, hw, hsame', hwstays, hwmoves, -, hwother, hwlinked⟩ := ih _ _ _ hrest' hstays' hmoves' hnd' hfuel'
        rw [hhash] at hwstays hwmoves
        have hfilter : (e :: rest).filter stay = rest.filter stay :=
          filter_cons_of_neg (by simp only [stay, hstay, decide_false, Bool.false_eq_true, not_false_eq_true])
        have hfilter' : (e :: rest).filter (fun x => !stay x) = e :: rest.filter fun x => !stay x :=
          filter_cons_of_pos (by simp only [stay, hstay, decide_false, Bool.not_false])
        refine ⟨w, ?_, hsame.trans hsame', ?_, ?_, nofun, fun c l hc hc' h hl => ?_, fun o l h hl => ?_⟩
        · rw [relocate]
          dsimp only
          rw [if_neg hstay, ← hu]
          rw [endLink_concat] at hw
          exact hw
        · rw [hfilter]
          exact hwstays
        · rw [hfilter']
          rwa [append_assoc] at hwmoves
        · exact hwother c l hc hc' (hother c l hc' h (hkeep hl).1) (hkeep hl).2
        · exact hwlinked o l (hlinked o l h (hkeep hl).1) (hkeep hl).2

/-- The bucket that is divided when the table grows. -/
def Htab.oldBucket (t : Htab K) : Nat := (t.maxBucket + 1) &&& t.lowMask

/-- The directory has room for the new bucket, and if keys have the bucket that is divided, one of
them keeps it. -/
def GrowOk (t : Htab K) (keys : Finset K) : Prop :=
  (t.maxBucket + 1) >>> defSegsizeShift < t.dsize ∧
    ((∃ k ∈ keys, callHash t k = t.oldBucket) → ∃ k ∈ keys, callHash (growMasks t) k = t.oldBucket)

omit [DecidableEq K] in
theorem Sized.oldBucket (h : Sized t n) : t.oldBucket = (t.maxBucket + 1) % 2 ^ n := by
  rw [Htab.oldBucket, h.low]
  exact and_two_pow_sub_one_eq_mod _ n

omit [DecidableEq K] in
/-- Keys move from the old bucket to the new one, and no others. -/
theorem growMasks_spec (h : Sized t n) : ∃ m, ((growMasks t).lowMask = 2 ^ m - 1 ∧ (growMasks t).highMask = 2 ^ (m + 1) - 1 ∧
      (growMasks t).lowMask ≤ t.maxBucket + 1 ∧ t.maxBucket + 1 ≤ (growMasks t).highMask) ∧ t.oldBucket ≤ t.maxBucket ∧
      ∀ k, (callHash (growMasks t) k = callHash t k ∨ callHash (growMasks t) k = t.maxBucket + 1) ∧
        (callHash (growMasks t) k = t.maxBucket + 1 → callHash t k = t.oldBucket) := by
  have hpos := Nat.two_pow_pos n
  have hpow : 2 ^ (n + 1) = 2 * 2 ^ n := Nat.pow_succ'
  have hmin := h.min
  have hmax := h.max
  rw [h.low] at hmin
  rw [h.high] at hmax
  have hold : t.oldBucket ≤ t.maxBucket := by
    have hmod := mod_lt (t.maxBucket + 1) hpos
    rw [h.oldBucket]
    omega
  by_cases hdouble : t.highMask < t.maxBucket + 1
  · -- all buckets exist, and the next doubling begins
    have hfull : t.maxBucket = 2 ^ (n + 1) - 1 := by
      rw [h.high] at hdouble
      omega
    have hlow : (growMasks t).lowMask = 2 ^ (n + 1) - 1 := by
      simp only [growMasks]
      rw [if_pos hdouble, h.high]
    have hhigh : (growMasks t).highMask = 2 ^ (n + 1 + 1) - 1 := by
      simp only [growMasks]
      rw [if_pos hdouble, h.high, hfull, Nat.sub_add_cancel (Nat.two_pow_pos _)]
      have hor := Nat.two_pow_add_eq_or_of_lt (i := n + 1) (b := 2 ^ (n + 1) - 1) (by omega) 1
      rw [Nat.mul_one] at hor
      rw [← hor, Nat.pow_succ]
      omega
    have hsized : Sized (growMasks {t with nsegs := t.maxBucket + 2}) (n + 1) := by
      refine ⟨hlow, hhigh, ?_, ?_, ?_⟩
      · show (growMasks t).lowMask ≤ t.maxBucket + 1
        omega
      · show t.maxBucket + 1 ≤ (growMasks t).highMask
        rw [hhigh, Nat.pow_succ]
        omega
      · show t.maxBucket + 1 < (t.maxBucket + 2) * defSegsize
        simp only [defSegsize]
        omega
    refine ⟨n + 1, ⟨hlow, hhigh, by omega, by rw [hhigh, Nat.pow_succ]; omega⟩, hold, fun k => ?_⟩
    have hnew : callHash (growMasks t) k = address (n + 1) (t.maxBucket + 1) (t.hash k).toNat := hsized.callHash k
    have hcall : callHash t k = address (n + 1) t.maxBucket (t.hash k).toNat := by
      rw [h.callHash, hfull, address_double]
    have hob : t.oldBucket = (t.maxBucket + 1) % 2 ^ (n + 1) := by
      rw [h.oldBucket, hfull, Nat.sub_add_cancel (Nat.two_pow_pos _), Nat.mod_self, Nat.pow_succ, Nat.mul_mod_right]
    rw [hnew, hcall, hob]
    refine ⟨?_, fun he => address_of_succ_eq (by omega) he⟩
    by_cases he : address (n + 1) (t.maxBucket + 1) (t.hash k).toNat = t.maxBucket + 1
    · exact .inr he
    · exact .inl (address_succ_of_ne he)
  · have hlow : (growMasks t).lowMask = 2 ^ n - 1 := by
      simp only [growMasks]
      rw [if_neg hdouble, h.low]
    have hhigh : (growMasks t).highMask = 2 ^ (n + 1) - 1 := by
      simp only [growMasks]
      rw [if_neg hdouble, h.high]
    rw [h.high] at hdouble
    have hsized : Sized (growMasks {t with nsegs := t.maxBucket + 2}) n := by
      refine ⟨hlow, hhigh, ?_, ?_, ?_⟩
      · show (growMasks t).lowMask ≤ t.maxBucket + 1
        omega
      · show t.maxBucket + 1 ≤ (growMasks t).highMask
        omega
      · show t.maxBucket + 1 < (t.maxBucket + 2) * defSegsize
        simp only [defSegsize]
        omega
    refine ⟨n, ⟨hlow, hhigh, by omega, by omega⟩, hold, fun k => ?_⟩
    have hnew : callHash (growMasks t) k = address n (t.maxBucket + 1) (t.hash k).toNat := hsized.callHash k
    rw [hnew, h.callHash, h.oldBucket]
    refine ⟨?_, fun he => address_of_succ_eq (by omega) he⟩
    by_cases he : address n (t.maxBucket + 1) (t.hash k).toNat = t.maxBucket + 1
    · exact .inr he
    · exact .inl (address_succ_of_ne he)

omit [DecidableEq K] in
/-- The new bucket has a segment, and its chain is empty. -/
theorem growDir_spec (h : HashInv t keys chains free) (hroom : (t.maxBucket + 1) >>> defSegsizeShift < t.dsize) :
    ∃ dir nsegs, growDir t ((t.maxBucket + 1) >>> defSegsizeShift) = some {t with dir := dir, nsegs := nsegs} ∧
      t.maxBucket + 1 < nsegs * defSegsize ∧
      ∀ b, b < nsegs * defSegsize → ({t with dir := dir, nsegs := nsegs} : Htab K).Chain b (chains b) := by
  obtain ⟨n, hn⟩ := h.sized
  have hsegs := hn.segs
  have hshift (b : Nat) : b >>> defSegsizeShift = b / 256 := shiftRight_eq_div_pow b 8
  by_cases hnew : t.nsegs ≤ (t.maxBucket + 1) >>> defSegsizeShift
  · have hseg : (t.maxBucket + 1) >>> defSegsizeShift = t.nsegs := by
      rw [hshift] at hnew ⊢
      simp only [defSegsize] at hsegs
      omega
    refine ⟨_, t.nsegs + 1, by rw [growDir, if_pos hnew, if_neg (by omega), hseg], ?_, fun b hb => ?_⟩
    · simp only [defSegsize] at hsegs ⊢
      omega
    · by_cases hold : b < t.nsegs * defSegsize
      · have hne : b >>> defSegsizeShift ≠ t.nsegs := Nat.ne_of_lt (shift_lt hold)
        have hlink : ({t with dir := update t.dir t.nsegs fun _ => none, nsegs := t.nsegs + 1} : Htab K).link
            (bucketLink b) = t.link (bucketLink b) := by
          simp only [Htab.link, bucketLink, update_of_ne hne]
        rw [Htab.Chain, hlink]
        exact h.chained b hold
      · have hempty : chains b = [] := by
          cases hc : chains b with
          | nil => rfl
          | cons x l =>
            have hx : x ∈ chains b := by rw [hc]; exact mem_cons_self
            have hle := hn.callHash_le (t.key x)
            rw [h.home b x hx] at hle
            omega
        have heq : b >>> defSegsizeShift = t.nsegs := by
          rw [hshift]
          simp only [defSegsize] at hb hold
          omega
        rw [hempty]
        simp only [Htab.Chain, Linked, Links.Path, Htab.link, bucketLink, heq, update_self]
  · refine ⟨t.dir, t.nsegs, by rw [growDir, if_neg hnew], ?_, h.chained⟩
    rw [hshift] at hnew
    simp only [defSegsize]
    omega

omit [DecidableEq K] in
theorem expandTable_spec (h : HashInv t keys chains free) (hok : GrowOk t keys) :
    ∃ u chains', expandTable t = some u ∧ HashInv u keys chains' free ∧ u.saveState = t.saveState := by
  obtain ⟨n, hn⟩ := h.sized
  obtain ⟨dir, nsegs, hdir, hsegs, hchained⟩ := growDir_spec h hok.1
  obtain ⟨m, ⟨hlow, hhigh, hmin, hmax⟩, hold, hmoves⟩ := growMasks_spec hn
  have hob : t.oldBucket ≠ t.maxBucket + 1 := by omega
  have hbeyond : chains (t.maxBucket + 1) = [] := by
    cases hc : chains (t.maxBucket + 1) with
    | nil => rfl
    | cons x l =>
      have hx : x ∈ chains (t.maxBucket + 1) := by rw [hc]; exact mem_cons_self
      have hle := hn.callHash_le (t.key x)
      rw [h.home _ x hx] at hle
      omega
  generalize hg : growMasks {t with dir := dir, nsegs := nsegs} = g
  have hgchain (b : Nat) (hb : b < nsegs * defSegsize) : g.Chain b (chains b) := by
    rw [← hg]
    exact hchained b hb
  have hgnext : g.next = t.next := by rw [← hg]; rfl
  have hgkey : g.key = t.key := by rw [← hg]; rfl
  have hghash (k : K) : callHash g k = callHash (growMasks t) k := by rw [← hg]; rfl
  have hnd : ([] ++ [] ++ chains t.oldBucket : List Nat).Nodup := by
    simpa using h.chain_nodup t.oldBucket
  have hobChain := hgchain t.oldBucket (by omega)
  obtain ⟨w, hw, hsame, hstays, hnew, hnil, hother, hlinked⟩ := relocate_spec (t := g)
    g.allocated [] [] hob hobChain (fun hf => absurd rfl hf)
    (by rw [← hbeyond]; exact hgchain _ hsegs) hnd (by rw [← hg]; exact h.chain_length _)
  rw [hgkey] at hstays hnew
  simp only [hghash, nil_append] at hstays hnew hother hlinked
  obtain ⟨wdir, wnext, hwg⟩ := hsame
  have hwkey : w.key = t.key := by rw [hwg, ← hgkey]
  have hwhash (k : K) : callHash w k = callHash (growMasks t) k := by rw [hwg, ← hghash]; rfl
  have hwnsegs : w.nsegs = nsegs := by rw [hwg, ← hg]; rfl
  have hwalloc : w.allocated = t.allocated := by rw [hwg, ← hg]; rfl
  -- the chains after the old bucket has been divided
  generalize hstayEq : (chains t.oldBucket).filter
    (fun x => decide (callHash (growMasks t) (t.key x) = t.oldBucket)) = stay at hstays
  generalize hmoveEq : (chains t.oldBucket).filter
    (fun x => !decide (callHash (growMasks t) (t.key x) = t.oldBucket)) = move at hnew
  have hstayMem (x : Nat) : x ∈ stay ↔ x ∈ chains t.oldBucket ∧ callHash (growMasks t) (t.key x) = t.oldBucket := by
    rw [← hstayEq, mem_filter, decide_eq_true_iff]
  have hmoveMem (x : Nat) : x ∈ move ↔ x ∈ chains t.oldBucket ∧ callHash (growMasks t) (t.key x) = t.maxBucket + 1 := by
    rw [← hmoveEq, mem_filter, Bool.not_eq_true', decide_eq_false_iff_not]
    refine and_congr_right fun hx => ⟨fun hne => ?_, fun he => by rw [he]; exact hob.symm⟩
    rcases (hmoves (t.key x)).1 with he | he
    · rw [h.home _ x hx] at he
      exact absurd he hne
    · exact he
  let chains' (b : Nat) : List Nat :=
    if b = t.oldBucket then stay else if b = t.maxBucket + 1 then move else chains b
  have hmem (x b : Nat) : x ∈ chains' b ↔ (∃ c, x ∈ chains c) ∧ callHash (growMasks t) (t.key x) = b := by
    simp only [chains']
    split_ifs with hb hb'
    · rw [hstayMem, hb]
      refine ⟨fun hx => ⟨⟨_, hx.1⟩, hx.2⟩, ?_⟩
      rintro ⟨⟨c, hx⟩, he⟩
      refine ⟨?_, he⟩
      rcases (hmoves (t.key x)).1 with he' | he'
      · rw [← he, he', h.home c x hx]
        exact hx
      · exact absurd (he.symm.trans he') hob
    · rw [hmoveMem, hb']
      refine ⟨fun hx => ⟨⟨_, hx.1⟩, hx.2⟩, ?_⟩
      rintro ⟨⟨c, hx⟩, he⟩
      refine ⟨?_, he⟩
      rw [← (hmoves (t.key x)).2 he, h.home c x hx]
      exact hx
    · constructor
      · intro hx
        refine ⟨⟨b, hx⟩, ?_⟩
        have hhome := h.home b x hx
        rcases (hmoves (t.key x)).1 with he | he
        · exact he.trans hhome
        · exact absurd (hhome.symm.trans ((hmoves (t.key x)).2 he)) hb
      · rintro ⟨⟨c, hx⟩, he⟩
        rcases (hmoves (t.key x)).1 with he' | he'
        · rw [← he, he', h.home c x hx]
          exact hx
        · exact absurd (he.symm.trans he') hb'
  have hex (x : Nat) : (∃ b, x ∈ chains' b) ↔ ∃ c, x ∈ chains c :=
    ⟨fun ⟨b, hx⟩ => ((hmem x b).mp hx).1, fun hx => ⟨_, (hmem x _).mpr ⟨hx, rfl⟩⟩⟩
  have holdChain : w.Chain t.oldBucket stay := by
    by_cases hempty : chains t.oldBucket = []
    · have hstay : stay = [] := by rw [← hstayEq, hempty]; rfl
      rw [hstay, hnil hempty, ← hempty]
      exact hobChain
    · refine hstays fun hstay => ?_
      obtain ⟨x, hx⟩ := exists_mem_of_ne_nil _ hempty
      obtain ⟨k, hk, hkeeps⟩ := hok.2 ⟨t.key x, (h.mem _).mpr ⟨_, x, hx, rfl⟩, h.home _ x hx⟩
      obtain ⟨c, y, hy, rfl⟩ := (h.mem k).mp hk
      have hy' : y ∈ stay := by
        refine (hstayMem y).mpr ⟨?_, hkeeps⟩
        rcases (hmoves (t.key y)).1 with he | he
        · rw [← hkeeps, he, h.home c y hy]
          exact hy
        · exact absurd (hkeeps.symm.trans he) hob
      rw [hstay] at hy'
      cases hy'
  refine ⟨w, chains', ?_, ⟨⟨fun b hb => ?_, fun b x hx => ?_, ?_, fun x hx b hm => ?_, ?_, fun x => ?_⟩, ⟨m, ?_⟩,
    fun b c x hx y hy hk => ?_, fun k => ?_, ?_⟩, by rw [hwg, ← hg]; rfl⟩
  · rw [expandTable]
    dsimp only
    rw [hdir, Option.bind_some, hg]
    exact hw
  · rw [hwnsegs] at hb
    simp only [chains']
    split_ifs with hbo hbn
    · rw [hbo]
      exact holdChain
    · rw [hbn]
      exact hnew
    · exact hother b _ hbo hbn (hgchain b hb) fun x hx hm => hbo (by rw [← h.home b x hm, h.home _ x hx])
  · rw [hwkey, hwhash]
    exact ((hmem x b).mp hx).2
  · have hfreeHead : w.freeBucketIndex = t.freeBucketIndex := by rw [hwg, ← hg]; rfl
    rw [hfreeHead]
    exact hlinked _ free (by rw [hgnext]; exact h.spare) fun x hx hm => h.apart x hm _ hx
  · obtain ⟨c, hc⟩ := ((hmem x b).mp hm).1
    exact h.apart x hx c hc
  · rw [hwalloc]
    exact h.chunks
  · rw [hex, hwalloc]
    exact h.placed x
  · have hlow' : w.lowMask = (growMasks t).lowMask := by rw [hwg, ← hg]; rfl
    have hhigh' : w.highMask = (growMasks t).highMask := by rw [hwg, ← hg]; rfl
    have hmaxBucket : w.maxBucket = t.maxBucket + 1 := by rw [hwg, ← hg]; rfl
    exact ⟨hlow'.trans hlow, hhigh'.trans hhigh, by rw [hlow', hmaxBucket]; exact hmin,
      by rw [hhigh', hmaxBucket]; exact hmax, by rw [hmaxBucket, hwnsegs]; exact hsegs⟩
  · rw [hwkey] at hk
    obtain ⟨b', hx'⟩ := ((hmem x b).mp hx).1
    obtain ⟨c', hy'⟩ := ((hmem y c).mp hy).1
    exact h.distinct b' c' x hx' y hy' hk
  · rw [h.mem, hwkey]
    constructor
    · rintro ⟨b, x, hx, rfl⟩
      obtain ⟨c, hx'⟩ := (hex x).mpr ⟨b, hx⟩
      exact ⟨c, x, hx', rfl⟩
    · rintro ⟨b, x, hx, rfl⟩
      obtain ⟨c, hx'⟩ := (hex x).mp ⟨b, hx⟩
      exact ⟨c, x, hx', rfl⟩
  · have hnkeys : w.nkeys = t.nkeys := by rw [hwg, ← hg]; rfl
    rw [hnkeys]
    exact h.count

end Table

end PgStorage.Hash
