import PgStorage.Buffer.PrivateRefCount

/-! The private pin counts are right.

A buffer with a positive count has one entry, in the array or in the hash table; the entry that is
reserved is an empty slot of the array. -/
namespace PgStorage.Buffer
open List Function PrivateRefCountEntry Backend Refs

/-- The entries of a backend whose pins are counted by `c`. -/
structure Inv (r : Refs) (c : Nat → Nat) : Prop where
  inj : ∀ i j, (r.array i).buffer ≠ invalidBuffer → (r.array i).buffer = (r.array j).buffer → i = j
  nodup : (r.hash.map PrivateRefCountEntry.buffer).Nodup
  hashed : ∀ e ∈ r.hash, e.buffer ≠ invalidBuffer ∧ (∀ i, (r.array i).buffer ≠ e.buffer) ∧
    e.refcount = c e.buffer ∧ 0 < e.refcount
  slots : ∀ i, (r.array i).buffer ≠ invalidBuffer →
    (r.array i).refcount = c (r.array i).buffer ∧ 0 < (r.array i).refcount
  found : ∀ b, b ≠ invalidBuffer → 0 < c b → (∃ i, (r.array i).buffer = b) ∨ ∃ e ∈ r.hash, e.buffer = b
  overflowed : r.overflowed = r.hash.length
  reserved : ∀ i, r.reserved = some i → (r.array i).buffer = invalidBuffer

/-- The entry of a buffer. -/
def EntryOf (r : Refs) (b : Nat) : Ref → Prop
  | .slot i => (r.array i).buffer = b
  | .hashed b' => b' = b ∧ ∃ e ∈ r.hash, e.buffer = b

section PinCounts
variable {r r' : Refs} {c : Nat → Nat} {b n : Nat} {l : List PrivateRefCountEntry} {e : PrivateRefCountEntry}
  {i : Fin refcountArrayEntries} {ref : Ref}

theorem hashFind_none : hashFind l b = none ↔ ∀ e ∈ l, e.buffer ≠ b := by
  simp [hashFind, find?_eq_none]

theorem eq_of_buffer {e' : PrivateRefCountEntry} (hnd : (l.map buffer).Nodup) (he : e ∈ l)
    (he' : e' ∈ l) (hb : e.buffer = e'.buffer) : e = e' :=
  inj_on_of_nodup_map hnd he he' hb

theorem hashFind_eq (hnd : (l.map buffer).Nodup) (he : e ∈ l) :
    hashFind l e.buffer = some e := by
  cases hf : hashFind l e.buffer with
  | none => exact absurd rfl (hashFind_none.mp hf e he)
  | some x =>
    have hx : x.buffer = e.buffer := by simpa using find?_some hf
    rw [eq_of_buffer hnd (mem_of_find?_eq_some hf) he hx]

theorem hashEnter_new (h : ∀ e ∈ l, e.buffer ≠ b) : hashEnter l b n = ⟨b, n⟩ :: l := by
  rw [hashEnter, hashFind_none.mpr h]
  rfl

@[simp] theorem map_buffer_hashSet :
  (hashSet l b n).map buffer = l.map buffer := by
  rw [hashSet, map_map]
  refine map_congr_left fun e _ => ?_
  simp only [comp_apply]
  split <;> rfl

@[simp] theorem length_hashSet : (hashSet l b n).length = l.length := length_map _

theorem mem_hashSet (he : e ∈ hashSet l b n) :
    (e.buffer = b ∧ e.refcount = n ∧ ∃ x ∈ l, x.buffer = b) ∨ (e.buffer ≠ b ∧ e ∈ l) := by
  obtain ⟨x, hx, rfl⟩ := mem_map.mp he
  by_cases hb : x.buffer = b
  · rw [if_pos hb]
    exact .inl ⟨hb, rfl, x, hx, hb⟩
  · rw [if_neg hb]
    exact .inr ⟨hb, hx⟩

theorem mem_hashSet_of_ne (he : e ∈ l) (hb : e.buffer ≠ b) : e ∈ hashSet l b n :=
  mem_map.mpr ⟨e, he, if_neg hb⟩

/-- What is left when an entry is removed. -/
theorem hashRemove_spec (hnd : (l.map buffer).Nodup) (he : e ∈ l) :
    (hashRemove l e.buffer).length + 1 = l.length ∧
      ((hashRemove l e.buffer).map buffer).Nodup ∧
    ∀ x, x ∈ hashRemove l e.buffer ↔ x ∈ l ∧ x.buffer ≠ e.buffer := by
  obtain ⟨l₁, l₂, rfl⟩ := append_of_mem he
  have hperm : (l₁ ++ e :: l₂).Perm (e :: (l₁ ++ l₂)) := perm_middle
  obtain ⟨hnot, hnd'⟩ := nodup_cons.mp ((hperm.map buffer).nodup hnd)
  have hne : ∀ x ∈ l₁ ++ l₂, x.buffer ≠ e.buffer := fun x hx hb => hnot (hb ▸ mem_map_of_mem hx)
  have heq : hashRemove (l₁ ++ e :: l₂) e.buffer = l₁ ++ l₂ := by
    rw [hashRemove, eraseP_append_right _ fun x hx => by simpa using hne x (mem_append_left l₂ hx)]
    rw [eraseP_cons_of_pos (by simp)]
  rw [heq]
  refine ⟨?_, hnd', fun x => ?_⟩
  · simp only [length_append, length_cons]
    omega
  · constructor
    · intro hx
      exact ⟨hperm.symm.subset (mem_cons_of_mem e hx), hne x hx⟩
    · rintro ⟨hx, hb⟩
      rcases mem_cons.mp (hperm.subset hx) with rfl | hx
      · exact absurd rfl hb
      · exact hx

theorem findSlot_some (h : r.findSlot b = some i) : (r.array i).buffer = b := by
  simpa using find?_some h

theorem findSlot_none (h : r.findSlot b = none) (i : Fin refcountArrayEntries) : (r.array i).buffer ≠ b := by
  simpa using find?_eq_none.mp h i (mem_finRange i)

/-! ### `ReservePrivateRefCountEntry` and `NewPrivateRefCountEntry` -/

theorem reserve_inv (hi : Inv r c) :
    Inv r.reserve c ∧ ∃ i, r.reserve.reserved = some i ∧ (r.reserve.array i).buffer = invalidBuffer := by
  rw [reserve]
  split
  next hsome =>
    obtain ⟨i, h⟩ := Option.isSome_iff_exists.mp hsome
    exact ⟨hi, i, h, hi.reserved i h⟩
  · cases hslot : r.findSlot invalidBuffer with
    | some i =>
      have hb := findSlot_some hslot
      refine ⟨{hi with reserved := fun j hj => ?_}, i, rfl, hb⟩
      rw [← Option.some_inj.mp hj]
      exact hb
    | none =>
      have hfull := findSlot_none hslot
      dsimp only
      generalize Fin.ofNat refcountArrayEntries r.clock = i
      have hnew : ∀ e ∈ r.hash, e.buffer ≠ (r.array i).buffer := fun e he hb => (hi.hashed e he).2.1 i hb.symm
      rw [hashEnter_new hnew]
      have hempty : (update r.array i ⟨invalidBuffer, 0⟩ i).buffer = invalidBuffer := by
        rw [update_self]
      have hkeep : ∀ j, (update r.array i ⟨invalidBuffer, 0⟩ j).buffer ≠ invalidBuffer →
          j ≠ i ∧ update r.array i ⟨invalidBuffer, 0⟩ j = r.array j := by
        intro j hj
        have hji : j ≠ i := fun e => hj (e ▸ hempty)
        exact ⟨hji, update_of_ne hji _ _⟩
      refine ⟨⟨fun j k hj hjk => ?_, ?_, fun e he => ?_, fun j hj => ?_, fun b hb hpos => ?_, ?_,
        fun j hj => ?_⟩, i, rfl, hempty⟩
      · dsimp only at hj hjk
        have hk : (update r.array i ⟨invalidBuffer, 0⟩ k).buffer ≠ invalidBuffer := hjk ▸ hj
        obtain ⟨-, hje⟩ := hkeep j hj
        obtain ⟨-, hke⟩ := hkeep k hk
        rw [hje] at hj hjk
        rw [hke] at hjk
        exact hi.inj j k hj hjk
      · refine nodup_cons.mpr ⟨fun hm => ?_, hi.nodup⟩
        obtain ⟨e, he, hb⟩ := mem_map.mp hm
        exact hnew e he hb
      · rcases mem_cons.mp he with rfl | he
        · refine ⟨hfull i, fun j hj => ?_, hi.slots i (hfull i)⟩
          dsimp only at hj
          obtain ⟨hji, hje⟩ := hkeep j (by rw [hj]; exact hfull i)
          rw [hje] at hj
          exact hji (hi.inj j i (hfull j) hj)
        · obtain ⟨h1, h2, h3⟩ := hi.hashed e he
          refine ⟨h1, fun j hj => ?_, h3⟩
          dsimp only at hj
          obtain ⟨-, hje⟩ := hkeep j (by rw [hj]; exact h1)
          exact h2 j (hje ▸ hj)
      · dsimp only at hj ⊢
        obtain ⟨-, hje⟩ := hkeep j hj
        rw [hje] at hj ⊢
        exact hi.slots j hj
      · dsimp only
        rcases hi.found b hb hpos with ⟨j, hj⟩ | ⟨e, he, heb⟩
        · by_cases hji : j = i
          · exact .inr ⟨_, mem_cons_self, by rw [← hji]; exact hj⟩
          · exact .inl ⟨j, by rw [update_of_ne hji]; exact hj⟩
        · exact .inr ⟨e, mem_cons_of_mem _ he, heb⟩
      · rw [length_cons, hi.overflowed]
      · rw [← Option.some_inj.mp hj]
        exact hempty

/-- An empty slot is filled with a buffer that has no entry; its old count does not matter. -/
theorem fill_inv (hi : Inv r c) (hempty : (r.array i).buffer = invalidBuffer)
    (hno : ∀ j, (r.array j).buffer ≠ b) (hnoh : ∀ e ∈ r.hash, e.buffer ≠ b) (hn : 0 < n) :
    Inv {r with array := update r.array i ⟨b, n⟩, reserved := none} (update c b n) := by
  have hkeep : ∀ j, j ≠ i → update r.array i ⟨b, n⟩ j = r.array j :=
    fun j hj => update_of_ne hj _ _
  refine ⟨fun j k hj hjk => ?_, hi.nodup, fun e he => ?_, fun j hj => ?_, fun b' hb' hpos => ?_, hi.overflowed,
    nofun⟩
  · dsimp only at hj hjk
    by_cases hji : j = i
    · by_cases hki : k = i
      · rw [hji, hki]
      · rw [hji, update_self, hkeep k hki] at hjk
        exact absurd hjk.symm (hno k)
    · by_cases hki : k = i
      · rw [hki, update_self, hkeep j hji] at hjk
        exact absurd hjk (hno j)
      · rw [hkeep j hji] at hj hjk
        rw [hkeep k hki] at hjk
        exact hi.inj j k hj hjk
  · obtain ⟨h1, h2, h3, h4⟩ := hi.hashed e he
    refine ⟨h1, fun j => ?_, ?_, h4⟩
    · dsimp only
      by_cases hji : j = i
      · rw [hji, update_self]
        exact fun h => hnoh e he h.symm
      · rw [hkeep j hji]
        exact h2 j
    · rw [update_of_ne (hnoh e he)]
      exact h3
  · dsimp only at hj ⊢
    by_cases hji : j = i
    · rw [hji, update_self, update_self]
      exact ⟨rfl, hn⟩
    · rw [hkeep j hji] at hj ⊢
      rw [update_of_ne (hno j)]
      exact hi.slots j hj
  · dsimp only
    by_cases hbb : b' = b
    · exact .inl ⟨i, by rw [update_self, hbb]⟩
    · rw [update_of_ne hbb] at hpos
      rcases hi.found b' hb' hpos with ⟨j, hj⟩ | he
      · refine .inl ⟨j, ?_⟩
        have hji : j ≠ i := by
          rintro rfl
          exact hb' (hj ▸ hempty)
        rw [hkeep j hji]
        exact hj
      · exact .inr he

theorem reserve_slot {j : Fin refcountArrayEntries} (hb : b ≠ invalidBuffer)
    (hj : (r.reserve.array j).buffer = b) :
    (r.array j).buffer = b := by
  rw [reserve] at hj
  split at hj
  · exact hj
  · split at hj
    · exact hj
    · dsimp only at hj
      by_cases hji : j = Fin.ofNat refcountArrayEntries r.clock
      · rw [hji, update_self] at hj
        exact absurd hj.symm hb
      · rwa [update_of_ne hji] at hj

theorem remove_inv (hi : Inv r c) (he : e ∈ r.hash) :
    Inv {r with hash := hashRemove r.hash e.buffer, overflowed := r.overflowed - 1}
      (update c e.buffer 0) := by
  obtain ⟨hlen, hnd, hmem⟩ := hashRemove_spec hi.nodup he
  have hslot : ∀ j, (r.array j).buffer ≠ e.buffer := (hi.hashed e he).2.1
  refine ⟨hi.inj, hnd, fun x hx => ?_, fun j hj => ?_, fun b hb hpos => ?_, ?_, hi.reserved⟩
  · obtain ⟨hx, hne⟩ := (hmem x).mp hx
    rw [update_of_ne hne]
    exact hi.hashed x hx
  · rw [update_of_ne (hslot j)]
    exact hi.slots j hj
  · by_cases hbe : b = e.buffer
    · rw [hbe, update_self] at hpos
      exact absurd hpos (lt_irrefl 0)
    · rw [update_of_ne hbe] at hpos
      rcases hi.found b hb hpos with hs | ⟨x, hx, hxb⟩
      · exact .inl hs
      · exact .inr ⟨x, (hmem x).mpr ⟨hx, hxb ▸ hbe⟩, hxb⟩
  · have := hi.overflowed
    dsimp only
    omega

theorem clear_inv (hi : Inv r c) (hb : (r.array i).buffer ≠ invalidBuffer) (hn : n = 0) :
    Inv {r with array := update r.array i ⟨invalidBuffer, n⟩, reserved := some i}
      (update c (r.array i).buffer 0) := by
  subst hn
  have hkeep : ∀ j, (update r.array i ⟨invalidBuffer, 0⟩ j).buffer ≠ invalidBuffer →
      j ≠ i ∧ update r.array i ⟨invalidBuffer, 0⟩ j = r.array j := by
    intro j hj
    have hji : j ≠ i := by
      rintro rfl
      rw [update_self] at hj
      exact hj rfl
    exact ⟨hji, update_of_ne hji _ _⟩
  refine ⟨fun j k hj hjk => ?_, hi.nodup, fun e he => ?_, fun j hj => ?_, fun b hb' hpos => ?_, hi.overflowed,
    fun j hj => ?_⟩
  · dsimp only at hj hjk
    have hk : (update r.array i ⟨invalidBuffer, 0⟩ k).buffer ≠ invalidBuffer := hjk ▸ hj
    obtain ⟨-, hje⟩ := hkeep j hj
    obtain ⟨-, hke⟩ := hkeep k hk
    rw [hje] at hj hjk
    rw [hke] at hjk
    exact hi.inj j k hj hjk
  · obtain ⟨h1, h2, h3⟩ := hi.hashed e he
    refine ⟨h1, fun j hj => ?_, ?_⟩
    · dsimp only at hj
      obtain ⟨-, hje⟩ := hkeep j (by rw [hj]; exact h1)
      exact h2 j (hje ▸ hj)
    · rw [update_of_ne (h2 i).symm]
      exact h3
  · dsimp only at hj ⊢
    obtain ⟨hji, hje⟩ := hkeep j hj
    rw [hje] at hj ⊢
    have hne : (r.array j).buffer ≠ (r.array i).buffer := fun h => hji (hi.inj j i hj h)
    rw [update_of_ne hne]
    exact hi.slots j hj
  · by_cases hbe : b = (r.array i).buffer
    · rw [hbe, update_self] at hpos
      exact absurd hpos (lt_irrefl 0)
    · rw [update_of_ne hbe] at hpos
      rcases hi.found b hb' hpos with ⟨j, hj⟩ | he
      · refine .inl ⟨j, ?_⟩
        have hji : j ≠ i := by
          rintro rfl
          exact hbe hj.symm
        dsimp only
        rw [update_of_ne hji]
        exact hj
      · exact .inr he
  · rw [← Option.some_inj.mp hj]
    dsimp only
    rw [update_self]

theorem entryOf_ne {x : Ref} (hi : Inv r c) (he : EntryOf r b x) (hb : b ≠ invalidBuffer) :
    r.refcount x = c b ∧ 0 < c b := by
  cases x with
  | slot i =>
    obtain rfl : (r.array i).buffer = b := he
    obtain ⟨h1, h2⟩ := hi.slots i hb
    exact ⟨h1, h1 ▸ h2⟩
  | hashed b' =>
    obtain ⟨rfl, e, hmem, rfl⟩ := he
    obtain ⟨-, -, h1, h2⟩ := hi.hashed e hmem
    rw [Refs.refcount, hashFind_eq hi.nodup hmem]
    exact ⟨h1, h1 ▸ h2⟩

section
variable (hi : Inv r c) (hb : b ≠ invalidBuffer)
include hi hb

theorem get_none (h0 : c b = 0) (doMove : Bool) :
    r.get b doMove = some (r, none) := by
  have hslot : r.findSlot b = none := by
    cases h : r.findSlot b with
    | none => rfl
    | some i =>
      have hi' := entryOf_ne (x := .slot i) hi (findSlot_some h) hb
      omega
  have hfind : hashFind r.hash b = none := by
    refine hashFind_none.mpr fun e he heb => ?_
    have hi' := entryOf_ne (x := .hashed b) hi ⟨rfl, e, he, heb⟩ hb
    omega
  rw [Refs.get, hslot, hfind]
  simp only [ite_self]

/-- In the hash table, when it is in no slot. -/
theorem hash_of_slot_none (hpos : 0 < c b)
    (hslot : ∀ j, (r.array j).buffer ≠ b) :
    ∃ e ∈ r.hash, e.buffer = b := by
  rcases hi.found b hb hpos with ⟨j, hj⟩ | he
  · exact absurd hj (hslot j)
  · exact he

theorem get_stay (hpos : 0 < c b) :
    ∃ ref, r.get b false = some (r, some ref) ∧ EntryOf r b ref := by
  rw [Refs.get]
  cases h : r.findSlot b with
  | some i => exact ⟨.slot i, rfl, findSlot_some h⟩
  | none =>
    obtain ⟨e, he, heb⟩ := hash_of_slot_none hi hb hpos (findSlot_none h)
    have hlen : r.overflowed ≠ 0 := by
      rw [hi.overflowed]
      exact Nat.ne_of_gt (length_pos_of_mem he)
    have hfind : hashFind r.hash b = some e := heb ▸ hashFind_eq hi.nodup he
    refine ⟨.hashed b, ?_, rfl, e, he, heb⟩
    simp only [if_neg hlen, hfind, if_true]

theorem get_move (hpos : 0 < c b) :
    ∃ r' i, r.get b true = some (r', some (.slot i)) ∧ Inv r' c ∧ (r'.array i).buffer = b := by
  rw [Refs.get]
  cases h : r.findSlot b with
  | some i => exact ⟨r, i, rfl, hi, findSlot_some h⟩
  | none =>
    obtain ⟨e, he, heb⟩ := hash_of_slot_none hi hb hpos (findSlot_none h)
    have hlen : r.overflowed ≠ 0 := by
      rw [hi.overflowed]
      exact Nat.ne_of_gt (length_pos_of_mem he)
    have hfind : hashFind r.hash b = some e := heb ▸ hashFind_eq hi.nodup he
    obtain ⟨ht, i, hres, hempty⟩ := reserve_inv hi
    have hslots : ∀ j, (r.reserve.array j).buffer ≠ b := fun j hj => findSlot_none h j (reserve_slot hb hj)
    obtain ⟨x, hx, rfl⟩ := hash_of_slot_none ht hb hpos hslots
    obtain ⟨hcount, -⟩ := entryOf_ne (x := .hashed x.buffer) ht ⟨rfl, x, hx, rfl⟩ hb
    have hrem := remove_inv ht hx
    have hfill := fill_inv (i := i) (b := x.buffer) (n := c x.buffer) hrem hempty hslots
      (fun y hy => (((hashRemove_spec ht.nodup hx).2.2 y).mp hy).2) hpos
    rw [update_idem, update_eq_self] at hfill
    simp only [if_neg hlen, hfind, hres, hcount, Bool.true_eq_false, if_false]
    exact ⟨_, i, rfl, hfill, by simp only [update_self]⟩

end

/-! ### Counting -/

theorem setRefcount_inv {x : Ref} (hi : Inv r c) (he : EntryOf r b x) (hb : b ≠ invalidBuffer) (hn : 0 < n) :
    Inv (r.setRefcount n x) (update c b n) := by
  cases x with
  | slot i =>
    obtain rfl : (r.array i).buffer = b := he
    have hbuf : ∀ j, (update r.array i {r.array i with refcount := n} j).buffer = (r.array j).buffer := by
      intro j
      by_cases hji : j = i
      · rw [hji, update_self]
      · rw [update_of_ne hji]
    refine ⟨fun j k hj hjk => ?_, hi.nodup, fun x hx => ?_, fun j hj => ?_, fun b' hb' hpos => ?_, hi.overflowed,
      fun j hj => ?_⟩
    · simp only [setRefcount, hbuf] at hj hjk
      exact hi.inj j k hj hjk
    · obtain ⟨h1, h2, h3⟩ := hi.hashed x hx
      simp only [setRefcount, hbuf]
      rw [update_of_ne (h2 i).symm]
      exact ⟨h1, h2, h3⟩
    · simp only [setRefcount, hbuf] at hj ⊢
      by_cases hji : j = i
      · rw [hji, update_self, update_self]
        exact ⟨rfl, hn⟩
      · have hne : (r.array j).buffer ≠ (r.array i).buffer := fun h => hji (hi.inj j i hj h)
        rw [update_of_ne hji, update_of_ne hne]
        exact hi.slots j hj
    · simp only [setRefcount, hbuf]
      by_cases hbb : b' = (r.array i).buffer
      · exact .inl ⟨i, hbb.symm⟩
      · rw [update_of_ne hbb] at hpos
        exact hi.found b' hb' hpos
    · simp only [setRefcount, hbuf]
      exact hi.reserved j hj
  | hashed b' =>
    obtain ⟨rfl, e, hmem, rfl⟩ := he
    have hslot : ∀ j, (r.array j).buffer ≠ e.buffer := (hi.hashed e hmem).2.1
    refine ⟨hi.inj, ?_, fun x hx => ?_, fun j hj => ?_, fun b' hb' hpos => ?_, ?_, hi.reserved⟩
    · simp only [setRefcount, map_buffer_hashSet]
      exact hi.nodup
    · rcases mem_hashSet hx with ⟨hxb, hxn, -⟩ | ⟨hxb, hx⟩
      · rw [hxb, hxn, update_self]
        exact ⟨hb, hslot, rfl, hn⟩
      · rw [update_of_ne hxb]
        exact hi.hashed x hx
    · rw [setRefcount] at hj ⊢
      rw [update_of_ne (hslot j)]
      exact hi.slots j hj
    · by_cases hbb : b' = e.buffer
      · exact .inr ⟨{e with refcount := n}, mem_map.mpr ⟨e, hmem, if_pos rfl⟩, hbb.symm⟩
      · rw [update_of_ne hbb] at hpos
        rcases hi.found b' hb' hpos with hs | ⟨x, hx, hxb⟩
        · exact .inl hs
        · exact .inr ⟨x, mem_hashSet_of_ne hx (hxb ▸ hbb), hxb⟩
    · simp only [setRefcount, length_hashSet]
      exact hi.overflowed

theorem refcount_setRefcount (hi : Inv r c) (he : EntryOf r b ref) : (r.setRefcount n ref).refcount ref = n := by
  cases ref with
  | slot i => simp only [Refs.setRefcount, Refs.refcount, update_self]
  | hashed b' =>
    obtain ⟨rfl, e, hmem, rfl⟩ := he
    have hnd : ((hashSet r.hash e.buffer n).map buffer).Nodup := by
      rw [map_buffer_hashSet]
      exact hi.nodup
    have hm : ({e with refcount := n} : PrivateRefCountEntry) ∈ hashSet r.hash e.buffer n :=
      mem_map.mpr ⟨e, hmem, if_pos rfl⟩
    simp only [Refs.setRefcount, Refs.refcount]
    rw [hashFind_eq (e := {e with refcount := n}) hnd hm]
    rfl

theorem hashRemove_hashSet (hnd : (l.map buffer).Nodup) :
    hashRemove (hashSet l b n) b = hashRemove l b := by
  induction l with
  | nil => rfl
  | cons x l ih =>
    obtain ⟨hnot, hnd'⟩ := nodup_cons.mp hnd
    have hcons : hashSet (x :: l) b n =
      (if x.buffer = b then {x with refcount := n} else x) :: hashSet l b n := rfl
    rw [hcons, hashRemove, hashRemove]
    by_cases hx : x.buffer = b
    · rw [if_pos hx, eraseP_cons_of_pos (by simpa using hx), eraseP_cons_of_pos (by simpa using hx)]
      have hid : ∀ e ∈ l, (if e.buffer = b then {e with refcount := n} else e) = e := by
        intro e he
        refine if_neg fun heb => hnot ?_
        rw [hx, ← heb]
        exact mem_map_of_mem he
      rw [hashSet, map_congr_left hid, map_id']
    · rw [if_neg hx, eraseP_cons_of_neg (by simpa using hx), eraseP_cons_of_neg (by simpa using hx)]
      exact congrArg (x :: ·) (ih hnd')

/-- The count reaches 0, and the entry is forgotten. -/
theorem forget_inv (hi : Inv r c) (he : EntryOf r b ref) (hb : b ≠ invalidBuffer) :
    Inv ((r.setRefcount 0 ref).forget ref) (update c b 0) := by
  cases ref with
  | slot i =>
    obtain rfl : (r.array i).buffer = b := he
    have h := clear_inv (n := 0) hi hb rfl
    simp only [setRefcount, forget, update_idem, update_self]
    exact h
  | hashed b' =>
    obtain ⟨rfl, e, hmem, rfl⟩ := he
    simp only [setRefcount, forget, hashRemove_hashSet hi.nodup]
    exact remove_inv hi hmem

/-- A new entry is made with the slot that is reserved. -/
theorem new_inv (hi : Inv r c) (hres : r.reserved = some i) (hb : b ≠ invalidBuffer) (h0 : c b = 0) :
    ∃ r', r.new b = some (r', .slot i) ∧
      Inv (r'.setRefcount (r'.refcount (.slot i) + 1) (.slot i)) (update c b 1) := by
  have hslot : ∀ j, (r.array j).buffer ≠ b := by
    intro j hj
    have := (entryOf_ne (x := .slot j) hi hj hb).2
    omega
  have hhash : ∀ e ∈ r.hash, e.buffer ≠ b := by
    intro e he heb
    have := (entryOf_ne (x := .hashed b) hi ⟨rfl, e, he, heb⟩ hb).2
    omega
  rw [Refs.new, hres]
  refine ⟨_, rfl, ?_⟩
  simp only [Refs.setRefcount, Refs.refcount, update_self, update_idem]
  exact fill_inv hi (hi.reserved i hres) hslot hhash Nat.one_pos

/-- The shared count of a buffer is that of the other backends, and one if this one has it pinned. -/
def Shared (desc : Nat → BufferDesc) (σ : Pins) : Prop :=
  ∀ b, b ≠ invalidBuffer → (desc b).refcount = σ.others b + if 0 < σ.count b then 1 else 0

structure Agrees (s : Backend) (σ : Pins) : Prop where
  refs : Inv s.refs σ.count
  shared : Shared s.desc σ

variable {s : Backend} {σ τ : Pins} {d : BufferDesc}

/-- The header of a buffer changes together with the counts of pins. -/
theorem Shared.update {c' o' : Nat → Nat} (h : Shared s.desc σ) (hc : ∀ b', b' ≠ b → c' b' = σ.count b')
    (ho : ∀ b', b' ≠ b → o' b' = σ.others b')
    (hd : b ≠ invalidBuffer → d.refcount = o' b + if 0 < c' b then 1 else 0) :
    Shared (update s.desc b d) ⟨c', o'⟩ := by
  intro b' hb'
  by_cases hbb : b' = b
  · subst hbb
    rw [update_self]
    exact hd hb'
  · rw [update_of_ne hbb, h b' hb']
    simp only [hc b' hbb, ho b' hbb]

/-- The counts of pins change, but not whether the buffer is pinned. -/
theorem Shared.count (h : Shared s.desc σ) (hn : 0 < n) (hpos : 0 < σ.count b) :
    Shared s.desc {σ with count := Function.update σ.count b n} := by
  intro b' hb'
  rw [h b' hb']
  dsimp only
  by_cases hbb : b' = b
  · simp only [hbb, Function.update_self, if_pos hn, if_pos hpos]
  · simp only [Function.update_of_ne hbb]

theorem pinBuffer_agrees (ha : Agrees s σ) (hb : b ≠ invalidBuffer) (strategy : Bool) :
    ∃ t v, s.pinBuffer b strategy = some (t, v) ∧
      Agrees t {σ with count := update σ.count b (σ.count b + 1)} := by
  rw [pinBuffer]
  by_cases h0 : σ.count b = 0
  · obtain ⟨hr, i, hres, -⟩ := reserve_inv ha.refs
    obtain ⟨r', hnew, hinv⟩ := new_inv hr hres hb h0
    rw [get_none ha.refs hb h0]
    dsimp only
    rw [hnew]
    refine ⟨_, _, rfl, ?_, ?_⟩
    · rw [h0]
      exact hinv
    · refine ha.shared.update (fun b' hbb => update_of_ne hbb _ _) (fun _ _ => rfl) fun _ => ?_
      have := ha.shared b hb
      rw [if_neg (by omega)] at this
      rw [update_self, if_pos (Nat.succ_pos _), BufferDesc.pin]
      dsimp only
      omega
  · obtain ⟨r', i, hget, hr, hslot⟩ := get_move ha.refs hb (Nat.pos_of_ne_zero h0)
    obtain ⟨hcount, hpos⟩ := entryOf_ne (x := .slot i) hr hslot hb
    rw [hget]
    refine ⟨_, _, rfl, ?_, ha.shared.count (Nat.succ_pos _) hpos⟩
    rw [incr, hcount]
    exact setRefcount_inv (x := .slot i) hr hslot hb (Nat.succ_pos _)

theorem pinBufferLocked_agrees (ha : Agrees s σ) (hb : b ≠ invalidBuffer) (h0 : σ.count b = 0) :
    ∃ t, ({s with refs := s.refs.reserve} : Backend).pinBufferLocked b = some t ∧
      Agrees t {σ with count := update σ.count b 1} := by
  obtain ⟨hr, i, hres, -⟩ := reserve_inv ha.refs
  obtain ⟨r', hnew, hinv⟩ := new_inv hr hres hb h0
  rw [pinBufferLocked, get_none hr hb h0]
  dsimp only
  rw [hnew]
  refine ⟨_, rfl, hinv, ?_⟩
  refine ha.shared.update (fun b' hbb => update_of_ne hbb _ _) (fun _ _ => rfl) fun _ => ?_
  have := ha.shared b hb
  rw [if_neg (by omega)] at this
  rw [update_self, if_pos Nat.one_pos]
  dsimp only
  omega

theorem unpinShared_desc (s : Backend) (b : Nat) :
    ∃ d, (s.unpinShared b).desc = update s.desc b d ∧ d.refcount = (s.desc b).refcount - 1 := by
  rw [unpinShared]
  dsimp only
  split
  · exact ⟨_, rfl, rfl⟩
  · exact ⟨_, rfl, rfl⟩

theorem unpinBuffer_agrees (ha : Agrees s σ) (hb : b ≠ invalidBuffer) (hpos : 0 < σ.count b) :
    ∃ t, s.unpinBuffer b = some t ∧ Agrees t {σ with count := update σ.count b (σ.count b - 1)} := by
  obtain ⟨ref, hget, he⟩ := get_stay ha.refs hb hpos
  obtain ⟨hcount, -⟩ := entryOf_ne ha.refs he hb
  rw [unpinBuffer, hget]
  dsimp only
  rw [refcount_setRefcount ha.refs he, hcount, if_neg (by omega)]
  by_cases h1 : σ.count b - 1 = 0
  · rw [if_pos h1, h1]
    refine ⟨_, rfl, forget_inv ha.refs he hb, ?_⟩
    obtain ⟨d, hdesc, hd⟩ := unpinShared_desc s b
    dsimp only
    rw [hdesc]
    refine ha.shared.update (fun b' hbb => update_of_ne hbb _ _) (fun _ _ => rfl) fun _ => ?_
    have := ha.shared b hb
    rw [if_pos hpos] at this
    rw [update_self, if_neg (lt_irrefl 0), hd]
    omega
  · rw [if_neg h1]
    exact ⟨_, rfl, setRefcount_inv ha.refs he hb (by omega), ha.shared.count (by omega) hpos⟩

theorem getPrivateRefCount_eq (ha : Inv s.refs σ.count) (hb : b ≠ invalidBuffer) :
    s.getPrivateRefCount b = some (σ.count b) := by
  rw [getPrivateRefCount]
  by_cases h0 : σ.count b = 0
  · rw [get_none ha hb h0, h0]
  · obtain ⟨ref, hget, he⟩ := get_stay ha hb (Nat.pos_of_ne_zero h0)
    rw [hget]
    exact congrArg some (entryOf_ne ha he hb).1

theorem incrBufferRefCount_agrees (ha : Agrees s σ) (hb : b ≠ invalidBuffer) (hpos : 0 < σ.count b) :
    ∃ t, s.incrBufferRefCount b = some t ∧
      Agrees t {σ with count := update σ.count b (σ.count b + 1)} := by
  obtain ⟨r', i, hget, hr, hslot⟩ := get_move ha.refs hb hpos
  obtain ⟨hcount, -⟩ := entryOf_ne (x := .slot i) hr hslot hb
  rw [incrBufferRefCount, getPrivateRefCount_eq ha.refs hb, hget]
  dsimp only
  rw [if_neg (Nat.ne_of_gt hpos)]
  refine ⟨_, rfl, ?_, ha.shared.count (Nat.succ_pos _) hpos⟩
  rw [incr, hcount]
  exact setRefcount_inv (x := .slot i) hr hslot hb (Nat.succ_pos _)

/-- One call, or one step of the others. -/
theorem next_agrees {a : Act} (ha : Agrees s σ) (hσ : σ.next a = some τ) :
    ∃ t, s.next a = some t ∧ Agrees t τ := by
  cases a with
  | pin b strategy =>
    rw [Pins.next] at hσ
    split at hσ
    · simp at hσ
    next hb =>
      obtain rfl := Option.some_inj.mp hσ
      obtain ⟨t, v, ht, hagree⟩ := pinBuffer_agrees ha hb strategy
      exact ⟨t, by rw [Backend.next, ht]; rfl, hagree⟩
  | reserve =>
    obtain rfl := Option.some_inj.mp hσ
    exact ⟨_, rfl, (reserve_inv ha.refs).1, ha.shared⟩
  | reservePinLocked b =>
    rw [Pins.next] at hσ
    split at hσ
    · simp at hσ
    next hb =>
      obtain rfl := Option.some_inj.mp hσ
      exact pinBufferLocked_agrees ha (fun h => hb (.inl h)) (by omega)
  | incr b =>
    rw [Pins.next] at hσ
    split at hσ
    · simp at hσ
    next hb =>
      obtain rfl := Option.some_inj.mp hσ
      exact incrBufferRefCount_agrees ha (fun h => hb (.inl h)) (by omega)
  | unpin b =>
    rw [Pins.next] at hσ
    split at hσ
    · simp at hσ
    next hb =>
      obtain rfl := Option.some_inj.mp hσ
      exact unpinBuffer_agrees ha (fun h => hb (.inl h)) (by omega)
  | query b =>
    rw [Pins.next] at hσ
    split at hσ
    · simp at hσ
    next hb =>
      obtain rfl := Option.some_inj.mp hσ
      exact ⟨s, by rw [Backend.next, getPrivateRefCount_eq ha.refs hb]; rfl, ha⟩
  | otherPin b =>
    obtain rfl := Option.some_inj.mp hσ
    refine ⟨_, rfl, ha.refs,
      ha.shared.update (fun _ _ => rfl) (fun b' hbb => update_of_ne hbb _ _) fun hb => ?_⟩
    have := ha.shared b hb
    rw [update_self]
    dsimp only
    omega
  | otherUnpin b =>
    rw [Pins.next] at hσ
    split at hσ
    · simp at hσ
    next h0 =>
      obtain rfl := Option.some_inj.mp hσ
      refine ⟨_, rfl, ha.refs,
        ha.shared.update (fun _ _ => rfl) (fun b' hbb => update_of_ne hbb _ _) fun hb => ?_⟩
      have := ha.shared b hb
      rw [update_self]
      dsimp only
      omega
  | header b usageCount valid pinCountWaiter waitBackendPid =>
    obtain rfl := Option.some_inj.mp hσ
    exact ⟨_, rfl, ha.refs, ha.shared.update (fun _ _ => rfl) (fun _ _ => rfl) fun hb => ha.shared b hb⟩

theorem run_agrees (acts : List Act) (ha : Agrees s σ) (hσ : acts.foldlM Pins.next σ = some τ) :
    ∃ t, acts.foldlM next s = some t ∧ Agrees t τ := by
  induction acts generalizing s σ with
  | nil =>
    obtain rfl := Option.some_inj.mp hσ
    exact ⟨s, rfl, ha⟩
  | cons a acts ih =>
    obtain ⟨σ', h1, h2⟩ := Option.bind_eq_some_iff.mp hσ
    obtain ⟨t, ht, hagree⟩ := next_agrees ha h1
    obtain ⟨u, hu, hagree'⟩ := ih hagree h2
    exact ⟨u, by rw [foldlM_cons, ht]; exact hu, hagree'⟩

theorem start_agrees (desc : Nat → BufferDesc) : Agrees (start desc) (Pins.start desc) := by
  refine ⟨⟨fun i j hi _ => absurd rfl hi, nodup_nil, nofun, fun i hi => absurd rfl hi,
    fun b _ hpos => absurd hpos (lt_irrefl 0), rfl, nofun⟩, fun b _ => rfl⟩

/-- **Private pin counts are the pins minus the unpins.** Every sequence of calls goes through: a
reservation is there for each new entry. Afterwards each buffer has at most one entry, the overflow
counter counts the hash table, the reserved entry is an empty slot, and the backend has one share in
the reference count of exactly the buffers that it has pinned. -/
theorem private_counts (desc : Nat → BufferDesc) (acts : List Act) (τ : Pins)
    (h : acts.foldlM Pins.next (Pins.start desc) = some τ) :
    ∃ t, acts.foldlM Backend.next (Backend.start desc) = some t ∧
      (∀ b, b ≠ invalidBuffer → t.getPrivateRefCount b = some (τ.count b)) ∧
      (∀ i j, (t.refs.array i).buffer ≠ invalidBuffer → (t.refs.array i).buffer = (t.refs.array j).buffer →
        i = j) ∧
      (t.refs.hash.map PrivateRefCountEntry.buffer).Nodup ∧
      (∀ e ∈ t.refs.hash, ∀ i, (t.refs.array i).buffer ≠ e.buffer) ∧
      t.refs.overflowed = t.refs.hash.length ∧
      (∀ i, t.refs.reserved = some i → (t.refs.array i).buffer = invalidBuffer) ∧
      (∀ b, b ≠ invalidBuffer → (t.desc b).refcount = τ.others b + if 0 < τ.count b then 1 else 0) := by
  obtain ⟨t, ht, ha⟩ := run_agrees acts (start_agrees desc) h
  have hi := ha.refs
  exact ⟨t, ht, fun b hb => getPrivateRefCount_eq hi hb, hi.inj, hi.nodup, fun e he => (hi.hashed e he).2.1,
    hi.overflowed, hi.reserved, ha.shared⟩

/-- Ten buffers are pinned, so that two counts are moved to the hash table, and one of these is pinned again. -/
def tenPins : List Act :=
  ((List.range 10).map fun k => Act.pin (k + 1) false) ++
    [.incr 1, .unpin 10, .reserve, .query 3, .reservePinLocked 11, .otherPin 4]

theorem private_counts_ten :
    ∃ t : Backend, t.getPrivateRefCount 1 = some 2 ∧ t.getPrivateRefCount 10 = some 0 ∧ t.refs.overflowed = 2 ∧
      t.refs.overflowed = t.refs.hash.length := by
  have hpins : (tenPins.foldlM Pins.next (Pins.start fun _ => ⟨0, 0, true, false, 0⟩)).map
      (fun τ => (τ.count 1, τ.count 10)) = some (2, 0) := by decide
  have hrun : (tenPins.foldlM next (start fun _ => ⟨0, 0, true, false, 0⟩)).map
      (fun t => t.refs.overflowed) = some 2 := by decide
  obtain ⟨τ, hτ, he⟩ := Option.map_eq_some_iff.mp hpins
  obtain ⟨h1, h2⟩ := Prod.mk.inj he
  obtain ⟨t, ht, hcount, -, -, -, hover, -, -⟩ := private_counts _ _ τ hτ
  rw [ht] at hrun
  exact ⟨t, by rw [hcount 1 (by decide), h1], by rw [hcount 10 (by decide), h2], Option.some_inj.mp hrun, hover⟩

end PinCounts
end PgStorage.Buffer
