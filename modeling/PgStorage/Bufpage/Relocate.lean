import PgStorage.Bufpage.Items

/-! Moving the tuples in front of one item.

The routines for index pages make an item larger or smaller, or take it out, by moving everything
between the start of the tuple space and the item by one distance, and the line pointers that lead
there with it. The items behind it stay. What is left at the item is a gap in which a new item
may be placed. -/
namespace PgStorage.Bufpage
open Memory

section Relocate
variable {line line' : Nat → ItemId} {n n' upper special t i : Nat} {d : Int} {m m' : Mem} {src : Nat → Nat}

/-- Where an item is after the move. -/
def movedOff (line : Nat → ItemId) (t : Nat) (d : Int) (i : Nat) : Nat :=
  if (line i).lpOff ≤ (line t).lpOff then ((line i).lpOff + d).toNat else (line i).lpOff

/-- What such a move needs: the item has storage, and the tuples in front of it move by an aligned
distance that neither takes them out of the page nor over its end. -/
structure Movable (line : Nat → ItemId) (n upper special t : Nat) (d : Int) : Prop where
  layout : Layout line n upper special
  upper_dvd : 8 ∣ upper
  special_dvd : 8 ∣ special
  target : 1 ≤ t ∧ t ≤ n
  stored : (line t).hasStorage = true
  dvd : (8 : Int) ∣ d
  low : 0 ≤ (upper : Int) + d
  high : d ≤ maxAlign (line t).lpLen

/-- An item that is not the target is in front of it, with its end, or behind it. -/
theorem Movable.cases (h : Movable line n upper special t d) (hi : 1 ≤ i ∧ i ≤ n) (hit : i ≠ t)
    (hs : (line i).hasStorage = true) :
    (movedOff line t d i : Int) = (line i).lpOff + d ∧ (line i).lpOff + maxAlign (line i).lpLen ≤ (line t).lpOff ∨
      movedOff line t d i = (line i).lpOff ∧ (line t).lpOff + maxAlign (line t).lpLen ≤ (line i).lpOff := by
  have hin := (h.layout.inside i hi.1 hi.2 hs).1
  have hlow := h.low
  have hpos := hasStorage_iff.mp h.stored
  have hma := le_maxAlign (line t).lpLen
  unfold movedOff
  rcases h.layout.before hi h.target hit hs h.stored with ⟨hlt, hend⟩ | hend
  · refine .inl ⟨?_, hend⟩
    rw [if_pos (by omega)]
    omega
  · refine .inr ⟨?_, hend⟩
    rw [if_neg (by omega)]

/-- Its bytes move with it. -/
theorem Movable.bytes (h : Movable line n upper special t d) (hi : 1 ≤ i ∧ i ≤ n) (hit : i ≠ t)
    (hs : (line i).hasStorage = true) :
    bytes (memmove m (upper + d).toNat upper ((line t).lpOff - upper)) (movedOff line t d i) (line i).lpLen =
      bytes m (line i).lpOff (line i).lpLen := by
  have hin := h.layout.inside i hi.1 hi.2 hs
  have hlow := h.low
  have hhigh := h.high
  have hint := h.layout.inside t h.target.1 h.target.2 h.stored
  have hma := le_maxAlign (line i).lpLen
  rcases h.cases hi hit hs with ⟨hoff, hend⟩ | ⟨hoff, hend⟩
  · have hk : movedOff line t d i = (upper + d).toNat + ((line i).lpOff - upper) := by omega
    have hsrc : upper + ((line i).lpOff - upper) = (line i).lpOff := by omega
    rw [hk, bytes_memmove (by omega), hsrc]
  · rw [hoff]
    exact bytes_congr fun k hk => memmove_of_not_mem (by omega)

/-- A line pointer after the move: that of another item, moved with it, or that of the target,
without storage or with an item in the gap. -/
def Placed (line line' : Nat → ItemId) (n t : Nat) (d : Int) (src : Nat → Nat) (j : Nat) : Prop :=
  (1 ≤ src j ∧ src j ≤ n ∧ src j ≠ t ∧ (line' j).lpFlags = (line (src j)).lpFlags ∧
      (line' j).lpLen = (line (src j)).lpLen ∧
      ((line (src j)).hasStorage = true → (line' j).lpOff = movedOff line t d (src j))) ∨
    (src j = t ∧ ((line' j).hasStorage = true → ((line' j).lpOff : Int) = (line t).lpOff + d ∧
      (line' j).lpOff + (line' j).lpLen ≤ (line t).lpOff + maxAlign (line t).lpLen))

theorem Movable.layout' (h : Movable line n upper special t d)
    (hsrc : ∀ j, 1 ≤ j → j ≤ n' → Placed line line' n t d src j)
    (hinj : ∀ j k, 1 ≤ j → j ≤ n' → 1 ≤ k → k ≤ n' → src j = src k → j = k) :
    Layout line' n' (upper + d).toNat special := by
  have hlow := h.low
  have hhigh := h.high
  have hint := h.layout.inside t h.target.1 h.target.2 h.stored
  have hal := h.layout.aligned t h.target.1 h.target.2 h.stored
  have hendt := h.layout.end_le h.special_dvd h.target h.stored
  have hdvd := h.dvd
  have hud := h.upper_dvd
  have hsame : ∀ {a b : ItemId}, a.lpLen = b.lpLen → a.hasStorage = b.hasStorage := by
    intro a b hab
    rw [ItemId.hasStorage, ItemId.hasStorage, hab]
  constructor
  · intro j h1 h2 hs
    rcases hsrc j h1 h2 with ⟨hs1, hs2, hne, -, hlen, hoff⟩ | ⟨-, hgap⟩
    · have hst := (hsame hlen).symm.trans hs
      have ha := h.layout.aligned _ hs1 hs2 hst
      rw [hoff hst]
      rcases h.cases ⟨hs1, hs2⟩ hne hst with ⟨hm, -⟩ | ⟨hm, -⟩
      · omega
      · rw [hm]; exact ha
    · have := (hgap hs).1
      omega
  · intro j h1 h2 hs
    rcases hsrc j h1 h2 with ⟨hs1, hs2, hne, -, hlen, hoff⟩ | ⟨-, hgap⟩
    · have hst := (hsame hlen).symm.trans hs
      have hin := h.layout.inside _ hs1 hs2 hst
      have hma := le_maxAlign (line (src j)).lpLen
      rw [hoff hst, hlen]
      rcases h.cases ⟨hs1, hs2⟩ hne hst with ⟨hm, hend⟩ | ⟨hm, hend⟩ <;> omega
    · obtain ⟨hg1, hg2⟩ := hgap hs
      omega
  · intro j k hj1 hj2 hk1 hk2 hjk hsj hsk
    have hjk' : src j ≠ src k := fun e => hjk (hinj j k hj1 hj2 hk1 hk2 e)
    rcases hsrc j hj1 hj2 with ⟨hs1, hs2, hne, -, hlen, hoff⟩ | ⟨hst, hgap⟩ <;>
      rcases hsrc k hk1 hk2 with ⟨ks1, ks2, kne, -, klen, koff⟩ | ⟨kst, kgap⟩
    · -- both moved
      have hst := (hsame hlen).symm.trans hsj
      have kst := (hsame klen).symm.trans hsk
      have hd := h.layout.disjoint _ _ hs1 hs2 ks1 ks2 hjk' hst kst
      have hma := le_maxAlign (line (src j)).lpLen
      have hmk := le_maxAlign (line (src k)).lpLen
      rw [hoff hst, hlen, koff kst, klen]
      rcases h.cases ⟨hs1, hs2⟩ hne hst with ⟨hm, hend⟩ | ⟨hm, hend⟩ <;>
        rcases h.cases ⟨ks1, ks2⟩ kne kst with ⟨km, kend⟩ | ⟨km, kend⟩ <;> omega
    · have hst := (hsame hlen).symm.trans hsj
      have hma := le_maxAlign (line (src j)).lpLen
      obtain ⟨hg1, hg2⟩ := kgap hsk
      rw [hoff hst, hlen]
      rcases h.cases ⟨hs1, hs2⟩ hne hst with ⟨hm, hend⟩ | ⟨hm, hend⟩ <;> omega
    · have kst := (hsame klen).symm.trans hsk
      have hmk := le_maxAlign (line (src k)).lpLen
      obtain ⟨hg1, hg2⟩ := hgap hsj
      rw [koff kst, klen]
      rcases h.cases ⟨ks1, ks2⟩ kne kst with ⟨km, kend⟩ | ⟨km, kend⟩ <;> omega
    · exact absurd (hst.trans kst.symm) hjk'

/-- The content of an item that is not the target is kept, if the bytes of the tuple space are
those after the move. -/
theorem Movable.content (h : Movable line n upper special t d) (m' : Mem) (line' : Nat → ItemId) (src : Nat → Nat)
    {j : Nat} (hm : ∀ a, (upper + d).toNat ≤ a → m' a = memmove m (upper + d).toNat upper ((line t).lpOff - upper) a)
    (hsrc : 1 ≤ src j ∧ src j ≤ n ∧ src j ≠ t) (hf : (line' j).lpFlags = (line (src j)).lpFlags)
    (hl : (line' j).lpLen = (line (src j)).lpLen)
    (hoff : (line (src j)).hasStorage = true → (line' j).lpOff = movedOff line t d (src j)) :
    content m' (line' j) = content m (line (src j)) := by
  refine content_of_len hf hl fun hs => ?_
  rw [hoff hs, ← h.bytes ⟨hsrc.1, hsrc.2.1⟩ hsrc.2.2 hs]
  refine bytes_congr fun k hk => hm _ ?_
  have hin := (h.layout.inside _ hsrc.1 hsrc.2.1 hs).1
  have hlow := h.low
  have hhigh := h.high
  have hint := (h.layout.inside t h.target.1 h.target.2 h.stored).1
  rcases h.cases ⟨hsrc.1, hsrc.2.1⟩ hsrc.2.2 hs with ⟨hc, hend⟩ | ⟨hc, hend⟩ <;> omega

end Relocate
end PgStorage.Bufpage
