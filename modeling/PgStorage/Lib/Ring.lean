import Mathlib

/-! Circular doubly linked lists in two arrays of links.

`Chain next prev a l b` says that the links run from `a` through the nodes of `l` to `b`,
forwards in `next` and backwards in `prev`. A ring is a chain from its anchor back to its
anchor through distinct nodes. Two operations keep it one: taking a node out and putting a
node in before the anchor. Both write four links, in the order in which a program writes
them, so they are right also where two of the nodes are the same. -/
namespace PgStorage.Ring
open Function List
variable {ι : Type} {next prev : ι → ι} {a b h x : ι} {l m : List ι}

/-- The links run from `a` through `l` to `b`. -/
def Chain (next prev : ι → ι) : ι → List ι → ι → Prop
  | a, [], b => next a = b ∧ prev b = a
  | a, x :: l, b => next a = x ∧ prev x = a ∧ Chain next prev x l b

/-- A ring through `l`, anchored at `h`. -/
def Anchored (next prev : ι → ι) (h : ι) (l : List ι) : Prop :=
  (h :: l).Nodup ∧ Chain next prev h l h

theorem chain_append : Chain next prev a (l ++ x :: m) b ↔
    Chain next prev a l x ∧ Chain next prev x m b := by
  induction l generalizing a with
  | nil => simp only [nil_append, Chain, and_assoc]
  | cons y l ih => simp only [cons_append, Chain, ih, and_assoc]

/-- The node before the end of a chain. -/
theorem chain_prev (hc : Chain next prev a l b) : prev b = (a :: l).getLast (cons_ne_nil a l) := by
  induction l generalizing a with
  | nil => exact hc.2
  | cons y l ih => rw [getLast_cons (cons_ne_nil y l)]; exact ih hc.2.2

theorem chain_prev_mem (hc : Chain next prev a l b) : prev b ∈ a :: l := by
  rw [chain_prev hc]
  exact getLast_mem _

theorem chain_next_mem (hc : Chain next prev a l b) : next a ∈ l ∨ next a = b := by
  cases l with
  | nil => exact .inr hc.1
  | cons y l => exact .inl (by rw [hc.1]; exact mem_cons_self)

/-- The anchor leads to itself exactly in the empty ring. -/
theorem anchored_next_eq (hr : Anchored next prev h l) : next h = h ↔ l = [] := by
  cases l with
  | nil => exact ⟨fun _ => rfl, fun _ => hr.2.1⟩
  | cons y l =>
    have hy : h ≠ y := fun e => (nodup_cons.mp hr.1).1 (e ▸ mem_cons_self)
    rw [hr.2.1]
    exact ⟨fun e => absurd e.symm hy, fun e => absurd e (cons_ne_nil y l)⟩

/-- A chain reads `next` at its start and inside, `prev` inside and at its end. -/
theorem chain_congr {next' prev' : ι → ι} (hn : ∀ y ∈ a :: l, next' y = next y)
    (hp : ∀ y, y ∈ l ∨ y = b → prev' y = prev y) (hc : Chain next prev a l b) :
    Chain next' prev' a l b := by
  induction l generalizing a with
  | nil =>
    refine ⟨?_, ?_⟩
    · rw [hn a mem_cons_self]; exact hc.1
    · rw [hp b (.inr rfl)]; exact hc.2
  | cons y l ih =>
    refine ⟨?_, ?_, ih (fun z hz => hn z (mem_cons_of_mem a hz)) ?_ hc.2.2⟩
    · rw [hn a mem_cons_self]; exact hc.1
    · rw [hp y (.inl mem_cons_self)]; exact hc.2.1
    · rintro z (hz | hz)
      · exact hp z (.inl (mem_cons_of_mem y hz))
      · exact hp z (.inr hz)

variable [DecidableEq ι]

/-- The last link of a chain bent to a new end. -/
theorem chain_bend {c : ι} (hnd : (a :: l).Nodup) (hb : c ∉ l) (hc : Chain next prev a l b) :
    Chain (update next (prev b) c) (update prev c (prev b)) a l c := by
  induction l generalizing a with
  | nil => simp only [Chain, hc.2, update_self, and_self]
  | cons y l ih =>
    have hya : y ≠ c := fun e => hb (e ▸ mem_cons_self)
    have hlast : prev b ∈ y :: l := chain_prev_mem hc.2.2
    have ha : a ≠ prev b := fun e => (nodup_cons.mp hnd).1 (e ▸ hlast)
    refine ⟨?_, ?_, ih (nodup_cons.mp hnd).2 (fun hm => hb (mem_cons_of_mem y hm)) hc.2.2⟩
    · rw [update_of_ne ha]; exact hc.1
    · rw [update_of_ne hya]; exact hc.2.1

/-- A node is taken out by joining its neighbours; its own links are then free to change. -/
theorem anchored_remove {v w : ι} (hr : Anchored next prev h (l ++ x :: m)) :
    Anchored
      (update (update next (prev x) (next x)) x v)
      (update (update prev (next x) (prev x)) x w) h (l ++ m) := by
  obtain ⟨hnd, hc⟩ := hr
  obtain ⟨hl, hm⟩ := chain_append.mp hc
  have hperm : (x :: (h :: (l ++ m))).Nodup := by
    refine (List.Perm.nodup_iff ?_).mp hnd
    exact ((perm_middle).cons h).trans (List.Perm.swap x h (l ++ m))
  obtain ⟨hx, hnd'⟩ := nodup_cons.mp hperm
  obtain ⟨hh, hlm⟩ := nodup_cons.mp hnd'
  have hdis : ∀ y ∈ l, y ∉ m := fun y hy hy' => (nodup_append.mp hlm).2.2 y hy y hy' rfl
  have hhx : h ≠ x := fun e => hx (e ▸ mem_cons_self)
  have hlx : ∀ y ∈ l, y ≠ x := fun y hy e =>
    hx (e ▸ mem_cons_of_mem h (mem_append_left m hy))
  have hmx : ∀ y ∈ m, y ≠ x := fun y hy e =>
    hx (e ▸ mem_cons_of_mem h (mem_append_right l hy))
  have hprev : prev x = h ∨ prev x ∈ l := mem_cons.mp (chain_prev_mem hl)
  have hnext : next x ∉ l := by
    rcases chain_next_mem hm with hin | heq
    · exact fun hl' => hdis _ hl' hin
    · rw [heq]; exact fun hl' => hh (mem_append_left m hl')
  have hbent : Chain (update (update next (prev x) (next x)) x v)
      (update (update prev (next x) (prev x)) x w) h l (next x) := by
    refine chain_congr ?_ ?_ (chain_bend (hnd'.sublist (by simp)) hnext hl)
    · intro y hy
      rcases mem_cons.mp hy with rfl | hy
      · exact update_of_ne hhx _ _
      · exact update_of_ne (hlx y hy) _ _
    · rintro y (hy | rfl)
      · exact update_of_ne (hlx y hy) _ _
      · rcases chain_next_mem hm with hin | heq
        · exact update_of_ne (hmx _ hin) _ _
        · rw [heq]; exact update_of_ne hhx _ _
  refine ⟨hnd', ?_⟩
  cases m with
  | nil =>
    have hxh : next x = h := hm.1
    rw [hxh] at hbent
    rw [append_nil, hxh]
    exact hbent
  | cons z m =>
    have hxz : next x = z := hm.1
    rw [hxz] at hbent
    rw [hxz]
    have hzm : z ∉ m := (nodup_cons.mp (nodup_append.mp hlm).2.1).1
    have hzh : h ≠ z := fun e => hh (e ▸ mem_append_right l mem_cons_self)
    refine chain_append.mpr ⟨hbent, chain_congr ?_ ?_ hm.2.2⟩
    · intro y hy
      have hyp : y ≠ prev x := by
        rintro rfl
        rcases hprev with e | hl'
        · exact hh (e ▸ mem_append_right l hy)
        · exact hdis _ hl' hy
      rw [update_of_ne (hmx y hy), update_of_ne hyp]
    · rintro y (hy | rfl)
      · have hyz : y ≠ z := fun e => hzm (e ▸ hy)
        rw [update_of_ne (hmx y (mem_cons_of_mem z hy)), update_of_ne hyz]
      · rw [update_of_ne hhx, update_of_ne hzh]

/-- A node outside the ring is put in before the anchor. -/
theorem anchored_insert (hr : Anchored next prev h l) (hx : x ∉ h :: l) :
    Anchored
      (update (update next x h) (prev h) x)
      (update (update prev x (prev h)) h x) h (l ++ [x]) := by
  obtain ⟨hnd, hc⟩ := hr
  have hxh : x ≠ h := fun e => hx (e ▸ mem_cons_self)
  have hxl : x ∉ l := fun hm => hx (mem_cons_of_mem h hm)
  have hlast : x ≠ prev h := by
    rintro rfl
    exact hx (chain_prev_mem hc)
  refine ⟨?_, chain_append.mpr ⟨?_, ?_, ?_⟩⟩
  · have : (x :: (h :: l)).Nodup := nodup_cons.mpr ⟨hx, hnd⟩
    exact (perm_append_singleton x (h :: l)).symm.nodup this
  · refine chain_congr ?_ ?_ (chain_bend (c := x) hnd hxl hc)
    · intro y hy
      have hyx : y ≠ x := fun e => hx (e ▸ hy)
      by_cases hyp : y = prev h
      · rw [hyp, update_self, update_self]
      · rw [update_of_ne hyp, update_of_ne hyp, update_of_ne hyx]
    · rintro y (hy | rfl)
      · have hyh : y ≠ h := fun e => (nodup_cons.mp hnd).1 (e ▸ hy)
        rw [update_of_ne hyh]
      · rw [update_of_ne hxh]
  · rw [update_of_ne hlast, update_self]
  · rw [update_self]

omit [DecidableEq ι] in
/-- A ring can be anchored at any of its nodes. -/
theorem anchored_rotate (hr : Anchored next prev h (l ++ x :: m)) : Anchored next prev x (m ++ h :: l) := by
  obtain ⟨hnd, hc⟩ := hr
  obtain ⟨hl, hm⟩ := chain_append.mp hc
  refine ⟨?_, chain_append.mpr ⟨hm, hl⟩⟩
  have hperm : List.Perm ((h :: l) ++ (x :: m)) ((x :: m) ++ (h :: l)) := perm_append_comm
  exact hperm.nodup_iff.mp hnd

omit [DecidableEq ι] in
/-- In a ring the node before any node leads to it, and is in the ring. -/
theorem anchored_prev {y : ι} (hr : Anchored next prev h l) (hy : y ∈ h :: l) :
    next (prev y) = y ∧ prev y ∈ h :: l := by
  have hanchor {a : ι} {m : List ι} (ha : Anchored next prev a m) : next (prev a) = a := by
    rcases eq_nil_or_concat m with rfl | ⟨k, z, rfl⟩
    · rw [ha.2.2, ha.2.1]
    · rw [concat_eq_append] at ha
      have hz := (chain_append.mp ha.2).2
      rw [hz.2, hz.1]
  rcases mem_cons.mp hy with rfl | hy
  · exact ⟨hanchor hr, chain_prev_mem hr.2⟩
  · obtain ⟨k, m, rfl⟩ := append_of_mem hy
    have hrot := anchored_rotate hr
    refine ⟨hanchor hrot, ?_⟩
    have hmem := chain_prev_mem hrot.2
    simp only [mem_cons, mem_append] at hmem ⊢
    tauto

/-- A node outside the ring is put in before another node. -/
theorem anchored_insert_at {y : ι} (hr : Anchored next prev h (l ++ y :: m)) (hx : x ∉ h :: (l ++ y :: m)) :
    Anchored
      (update (update next x y) (prev y) x)
      (update (update prev x (prev y)) y x) h (l ++ x :: y :: m) := by
  have hrot := anchored_rotate hr
  have hx' : x ∉ y :: (m ++ h :: l) := by
    intro hm
    refine hx ?_
    simp only [mem_cons, mem_append] at hm ⊢
    tauto
  have hins := anchored_insert hrot hx'
  have heq : m ++ h :: l ++ [x] = m ++ h :: (l ++ [x]) := by simp
  rw [heq] at hins
  have hback := anchored_rotate hins
  have heq' : l ++ [x] ++ y :: m = l ++ x :: y :: m := by simp
  rwa [heq'] at hback

end PgStorage.Ring
