import PgStorage.Dsm.Dsm

/-! What the steps keep.

`Inv` ties the slots, the descriptors, the calls that destroy and the segments of the operating system together; a
segment has one owner, a slot or a call of `dsm_create`. Each step is one of a few moves, and each move keeps `Inv`. -/
namespace PgStorage.Dsm
open Function Option List

def attachedTo (segs : List DsmSegment) (i : Nat) : Nat := segs.countP fun d => d.controlSlot = some i

/-- The descriptors of `dsm_create` calls that have a segment and no slot for it. -/
def holders (segs : List DsmSegment) (g : Nat) : Nat := segs.countP fun d => d.controlSlot = none ∧ d.segment = g

def destroyersOf (destroyers : List Destroyer) (i : Nat) : Nat := destroyers.countP fun e => e.slot = i

def pinCount (it : DsmControlItem) : Nat := if it.pinned then 1 else 0

structure Inv (s : State) : Prop where
  refcnt : ∀ {i : Nat} {it : DsmControlItem}, s.items[i]? = some it → it.refcnt ≠ 0 →
    it.refcnt = 1 + attachedTo s.segs i + pinCount it
  free : ∀ {i : Nat} {it : DsmControlItem}, s.items[i]? = some it → it.refcnt = 0 → attachedTo s.segs i = 0
  moribund : ∀ {i : Nat} {it : DsmControlItem}, s.items[i]? = some it →
    destroyersOf s.destroyers i = if it.refcnt = 1 then 1 else 0
  attached : ∀ {d i}, d ∈ s.segs → d.controlSlot = some i →
    ∃ it, s.items[i]? = some it ∧ it.handle = d.handle ∧ it.segment = d.segment
  doomed : ∀ {e}, e ∈ s.destroyers → ∃ it, s.items[e.slot]? = some it ∧ it.handle = e.handle ∧ it.segment = e.segment
  live : ∀ {i : Nat} {it : DsmControlItem}, s.items[i]? = some it → it.refcnt ≠ 0 →
    (∀ e ∈ s.destroyers, e.slot = i → e.done = false) → s.os it.handle = some it.segment
  held : ∀ {d}, d ∈ s.segs → d.controlSlot = none → s.os d.handle = some d.segment
  gone : ∀ {e}, e ∈ s.destroyers → e.done = true → e.segment ∈ s.destroyed
  destroyed : ∀ {g h}, g ∈ s.destroyed → s.os h ≠ some g
  once : s.destroyed.Nodup
  owner : ∀ {h g}, s.os h = some g →
    (∃ (i : Nat) (it : DsmControlItem), s.items[i]? = some it ∧ it.refcnt ≠ 0 ∧ it.handle = h ∧ it.segment = g) ∨
      ∃ d ∈ s.segs, d.controlSlot = none ∧ d.handle = h ∧ d.segment = g
  oneItem : ∀ {i j : Nat} {it jt : DsmControlItem}, s.items[i]? = some it → s.items[j]? = some jt →
    it.refcnt ≠ 0 → jt.refcnt ≠ 0 → it.segment = jt.segment → i = j
  oneHeld : ∀ g, holders s.segs g ≤ 1
  apart : ∀ {i : Nat} {it : DsmControlItem} {d : DsmSegment}, s.items[i]? = some it → it.refcnt ≠ 0 → d ∈ s.segs →
    d.controlSlot = none → it.segment ≠ d.segment
  freshItem : ∀ {i : Nat} {it : DsmControlItem}, s.items[i]? = some it → it.segment < s.next
  freshOs : ∀ {h g}, s.os h = some g → g < s.next
  freshDestroyed : ∀ {g}, g ∈ s.destroyed → g < s.next
  visible : ∀ {i j : Nat} {it jt : DsmControlItem}, i < j → s.items[i]? = some it → s.items[j]? = some jt →
    it.refcnt ≠ 0 → 2 ≤ jt.refcnt → it.handle ≠ jt.handle

section Lists
variable {α : Type} {l : List α} {k : Nat} {x y z : α} {P : α → Bool}

theorem mem_set_or (h : y ∈ l.set k z) : y = z ∨ y ∈ l := (mem_or_eq_of_mem_set h).symm

/-- All but the element at the place are still there. -/
theorem mem_of_ne_place (hx : l[k]? = some x) (hy : y ∈ l) : y = x ∨ y ∈ l.eraseIdx k := by
  obtain ⟨hk, rfl⟩ := List.getElem?_eq_some_iff.mp hx
  rw [List.mem_eraseIdx_iff_getElem?]
  obtain ⟨j, hj, rfl⟩ := mem_iff_getElem.mp hy
  by_cases hjk : j = k
  · subst hjk
    exact .inl rfl
  · exact .inr ⟨j, hjk, getElem?_eq_getElem hj⟩

theorem mem_set_of_ne_place (hx : l[k]? = some x) (hy : y ∈ l) : y = x ∨ y ∈ l.set k z := by
  obtain ⟨hk, rfl⟩ := List.getElem?_eq_some_iff.mp hx
  obtain ⟨j, hj, rfl⟩ := List.mem_iff_getElem.mp hy
  by_cases hjk : j = k
  · subst hjk
    exact .inl rfl
  · refine .inr (mem_iff_getElem?.mpr ⟨j, ?_⟩)
    rw [getElem?_set_ne (Ne.symm hjk), getElem?_eq_getElem hj]

theorem countP_place (hx : l[k]? = some x) : (l.eraseIdx k).countP P + (if P x then 1 else 0) = l.countP P := by
  obtain ⟨hk, rfl⟩ := List.getElem?_eq_some_iff.mp hx
  rw [← List.countP_cons]
  exact (getElem_cons_eraseIdx_perm hk).countP_eq P

theorem countP_set_place (hx : l[k]? = some x) :
    (l.set k z).countP P + (if P x then 1 else 0) = l.countP P + if P z then 1 else 0 := by
  obtain ⟨hk, -⟩ := List.getElem?_eq_some_iff.mp hx
  have hset : (l.set k z)[k]? = some z := List.getElem?_set_self hk
  have herase : (l.set k z).eraseIdx k = l.eraseIdx k := eraseIdx_set_eq
  rw [← countP_place hset, ← countP_place hx, herase]
  omega

theorem unique_of_count (h : l.countP P ≤ 1) (hx : l[k]? = some x) (hPx : P x) (hy : y ∈ l) (hPy : P y) : y = x := by
  rcases mem_of_ne_place hx hy with rfl | hy
  · rfl
  · have hcount := countP_place (P := P) hx
    have hpos := countP_pos_iff.mpr ⟨y, hy, hPy⟩
    rw [if_pos hPx] at hcount
    omega

end Lists

theorem getElem?_enter {items : List DsmControlItem} {j : Nat} (hi : i ≤ items.length) :
    (enter items i it)[j]? = if j = i then some it else items[j]? := by
  rw [enter]
  by_cases hlt : i < items.length
  · rw [if_pos hlt, getElem?_set, if_pos hlt]
    simp only [eq_comm (a := i)]
  · obtain rfl : i = items.length := le_antisymm hi (not_lt.mp hlt)
    rw [if_neg hlt, getElem?_append]
    rcases lt_trichotomy j items.length with h | h | h
    · rw [if_pos h, if_neg h.ne]
    · subst h
      rw [if_neg (lt_irrefl _), if_pos rfl, Nat.sub_self]
      rfl
    · rw [if_neg h.not_gt, if_neg h.ne', getElem?_eq_none h.le, getElem?_eq_none]
      show 1 ≤ j - items.length
      omega

theorem getElem?_set_item {items : List DsmControlItem} {j : Nat} (hi : items[i]? = some it) :
    (items.set i it')[j]? = if j = i then some it' else items[j]? := by
  have hlt := (List.getElem?_eq_some_iff.mp hi).1
  rw [List.getElem?_set, if_pos hlt]
  simp only [eq_comm (a := i)]

variable {s : State} {k i : Nat} {d : DsmSegment} {e : Destroyer} {it it' : DsmControlItem}

/-- An active slot has a segment of its name. -/
theorem Inv.active (h : Inv s) (hi : s.items[i]? = some it) (h2 : 2 ≤ it.refcnt) : s.os it.handle = some it.segment := by
  refine h.live hi (by omega) fun e he hslot => ?_
  have hcount := h.moribund hi
  rw [if_neg (by omega), destroyersOf, countP_eq_zero] at hcount
  exact absurd (decide_eq_true hslot) (hcount e he)

theorem Inv.stage (h : Inv s) (hk : s.segs[k]? = some d) (stage : Stage) :
    Inv { s with segs := s.segs.set k { d with stage } } := by
  have hcount : ∀ P : DsmSegment → Bool, P { d with stage } = P d →
      (s.segs.set k { d with stage }).countP P = s.segs.countP P := fun P hP => by
    have hset := countP_set_place (P := P) (z := { d with stage }) hk
    rw [hP] at hset
    exact Nat.add_right_cancel hset
  have hmem : d ∈ s.segs := mem_of_getElem? hk
  have hall : ∀ {P : DsmSegment → Prop}, (∀ d ∈ s.segs, P d) → (P d → P { d with stage }) →
      ∀ d' ∈ s.segs.set k { d with stage }, P d' := fun hP hd d' hd' => by
    rcases mem_set_or hd' with rfl | hd'
    · exact hd (hP d hmem)
    · exact hP d' hd'
  refine { h with refcnt := ?_, free := ?_, attached := ?_, held := ?_, owner := ?_, oneHeld := ?_, apart := ?_ }
  · intro i it hi hne
    rw [h.refcnt hi hne]
    exact congrArg (1 + · + _) (hcount _ rfl).symm
  · exact fun hi h0 => (hcount _ rfl).trans (h.free hi h0)
  · exact fun {d' i} hd' => hall (P := fun d => d.controlSlot = some i → ∃ it, s.items[i]? = some it ∧
      it.handle = d.handle ∧ it.segment = d.segment) (fun d hd => h.attached hd) id d' hd'
  · exact fun {d'} hd' => hall (P := fun d => d.controlSlot = none → s.os d.handle = some d.segment)
      (fun d hd => h.held hd) id d' hd'
  · intro n g ho
    refine (h.owner ho).imp_right ?_
    rintro ⟨d', hd', hslot, hn, hg⟩
    rcases mem_set_of_ne_place (z := { d with stage }) hk hd' with rfl | hd'
    · refine ⟨{ d' with stage }, ?_, hslot, hn, hg⟩
      exact List.mem_of_getElem? (List.getElem?_set_self (List.getElem?_eq_some_iff.mp hk).1)
    · exact ⟨d', hd', hslot, hn, hg⟩
  · exact fun g => (hcount (fun d => d.controlSlot = none ∧ d.segment = g) rfl).le.trans (h.oneHeld g)
  · exact fun {i it d'} hi hne hd' => hall (P := fun d => d.controlSlot = none → it.segment ≠ d.segment)
      (fun d hd => h.apart hi hne hd) id d' hd'

theorem Inv.create (h : Inv s) (hos : s.os d.handle = none) (hslot : d.controlSlot = none) (hnew : d.segment = s.next) :
    Inv { s with os := update s.os d.handle (some s.next), segs := d :: s.segs, next := s.next + 1 } := by
  have hsame : ∀ {n g}, s.os n = some g → update s.os d.handle (some s.next) n = some g := fun {n g} hn => by
    rw [update_of_ne, hn]
    rintro rfl
    exact absurd (hos.symm.trans hn) nofun
  have hnone : ∀ g, attachedTo (d :: s.segs) g = attachedTo s.segs g := fun g =>
    countP_cons_of_neg (by rw [hslot]; exact nofun)
  have hcases : ∀ {n g}, update s.os d.handle (some s.next) n = some g →
      n = d.handle ∧ g = s.next ∨ s.os n = some g := fun {n g} hn => by
    by_cases hnd : n = d.handle
    · rw [hnd, update_self] at hn
      exact .inl ⟨hnd, (some.inj hn).symm⟩
    · rw [update_of_ne hnd] at hn
      exact .inr hn
  refine { h with
    refcnt := fun hi hne => by rw [hnone]; exact h.refcnt hi hne
    free := fun hi h0 => by rw [hnone]; exact h.free hi h0
    attached := ?_, live := fun hi hne hd => hsame (h.live hi hne hd), held := ?_, destroyed := ?_, owner := ?_,
    oneHeld := ?_, apart := ?_, freshItem := fun hi => (h.freshItem hi).trans (Nat.lt_succ_self _), freshOs := ?_,
    freshDestroyed := fun hg => (h.freshDestroyed hg).trans (Nat.lt_succ_self _) }
  · intro d' i hd' hi
    rcases mem_cons.mp hd' with rfl | hd'
    · exact absurd (hslot.symm.trans hi) nofun
    · exact h.attached hd' hi
  · intro d' hd' hi
    rcases mem_cons.mp hd' with rfl | hd'
    · rw [hnew]
      exact update_self ..
    · exact hsame (h.held hd' hi)
  · intro g n hg hn
    rcases hcases hn with ⟨-, rfl⟩ | hn
    · exact lt_irrefl _ (h.freshDestroyed hg)
    · exact h.destroyed hg hn
  · intro n g hn
    rcases hcases hn with ⟨rfl, rfl⟩ | hn
    · exact .inr ⟨d, mem_cons_self, hslot, rfl, hnew⟩
    · refine (h.owner hn).imp_right ?_
      rintro ⟨d', hd', hrest⟩
      exact ⟨d', mem_cons_of_mem _ hd', hrest⟩
  · intro g
    by_cases hg : d.segment = g
    · subst hg
      have hzero : holders s.segs d.segment = 0 := countP_eq_zero.mpr fun d' hd' hP => by
        obtain ⟨hs', hg'⟩ := of_decide_eq_true hP
        have hlt := h.freshOs (h.held hd' hs')
        rw [hg', hnew] at hlt
        exact lt_irrefl _ hlt
      rw [holders, countP_cons]
      show holders s.segs d.segment + _ ≤ 1
      rw [hzero]
      split <;> omega
    · refine le_of_eq_of_le (countP_cons_of_neg ?_) (h.oneHeld g)
      exact fun hP => hg (of_decide_eq_true hP).2
  · intro i it d' hi hne hd' hs'
    rcases mem_cons.mp hd' with rfl | hd'
    · rw [hnew]
      exact (h.freshItem hi).ne
    · exact h.apart hi hne hd' hs'
  · intro n g hn
    rcases hcases hn with ⟨-, rfl⟩ | hn
    · exact Nat.lt_succ_self _
    · exact (h.freshOs hn).trans (Nat.lt_succ_self _)

/-- Nothing is counted for a slot that is free or not there. -/
theorem Inv.unattached (h : Inv s) (hfree : ∀ it, s.items[i]? = some it → it.refcnt = 0) :
    attachedTo s.segs i = 0 ∧ destroyersOf s.destroyers i = 0 := by
  cases hi : s.items[i]? with
  | some it =>
    have h0 := hfree it hi
    refine ⟨h.free hi h0, ?_⟩
    rw [h.moribund hi, if_neg (by omega)]
  | none =>
    refine ⟨countP_eq_zero.mpr fun d hd hP => ?_, countP_eq_zero.mpr fun e he hP => ?_⟩
    · obtain ⟨it, hit, -⟩ := h.attached hd (of_decide_eq_true hP)
      exact absurd (hi.symm.trans hit) nofun
    · obtain ⟨it, hit, -⟩ := h.doomed he
      rw [of_decide_eq_true hP, hi] at hit
      exact absurd hit nofun

theorem Inv.enter (h : Inv s) (stage : Stage) (hk : s.segs[k]? = some d) (hslot : d.controlSlot = none)
    (hlen : i ≤ s.items.length) (hfree : ∀ it, s.items[i]? = some it → it.refcnt = 0)
    (hfront : ∀ j < i, ∀ jt, s.items[j]? = some jt → jt.handle ≠ d.handle) :
    Inv { s with
      items := Dsm.enter s.items i ⟨d.handle, 2, false, d.segment⟩
      segs := s.segs.set k { d with controlSlot := some i, stage } } := by
  have hmem : d ∈ s.segs := mem_of_getElem? hk
  have hos := h.held hmem hslot
  obtain ⟨hcount, hdoom⟩ := h.unattached hfree
  have hget : ∀ {j jt}, (Dsm.enter s.items i ⟨d.handle, 2, false, d.segment⟩)[j]? = some jt →
      j = i ∧ jt = ⟨d.handle, 2, false, d.segment⟩ ∨ j ≠ i ∧ s.items[j]? = some jt := fun {j jt} hj => by
    rw [getElem?_enter hlen] at hj
    by_cases hji : j = i
    · rw [if_pos hji] at hj
      exact .inl ⟨hji, (some.inj hj).symm⟩
    · rw [if_neg hji] at hj
      exact .inr ⟨hji, hj⟩
  have hkeep : ∀ {j : Nat} {jt : DsmControlItem}, s.items[j]? = some jt → jt.refcnt ≠ 0 →
      (Dsm.enter s.items i ⟨d.handle, 2, false, d.segment⟩)[j]? = some jt := fun {j jt} hj hne => by
    rw [getElem?_enter hlen, if_neg, hj]
    rintro rfl
    exact hne (hfree jt hj)
  have hself : (Dsm.enter s.items i ⟨d.handle, 2, false, d.segment⟩)[i]? = some ⟨d.handle, 2, false, d.segment⟩ := by
    rw [getElem?_enter hlen, if_pos rfl]
  have hattached : ∀ j, attachedTo (s.segs.set k { d with controlSlot := some i, stage }) j =
      attachedTo s.segs j + if i = j then 1 else 0 := fun j => by
    have hset := countP_set_place (P := fun d => d.controlSlot = some j) (z := { d with controlSlot := some i, stage }) hk
    rw [hslot] at hset
    simp only [reduceCtorEq, decide_false, Bool.false_eq_true, if_false, add_zero, some.injEq,
      decide_eq_true_eq] at hset
    exact hset
  have hholders : ∀ g, holders (s.segs.set k { d with controlSlot := some i, stage }) g +
      (if d.segment = g then 1 else 0) = holders s.segs g := fun g => by
    have hset := countP_set_place (P := fun d => decide (d.controlSlot = none ∧ d.segment = g))
      (z := { d with controlSlot := some i, stage }) hk
    simpa [holders, hslot] using hset
  have hsegs : ∀ {d'}, d' ∈ s.segs.set k { d with controlSlot := some i, stage } → d'.controlSlot = none →
      d' ∈ s.segs ∧ d'.segment ≠ d.segment := fun {d'} hd' hs' => by
    rcases mem_set_or hd' with rfl | hd''
    · exact absurd hs' nofun
    · refine ⟨hd'', fun hg => ?_⟩
      have hpos : 0 < holders (s.segs.set k { d with controlSlot := some i, stage }) d.segment :=
        countP_pos_iff.mpr ⟨d', hd', decide_eq_true ⟨hs', hg⟩⟩
      have hsum := hholders d.segment
      have hle := h.oneHeld d.segment
      rw [if_pos rfl] at hsum
      omega
  refine { h with
    refcnt := ?_, free := ?_, moribund := ?_, attached := ?_, doomed := ?_, live := ?_, held := ?_, owner := ?_,
    oneItem := ?_, oneHeld := ?_, apart := ?_, freshItem := ?_, visible := ?_ }
  · intro j jt hj hne
    rw [hattached]
    rcases hget hj with ⟨rfl, rfl⟩ | ⟨hji, hj⟩
    · rw [hcount, if_pos rfl]
      rfl
    · rw [if_neg (Ne.symm hji)]
      exact h.refcnt hj hne
  · intro j jt hj h0
    rw [hattached]
    rcases hget hj with ⟨rfl, rfl⟩ | ⟨hji, hj⟩
    · exact absurd h0 nofun
    · rw [if_neg (Ne.symm hji)]
      exact h.free hj h0
  · intro j jt hj
    rcases hget hj with ⟨rfl, rfl⟩ | ⟨-, hj⟩
    · exact hdoom
    · exact h.moribund hj
  · intro d' j hd' hj
    rcases mem_set_or hd' with rfl | hd'
    · obtain rfl : i = j := some.inj hj
      exact ⟨_, hself, rfl, rfl⟩
    · obtain ⟨jt, hjt, hrest⟩ := h.attached hd' hj
      refine ⟨jt, hkeep hjt fun h0 => ?_, hrest⟩
      have hzero := h.free hjt h0
      exact countP_eq_zero.mp hzero d' hd' (decide_eq_true hj)
  · intro e he
    obtain ⟨jt, hjt, hrest⟩ := h.doomed he
    refine ⟨jt, hkeep hjt fun h0 => ?_, hrest⟩
    have hzero := h.moribund hjt
    rw [if_neg (by omega)] at hzero
    exact countP_eq_zero.mp hzero e he (decide_eq_true rfl)
  · intro j jt hj hne hdone
    rcases hget hj with ⟨-, rfl⟩ | ⟨-, hj⟩
    · exact hos
    · exact h.live hj hne hdone
  · intro d' hd' hs'
    exact h.held (hsegs hd' hs').1 hs'
  · intro n g ho
    rcases h.owner ho with ⟨j, jt, hj, hne, hrest⟩ | ⟨d', hd', hs', hn, hg⟩
    · exact .inl ⟨j, jt, hkeep hj hne, hne, hrest⟩
    · rcases mem_set_of_ne_place (z := { d with controlSlot := some i, stage }) hk hd' with rfl | hd''
      · exact .inl ⟨i, _, hself, nofun, hn, hg⟩
      · exact .inr ⟨d', hd'', hs', hn, hg⟩
  · intro j j' jt jt' hj hj' hne hne' hg
    rcases hget hj with ⟨rfl, rfl⟩ | ⟨-, hjt⟩
    · rcases hget hj' with ⟨rfl, -⟩ | ⟨-, hjt'⟩
      · rfl
      · exact absurd hg.symm (h.apart hjt' hne' hmem hslot)
    · rcases hget hj' with ⟨rfl, rfl⟩ | ⟨-, hjt'⟩
      · exact absurd hg (h.apart hjt hne hmem hslot)
      · exact h.oneItem hjt hjt' hne hne' hg
  · intro g
    exact (Nat.le_add_right _ _).trans ((hholders g).le.trans (h.oneHeld g))
  · intro j jt d' hj hne hd' hs'
    obtain ⟨hd', hg⟩ := hsegs hd' hs'
    rcases hget hj with ⟨-, rfl⟩ | ⟨-, hj⟩
    · exact hg.symm
    · exact h.apart hj hne hd' hs'
  · intro j jt hj
    rcases hget hj with ⟨-, rfl⟩ | ⟨-, hj⟩
    · exact h.freshOs hos
    · exact h.freshItem hj
  · intro j j' jt jt' hjj hj hj' hne h2
    rcases hget hj with ⟨rfl, rfl⟩ | ⟨-, hjt⟩
    · rcases hget hj' with ⟨rfl, -⟩ | ⟨-, hjt'⟩
      · exact absurd hjj (lt_irrefl _)
      · -- An active slot has the only segment of its name.
        intro hn
        have hos' := h.active hjt' h2
        rw [← hn] at hos'
        exact h.apart hjt' (by omega) hmem hslot (some.inj (hos'.symm.trans hos))
    · rcases hget hj' with ⟨rfl, rfl⟩ | ⟨-, hjt'⟩
      · exact hfront j hjj jt hjt
      · exact h.visible hjj hjt hjt' hne h2

/-! ### Segments destroyed -/

/-- The segment of a name is destroyed: what is said of the other segments stays. -/
theorem osDestroy_keeps {n g g' h : Nat} (ho : s.os n = some g) (hne : g' ≠ g) (hg' : s.os h = some g') :
    update s.os n none h = some g' := by
  rw [update_of_ne, hg']
  rintro rfl
  exact hne (some.inj (hg'.symm.trans ho))

theorem of_osDestroy {n g h : Nat} (ho : update s.os n none h = some g) : h ≠ n ∧ s.os h = some g := by
  by_cases hn : h = n
  · rw [hn, update_self] at ho
    exact absurd ho nofun
  · rw [update_of_ne hn] at ho
    exact ⟨hn, ho⟩

theorem Inv.drop (h : Inv s) (hk : s.segs[k]? = some d) (hslot : d.controlSlot = none) :
    Inv { osDestroy s d.handle with segs := s.segs.eraseIdx k } := by
  have hmem : d ∈ s.segs := mem_of_getElem? hk
  have hos := h.held hmem hslot
  have hsub : ∀ {d'}, d' ∈ s.segs.eraseIdx k → d' ∈ s.segs := fun hd' => mem_of_mem_eraseIdx hd'
  have hattached : ∀ j, attachedTo (s.segs.eraseIdx k) j = attachedTo s.segs j := fun j => by
    have hplace := countP_place (P := fun d => d.controlSlot = some j) hk
    rw [hslot, if_neg (by simp)] at hplace
    exact hplace
  have hholders : ∀ g, holders (s.segs.eraseIdx k) g + (if d.segment = g then 1 else 0) = holders s.segs g := fun g => by
    have hplace := countP_place (P := fun d => decide (d.controlSlot = none ∧ d.segment = g)) hk
    simpa [holders, hslot] using hplace
  have hother : ∀ {d'}, d' ∈ s.segs.eraseIdx k → d'.controlSlot = none → d'.segment ≠ d.segment := fun {d'} hd' hs' hg => by
    have hpos : 0 < holders (s.segs.eraseIdx k) d.segment :=
      countP_pos_iff.mpr ⟨d', hd', decide_eq_true ⟨hs', hg⟩⟩
    have hsum := hholders d.segment
    have hle := h.oneHeld d.segment
    rw [if_pos rfl] at hsum
    omega
  have hdestroyed : (s.os d.handle).toList ++ s.destroyed = d.segment :: s.destroyed := by rw [hos]; rfl
  have howner : ∀ {n g}, n ≠ d.handle → s.os n = some g →
      (∃ (i : Nat) (it : DsmControlItem), s.items[i]? = some it ∧ it.refcnt ≠ 0 ∧ it.handle = n ∧ it.segment = g) ∨
        ∃ d' ∈ s.segs.eraseIdx k, d'.controlSlot = none ∧ d'.handle = n ∧ d'.segment = g := fun {n g} hn ho => by
    refine (h.owner ho).imp_right ?_
    rintro ⟨d', hd', hs', rfl, hg⟩
    rcases mem_of_ne_place hk hd' with rfl | hd''
    · exact absurd rfl hn
    · exact ⟨d', hd'', hs', rfl, hg⟩
  refine { h with
    refcnt := fun hi hne => by rw [hattached]; exact h.refcnt hi hne
    free := fun hi h0 => by rw [hattached]; exact h.free hi h0
    attached := fun hd' hi => h.attached (hsub hd') hi
    live := fun hi hne hdone => osDestroy_keeps hos (h.apart hi hne hmem hslot) (h.live hi hne hdone)
    held := fun hd' hs' => osDestroy_keeps hos (hother hd' hs') (h.held (hsub hd') hs')
    gone := fun he hd => mem_append_right _ (h.gone he hd)
    destroyed := ?_, once := ?_
    owner := fun ho => howner (of_osDestroy ho).1 (of_osDestroy ho).2
    oneHeld := fun g => (Nat.le_add_right _ _).trans ((hholders g).le.trans (h.oneHeld g))
    apart := fun hi hne hd' hs' => h.apart hi hne (hsub hd') hs'
    freshOs := fun ho => h.freshOs (of_osDestroy ho).2
    freshDestroyed := ?_ }
  · intro g n hg ho
    obtain ⟨hn, ho⟩ := of_osDestroy ho
    rw [osDestroy, hdestroyed] at hg
    rcases mem_cons.mp hg with rfl | hg
    · rcases howner hn ho with ⟨i, it, hi, hne, -, hg⟩ | ⟨d', hd', hs', -, hg⟩
      · exact h.apart hi hne hmem hslot hg
      · exact hother hd' hs' hg
    · exact h.destroyed hg ho
  · rw [osDestroy, hdestroyed]
    exact nodup_cons.mpr ⟨fun hg => h.destroyed hg hos, h.once⟩
  · intro g hg
    rw [osDestroy, hdestroyed] at hg
    rcases mem_cons.mp hg with rfl | hg
    · exact h.freshOs hos
    · exact h.freshDestroyed hg

theorem Inv.destroy (h : Inv s) (hk : s.destroyers[k]? = some e) (hdone : e.done = false) :
    Inv { osDestroy s e.handle with destroyers := s.destroyers.set k { e with done := true } } := by
  have hmem : e ∈ s.destroyers := mem_of_getElem? hk
  obtain ⟨it, hit, hhandle, hsegment⟩ := h.doomed hmem
  have hcount := h.moribund hit
  have hpos : 0 < destroyersOf s.destroyers e.slot := countP_pos_iff.mpr ⟨e, hmem, decide_eq_true rfl⟩
  have hone : it.refcnt = 1 := by
    by_contra hne
    rw [if_neg hne] at hcount
    omega
  rw [if_pos hone] at hcount
  -- The one destroyer of the slot has not destroyed yet.
  have hos : s.os e.handle = some e.segment := by
    rw [← hhandle, ← hsegment]
    refine h.live hit (by omega) fun e' he' hslot => ?_
    rw [unique_of_count (P := fun e' : Destroyer => decide (e'.slot = e.slot)) hcount.le hk (decide_eq_true rfl) he' (decide_eq_true hslot)]
    exact hdone
  have hdestroyed : (s.os e.handle).toList ++ s.destroyed = e.segment :: s.destroyed := by rw [hos]; rfl
  have hset : ∀ {e'}, e' ∈ s.destroyers.set k { e with done := true } → e' = { e with done := true } ∨ e' ∈ s.destroyers :=
    fun he' => mem_set_or he'
  have hsame : ∀ i, destroyersOf (s.destroyers.set k { e with done := true }) i = destroyersOf s.destroyers i := fun i => by
    have hplace := countP_set_place (P := fun e => e.slot = i) (z := { e with done := true }) hk
    exact Nat.add_right_cancel hplace
  have hitem : ∀ {i : Nat} {jt : DsmControlItem}, s.items[i]? = some jt → jt.refcnt ≠ 0 → i ≠ e.slot → jt.segment ≠ e.segment :=
    fun hi hne hslot hg => hslot (h.oneItem hi hit hne (by omega) (hg.trans hsegment.symm))
  have hheld : ∀ {d}, d ∈ s.segs → d.controlSlot = none → d.segment ≠ e.segment := fun hd hs' hg =>
    h.apart hit (by omega) hd hs' (hsegment.trans hg.symm)
  refine { h with
    moribund := fun hi => by rw [hsame]; exact h.moribund hi
    doomed := fun he' => ?_
    live := ?_
    held := fun hd hs' => osDestroy_keeps hos (hheld hd hs') (h.held hd hs')
    gone := ?_, destroyed := ?_, once := ?_
    owner := fun ho => h.owner (of_osDestroy ho).2
    freshOs := fun ho => h.freshOs (of_osDestroy ho).2
    freshDestroyed := ?_ }
  · rcases hset he' with rfl | he'
    · exact ⟨it, hit, hhandle, hsegment⟩
    · exact h.doomed he'
  · intro i jt hi hne hnone
    have hslot : i ≠ e.slot := by
      rintro rfl
      have hself : { e with done := true } ∈ s.destroyers.set k { e with done := true } :=
        List.mem_of_getElem? (List.getElem?_set_self (List.getElem?_eq_some_iff.mp hk).1)
      exact absurd (hnone _ hself rfl) nofun
    refine osDestroy_keeps hos (hitem hi hne hslot) (h.live hi hne fun e' he' hs' => ?_)
    rcases mem_set_of_ne_place (z := { e with done := true }) hk he' with rfl | he''
    · exact hdone
    · exact hnone e' he'' hs'
  · intro e' he' hd
    rw [osDestroy, hdestroyed]
    rcases hset he' with rfl | he'
    · exact mem_cons_self
    · exact mem_cons_of_mem _ (h.gone he' hd)
  · intro g n hg ho
    obtain ⟨hn, ho⟩ := of_osDestroy ho
    rw [osDestroy, hdestroyed] at hg
    rcases mem_cons.mp hg with rfl | hg
    · rcases h.owner ho with ⟨i, jt, hi, hne, hjn, hg⟩ | ⟨d, hd, hs', -, hg⟩
      · by_cases hslot : i = e.slot
        · subst hslot
          obtain rfl : it = jt := some.inj (hit.symm.trans hi)
          exact hn (hjn.symm.trans hhandle)
        · exact hitem hi hne hslot hg
      · exact hheld hd hs' hg
    · exact h.destroyed hg ho
  · rw [osDestroy, hdestroyed]
    exact nodup_cons.mpr ⟨fun hg => h.destroyed hg hos, h.once⟩
  · intro g hg
    rw [osDestroy, hdestroyed] at hg
    rcases mem_cons.mp hg with rfl | hg
    · exact h.freshOs hos
    · exact h.freshDestroyed hg

theorem Inv.clear (h : Inv s) (hk : s.destroyers[k]? = some e) (hdone : e.done = true)
    (hit : s.items[e.slot]? = some it) :
    Inv { s with items := s.items.set e.slot { it with refcnt := 0 }, destroyers := s.destroyers.eraseIdx k } := by
  have hmem : e ∈ s.destroyers := mem_of_getElem? hk
  obtain ⟨it', hit', hhandle, hsegment⟩ := h.doomed hmem
  obtain rfl : it = it' := some.inj (hit.symm.trans hit')
  have hcount := h.moribund hit
  have hpos : 0 < destroyersOf s.destroyers e.slot := countP_pos_iff.mpr ⟨e, hmem, decide_eq_true rfl⟩
  have hone : it.refcnt = 1 := by
    by_contra hne
    rw [if_neg hne] at hcount
    omega
  have hrefcnt := h.refcnt hit (by omega)
  have hget : ∀ {j jt}, (s.items.set e.slot { it with refcnt := 0 })[j]? = some jt →
      j = e.slot ∧ jt = { it with refcnt := 0 } ∨ j ≠ e.slot ∧ s.items[j]? = some jt := fun {j jt} hj => by
    rw [getElem?_set_item hit] at hj
    by_cases hji : j = e.slot
    · rw [if_pos hji] at hj
      exact .inl ⟨hji, (some.inj hj).symm⟩
    · rw [if_neg hji] at hj
      exact .inr ⟨hji, hj⟩
  have hactive : ∀ {j : Nat} {jt : DsmControlItem}, (s.items.set e.slot { it with refcnt := 0 })[j]? = some jt → jt.refcnt ≠ 0 →
      j ≠ e.slot ∧ s.items[j]? = some jt := fun {j jt} hj hne => by
    rcases hget hj with ⟨-, rfl⟩ | hj
    · exact absurd rfl hne
    · exact hj
  have hplace : ∀ i, destroyersOf (s.destroyers.eraseIdx k) i + (if e.slot = i then 1 else 0) =
      destroyersOf s.destroyers i := fun i => by
    have hplace := countP_place (P := fun e => decide (e.slot = i)) hk
    simpa [destroyersOf] using hplace
  have hsome : ∀ {j : Nat} {jt : DsmControlItem}, s.items[j]? = some jt →
      ∃ jt' : DsmControlItem, (s.items.set e.slot { it with refcnt := 0 })[j]? = some jt' ∧ jt'.handle = jt.handle ∧ jt'.segment = jt.segment := fun {j jt} hj => by
    rw [getElem?_set_item hit]
    by_cases hji : j = e.slot
    · subst hji
      obtain rfl : it = jt := some.inj (hit.symm.trans hj)
      exact ⟨_, if_pos rfl, rfl, rfl⟩
    · exact ⟨jt, by rw [if_neg hji, hj], rfl, rfl⟩
  refine { h with
    refcnt := fun hj hne => h.refcnt (hactive hj hne).2 hne
    free := ?_, moribund := ?_, attached := ?_, doomed := ?_, live := ?_
    gone := fun he' hd => h.gone (mem_of_mem_eraseIdx he') hd
    owner := ?_
    oneItem := fun hj hj' hne hne' hg => h.oneItem (hactive hj hne).2 (hactive hj' hne').2 hne hne' hg
    apart := fun hj hne hd hs' => h.apart (hactive hj hne).2 hne hd hs'
    freshItem := ?_
    visible := fun hjj hj hj' hne h2 => h.visible hjj (hactive hj hne).2 (hactive hj' (by omega)).2 hne h2 }
  · intro j jt hj h0
    rcases hget hj with ⟨rfl, -⟩ | ⟨-, hj⟩
    · show attachedTo s.segs e.slot = 0
      omega
    · exact h.free hj h0
  · intro j jt hj
    have hsum := hplace j
    rcases hget hj with ⟨rfl, rfl⟩ | ⟨hji, hj⟩
    · rw [if_pos rfl, hcount, if_pos hone] at hsum
      exact Nat.add_right_cancel hsum
    · rw [if_neg (Ne.symm hji)] at hsum
      exact hsum.trans (h.moribund hj)
  · intro d j hd hj
    obtain ⟨jt, hjt, hn, hg⟩ := h.attached hd hj
    obtain ⟨jt', hjt', hn', hg'⟩ := hsome hjt
    exact ⟨jt', hjt', hn'.trans hn, hg'.trans hg⟩
  · intro e' he'
    obtain ⟨jt, hjt, hn, hg⟩ := h.doomed (mem_of_mem_eraseIdx he')
    obtain ⟨jt', hjt', hn', hg'⟩ := hsome hjt
    exact ⟨jt', hjt', hn'.trans hn, hg'.trans hg⟩
  · intro j jt hj hne hnone
    obtain ⟨hji, hj⟩ := hactive hj hne
    refine h.live hj hne fun e' he' hs' => ?_
    rcases mem_of_ne_place hk he' with rfl | he''
    · exact absurd hs'.symm hji
    · exact hnone e' he'' hs'
  · intro n g ho
    refine (h.owner ho).imp_left ?_
    rintro ⟨j, jt, hj, hne, hn, hg⟩
    refine ⟨j, jt, ?_, hne, hn, hg⟩
    rw [getElem?_set_item hit, if_neg, hj]
    rintro rfl
    obtain rfl : it = jt := some.inj (hit.symm.trans hj)
    refine h.destroyed (h.gone hmem hdone) (h := n) ?_
    rw [← hsegment, hg]
    exact ho
  · intro j jt hj
    rcases hget hj with ⟨-, rfl⟩ | ⟨-, hj⟩
    · show it.segment < s.next
      exact h.freshItem hit
    · exact h.freshItem hj

/-! ### References more and less -/

theorem Inv.adjust (it' : DsmControlItem) (segs : List DsmSegment) (h : Inv s) (backend : Nat)
    (hit : s.items[i]? = some it) (h2 : 2 ≤ it.refcnt) (hne : it'.refcnt ≠ 0) (hhandle : it'.handle = it.handle) (hsegment : it'.segment = it.segment)
    (hbalance : it'.refcnt + attachedTo s.segs i + pinCount it = it.refcnt + attachedTo segs i + pinCount it')
    (hattached : ∀ j, j ≠ i → attachedTo segs j = attachedTo s.segs j) (hholders : ∀ g, holders segs g = holders s.segs g)
    (hsegs : ∀ d ∈ segs, d ∈ s.segs ∨ d.controlSlot = some i ∧ it.handle = d.handle ∧ it.segment = d.segment)
    (hkept : ∀ d ∈ s.segs, d.controlSlot = none → d ∈ segs) :
    Inv { s with
      items := s.items.set i it'
      segs
      destroyers :=
        if it'.refcnt = 1 then ⟨backend, it.handle, i, it.segment, false⟩ :: s.destroyers else s.destroyers } := by
  have hget : ∀ {j jt}, (s.items.set i it')[j]? = some jt → j = i ∧ jt = it' ∨ j ≠ i ∧ s.items[j]? = some jt :=
    fun {j jt} hj => by
      rw [getElem?_set_item hit] at hj
      by_cases hji : j = i
      · rw [if_pos hji] at hj
        exact .inl ⟨hji, (some.inj hj).symm⟩
      · rw [if_neg hji] at hj
        exact .inr ⟨hji, hj⟩
  -- Each slot is as it was but for its count and pin.
  have hold : ∀ {j : Nat} {jt : DsmControlItem}, (s.items.set i it')[j]? = some jt → jt.refcnt ≠ 0 →
      ∃ jt₀ : DsmControlItem, s.items[j]? = some jt₀ ∧ jt₀.refcnt ≠ 0 ∧ jt₀.handle = jt.handle ∧
        jt₀.segment = jt.segment ∧ (2 ≤ jt.refcnt → 2 ≤ jt₀.refcnt) := fun {j jt} hj hne' => by
    rcases hget hj with ⟨rfl, rfl⟩ | ⟨-, hj⟩
    · exact ⟨it, hit, by omega, hhandle.symm, hsegment.symm, fun _ => h2⟩
    · exact ⟨jt, hj, hne', rfl, rfl, id⟩
  have hnew : ∀ {j : Nat} {jt : DsmControlItem}, s.items[j]? = some jt →
      ∃ jt' : DsmControlItem, (s.items.set i it')[j]? = some jt' ∧ (jt.refcnt ≠ 0 → jt'.refcnt ≠ 0) ∧
        jt'.handle = jt.handle ∧ jt'.segment = jt.segment := fun {j jt} hj => by
    rw [getElem?_set_item hit]
    by_cases hji : j = i
    · subst hji
      obtain rfl : it = jt := some.inj (hit.symm.trans hj)
      exact ⟨it', if_pos rfl, fun _ => hne, hhandle, hsegment⟩
    · exact ⟨jt, by rw [if_neg hji, hj], id, rfl, rfl⟩
  have hdoomed : ∀ {e}, e ∈ (if it'.refcnt = 1 then (⟨backend, it.handle, i, it.segment, false⟩ : Destroyer) :: s.destroyers
      else s.destroyers) → e = ⟨backend, it.handle, i, it.segment, false⟩ ∨ e ∈ s.destroyers := fun {e} he => by
    split at he
    · exact mem_cons.mp he
    · exact .inr he
  have hsub : ∀ {e}, e ∈ s.destroyers → e ∈ (if it'.refcnt = 1 then
      (⟨backend, it.handle, i, it.segment, false⟩ : Destroyer) :: s.destroyers else s.destroyers) := fun {e} he => by
    split
    · exact mem_cons_of_mem _ he
    · exact he
  have hnone : ∀ {d}, d ∈ segs → d.controlSlot = none → d ∈ s.segs := fun {d} hd hs' =>
    (hsegs d hd).resolve_right fun hnew => absurd (hs'.symm.trans hnew.1) nofun
  refine { h with
    refcnt := ?_, free := ?_, moribund := ?_, attached := ?_, doomed := ?_, live := ?_
    held := fun hd hs' => h.held (hnone hd hs') hs'
    gone := ?_, owner := ?_, oneItem := ?_
    oneHeld := fun g => (hholders g).le.trans (h.oneHeld g)
    apart := ?_, freshItem := ?_, visible := ?_ }
  · intro j jt hj hne'
    rcases hget hj with ⟨rfl, rfl⟩ | ⟨hji, hj⟩
    · have hcount := h.refcnt hit (by omega)
      show jt.refcnt = 1 + attachedTo segs j + pinCount jt
      omega
    · show jt.refcnt = 1 + attachedTo segs j + pinCount jt
      rw [hattached j hji]
      exact h.refcnt hj hne'
  · intro j jt hj h0
    rcases hget hj with ⟨rfl, rfl⟩ | ⟨hji, hj⟩
    · exact absurd h0 hne
    · exact (hattached j hji).trans (h.free hj h0)
  · intro j jt hj
    rcases hget hj with ⟨rfl, rfl⟩ | ⟨hji, hj⟩
    · have hcount := h.moribund hit
      rw [if_neg (by omega)] at hcount
      split
      next h1 =>
        refine (countP_cons_of_pos (p := fun e : Destroyer => decide (e.slot = j)) (decide_eq_true rfl)).trans ?_
        exact congrArg (· + 1) hcount
      next h1 => exact hcount
    · refine Eq.trans ?_ (h.moribund hj)
      split
      · exact countP_cons_of_neg fun hP => hji (of_decide_eq_true hP).symm
      · rfl
  · intro d j hd hj
    rcases hsegs d hd with hd | ⟨hs', hn, hg⟩
    · obtain ⟨jt, hjt, hn, hg⟩ := h.attached hd hj
      obtain ⟨jt', hjt', -, hn', hg'⟩ := hnew hjt
      exact ⟨jt', hjt', hn'.trans hn, hg'.trans hg⟩
    · obtain rfl : i = j := some.inj (hs'.symm.trans hj)
      obtain ⟨jt', hjt', -, hn', hg'⟩ := hnew hit
      exact ⟨jt', hjt', hn'.trans hn, hg'.trans hg⟩
  · intro e he
    rcases hdoomed he with rfl | he
    · obtain ⟨jt', hjt', -, hn', hg'⟩ := hnew hit
      exact ⟨jt', hjt', hn', hg'⟩
    · obtain ⟨jt, hjt, hn, hg⟩ := h.doomed he
      obtain ⟨jt', hjt', -, hn', hg'⟩ := hnew hjt
      exact ⟨jt', hjt', hn'.trans hn, hg'.trans hg⟩
  · intro j jt hj hne' hlive
    obtain ⟨jt₀, hj₀, hne₀, hn, hg, -⟩ := hold hj hne'
    rw [← hn, ← hg]
    exact h.live hj₀ hne₀ fun e he => hlive e (hsub he)
  · intro e he hd
    rcases hdoomed he with rfl | he
    · exact absurd hd nofun
    · exact h.gone he hd
  · intro n g ho
    rcases h.owner ho with ⟨j, jt, hj, hne', hn, hg⟩ | ⟨d, hd, hs', hrest⟩
    · obtain ⟨jt', hjt', hne'', hn', hg'⟩ := hnew hj
      exact .inl ⟨j, jt', hjt', hne'' hne', hn'.trans hn, hg'.trans hg⟩
    · exact .inr ⟨d, hkept d hd hs', hs', hrest⟩
  · intro j j' jt jt' hj hj' hne₁ hne₂ hg
    obtain ⟨jt₀, hj₀, hne₀, -, hg₀, -⟩ := hold hj hne₁
    obtain ⟨jt₀', hj₀', hne₀', -, hg₀', -⟩ := hold hj' hne₂
    exact h.oneItem hj₀ hj₀' hne₀ hne₀' (hg₀.trans (hg.trans hg₀'.symm))
  · intro j jt d hj hne' hd hs'
    obtain ⟨jt₀, hj₀, hne₀, -, hg, -⟩ := hold hj hne'
    rw [← hg]
    exact h.apart hj₀ hne₀ (hnone hd hs') hs'
  · intro j jt hj
    rcases hget hj with ⟨-, rfl⟩ | ⟨-, hj⟩
    · show jt.segment < s.next
      rw [hsegment]
      exact h.freshItem hit
    · exact h.freshItem hj
  · intro j j' jt jt' hjj hj hj' hne' h2'
    obtain ⟨jt₀, hj₀, hne₀, hn₀, -, -⟩ := hold hj hne'
    obtain ⟨jt₀', hj₀', -, hn₀', -, h2₀⟩ := hold hj' (by omega)
    rw [← hn₀, ← hn₀']
    exact h.visible hjj hj₀ hj₀' hne₀ (h2₀ h2')

end PgStorage.Dsm
