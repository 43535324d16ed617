import PgStorage.Procarray.Invariant

/-! The lists, step by step.

Most steps leave all lists as they are. A process pushes itself on the shared list; a leader takes
the list over, and then takes one member after the other out of its group. -/
namespace PgStorage.Procarray
open Links Locks
open Function

section Lists
variable {s t : Sys} {l : List Nat} {g : Nat → List Nat} {place : Nat → Place} {p x : Nat} {c : Pc}

/-- What a step does not bring about was so before. -/
theorem before_step {β : Type} (f : Pc → β) {b : β} {q : Nat} (hpc : t.pc = update s.pc p c) (hc : f c ≠ b)
    (hq : f (t.pc q) = b) : f (s.pc q) = b := by
  rcases eq_or_ne q p with rfl | hne
  · rw [hpc, update_self] at hq
    exact absurd hq hc
  · rwa [hpc, update_of_ne hne] at hq

section
variable (h : Lists s l g place)
include h

theorem Lists.head_none (hh : (s.pc p).head = none) : g p = [] := by
  have := h.groups p
  rw [hh] at this
  exact linked_none.mp this

theorem Lists.not_current (hp : place x = .free ∨ place x = .shared) (q : Nat) :
    x ∉ g q ∧ (s.pc q).current ≠ some x := by
  constructor
  · intro hm
    have := (h.mem_group x q).mp (.inl hm)
    rcases hp with hp | hp <;> rw [hp] at this <;> cases this
  · intro hm
    have := (h.mem_group x q).mp (.inr hm)
    rcases hp with hp | hp <;> rw [hp] at this <;> cases this

theorem Lists.not_shared (hp : place x ≠ .shared) : x ∉ l := fun hm => hp ((h.mem_shared x).mp hm)

/-- A process that is in none of the calls that may wait is on no list. -/
theorem Lists.outside (hr : (s.pc p).role = .outside) : place p = .free := by
  have := h.allows p
  rw [hr] at this
  cases hp : place p with
  | free => rfl
  | shared => rw [hp] at this; rcases this with this | this <;> cases this
  | group q => rw [hp] at this; rcases this with this | ⟨-, this | this⟩ <;> cases this

theorem Lists.leading (hr : (s.pc p).role = .leading) : place p = .shared := by
  have := h.allows p
  rw [hr] at this
  cases hp : place p with
  | free => rw [hp] at this; rcases this with this | this | this <;> cases this
  | shared => rfl
  | group q => rw [hp] at this; rcases this with this | ⟨-, this | this⟩ <;> cases this

theorem Lists.walking (hr : (s.pc p).role = .walking) : place p = .group p := by
  have := h.allows p
  rw [hr] at this
  cases hp : place p with
  | free => rw [hp] at this; rcases this with this | this | this <;> cases this
  | shared => rw [hp] at this; rcases this with this | this <;> cases this
  | group q =>
    rw [hp] at this
    rcases this with this | ⟨rfl, -⟩
    · cases this
    · rfl

/-- A member of a group belongs to a leader that walks or wakes. -/
theorem Lists.group_leader {q : Nat} (hp : place x = .group q) :
    (s.pc q).role = .walking ∨ (s.pc q).role = .waking := by
  have hmem := (h.mem_group x q).mpr hp
  rcases hmem with hm | hm
  · have hh : (s.pc q).head ≠ none := by
      intro hn
      rw [h.head_none hn] at hm
      cases hm
    cases hpc : s.pc q <;> rw [hpc] at hh <;> first | exact .inl rfl | exact .inr rfl | exact absurd rfl hh
  · cases hpc : s.pc q <;> rw [hpc] at hm <;> first | exact .inr rfl | cases hm

theorem Lists.group_ne {q : Nat} (hx : (s.pc q).current = some x) (hp : place p = .free) :
    p ≠ x := by
  rintro rfl
  exact (h.not_current (.inl hp) q).2 hx

/-- The links may change where no list goes through, and the role of a process as far as its place allows it. -/
theorem Lists.rewire (hpc : t.pc = update s.pc p c)
    (hn : ∀ y, y ∈ l ∨ (∃ q, y ∈ g q) → t.procArrayGroupNext y = s.procArrayGroupNext y)
    (hf : t.procArrayGroupFirst = s.procArrayGroupFirst)
    (hm : ∀ q, s.procArrayGroupMember q = true → t.procArrayGroupMember q = true)
    (hallow : (place p).Allows p c.role) (hlead : c.role = .leading ↔ (s.pc p).role = .leading)
    (hhead : c.head = (s.pc p).head) (hcur : c.current = (s.pc p).current)
    (henr : c.enrolled = true → t.procArrayGroupMember p = true)
    (hlink : ∀ q n, t.pc q = .cas n → t.procArrayGroupNext q = n)
    (hcut : ∀ q y w, t.pc q = .wakeFlag y w → t.procArrayGroupNext y = none)
    (hfreed : ∀ q, place q = .free → (t.pc q).role = .follower → t.procArrayGroupNext q = none) :
    Lists t l g place := by
  obtain ⟨hself, hother⟩ := updated hpc
  have hlead' : ∀ q, (t.pc q).role = .leading ↔ (s.pc q).role = .leading := by
    intro q
    rcases eq_or_ne q p with rfl | hq
    · rw [hself]; exact hlead
    · rw [hother q hq]
  have hhead' : ∀ q, (t.pc q).head = (s.pc q).head := by rw [hpc]; exact apply_update hhead
  have hcur' : ∀ q, (t.pc q).current = (s.pc q).current := by rw [hpc]; exact apply_update hcur
  constructor
  · rw [hf]; exact path_congr (fun y hy => hn y (.inl hy)) h.shared
  · intro q
    rw [hhead']
    exact path_congr (fun y hy => hn y (.inr ⟨q, hy⟩)) (h.groups q)
  · exact h.mem_shared
  · intro y q; rw [hcur']; exact h.mem_group y q
  · intro y q; rw [hcur']; exact h.current y q
  · intro q
    rcases eq_or_ne q p with rfl | hq
    · rw [hself]; exact hallow
    · rw [hother q hq]; exact h.allows q
  · intro q r hq hr; exact h.leader q r ((hlead' q).mp hq) ((hlead' r).mp hr)
  · intro hl
    obtain ⟨q, hq⟩ := h.led hl
    exact ⟨q, (hlead' q).mpr hq⟩
  · exact hlink
  · exact hcut
  · exact hfreed
  · intro q hq
    rcases hq with hq | hq
    · exact hm q (h.member q (.inl hq))
    · rcases eq_or_ne q p with rfl | hne
      · rw [hself] at hq; exact henr hq
      · rw [hother q hne] at hq; exact hm q (h.member q (.inr hq))

theorem Lists.change (hpc : t.pc = update s.pc p c)
    (hn : t.procArrayGroupNext = s.procArrayGroupNext) (hf : t.procArrayGroupFirst = s.procArrayGroupFirst)
    (hm : ∀ q, s.procArrayGroupMember q = true → t.procArrayGroupMember q = true)
    (hallow : (place p).Allows p c.role) (hlead : c.role = .leading ↔ (s.pc p).role = .leading)
    (hfreed : place p = .free → c.role = .follower → s.procArrayGroupNext p = none)
    (hhead : c.head = (s.pc p).head) (hcur : c.current = (s.pc p).current)
    (henr : c.enrolled = true → t.procArrayGroupMember p = true)
    (hlink : ∀ n, c = .cas n → s.procArrayGroupNext p = n)
    (hcut : ∀ y w, c = .wakeFlag y w → s.procArrayGroupNext y = none) : Lists t l g place := by
  obtain ⟨hself, hother⟩ := updated hpc
  refine h.rewire hpc (fun y _ => congrFun hn y) hf hm hallow hlead hhead hcur henr ?_ ?_ ?_
  · intro q n hq
    rw [hn]
    rcases eq_or_ne q p with rfl | hne
    · rw [hself] at hq; exact hlink n hq
    · rw [hother q hne] at hq; exact h.link q n hq
  · intro q y w hq
    rw [hn]
    rcases eq_or_ne q p with rfl | hne
    · rw [hself] at hq; exact hcut y w hq
    · rw [hother q hne] at hq; exact h.cut q y w hq
  · intro q hq hr
    rw [hn]
    rcases eq_or_ne q p with rfl | hne
    · rw [hself] at hr; exact hfreed hq hr
    · rw [hother q hne] at hr; exact h.freed q hq hr

/-- A process moves on in its role. -/
theorem Lists.move (hpc : t.pc = update s.pc p c)
    (hn : t.procArrayGroupNext = s.procArrayGroupNext) (hf : t.procArrayGroupFirst = s.procArrayGroupFirst)
    (hm : ∀ q, s.procArrayGroupMember q = true → t.procArrayGroupMember q = true) (hrole : c.role = (s.pc p).role)
    (hhead : c.head = (s.pc p).head) (hcur : c.current = (s.pc p).current)
    (henr : c.enrolled = true → t.procArrayGroupMember p = true)
    (hlink : ∀ n, c = .cas n → s.procArrayGroupNext p = n)
    (hcut : ∀ y w, c = .wakeFlag y w → s.procArrayGroupNext y = none) : Lists t l g place :=
  h.change hpc hn hf hm (by rw [hrole]; exact h.allows p) (by rw [hrole])
    (fun hp hr => h.freed p hp (hrole.symm.trans hr)) hhead hcur henr hlink hcut

end

/-! ### A process gets on the list -/

theorem Lists.writeNext (h : Lists s l g place) {n : Option Nat} (hs : s.pc p = .writeNext n)
    (hpc : t.pc = update s.pc p (.cas n))
    (hn : t.procArrayGroupNext = update s.procArrayGroupNext p n)
    (hf : t.procArrayGroupFirst = s.procArrayGroupFirst) (hm : t.procArrayGroupMember = s.procArrayGroupMember) :
    Lists t l g place := by
  have hfree : place p = .free := h.outside (by rw [hs]; rfl)
  have hrole : (Pc.cas n).role = (s.pc p).role := by rw [hs]; rfl
  have hkeep : ∀ y, y ≠ p → t.procArrayGroupNext y = s.procArrayGroupNext y := by
    intro y hy
    rw [hn, update_of_ne hy]
  refine h.rewire hpc (fun y hy => hkeep y ?_) hf (fun q hq => hm ▸ hq) (hrole ▸ h.allows p) (by rw [hrole])
    (by rw [hs]; rfl) (by rw [hs]; rfl) (fun _ => hm ▸ h.member p (.inr (by rw [hs]; rfl))) ?_ ?_ ?_
  · rintro rfl
    rcases hy with hy | ⟨q, hy⟩
    · exact h.not_shared (by rw [hfree]; nofun) hy
    · exact (h.not_current (.inl hfree) q).1 hy
  · intro q m hq
    rcases eq_or_ne q p with rfl | hne
    · rw [hpc, update_self] at hq
      obtain rfl := Pc.cas.inj hq
      rw [hn, update_self]
    · rw [hpc, update_of_ne hne] at hq
      rw [hkeep q hne]
      exact h.link q m hq
  · intro q y w hq
    have hq : s.pc q = _ := before_step id hpc (by simp) hq
    rw [hkeep y (h.group_ne (q := q) (by rw [hq]; rfl) hfree).symm]
    exact h.cut q y w hq
  · intro q hq hr
    have hr := before_step Pc.role hpc (by simp [Pc.role]) hr
    rw [hkeep q fun e => by rw [e, hs] at hr; cases hr]
    exact h.freed q hq hr

/-- **A process pushes itself on the list**, as the leader if it is the first. -/
theorem Lists.push (h : Lists s l g place) {n : Option Nat} (hs : s.pc p = .cas n)
    (hfirst : s.procArrayGroupFirst = n) (hpc : t.pc = update s.pc p (if n = none then .lead else .sleep 0))
    (hn : t.procArrayGroupNext = s.procArrayGroupNext) (hf : t.procArrayGroupFirst = some p)
    (hm : t.procArrayGroupMember = s.procArrayGroupMember) :
    Lists t (p :: l) g (update place p .shared) := by
  have hfree : place p = .free := h.outside (by rw [hs]; rfl)
  have hhead : ∀ q, (t.pc q).head = (s.pc q).head := by
    rw [hpc]; exact apply_update (by rw [hs]; split_ifs <;> rfl)
  have hcur : ∀ q, (t.pc q).current = (s.pc q).current := by
    rw [hpc]; exact apply_update (by rw [hs]; split_ifs <;> rfl)
  obtain ⟨hself, hother⟩ := updated hpc
  have hempty : n = none ↔ l = [] := by
    rw [← hfirst]
    constructor
    · intro e
      have := h.shared
      rw [e] at this
      exact linked_none.mp this
    · rintro rfl
      exact h.shared
  have hold : n = none → ∀ q, (s.pc q).role ≠ .leading := by
    intro hn0 q hq
    have := (h.mem_shared q).mpr (h.leading hq)
    rw [hempty.mp hn0] at this
    cases this
  constructor
  · rw [hn, hf]
    refine ⟨rfl, ?_⟩
    rw [h.link p n hs, ← hfirst]
    exact h.shared
  · intro q; rw [hn, hhead]; exact h.groups q
  · intro q
    rw [List.mem_cons]
    rcases eq_or_ne q p with rfl | hq
    · rw [update_self]; exact iff_of_true (.inl rfl) rfl
    · rw [update_of_ne hq, ← h.mem_shared q]; exact or_iff_right hq
  · intro y q
    rw [hcur]
    rcases eq_or_ne y p with rfl | hy
    · rw [update_self]
      have := h.not_current (.inl hfree) q
      exact iff_of_false (not_or.mpr this) nofun
    · rw [update_of_ne hy]; exact h.mem_group y q
  · intro y q; rw [hcur]; exact h.current y q
  · intro q
    rcases eq_or_ne q p with rfl | hq
    · rw [update_self, hself]
      split_ifs
      · exact .inr rfl
      · exact .inl rfl
    · rw [update_of_ne hq, hother q hq]; exact h.allows q
  · intro q r hq hr
    by_cases hn0 : n = none
    · have hme : ∀ x, (t.pc x).role = .leading → x = p := by
        intro x hx
        by_contra hne
        rw [hother x hne] at hx
        exact hold hn0 x hx
      rw [hme q hq, hme r hr]
    · rw [if_neg hn0] at hself
      have hne : ∀ x, (t.pc x).role = .leading → x ≠ p := by
        rintro x hx rfl
        rw [hself] at hx
        cases hx
      rw [hother q (hne q hq)] at hq
      rw [hother r (hne r hr)] at hr
      exact h.leader q r hq hr
  · intro _
    by_cases hn0 : n = none
    · rw [if_pos hn0] at hself
      exact ⟨p, by rw [hself]; rfl⟩
    · obtain ⟨q, hq⟩ := h.led fun e => hn0 (hempty.mpr e)
      refine ⟨q, ?_⟩
      rw [hother q fun e => by rw [e, hs] at hq; cases hq]
      exact hq
  · intro q m hq
    rw [hn]
    rcases eq_or_ne q p with rfl | hne
    · rw [hself] at hq; split_ifs at hq
    · rw [hother q hne] at hq; exact h.link q m hq
  · intro q y w hq
    rw [hn]
    rcases eq_or_ne q p with rfl | hne
    · rw [hself] at hq; split_ifs at hq
    · rw [hother q hne] at hq; exact h.cut q y w hq
  · intro q hq hr
    rw [hn]
    have hne : q ≠ p := by
      rintro rfl
      rw [update_self] at hq
      cases hq
    rw [update_of_ne hne] at hq
    rw [hother q hne] at hr
    exact h.freed q hq hr
  · intro q hq
    rw [hm]
    rcases eq_or_ne q p with rfl | hne
    · exact h.member q (.inr (by rw [hs]; rfl))
    · rw [update_of_ne hne, hother q hne] at hq
      exact h.member q hq

/-! ### A leader takes a group and releases it -/

/-- **The leader takes the whole list.** -/
theorem Lists.takeOver (h : Lists s l g place) {n : Option Nat} (hs : s.pc p = .detachCas n)
    (hfirst : s.procArrayGroupFirst = n) (hpc : t.pc = update s.pc p (.walk n n))
    (hn : t.procArrayGroupNext = s.procArrayGroupNext) (hf : t.procArrayGroupFirst = none)
    (hm : t.procArrayGroupMember = s.procArrayGroupMember) :
    Lists t [] (update g p l) (fun y => if place y = .shared then .group p else place y) := by
  have hshared : place p = .shared := h.leading (by rw [hs]; rfl)
  have hnil : g p = [] := h.head_none (by rw [hs]; rfl)
  have hcur : ∀ q, (t.pc q).current = (s.pc q).current := by rw [hpc]; exact apply_update (by rw [hs]; rfl)
  obtain ⟨hself, hother⟩ := updated hpc
  have hnone : ∀ q, (t.pc q).role ≠ .leading := by
    intro q hq
    have hne : q ≠ p := by
      rintro rfl
      rw [hself] at hq
      cases hq
    rw [hother q hne] at hq
    exact hne (h.leader q p hq (by rw [hs]; rfl))
  constructor
  · rw [hf]; rfl
  · intro q
    rw [hn]
    rcases eq_or_ne q p with rfl | hq
    · rw [hself, update_self, ← hfirst]; exact h.shared
    · rw [hother q hq, update_of_ne hq]; exact h.groups q
  · intro q
    refine iff_of_false List.not_mem_nil ?_
    split_ifs with hq
    · nofun
    · exact hq
  · intro y q
    rw [hcur]
    rcases eq_or_ne q p with rfl | hq
    · rw [update_self, h.mem_shared, hs]
      have := h.mem_group y q
      rw [hnil, hs] at this
      split_ifs with hy
      · exact iff_of_true (.inl hy) rfl
      · refine iff_of_false (not_or.mpr ⟨hy, nofun⟩) fun he => ?_
        rcases this.mpr he with hc | hc <;> cases hc
    · rw [update_of_ne hq, h.mem_group y q]
      split_ifs with hy
      · rw [hy]
        refine iff_of_false nofun fun he => hq ?_
        cases he
        rfl
      · rfl
  · intro y q hq
    rw [hcur] at hq
    rcases eq_or_ne q p with rfl | hne
    · rw [hs] at hq; cases hq
    · rw [update_of_ne hne]; exact h.current y q hq
  · intro q
    rcases eq_or_ne q p with rfl | hq
    · rw [if_pos hshared, hself]; exact .inr ⟨rfl, .inl rfl⟩
    · rw [hother q hq]
      have hall := h.allows q
      split_ifs with hy
      · rw [hy] at hall
        exact .inl (hall.resolve_right fun hl => hq (h.leader q p hl (by rw [hs]; rfl)))
      · exact hall
  · intro q r hq; exact absurd hq (hnone q)
  · intro hl; exact absurd rfl hl
  · intro q m hq
    rw [hn]
    exact h.link q m (before_step id hpc (by simp) hq)
  · intro q y w hq
    rw [hn]
    exact h.cut q y w (before_step id hpc (by simp) hq)
  · intro q hq hr
    rw [hn]
    have hne : q ≠ p := by
      rintro rfl
      rw [hself] at hr
      cases hr
    split_ifs at hq with hy
    rw [hother q hne] at hr
    exact h.freed q hq hr
  · intro q hq
    rw [hm]
    refine h.member q (hq.imp (fun hp e => hp (by rw [if_neg (by rw [e]; nofun), e])) (before_step Pc.enrolled hpc (by simp [Pc.enrolled])))

/-- The leader comes to the next member, and reads its link. -/
theorem Lists.take (h : Lists s l g place) {r : List Nat} (hs : s.pc p = .wake (some x))
    (hpc : t.pc = update s.pc p (.wakeWrite x (s.procArrayGroupNext x))) (hr : g p = x :: r)
    (hn : t.procArrayGroupNext = s.procArrayGroupNext) (hf : t.procArrayGroupFirst = s.procArrayGroupFirst)
    (hm : t.procArrayGroupMember = s.procArrayGroupMember) : Lists t l (update g p r) place := by
  have hrole : ∀ q, (t.pc q).role = (s.pc q).role := by rw [hpc]; exact apply_update (by rw [hs]; rfl)
  obtain ⟨hself, hother⟩ := updated hpc
  have hlinked := h.groups p
  rw [hs, hr] at hlinked
  constructor
  · rw [hn, hf]; exact h.shared
  · intro q
    rw [hn]
    rcases eq_or_ne q p with rfl | hq
    · rw [hself, update_self]; exact hlinked.2
    · rw [hother q hq, update_of_ne hq]; exact h.groups q
  · exact h.mem_shared
  · intro y q
    rcases eq_or_ne q p with rfl | hq
    · rw [hself, update_self, ← h.mem_group y q, hr, hs, List.mem_cons]
      constructor
      · rintro (hy | hy)
        · exact .inl (.inr hy)
        · exact .inl (.inl (Option.some_inj.mp hy).symm)
      · rintro ((rfl | hy) | hy)
        · exact .inr rfl
        · exact .inl hy
        · cases hy
    · rw [hother q hq, update_of_ne hq]; exact h.mem_group y q
  · intro y q hy
    rcases eq_or_ne q p with rfl | hq
    · rw [hself] at hy
      obtain rfl := Option.some_inj.mp hy
      rw [update_self]
      exact (List.nodup_cons.mp (linked_nodup hlinked)).1
    · rw [hother q hq] at hy
      rw [update_of_ne hq]
      exact h.current y q hy
  · intro q; rw [hrole]; exact h.allows q
  · intro q q'; rw [hrole, hrole]; exact h.leader q q'
  · intro hl
    obtain ⟨q, hq⟩ := h.led hl
    exact ⟨q, (hrole q).trans hq⟩
  · intro q m hq
    rw [hn]
    exact h.link q m (before_step id hpc (by simp) hq)
  · intro q y w hq
    rw [hn]
    exact h.cut q y w (before_step id hpc (by simp) hq)
  · intro q hq hr'; rw [hn]; rw [hrole] at hr'; exact h.freed q hq hr'
  · intro q hq
    rw [hm]
    refine h.member q (hq.imp_right (before_step Pc.enrolled hpc (by simp [Pc.enrolled])))

/-- The leader resets the link of a member. -/
theorem Lists.cutLink (h : Lists s l g place) {w : Option Nat} (hs : s.pc p = .wakeWrite x w)
    (hpc : t.pc = update s.pc p (.wakeFlag x w))
    (hn : t.procArrayGroupNext = update s.procArrayGroupNext x none)
    (hf : t.procArrayGroupFirst = s.procArrayGroupFirst) (hm : t.procArrayGroupMember = s.procArrayGroupMember) :
    Lists t l g place := by
  have hplace : place x = .group p := (h.mem_group x p).mp (.inr (by rw [hs]; rfl))
  have hrole : (Pc.wakeFlag x w).role = (s.pc p).role := by rw [hs]; rfl
  have hkeep : ∀ y, y ≠ x → t.procArrayGroupNext y = s.procArrayGroupNext y := by
    intro y hy
    rw [hn, update_of_ne hy]
  have hnot : ∀ q, x ∉ g q := by
    intro q hq
    rcases eq_or_ne q p with rfl | hne
    · exact h.current x q (by rw [hs]; rfl) hq
    · have := hplace.symm.trans ((h.mem_group x q).mp (.inl hq))
      cases this
      exact hne rfl
  refine h.rewire hpc (fun y hy => hkeep y ?_) hf (fun q hq => hm ▸ hq) (hrole ▸ h.allows p) (by rw [hrole])
    (by rw [hs]; rfl) (by rw [hs]; rfl) (by simp [Pc.enrolled]) ?_ ?_ ?_
  · rintro rfl
    rcases hy with hy | ⟨q, hy⟩
    · exact h.not_shared (by rw [hplace]; nofun) hy
    · exact hnot q hy
  · intro q m hq
    have hq : s.pc q = _ := before_step id hpc (by simp) hq
    have hfree : place q = .free := h.outside (by rw [hq]; rfl)
    rw [hkeep q fun e => by rw [e, hplace] at hfree; cases hfree]
    exact h.link q m hq
  · intro q y w' hq
    rcases eq_or_ne y x with rfl | hy
    · rw [hn, update_self]
    · rw [hkeep y hy]
      exact h.cut q y w' (before_step id hpc (fun e => hy (Pc.wakeFlag.inj e).1.symm) hq)
  · intro q hq hr
    rw [hkeep q fun e => by rw [e, hplace] at hq; cases hq]
    exact h.freed q hq (before_step Pc.role hpc (by simp [Pc.role]) hr)

/-- **The leader releases a member**, which may then return. -/
theorem Lists.release (h : Lists s l g place) {w : Option Nat} (hs : s.pc p = .wakeFlag x w)
    (hpc : t.pc = update s.pc p (if x = p then .wake w else .wakeUnlock x w))
    (hn : t.procArrayGroupNext = s.procArrayGroupNext) (hf : t.procArrayGroupFirst = s.procArrayGroupFirst)
    (hm : t.procArrayGroupMember = update s.procArrayGroupMember x false) :
    Lists t l g (update place x .free) := by
  have hplace : place x = .group p := (h.mem_group x p).mp (.inr (by rw [hs]; rfl))
  have hrole : ∀ q, (t.pc q).role = (s.pc q).role := by
    rw [hpc]; exact apply_update (by rw [hs]; split_ifs <;> rfl)
  have hhead : ∀ q, (t.pc q).head = (s.pc q).head := by
    rw [hpc]; exact apply_update (by rw [hs]; split_ifs <;> rfl)
  have hself : t.pc p = if x = p then .wake w else .wakeUnlock x w := by rw [hpc, update_self]
  have hcurp : (t.pc p).current = none := by rw [hself]; split_ifs <;> rfl
  have hother : ∀ q, q ≠ p → t.pc q = s.pc q := fun q hq => by rw [hpc, update_of_ne hq]
  have hgroup : ∀ q, place x = .group q → q = p := by
    intro q hq
    have := hplace.symm.trans hq
    cases this
    rfl
  constructor
  · rw [hn, hf]; exact h.shared
  · intro q; rw [hn, hhead]; exact h.groups q
  · intro q
    rcases eq_or_ne q x with rfl | hq
    · rw [update_self]
      exact iff_of_false (h.not_shared (by rw [hplace]; rintro ⟨⟩)) (by simp)
    · rw [update_of_ne hq]; exact h.mem_shared q
  · intro y q
    rcases eq_or_ne y x with rfl | hy
    · rw [update_self]
      refine iff_of_false (fun hor => ?_) (by simp)
      rcases hor with hm' | hc
      · obtain rfl := hgroup q ((h.mem_group y q).mp (.inl hm'))
        exact h.current y q (by rw [hs]; rfl) hm'
      · rcases eq_or_ne q p with rfl | hq
        · rw [hcurp] at hc; cases hc
        · rw [hother q hq] at hc
          exact hq (hgroup q ((h.mem_group y q).mp (.inr hc)))
    · rw [update_of_ne hy, ← h.mem_group y q]
      rcases eq_or_ne q p with rfl | hq
      · rw [hcurp, hs]
        exact or_congr_right (iff_of_false (by simp) fun e => hy (Option.some_inj.mp e).symm)
      · rw [hother q hq]
  · intro y q hy
    rcases eq_or_ne q p with rfl | hq
    · rw [hcurp] at hy; cases hy
    · rw [hother q hq] at hy; exact h.current y q hy
  · intro q
    rw [hrole]
    rcases eq_or_ne q x with rfl | hq
    · rw [update_self]
      have := h.allows q
      rw [hplace] at this
      rcases this with hr | ⟨rfl, hr⟩
      · exact .inr (.inl hr)
      · rw [hs]; exact .inr (.inr rfl)
    · rw [update_of_ne hq]; exact h.allows q
  · intro q r; rw [hrole, hrole]; exact h.leader q r
  · intro hl
    obtain ⟨q, hq⟩ := h.led hl
    exact ⟨q, (hrole q).trans hq⟩
  · intro q m hq
    rw [hn]
    rcases eq_or_ne q p with rfl | hne
    · rw [hself] at hq; split_ifs at hq
    · rw [hother q hne] at hq; exact h.link q m hq
  · intro q y w' hq
    rw [hn]
    rcases eq_or_ne q p with rfl | hne
    · rw [hself] at hq; split_ifs at hq
    · rw [hother q hne] at hq; exact h.cut q y w' hq
  · intro q hq hr
    rw [hn]
    rw [hrole] at hr
    rcases eq_or_ne q x with rfl | hne
    · exact h.cut p q w hs
    · rw [update_of_ne hne] at hq; exact h.freed q hq hr
  · intro q hq
    rw [hm]
    rcases eq_or_ne q x with rfl | hne
    · -- it is released, and its own call waits
      rw [update_self] at hq
      have henr := hq.resolve_left fun hp => hp rfl
      have hro : (t.pc q).role = .outside := by
        cases hpcq : t.pc q <;> rw [hpcq] at henr <;> first | rfl | cases henr
      rw [hrole] at hro
      have := h.outside hro
      rw [hplace] at this
      cases this
    · rw [update_of_ne hne] at hq ⊢
      refine h.member q (hq.imp_right fun he => ?_)
      rcases eq_or_ne q p with rfl | hne'
      · rw [hself] at he
        split_ifs at he <;> cases he
      · rw [hother q hne'] at he; exact he

end Lists
end PgStorage.Procarray
