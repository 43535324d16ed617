import PgStorage.Procarray.Lists

/-! The phases of the calls and the entries, step by step.

The phase of one process changes when it calls, is cleared or returns. A process that is on no list
changes its own; a leader changes those of the members that it comes to. -/
namespace PgStorage.Procarray
open Links Locks
open Function List

section Phases
variable {s t : Sys} {l : List Nat} {g : Nat → List Nat} {place : Nat → Place} {σ σ' : Spec} {p x : Nat} {c : Pc}
  {f : Phase}

/-! ### Phases -/

section
variable (h : Phases s g place σ)
include h

theorem Phases.path (hn : ∀ q, ∀ y ∈ g q, t.procArrayGroupNext y = s.procArrayGroupNext y)
    {q : Nat} {n w : Option Nat} (hq : s.pc q = .walk n w) : ∃ done rest, g q = done ++ rest ∧
      Path t.procArrayGroupNext w done n ∧ (∀ y ∈ done, σ.phase y = .cleared) ∧ ∀ y ∈ rest, ∃ l, σ.phase y = .called l := by
  obtain ⟨done, rest, hg, hp, hd, hr⟩ := h.walk q n w hq
  exact ⟨done, rest, hg, path_congr (fun y hy => hn q y (by rw [hg]; exact mem_append_left rest hy)) hp, hd, hr⟩

/-- A process moves on, and no phase changes. -/
theorem Phases.move (hpc : t.pc = update s.pc p c)
    (hn : ∀ q, ∀ y ∈ g q, t.procArrayGroupNext y = s.procArrayGroupNext y)
    (hfree : place p = .free → c.FreePhase (σ.phase p)) (hwalk : ∀ n w, c ≠ .walk n w)
    (hwoken : c.role = .waking → (s.pc p).role = .waking) : Phases t g place σ := by
  obtain ⟨hself, hother⟩ := updated hpc
  refine ⟨fun q hq => ?_, h.shared, fun q n w hq => ?_, fun y q hy hr => ?_⟩
  · rcases eq_or_ne q p with rfl | hne
    · rw [hself]; exact hfree hq
    · rw [hother q hne]; exact h.free q hq
  · rcases eq_or_ne q p with rfl | hne
    · rw [hself] at hq; exact absurd hq (hwalk n w)
    · rw [hother q hne] at hq; exact h.path hn hq
  · rcases eq_or_ne q p with rfl | hne
    · rw [hself] at hr; exact h.woken y q hy (hwoken hr)
    · rw [hother q hne] at hr; exact h.woken y q hy hr

/-- A process on no list changes its own phase. -/
theorem Phases.own (hl : Lists s l g place) (hfree : place p = .free)
    (hpc : t.pc = update s.pc p c) (hn : t.procArrayGroupNext = s.procArrayGroupNext)
    (hc : c.role = .outside) (hph : c.FreePhase f) (hσ : σ'.phase = update σ.phase p f) :
    Phases t g place σ' := by
  obtain ⟨hself, hother⟩ := updated hpc
  have hσ' : ∀ q, q ≠ p → σ'.phase q = σ.phase q := fun q hq => by rw [hσ, update_of_ne hq]
  have hne : ∀ q y, y ∈ g q → y ≠ p := fun q y hy e => (hl.not_current (.inl hfree) q).1 (e ▸ hy)
  refine ⟨fun q hq => ?_, fun q hq => ?_, fun q n w hq => ?_, fun y q hy hr => ?_⟩
  · rcases eq_or_ne q p with rfl | hqp
    · rw [hself, hσ, update_self]; exact hph
    · rw [hother q hqp, hσ' q hqp]; exact h.free q hq
  · rw [hσ' q fun e => by rw [e, hfree] at hq; cases hq]
    exact h.shared q hq
  · rcases eq_or_ne q p with rfl | hqp
    · rw [hself] at hq
      rw [hq] at hc
      cases hc
    · rw [hother q hqp] at hq
      obtain ⟨done, rest, hg, hp, hd, hr⟩ := h.walk q n w hq
      refine ⟨done, rest, hg, by rw [hn]; exact hp, fun y hy => ?_, fun y hy => ?_⟩
      · rw [hσ' y (hne q y (by rw [hg]; exact mem_append_left rest hy))]; exact hd y hy
      · rw [hσ' y (hne q y (by rw [hg]; exact mem_append_right done hy))]; exact hr y hy
  · rw [hσ' y fun e => by rw [e, hfree] at hy; cases hy]
    rcases eq_or_ne q p with rfl | hqp
    · rw [hself, hc] at hr; cases hr
    · rw [hother q hqp] at hr; exact h.woken y q hy hr

theorem Phases.push {n : Option Nat} (hs : s.pc p = .cas n) (hfree : place p = .free)
    (hpc : t.pc = update s.pc p (if n = none then .lead else .sleep 0))
    (hn : t.procArrayGroupNext = s.procArrayGroupNext) : Phases t g (update place p .shared) σ := by
  have hcalled : ∃ l, σ.phase p = .called l := by
    have := h.free p hfree
    rw [hs] at this
    exact this
  obtain ⟨hself, hother⟩ := updated hpc
  refine ⟨fun q hq => ?_, fun q hq => ?_, fun q m w hq => ?_, fun y q hy hr => ?_⟩
  · rcases eq_or_ne q p with rfl | hqp
    · rw [update_self] at hq; cases hq
    · rw [update_of_ne hqp] at hq
      rw [hother q hqp]
      exact h.free q hq
  · rcases eq_or_ne q p with rfl | hqp
    · exact hcalled
    · rw [update_of_ne hqp] at hq; exact h.shared q hq
  · rcases eq_or_ne q p with rfl | hqp
    · rw [hself] at hq; split_ifs at hq
    · rw [hother q hqp] at hq
      rw [hn]
      exact h.walk q m w hq
  · rcases eq_or_ne q p with rfl | hqp
    · rw [hself] at hr; split_ifs at hr <;> cases hr
    · rw [hother q hqp] at hr
      rcases eq_or_ne y p with rfl | hyp
      · rw [update_self] at hy; cases hy
      · rw [update_of_ne hyp] at hy; exact h.woken y q hy hr

theorem Phases.takeOver (hl : Lists s l g place) {n : Option Nat} (hs : s.pc p = .detachCas n)
    (hpc : t.pc = update s.pc p (.walk n n)) (hn : t.procArrayGroupNext = s.procArrayGroupNext) :
    Phases t (update g p l) (fun y => if place y = .shared then .group p else place y) σ := by
  obtain ⟨hself, hother⟩ := updated hpc
  refine ⟨fun q hq => ?_, fun q hq => ?_, fun q m w hq => ?_, fun y q hy hr => ?_⟩
  · split_ifs at hq with hsh
    have hqp : q ≠ p := by
      rintro rfl
      exact hsh (hl.leading (by rw [hs]; rfl))
    rw [hother q hqp]
    exact h.free q hq
  · split_ifs at hq with hsh
    exact absurd hq hsh
  · rcases eq_or_ne q p with rfl | hqp
    · rw [hself] at hq
      cases hq
      rw [update_self]
      exact ⟨[], l, rfl, rfl, fun _ hy => absurd hy not_mem_nil, fun y hy => h.shared y ((hl.mem_shared y).mp hy)⟩
    · rw [hother q hqp] at hq
      rw [update_of_ne hqp, hn]
      exact h.walk q m w hq
  · rcases eq_or_ne q p with rfl | hqp
    · rw [hself] at hr; cases hr
    · rw [hother q hqp] at hr
      split_ifs at hy with hsh
      · cases hy
        exact absurd rfl hqp
      · exact h.woken y q hy hr

/-- The member that a walking leader has come to has not been cleared yet. -/
theorem Phases.ahead (hl : Lists s l g place) {w : Option Nat}
    (hs : s.pc p = .walk (some x) w) : ∃ done rest, g p = done ++ x :: rest ∧ Path s.procArrayGroupNext w done (some x) ∧
      (∀ y ∈ done, σ.phase y = .cleared) ∧ ∀ y ∈ x :: rest, ∃ l, σ.phase y = .called l := by
  obtain ⟨done, rest, hg, hpath, hd, hr⟩ := h.walk p (some x) w hs
  have hlinked := hl.groups p
  rw [hs, hg] at hlinked
  obtain ⟨d, hp1, hp2⟩ := path_append.mp hlinked
  rw [← path_end hpath hp1] at hp2
  obtain ⟨m, rfl, -⟩ := linked_some hp2
  exact ⟨done, m, hg, hpath, hd, hr⟩

/-- **The leader clears the member it has come to.** -/
theorem Phases.clearMember (hl : Lists s l g place) {w : Option Nat}
    (hs : s.pc p = .walk (some x) w) (hpc : t.pc = update s.pc p (.walk (s.procArrayGroupNext x) w))
    (hn : t.procArrayGroupNext = s.procArrayGroupNext) (hσ : σ'.phase = update σ.phase x .cleared) :
    Phases t g place σ' := by
  obtain ⟨done, rest, hg, hpath, hd, hr⟩ := h.ahead hl hs
  have hxg : place x = .group p :=
    (hl.mem_group x p).mp (.inl (by rw [hg]; exact mem_append_right done mem_cons_self))
  obtain ⟨hself, hother⟩ := updated hpc
  have hσ' : ∀ q, q ≠ x → σ'.phase q = σ.phase q := fun q hq => by rw [hσ, update_of_ne hq]
  refine ⟨fun q hq => ?_, fun q hq => ?_, fun q m w' hq => ?_, fun y q hy hr' => ?_⟩
  · have hqp : q ≠ p := by
      rintro rfl
      rw [hl.walking (by rw [hs]; rfl)] at hq
      cases hq
    rw [hother q hqp, hσ' q fun e => by rw [e, hxg] at hq; cases hq]
    exact h.free q hq
  · rw [hσ' q fun e => by rw [e, hxg] at hq; cases hq]
    exact h.shared q hq
  · rw [hn]
    rcases eq_or_ne q p with rfl | hqp
    · rw [hself] at hq
      cases hq
      have hnd := linked_nodup (hl.groups q)
      rw [hg] at hnd
      have hxr : x ∉ rest := (nodup_cons.mp (nodup_append.mp hnd).2.1).1
      refine ⟨done ++ [x], rest, by rw [hg, append_assoc]; rfl, path_append.mpr ⟨some x, hpath, rfl, rfl⟩,
        fun y hy => ?_, fun y hy => ?_⟩
      · rcases eq_or_ne y x with rfl | hyx
        · rw [hσ, update_self]
        · rw [hσ' y hyx]
          rcases mem_append.mp hy with hy | hy
          · exact hd y hy
          · exact absurd (mem_singleton.mp hy) hyx
      · rw [hσ' y fun e => hxr (e ▸ hy)]
        exact hr y (mem_cons_of_mem x hy)
    · rw [hother q hqp] at hq
      obtain ⟨done', rest', hg', hp', hd', hr''⟩ := h.walk q m w' hq
      have hne : ∀ y ∈ g q, y ≠ x := by
        rintro y hy rfl
        have := hxg.symm.trans ((hl.mem_group y q).mp (.inl hy))
        cases this
        exact hqp rfl
      refine ⟨done', rest', hg', hp', fun y hy => ?_, fun y hy => ?_⟩
      · rw [hσ' y (hne y (by rw [hg']; exact mem_append_left rest' hy))]; exact hd' y hy
      · rw [hσ' y (hne y (by rw [hg']; exact mem_append_right done' hy))]; exact hr'' y hy
  · have hqp : q ≠ p := by
      rintro rfl
      rw [hself] at hr'
      cases hr'
    rw [hother q hqp] at hr'
    rw [hσ' y fun e => by
      rw [e, hxg] at hy
      cases hy
      exact hqp rfl]
    exact h.woken y q hy hr'

/-- At the end of the list all members have been cleared. -/
theorem Phases.walked (hl : Lists s l g place) {w : Option Nat} (hs : s.pc p = .walk none w)
    (hpc : t.pc = update s.pc p (.wake w)) (hn : t.procArrayGroupNext = s.procArrayGroupNext) :
    Phases t g place σ := by
  obtain ⟨hself, hother⟩ := updated hpc
  obtain ⟨done, rest, hg, hpath, hd, hr⟩ := h.walk p none w hs
  have hlinked := hl.groups p
  rw [hs] at hlinked
  have hdone : g p = done := linked_unique hlinked hpath
  refine ⟨fun q hq => ?_, h.shared, fun q m w' hq => ?_, fun y q hy hr' => ?_⟩
  · have hqp : q ≠ p := by
      rintro rfl
      rw [hl.walking (by rw [hs]; rfl)] at hq
      cases hq
    rw [hother q hqp]
    exact h.free q hq
  · rcases eq_or_ne q p with rfl | hqp
    · rw [hself] at hq; cases hq
    · rw [hother q hqp] at hq
      rw [hn]
      exact h.walk q m w' hq
  · rcases eq_or_ne q p with rfl | hqp
    · rcases (hl.mem_group y q).mpr hy with hm | hm
      · exact hd y (hdone ▸ hm)
      · rw [hs] at hm; cases hm
    · rw [hother q hqp] at hr'; exact h.woken y q hy hr'

theorem Phases.take {r : List Nat} {n : Option Nat} (hs : s.pc p = .wake (some x))
    (hpc : t.pc = update s.pc p (.wakeWrite x n)) (hn : t.procArrayGroupNext = s.procArrayGroupNext)
    (hfree : place p = .free → σ.phase p = .cleared) : Phases t (update g p r) place σ := by
  obtain ⟨hself, hother⟩ := updated hpc
  refine ⟨fun q hq => ?_, h.shared, fun q m w hq => ?_, fun y q hy hr => ?_⟩
  · rcases eq_or_ne q p with rfl | hqp
    · rw [hself]; exact hfree hq
    · rw [hother q hqp]; exact h.free q hq
  · rcases eq_or_ne q p with rfl | hqp
    · rw [hself] at hq; cases hq
    · rw [hother q hqp] at hq
      rw [update_of_ne hqp, hn]
      exact h.walk q m w hq
  · rcases eq_or_ne q p with rfl | hqp
    · exact h.woken y q hy (by rw [hs]; rfl)
    · rw [hother q hqp] at hr; exact h.woken y q hy hr

theorem Phases.release (hl : Lists s l g place) {w : Option Nat} (hs : s.pc p = .wakeFlag x w)
    (hpc : t.pc = update s.pc p (if x = p then .wake w else .wakeUnlock x w))
    (hn : t.procArrayGroupNext = s.procArrayGroupNext) : Phases t g (update place x .free) σ := by
  have hplace : place x = .group p := (hl.mem_group x p).mp (.inr (by rw [hs]; rfl))
  have hx : σ.phase x = .cleared := h.woken x p hplace (by rw [hs]; rfl)
  obtain ⟨hself, hother⟩ := updated hpc
  have hrole : ∀ q, (t.pc q).role = (s.pc q).role := by
    rw [hpc]; exact apply_update (by rw [hs]; split_ifs <;> rfl)
  refine ⟨fun q hq => ?_, fun q hq => ?_, fun q m w' hq => ?_, fun y q hy hr => ?_⟩
  · rcases eq_or_ne q p with rfl | hqp
    · -- the leader, released before or just now
      have hcl : σ.phase q = .cleared := by
        rcases eq_or_ne q x with rfl | hqx
        · exact hx
        · rw [update_of_ne hqx] at hq
          have := h.free q hq
          rw [hs] at this
          exact this
      rw [hself]
      split_ifs <;> exact hcl
    · rw [hother q hqp]
      rcases eq_or_ne q x with rfl | hqx
      · have hro := hl.allows q
        rw [hplace] at hro
        have hfol := hro.resolve_right fun hr => hqp hr.1.symm
        cases hpcq : s.pc q <;> rw [hpcq] at hfol <;> first | exact hx | cases hfol
      · rw [update_of_ne hqx] at hq; exact h.free q hq
  · rcases eq_or_ne q x with rfl | hqx
    · rw [update_self] at hq; cases hq
    · rw [update_of_ne hqx] at hq; exact h.shared q hq
  · rcases eq_or_ne q p with rfl | hqp
    · rw [hself] at hq; split_ifs at hq
    · rw [hother q hqp] at hq
      rw [hn]
      exact h.walk q m w' hq
  · rw [hrole] at hr
    rcases eq_or_ne y x with rfl | hyx
    · exact hx
    · rw [update_of_ne hyx] at hy; exact h.woken y q hy hr

end

theorem PgProc.ended_cleared (r : PgProc) : r.ended.Cleared := ⟨rfl, rfl, rfl, rfl⟩

section
variable (h : Entries s σ) (hpc : t.pc = update s.pc p c)
include h hpc

/-- Only what belongs to one process changes. -/
theorem Entries.own
    (hproc : ∀ q, q ≠ p → t.proc q = s.proc q)
    (hxid : ∀ q, q ≠ p → t.procArrayGroupMemberXid q = s.procArrayGroupMemberXid q)
    (hσ : σ'.phase = update σ.phase p f)
    (hv : ∀ l, f = .called l → toXid l = invalidTransactionId → ∃ x, c = .start x)
    (hr : ∀ l, f = .called l → toXid l ≠ invalidTransactionId → (t.proc p).pgxact.xid ≠ invalidTransactionId)
    (hc : f = .cleared → (t.proc p).Cleared)
    (hx : ∀ l, f = .called l → c.latestXid.getD (t.procArrayGroupMemberXid p) = toXid l) : Entries t σ' := by
  obtain ⟨hself, hother⟩ := updated hpc
  obtain ⟨hσp, hσ'⟩ := updated hσ
  refine ⟨fun q l hq => ?_, fun q l hq => ?_, fun q hq => ?_, fun q l hq => ?_⟩ <;> rcases eq_or_ne q p with rfl | hqp
  · rw [hself]; exact hv l (hσp.symm.trans hq)
  · rw [hother q hqp]; exact h.valid q l ((hσ' q hqp).symm.trans hq)
  · exact hr l (hσp.symm.trans hq)
  · rw [hproc q hqp]; exact h.running q l ((hσ' q hqp).symm.trans hq)
  · exact hc (hσp.symm.trans hq)
  · rw [hproc q hqp]; exact h.cleared q ((hσ' q hqp).symm.trans hq)
  · rw [hself]; exact hx l (hσp.symm.trans hq)
  · rw [hother q hqp, hxid q hqp]; exact h.xid q l ((hσ' q hqp).symm.trans hq)

/-- A process moves on, and the entries stay as they are. -/
theorem Entries.move (hproc : t.proc = s.proc)
    (hxid : t.procArrayGroupMemberXid = s.procArrayGroupMemberXid) (hlat : c.latestXid = (s.pc p).latestXid)
    (hstart : ∀ x, s.pc p ≠ .start x) : Entries t σ := by
  refine h.own (f := σ.phase p) hpc (fun q _ => by rw [hproc]) (fun q _ => by rw [hxid])
    (update_eq_self p σ.phase).symm (fun l hl h0 => ?_) (fun l hl h0 => ?_) (fun hc => ?_) fun l hl => ?_
  · obtain ⟨x, hx⟩ := h.valid p l hl h0
    exact absurd hx (hstart x)
  · rw [hproc]; exact h.running p l hl h0
  · rw [hproc]; exact h.cleared p hc
  · rw [hlat, hxid]; exact h.xid p l hl

/-- The entry of a member is cleared by its leader. -/
theorem Entries.clearMember
    (hproc : t.proc = update s.proc x (s.proc x).ended)
    (hxid : t.procArrayGroupMemberXid = s.procArrayGroupMemberXid) (hlat : c.latestXid = (s.pc p).latestXid)
    (hstart : ∀ y, s.pc p ≠ .start y) (hσ : σ'.phase = update σ.phase x .cleared) : Entries t σ' := by
  have hlat' : ∀ q, (t.pc q).latestXid = (s.pc q).latestXid := by rw [hpc]; exact apply_update hlat
  have hold : ∀ q l, σ'.phase q = .called l → q ≠ x ∧ σ.phase q = .called l := by
    intro q l hq
    have hqx : q ≠ x := by
      rintro rfl
      rw [hσ, update_self] at hq
      cases hq
    rw [hσ, update_of_ne hqx] at hq
    exact ⟨hqx, hq⟩
  refine ⟨fun q l hq h0 => ?_, fun q l hq h0 => ?_, fun q hq => ?_, fun q l hq => ?_⟩
  · obtain ⟨y, hy⟩ := h.valid q l (hold q l hq).2 h0
    have hqp : q ≠ p := by
      rintro rfl
      exact hstart y hy
    exact ⟨y, by rw [hpc, update_of_ne hqp]; exact hy⟩
  · rw [hproc, update_of_ne (hold q l hq).1]
    exact h.running q l (hold q l hq).2 h0
  · rcases eq_or_ne q x with rfl | hqx
    · rw [hproc, update_self]; exact PgProc.ended_cleared _
    · rw [hσ, update_of_ne hqx] at hq
      rw [hproc, update_of_ne hqx]
      exact h.cleared q hq
  · rw [hlat', hxid]; exact h.xid q l (hold q l hq).2

end

end Phases
end PgStorage.Procarray
