import PgStorage.Procarray.Phases

/-! Every step keeps the invariant. -/
namespace PgStorage.Procarray
open Links Locks
open Function Option Spec

section Steps
variable {σ₀ σ : Spec} {s t : Sys} {l : List Nat} {g : Nat → List Nat} {place : Nat → Place} {p x : Nat} {c : Pc}
  {a : Act}

theorem Spec.run_snoc {e : Event} {τ : Spec} {hist : List Event} (h : σ₀.run hist = some σ)
    (he : σ.next e = some τ) : σ₀.run (hist ++ [e]) = some τ := by
  rw [run, List.foldlM_append, ← run, h]
  simp only [bind_eq_bind, bind_some, List.foldlM_cons, List.foldlM_nil, he]
  rfl

theorem Spec.next_call (h : σ.phase p = .out) (x : Nat) :
    σ.next (.call p x) = some {σ with phase := update σ.phase p (.called x)} := by
  rw [next, h]

theorem Spec.next_clear {q n : Nat} (h : σ.phase p = .called n) :
    σ.next (.clear q p) = some ⟨update σ.phase p .cleared, max σ.latest n⟩ := by
  rw [next, h]

theorem Spec.next_ret {f : Bool} (h : σ.phase p = .cleared) :
    σ.next (.ret p f) = some {σ with phase := update σ.phase p .out} := by
  rw [next, h]

theorem Sys.lockFree_iff : s.lockFree = true ↔ s.lock = none ∧ s.outside = 0 := by
  rw [Sys.lockFree, Bool.and_eq_true, isNone_iff_eq_none, beq_iff_eq]

section
variable (h : Inv σ₀ s l g place σ)
include h

/-- A process that is on no list goes on in its call. -/
theorem Inv.goOn (hpc : t.pc = update s.pc p c) (ho : Owner Pc.locked t.pc t.lock)
    (ha : t.lock ≠ none → t.outside = 0) (hl : Lists t l g place) (hph : Phases t g place σ)
    (hproc : t.proc = s.proc) (hxid : t.procArrayGroupMemberXid = s.procArrayGroupMemberXid)
    (hlat : c.latestXid = (s.pc p).latestXid) (hstart : ∀ x, s.pc p ≠ .start x) (hh : t.hist = s.hist) :
    Holds σ₀ t :=
  ⟨l, g, place, σ, ho, ha, hl, hph, h.entries.move hpc hproc hxid hlat hstart, by rw [hh]; exact h.hist⟩

/-- A call whose transaction has been cleared returns. -/
theorem Inv.ret {f : Bool} (hfree : place p = .free) (hcl : σ.phase p = .cleared)
    (hrole : (s.pc p).role ≠ .leading) (hhead : (s.pc p).head = none) (hcur : (s.pc p).current = none)
    (hpc : t.pc = update s.pc p .idle) (ho : Owner Pc.locked t.pc t.lock) (ha : t.lock ≠ none → t.outside = 0)
    (hn : t.procArrayGroupNext = s.procArrayGroupNext) (hf : t.procArrayGroupFirst = s.procArrayGroupFirst)
    (hm : t.procArrayGroupMember = s.procArrayGroupMember) (hproc : t.proc = s.proc)
    (hxid : t.procArrayGroupMemberXid = s.procArrayGroupMemberXid) (hh : t.hist = s.hist ++ [.ret p f]) :
    Holds σ₀ t := by
  refine ⟨l, g, place, _, ho, ha, ?_, h.phases.own h.lists hfree hpc hn rfl (f := .out) rfl rfl, ?_,
    by rw [hh]; exact run_snoc h.hist (next_ret hcl)⟩
  · exact h.lists.change hpc hn hf (fun q hq => by rw [hm]; exact hq) (by rw [hfree]; exact .inl rfl)
      (iff_of_false nofun hrole) (fun _ => nofun) hhead.symm hcur.symm nofun nofun nofun
  · exact h.entries.own hpc (fun q _ => by rw [hproc]) (fun q _ => by rw [hxid]) rfl nofun nofun nofun nofun

/-- A transaction without an id needs no lock, and the others go on to the lock or to the list. -/
theorem inv_start (hs : s.pc p = .start x) (ht : s.continue p = some t) : Holds σ₀ t := by
  have hfree : place p = .free := h.lists.outside (by rw [hs]; rfl)
  obtain ⟨n, hn⟩ : ∃ n, σ.phase p = .called n := by
    have := h.phases.free p hfree
    rw [hs] at this
    exact this
  have hx : x = toXid n := by
    have := h.entries.xid p n hn
    rw [hs] at this
    exact this
  have hkeep : ∀ {t : Sys} {c : Pc}, t.pc = update s.pc p c → t.proc = s.proc →
      t.procArrayGroupMemberXid = s.procArrayGroupMemberXid → c.latestXid = some x → x ≠ invalidTransactionId →
      Entries t σ := by
    intro t c hpc hproc hmx hlat hne
    refine h.entries.own (f := σ.phase p) hpc (fun q _ => by rw [hproc]) (fun q _ => by rw [hmx])
      (update_eq_self p σ.phase).symm (fun m hm h0 => ?_) (fun m hm h0 => ?_) (fun hc => ?_) fun m hm => ?_
    · rw [hn] at hm
      cases hm
      exact absurd (hx.trans h0) hne
    · rw [hproc]; exact h.entries.running p m hm h0
    · rw [hn] at hc; cases hc
    · rw [hlat]
      rw [hn] at hm
      cases hm
      exact hx
  have hmove : ∀ {t : Sys} {c : Pc}, t.pc = update s.pc p c →
      t.procArrayGroupNext = s.procArrayGroupNext → t.procArrayGroupFirst = s.procArrayGroupFirst →
      t.procArrayGroupMember = s.procArrayGroupMember → c.role = .outside → c.head = none → c.current = none →
      c.enrolled = false → (∀ n, c ≠ .cas n) → Lists t l g place := by
    intro t c hpc h1 h2 h3 hr hhd hcu he hc
    refine h.lists.move hpc h1 h2 (fun q hq => by rw [h3]; exact hq) (by rw [hr, hs]; rfl) (by rw [hhd, hs]; rfl)
      (by rw [hcu, hs]; rfl) (fun e => Bool.noConfusion (he.symm.trans e)) (fun m e => absurd e (hc m)) fun y w e => ?_
    rw [e] at hr
    cases hr
  unfold Sys.continue at ht
  rw [hs] at ht
  dsimp only at ht
  split_ifs at ht with h0 hlock
  · obtain rfl := some_inj.mp ht
    have hnext : σ.next (.ret p false) = some {σ with phase := update σ.phase p .out} := by
      rw [next, hn]
      exact if_pos (hx.symm.trans h0)
    refine ⟨l, g, place, _, h.owner.keep (by rw [hs]; rfl), h.alone, hmove rfl rfl rfl rfl rfl rfl rfl rfl nofun,
      h.phases.own h.lists hfree rfl rfl rfl (f := .out) rfl rfl, ?_, run_snoc h.hist hnext⟩
    exact h.entries.own rfl (fun q hq => update_of_ne hq ..) (fun _ _ => rfl) rfl nofun nofun nofun nofun
  · obtain rfl := some_inj.mp ht
    obtain ⟨hl, hout⟩ := Sys.lockFree_iff.mp hlock
    have ho := h.owner
    rw [hl] at ho
    exact ⟨l, g, place, σ, ho.acquire rfl, fun _ => hout, hmove rfl rfl rfl rfl rfl rfl rfl rfl nofun,
      h.phases.move rfl (fun _ _ _ => rfl) (fun _ => ⟨n, hn⟩) nofun nofun, hkeep rfl rfl rfl rfl h0, h.hist⟩
  · obtain rfl := some_inj.mp ht
    exact ⟨l, g, place, σ, h.owner.keep (by rw [hs]; rfl), h.alone, hmove rfl rfl rfl rfl rfl rfl rfl rfl nofun,
      h.phases.move rfl (fun _ _ _ => rfl) (fun _ => ⟨n, hn⟩) nofun nofun, hkeep rfl rfl rfl rfl h0, h.hist⟩

/-- A process that has the lock clears its own entry. -/
theorem inv_direct (hs : s.pc p = .direct x) :
    Holds σ₀ ((procArrayEndTransactionInternal s p p x).goto p .directRelease) := by
  have hfree : place p = .free := h.lists.outside (by rw [hs]; rfl)
  obtain ⟨n, hn⟩ : ∃ n, σ.phase p = .called n := by
    have := h.phases.free p hfree
    rw [hs] at this
    exact this
  refine ⟨l, g, place, _, h.owner.keep (by rw [hs]; rfl), h.alone, ?_,
    h.phases.own h.lists hfree rfl rfl rfl (f := .cleared) rfl rfl, ?_, run_snoc h.hist (next_clear hn)⟩
  · exact h.lists.move rfl rfl rfl (fun _ hq => hq) (by rw [hs]; rfl) (by rw [hs]; rfl) (by rw [hs]; rfl) nofun nofun nofun
  · refine h.entries.own rfl (fun q hq => update_of_ne hq ..) (fun _ _ => rfl) rfl nofun nofun (fun _ => ?_) nofun
    show (update s.proc p (s.proc p).ended p).Cleared
    rw [update_self]
    exact PgProc.ended_cleared _

theorem inv_enroll (hs : s.pc p = .enroll x) :
    Holds σ₀ ({s with
      procArrayGroupMember := update s.procArrayGroupMember p true
      procArrayGroupMemberXid := update s.procArrayGroupMemberXid p x}.goto p .readFirst) := by
  have hfree : place p = .free := h.lists.outside (by rw [hs]; rfl)
  have hcalled : ∃ n, σ.phase p = .called n := by
    have := h.phases.free p hfree
    rw [hs] at this
    exact this
  refine ⟨l, g, place, σ, h.owner.keep (by rw [hs]; rfl), h.alone, ?_,
    h.phases.move rfl (fun _ _ _ => rfl) (fun _ => hcalled) nofun nofun, ?_, h.hist⟩
  · refine h.lists.move rfl rfl rfl (fun q hq => ?_) (by rw [hs]; rfl) (by rw [hs]; rfl) (by rw [hs]; rfl)
      (fun _ => update_self ..) nofun nofun
    show update s.procArrayGroupMember p true q = true
    rcases eq_or_ne q p with rfl | hq'
    · rw [update_self]
    · rw [update_of_ne hq']; exact hq
  · refine h.entries.own (f := σ.phase p) rfl (fun _ _ => rfl) (fun q hq => update_of_ne hq ..)
      (update_eq_self p σ.phase).symm (fun m hm h0 => ?_) (h.entries.running p) (h.entries.cleared p) fun m hm => ?_
    · obtain ⟨y, hy⟩ := h.entries.valid p m hm h0
      rw [hs] at hy
      cases hy
    · have := h.entries.xid p m hm
      rw [hs] at this
      show update s.procArrayGroupMemberXid p x p = toXid m
      rw [update_self]
      exact this

/-- The steps of a process that waits for its turn on the list, or to be woken. -/
theorem Inv.outside_step (hpc : t.pc = update s.pc p c)
    (hn : t.procArrayGroupNext = s.procArrayGroupNext) (hf : t.procArrayGroupFirst = s.procArrayGroupFirst)
    (hm : t.procArrayGroupMember = s.procArrayGroupMember) (hk : t.lock = s.lock) (hout : t.outside = s.outside)
    (hproc : t.proc = s.proc) (hxid : t.procArrayGroupMemberXid = s.procArrayGroupMemberXid) (hh : t.hist = s.hist)
    (hrole : c.role = (s.pc p).role) (hhead : c.head = (s.pc p).head) (hcur : c.current = (s.pc p).current)
    (hlock : c.locked = (s.pc p).locked) (hlat : c.latestXid = (s.pc p).latestXid)
    (henr : c.enrolled = true → s.procArrayGroupMember p = true)
    (hphase : place p = .free → c.FreePhase (σ.phase p)) (hstart : ∀ x, s.pc p ≠ .start x)
    (hcas : ∀ n, c ≠ .cas n) (hflag : ∀ x w, c ≠ .wakeFlag x w) (hwalk : ∀ n w, c ≠ .walk n w) : Holds σ₀ t := by
  refine h.goOn hpc (by rw [hpc, hk]; exact h.owner.keep hlock) (by rw [hk, hout]; exact h.alone) ?_
    (h.phases.move hpc (fun _ _ _ => by rw [hn]) hphase hwalk fun hr => hrole.symm.trans hr) hproc hxid hlat hstart hh
  exact h.lists.move hpc hn hf (fun q hq => by rw [hm]; exact hq) hrole hhead hcur (fun e => by rw [hm]; exact henr e)
    (fun n e => absurd e (hcas n)) fun y w e => absurd e (hflag y w)

theorem Inv.free_phase (hr : (s.pc p).role = .outside) :
    place p = .free ∧ (s.pc p).FreePhase (σ.phase p) :=
  ⟨h.lists.outside hr, h.phases.free p (h.lists.outside hr)⟩

theorem inv_continue (ht : s.continue p = some t) : Holds σ₀ t := by
  cases hs : s.pc p with
  | start x => exact inv_start h hs ht
  | idle => rw [Sys.continue, hs] at ht; cases ht
  | direct x =>
    rw [Sys.continue, hs] at ht
    obtain rfl := some_inj.mp ht
    exact inv_direct h hs
  | directRelease =>
    rw [Sys.continue, hs] at ht
    obtain rfl := some_inj.mp ht
    obtain ⟨hfree, hph⟩ := h.free_phase (p := p) (by rw [hs]; rfl)
    rw [hs] at hph
    exact h.ret hfree hph (by rw [hs]; nofun) (by rw [hs]; rfl) (by rw [hs]; rfl) rfl
      (h.owner.release (by rw [hs]; rfl) rfl) (fun e => absurd rfl e) rfl rfl rfl rfl rfl rfl
  | enroll x =>
    rw [Sys.continue, hs] at ht
    obtain rfl := some_inj.mp ht
    exact inv_enroll h hs
  | readFirst =>
    rw [Sys.continue, hs] at ht
    obtain rfl := some_inj.mp ht
    obtain ⟨-, hph⟩ := h.free_phase (p := p) (by rw [hs]; rfl)
    rw [hs] at hph
    exact h.outside_step rfl rfl rfl rfl rfl rfl rfl rfl rfl (by rw [hs]; rfl) (by rw [hs]; rfl) (by rw [hs]; rfl)
      (by rw [hs]; rfl) (by rw [hs]; rfl) (fun _ => h.lists.member p (.inr (by rw [hs]; rfl))) (fun _ => hph)
      (by rw [hs]; nofun) nofun nofun nofun
  | writeNext n =>
    rw [Sys.continue, hs] at ht
    obtain rfl := some_inj.mp ht
    obtain ⟨hfree, hph⟩ := h.free_phase (p := p) (by rw [hs]; rfl)
    rw [hs] at hph
    have hne : ∀ q, ∀ y ∈ g q, y ≠ p := fun q y hy e => (h.lists.not_current (.inl hfree) q).1 (e ▸ hy)
    exact h.goOn rfl (h.owner.keep (by rw [hs]; rfl)) h.alone (h.lists.writeNext hs rfl rfl rfl rfl)
      (h.phases.move rfl (fun q y hy => update_of_ne (hne q y hy) ..) (fun _ => hph) nofun nofun)
      rfl rfl (by rw [hs]; rfl) (by rw [hs]; nofun) rfl
  | cas n =>
    rw [Sys.continue, hs] at ht
    dsimp only at ht
    obtain ⟨hfree, hph⟩ := h.free_phase (p := p) (by rw [hs]; rfl)
    rw [hs] at hph
    by_cases hfirst : s.procArrayGroupFirst = n
    · rw [if_pos hfirst] at ht
      obtain rfl := some_inj.mp ht
      refine ⟨p :: l, g, _, σ, h.owner.keep (by rw [hs]; split_ifs <;> rfl), h.alone,
        h.lists.push hs hfirst rfl rfl rfl rfl, h.phases.push hs hfree rfl rfl, ?_, h.hist⟩
      exact h.entries.move rfl rfl rfl (by rw [hs]; split_ifs <;> rfl) (by rw [hs]; nofun)
    · rw [if_neg hfirst] at ht
      obtain rfl := some_inj.mp ht
      exact h.outside_step rfl rfl rfl rfl rfl rfl rfl rfl rfl (by rw [hs]; rfl) (by rw [hs]; rfl) (by rw [hs]; rfl)
        (by rw [hs]; rfl) (by rw [hs]; rfl) (fun _ => h.lists.member p (.inr (by rw [hs]; rfl))) (fun _ => hph)
        (by rw [hs]; nofun) nofun nofun nofun
  | sleep e =>
    rw [Sys.continue, hs] at ht
    dsimp only at ht
    split_ifs at ht with h0
    obtain rfl := some_inj.mp ht
    have hph := h.phases.free p
    rw [hs] at hph
    exact h.outside_step rfl rfl rfl rfl rfl rfl rfl rfl rfl (by rw [hs]; rfl) (by rw [hs]; rfl) (by rw [hs]; rfl)
      (by rw [hs]; rfl) (by rw [hs]; rfl) nofun hph (by rw [hs]; nofun) nofun nofun nofun
  | check e =>
    rw [Sys.continue, hs] at ht
    dsimp only at ht
    have hph := h.phases.free p
    rw [hs] at hph
    split_ifs at ht with hmem
    · obtain rfl := some_inj.mp ht
      exact h.outside_step rfl rfl rfl rfl rfl rfl rfl rfl rfl (by rw [hs]; rfl) (by rw [hs]; rfl) (by rw [hs]; rfl)
        (by rw [hs]; rfl) (by rw [hs]; rfl) nofun hph (by rw [hs]; nofun) nofun nofun nofun
    · -- its flag has been reset, so it is on no list
      obtain rfl := some_inj.mp ht
      have hfree : place p = .free := by
        by_contra hne
        exact hmem (h.lists.member p (.inl hne))
      exact h.goOn rfl (h.owner.keep (by rw [hs]; rfl)) h.alone
        (h.lists.change rfl rfl rfl (fun _ hq => hq) (by rw [hfree]; exact .inl rfl) (by rw [hs]; exact iff_of_false nofun nofun)
          (fun _ => nofun) (by rw [hs]; rfl) (by rw [hs]; rfl) nofun nofun nofun)
        (h.phases.move rfl (fun _ _ _ => rfl) hph nofun nofun) rfl rfl (by rw [hs]; rfl) (by rw [hs]; nofun) rfl
  | giveBack e =>
    obtain ⟨hfree, hph⟩ := h.free_phase (p := p) (by rw [hs]; rfl)
    rw [hs] at hph
    cases e with
    | zero =>
      rw [Sys.continue, hs] at ht
      obtain rfl := some_inj.mp ht
      exact h.ret hfree hph (by rw [hs]; nofun) (by rw [hs]; rfl) (by rw [hs]; rfl) rfl
        (h.owner.keep (by rw [hs]; rfl)) h.alone rfl rfl rfl rfl rfl rfl
    | succ e =>
      rw [Sys.continue, hs] at ht
      obtain rfl := some_inj.mp ht
      exact h.outside_step rfl rfl rfl rfl rfl rfl rfl rfl rfl (by rw [hs]; rfl) (by rw [hs]; rfl) (by rw [hs]; rfl)
        (by rw [hs]; rfl) (by rw [hs]; rfl) nofun (fun _ => hph) (by rw [hs]; nofun) nofun nofun nofun
  | lead =>
    rw [Sys.continue, hs] at ht
    dsimp only at ht
    split_ifs at ht with hlock
    obtain rfl := some_inj.mp ht
    obtain ⟨hl, hout⟩ := Sys.lockFree_iff.mp hlock
    have ho := h.owner
    rw [hl] at ho
    have hsh := h.lists.leading (p := p) (by rw [hs]; rfl)
    exact h.goOn rfl (ho.acquire rfl) (fun _ => hout)
      (h.lists.move rfl rfl rfl (fun _ hq => hq) (by rw [hs]; rfl) (by rw [hs]; rfl) (by rw [hs]; rfl) nofun nofun nofun)
      (h.phases.move rfl (fun _ _ _ => rfl) (fun e => by rw [hsh] at e; cases e) nofun nofun) rfl rfl (by rw [hs]; rfl)
      (by rw [hs]; nofun) rfl
  | detach =>
    rw [Sys.continue, hs] at ht
    obtain rfl := some_inj.mp ht
    have hsh := h.lists.leading (p := p) (by rw [hs]; rfl)
    exact h.outside_step rfl rfl rfl rfl rfl rfl rfl rfl rfl (by rw [hs]; rfl) (by rw [hs]; rfl) (by rw [hs]; rfl)
      (by rw [hs]; rfl) (by rw [hs]; rfl) nofun (fun e => by rw [hsh] at e; cases e) (by rw [hs]; nofun) nofun nofun nofun
  | detachCas n =>
    rw [Sys.continue, hs] at ht
    dsimp only at ht
    have hsh := h.lists.leading (p := p) (by rw [hs]; rfl)
    by_cases hfirst : s.procArrayGroupFirst = n
    · rw [if_pos hfirst] at ht
      obtain rfl := some_inj.mp ht
      exact ⟨[], _, _, σ, h.owner.keep (by rw [hs]; rfl), h.alone, h.lists.takeOver hs hfirst rfl rfl rfl rfl,
        h.phases.takeOver h.lists hs rfl rfl, h.entries.move rfl rfl rfl (by rw [hs]; rfl) (by rw [hs]; nofun), h.hist⟩
    · rw [if_neg hfirst] at ht
      obtain rfl := some_inj.mp ht
      exact h.outside_step rfl rfl rfl rfl rfl rfl rfl rfl rfl (by rw [hs]; rfl) (by rw [hs]; rfl) (by rw [hs]; rfl)
        (by rw [hs]; rfl) (by rw [hs]; rfl) nofun (fun e => by rw [hsh] at e; cases e) (by rw [hs]; nofun) nofun nofun
        nofun
  | walk n w =>
    cases n with
    | some x =>
      rw [Sys.continue, hs] at ht
      obtain rfl := some_inj.mp ht
      obtain ⟨done, rest, -, -, -, hr⟩ := h.phases.ahead h.lists hs
      obtain ⟨n, hn⟩ := hr x List.mem_cons_self
      exact ⟨l, g, place, _, h.owner.keep (by rw [hs]; rfl), h.alone,
        h.lists.move rfl rfl rfl (fun _ hq => hq) (by rw [hs]; rfl) (by rw [hs]; rfl) (by rw [hs]; rfl) nofun nofun nofun,
        h.phases.clearMember h.lists hs rfl rfl rfl,
        h.entries.clearMember rfl rfl rfl (by rw [hs]; rfl) (by rw [hs]; nofun) rfl,
        run_snoc h.hist (next_clear hn)⟩
    | none =>
      rw [Sys.continue, hs] at ht
      obtain rfl := some_inj.mp ht
      have hw := h.lists.walking (p := p) (by rw [hs]; rfl)
      exact h.goOn rfl (h.owner.release (by rw [hs]; rfl) rfl) (fun e => absurd rfl e)
        (h.lists.change rfl rfl rfl (fun _ hq => hq) (by rw [hw]; exact .inr ⟨rfl, .inr rfl⟩)
          (by rw [hs]; exact iff_of_false nofun nofun) (fun _ => nofun) (by rw [hs]; rfl) (by rw [hs]; rfl) nofun nofun nofun)
        (h.phases.walked h.lists hs rfl rfl) rfl rfl (by rw [hs]; rfl) (by rw [hs]; nofun) rfl
  | wake w =>
    have hph := h.phases.free p
    rw [hs] at hph
    cases w with
    | some x =>
      rw [Sys.continue, hs] at ht
      obtain rfl := some_inj.mp ht
      have hlinked := h.lists.groups p
      rw [hs] at hlinked
      obtain ⟨r, hr, -⟩ := linked_some hlinked
      exact ⟨l, _, place, σ, h.owner.keep (by rw [hs]; rfl), h.alone, h.lists.take hs rfl hr rfl rfl rfl,
        h.phases.take hs rfl rfl hph, h.entries.move rfl rfl rfl (by rw [hs]; rfl) (by rw [hs]; nofun), h.hist⟩
    | none =>
      rw [Sys.continue, hs] at ht
      obtain rfl := some_inj.mp ht
      have hnil := h.lists.head_none (p := p) (by rw [hs]; rfl)
      have hfree : place p = .free := by
        have hall := h.lists.allows p
        rw [hs] at hall
        cases hp : place p with
        | free => rfl
        | shared => rw [hp] at hall; rcases hall with hr | hr <;> cases hr
        | group q =>
          rw [hp] at hall
          rcases hall with hr | ⟨rfl, -⟩
          · cases hr
          · rcases (h.lists.mem_group q q).mpr hp with hm | hm
            · rw [hnil] at hm; cases hm
            · rw [hs] at hm; cases hm
      exact h.ret hfree (hph hfree) (by rw [hs]; nofun) (by rw [hs]; rfl) (by rw [hs]; rfl) rfl
        (h.owner.keep (by rw [hs]; rfl)) h.alone rfl rfl rfl rfl rfl rfl
  | wakeWrite x w =>
    rw [Sys.continue, hs] at ht
    obtain rfl := some_inj.mp ht
    have hph := h.phases.free p
    rw [hs] at hph
    have hne : ∀ q, ∀ y ∈ g q, y ≠ x := by
      rintro q y hy rfl
      have hg := (h.lists.mem_group y p).mp (.inr (by rw [hs]; rfl))
      have := hg.symm.trans ((h.lists.mem_group y q).mp (.inl hy))
      cases this
      exact h.lists.current y p (by rw [hs]; rfl) hy
    exact h.goOn rfl (h.owner.keep (by rw [hs]; rfl)) h.alone (h.lists.cutLink hs rfl rfl rfl rfl)
      (h.phases.move rfl (fun q y hy => update_of_ne (hne q y hy) ..) hph nofun fun _ => by rw [hs]; rfl)
      rfl rfl (by rw [hs]; rfl) (by rw [hs]; nofun) rfl
  | wakeFlag x w =>
    rw [Sys.continue, hs] at ht
    obtain rfl := some_inj.mp ht
    exact ⟨l, g, _, σ, h.owner.keep (by rw [hs]; split_ifs <;> rfl), h.alone, h.lists.release hs rfl rfl rfl rfl,
      h.phases.release h.lists hs rfl rfl, h.entries.move rfl rfl rfl (by rw [hs]; split_ifs <;> rfl) (by rw [hs]; nofun),
      h.hist⟩
  | wakeUnlock x w =>
    rw [Sys.continue, hs] at ht
    obtain rfl := some_inj.mp ht
    have hph := h.phases.free p
    rw [hs] at hph
    exact ⟨l, g, place, σ, h.owner.keep (by rw [hs]; rfl), h.alone,
      h.lists.move rfl rfl rfl (fun _ hq => hq) (by rw [hs]; rfl) (by rw [hs]; rfl) (by rw [hs]; rfl) nofun nofun nofun,
      h.phases.move rfl (fun _ _ _ => rfl) hph nofun (fun _ => by rw [hs]; rfl),
      h.entries.move rfl rfl rfl (by rw [hs]; rfl) (by rw [hs]; nofun), run_snoc h.hist rfl⟩

end

theorem isIdle_iff {c : Pc} : c.isIdle = true ↔ c = .idle := by
  cases c <;> simp [Pc.isIdle]

/-- The lists do not depend on the entries, the lock and the semaphores. -/
theorem Lists.frame (h : Lists s l g place) (hpc : t.pc = s.pc) (hn : t.procArrayGroupNext = s.procArrayGroupNext)
    (hf : t.procArrayGroupFirst = s.procArrayGroupFirst) (hm : t.procArrayGroupMember = s.procArrayGroupMember) :
    Lists t l g place := by
  have hpc' : t.pc = update s.pc 0 (s.pc 0) := by rw [hpc, update_eq_self]
  exact h.move hpc' hn hf (fun q hq => by rw [hm]; exact hq) rfl rfl rfl
    (fun e => by rw [hm]; exact h.member 0 (.inr e)) (h.link 0) (h.cut 0)

theorem Phases.frame (h : Phases s g place σ) (hpc : t.pc = s.pc) (hn : t.procArrayGroupNext = s.procArrayGroupNext) :
    Phases t g place σ := by
  constructor
  · rw [hpc]; exact h.free
  · exact h.shared
  · rw [hpc, hn]; exact h.walk
  · rw [hpc]; exact h.woken

theorem inv_next (h : Inv σ₀ s l g place σ) (ht : s.next a = some t) : Holds σ₀ t := by
  cases a with
  | step p => exact inv_continue h ht
  | work p r =>
    rw [Sys.next] at ht
    split_ifs at ht with hidle
    obtain rfl := some_inj.mp ht
    have hs := isIdle_iff.mp hidle
    have hout := h.phases.free p (h.lists.outside (by rw [hs]; rfl))
    rw [hs] at hout
    have hout' : σ.phase p = .out := hout
    refine ⟨l, g, place, σ, h.owner, h.alone, h.lists.frame rfl rfl rfl rfl, h.phases.frame rfl rfl, ?_, h.hist⟩
    exact h.entries.own (c := s.pc p) (f := σ.phase p) (update_eq_self p s.pc).symm
      (fun q hq => update_of_ne hq ..) (fun _ _ => rfl) (update_eq_self p σ.phase).symm
      (fun m hm => by rw [hout'] at hm; cases hm) (fun m hm => by rw [hout'] at hm; cases hm)
      (fun hc => by rw [hout'] at hc; cases hc) (fun m hm => by rw [hout'] at hm; cases hm)
  | call p n =>
    rw [Sys.next] at ht
    split_ifs at ht with hcall
    obtain rfl := some_inj.mp ht
    have hs := isIdle_iff.mp hcall.1
    obtain ⟨hfree, hph⟩ := h.free_phase (p := p) (by rw [hs]; rfl)
    rw [hs] at hph
    refine ⟨l, g, place, _, h.owner.keep (by rw [hs]; rfl), h.alone, ?_,
      h.phases.own h.lists hfree rfl rfl rfl (f := .called n) ⟨n, rfl⟩ rfl, ?_,
      run_snoc h.hist (next_call hph n)⟩
    · exact h.lists.move rfl rfl rfl (fun _ hq => hq) (by rw [hs]; rfl) (by rw [hs]; rfl) (by rw [hs]; rfl) nofun nofun
        nofun
    · refine h.entries.own rfl (fun _ _ => rfl) (fun _ _ => rfl) rfl (fun _ _ _ => ⟨_, rfl⟩) (fun m hm h0 => ?_) nofun
        fun m hm => ?_
      · cases hm
        have := hcall.2
        rw [PgXact.callable, if_neg h0] at this
        exact of_decide_eq_true this
      · cases hm
        rfl
  | hold =>
    rw [Sys.next] at ht
    split_ifs at ht with hlock
    obtain rfl := some_inj.mp ht
    exact ⟨l, g, place, σ, h.owner, fun e => absurd hlock e, h.lists.frame rfl rfl rfl rfl, h.phases.frame rfl rfl,
      ⟨h.entries.valid, h.entries.running, h.entries.cleared, h.entries.xid⟩, h.hist⟩
  | drop =>
    obtain rfl := some_inj.mp ht
    exact ⟨l, g, place, σ, h.owner, fun e => by rw [h.alone e], h.lists.frame rfl rfl rfl rfl, h.phases.frame rfl rfl,
      ⟨h.entries.valid, h.entries.running, h.entries.cleared, h.entries.xid⟩, h.hist⟩
  | signal p =>
    obtain rfl := some_inj.mp ht
    exact ⟨l, g, place, σ, h.owner, h.alone, h.lists.frame rfl rfl rfl rfl, h.phases.frame rfl rfl,
      ⟨h.entries.valid, h.entries.running, h.entries.cleared, h.entries.xid⟩, run_snoc h.hist rfl⟩

end Steps
end PgStorage.Procarray
