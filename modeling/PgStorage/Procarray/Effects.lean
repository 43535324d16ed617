import PgStorage.Procarray.Steps

/-! Semaphores and entries, step by step.

Each signal is in a semaphore, absorbed by a call that is still waiting, or used by one that has
returned. An entry changes in one way only while a call with an id is under way: it is cleared by
the process that has the lock. -/
namespace PgStorage.Procarray
open Links Locks
open Function Option Event

section Effects
variable {σ₀ σ : Spec} {s t : Sys} {l : List Nat} {g : Nat → List Nat} {place : Nat → Place} {p x : Nat}
  {c : Pc} {sem : Nat → Nat} {a : Act}

theorem Balanced.keep (h : Balanced sem s) (hpc : t.pc = update s.pc p c) (hsem : t.sem = s.sem)
    (habs : c.absorbed = (s.pc p).absorbed)
    (hret : ∀ q, t.hist.countP (isRet q) = s.hist.countP (isRet q))
    (hpost : ∀ q, t.hist.countP (isPost q) = s.hist.countP (isPost q)) : Balanced sem t := by
  intro q
  have habs' : ∀ q, (t.pc q).absorbed = (s.pc q).absorbed := by rw [hpc]; exact apply_update habs
  rw [hsem, habs', hret, hpost]
  exact h q

/-- Only the balance of one process changes. -/
theorem Balanced.own (h : Balanced sem s) (hpc : t.pc = update s.pc p c)
    (hsem : ∀ q, q ≠ p → t.sem q = s.sem q)
    (hret : ∀ q, q ≠ p → t.hist.countP (isRet q) = s.hist.countP (isRet q))
    (hpost : t.hist.countP (isPost p) = s.hist.countP (isPost p))
    (hpost' : ∀ q, q ≠ p → t.hist.countP (isPost q) = s.hist.countP (isPost q))
    (hp : t.sem p + c.absorbed + t.hist.countP (isRet p) =
      s.sem p + (s.pc p).absorbed + s.hist.countP (isRet p)) : Balanced sem t := by
  intro q
  rw [hpc]
  rcases eq_or_ne q p with rfl | hq
  · rw [update_self, hp, hpost]; exact h q
  · rw [update_of_ne hq, hsem q hq, hret q hq, hpost' q hq]; exact h q

theorem countP_snoc (f : Event → Bool) (hist : List Event) (e : Event) :
    (hist ++ [e]).countP f = hist.countP f + if f e = true then 1 else 0 := by
  rw [List.countP_append, List.countP_singleton]

/-- A signal is posted. -/
theorem Balanced.post (h : Balanced sem s) (habs : ∀ q, (t.pc q).absorbed = (s.pc q).absorbed)
    (hsem : t.sem = update s.sem x (s.sem x + 1)) (hh : t.hist = s.hist ++ [.post x]) : Balanced sem t := by
  intro q
  have hq := h q
  rw [habs, hsem, hh, countP_snoc, countP_snoc]
  rcases eq_or_ne q x with rfl | hne
  · have he : isPost q (.post q) = true := beq_self_eq_true q
    rw [update_self, if_neg (by nofun), if_pos he]
    omega
  · have he : ¬ isPost q (.post x) = true := fun e => hne (beq_iff_eq.mp e).symm
    rw [update_of_ne hne, if_neg (by nofun), if_neg he]
    exact hq

theorem balanced_continue (h : Balanced sem s) (ht : s.continue p = some t) : Balanced sem t := by
  have hclear : ∀ (q : Nat) (f : Nat → Event → Bool), (∀ y, f q (.clear p y) = false) → ∀ y,
      (s.hist ++ [clear p y]).countP (f q) = s.hist.countP (f q) := by
    intro q f hf y
    rw [countP_snoc, hf, if_neg Bool.false_ne_true]
    rfl
  have hret : ∀ (q : Nat) (f : Nat → Event → Bool), f q (.ret p false) = false →
      (s.hist ++ [ret p false]).countP (f q) = s.hist.countP (f q) := by
    intro q f hf
    rw [countP_snoc, hf, if_neg Bool.false_ne_true]
    rfl
  cases hs : s.pc p with
  | idle => rw [Sys.continue, hs] at ht; cases ht
  | start x =>
    rw [Sys.continue, hs] at ht
    dsimp only at ht
    split_ifs at ht
    · obtain rfl := some_inj.mp ht
      exact h.keep rfl rfl (by rw [hs]; rfl) (fun q => hret q _ rfl) (fun q => hret q _ rfl)
    · obtain rfl := some_inj.mp ht
      exact h.keep rfl rfl (by rw [hs]; rfl) (fun _ => rfl) (fun _ => rfl)
    · obtain rfl := some_inj.mp ht
      exact h.keep rfl rfl (by rw [hs]; rfl) (fun _ => rfl) (fun _ => rfl)
  | direct x =>
    rw [Sys.continue, hs] at ht
    obtain rfl := some_inj.mp ht
    exact h.keep rfl rfl (by rw [hs]; rfl) (fun q => hclear q _ (fun _ => rfl) p) (fun q => hclear q _ (fun _ => rfl) p)
  | directRelease =>
    rw [Sys.continue, hs] at ht
    obtain rfl := some_inj.mp ht
    exact h.keep rfl rfl (by rw [hs]; rfl) (fun q => hret q _ rfl) (fun q => hret q _ rfl)
  | enroll x | readFirst | writeNext n | detach | wakeWrite y w =>
    rw [Sys.continue, hs] at ht
    obtain rfl := some_inj.mp ht
    exact h.keep rfl rfl (by rw [hs]; rfl) (fun _ => rfl) (fun _ => rfl)
  | cas n =>
    rw [Sys.continue, hs] at ht
    dsimp only at ht
    by_cases hf : s.procArrayGroupFirst = n
    · rw [if_pos hf] at ht
      obtain rfl := some_inj.mp ht
      exact h.keep rfl rfl (by rw [hs]; split_ifs <;> rfl) (fun _ => rfl) (fun _ => rfl)
    · rw [if_neg hf] at ht
      obtain rfl := some_inj.mp ht
      exact h.keep rfl rfl (by rw [hs]; rfl) (fun _ => rfl) (fun _ => rfl)
  | sleep e =>
    rw [Sys.continue, hs] at ht
    dsimp only at ht
    split_ifs at ht with h0
    obtain rfl := some_inj.mp ht
    refine h.own rfl (fun q hq => update_of_ne hq ..) (fun _ _ => rfl) rfl (fun _ _ => rfl) ?_
    show update s.sem p (s.sem p - 1) p + (e + 1) + _ = _
    rw [update_self, hs]
    show s.sem p - 1 + (e + 1) + _ = s.sem p + e + _
    have : s.sem p - 1 + (e + 1) = s.sem p + e := by omega
    rw [this]
    rfl
  | check e | detachCas n =>
    rw [Sys.continue, hs] at ht
    dsimp only at ht
    split_ifs at ht <;> obtain rfl := some_inj.mp ht <;>
      exact h.keep rfl rfl (by rw [hs]; rfl) (fun _ => rfl) (fun _ => rfl)
  | giveBack e =>
    cases e with
    | zero =>
      rw [Sys.continue, hs] at ht
      obtain rfl := some_inj.mp ht
      refine h.own rfl (fun _ _ => rfl) (fun q hq => ?_) ?_ (fun q hq => ?_) ?_
      · show (s.hist ++ [ret p true]).countP _ = _
        have he : ¬ isRet q (.ret p true) = true := fun e => hq (beq_iff_eq.mp e).symm
        rw [countP_snoc, if_neg he]
        rfl
      · show (s.hist ++ [ret p true]).countP _ = _
        rw [countP_snoc, if_neg (by rintro ⟨⟩)]
        rfl
      · show (s.hist ++ [ret p true]).countP _ = _
        rw [countP_snoc, if_neg (by rintro ⟨⟩)]
        rfl
      · show s.sem p + 0 + (s.hist ++ [ret p true]).countP _ = _
        have he : isRet p (.ret p true) = true := beq_self_eq_true p
        rw [countP_snoc, if_pos he, hs]
        show s.sem p + 0 + (_ + 1) = s.sem p + (0 + 1) + _
        omega
    | succ e =>
      rw [Sys.continue, hs] at ht
      obtain rfl := some_inj.mp ht
      refine h.own rfl (fun q hq => update_of_ne hq ..) (fun _ _ => rfl) rfl (fun _ _ => rfl) ?_
      show update s.sem p (s.sem p + 1) p + (e + 1) + _ = _
      rw [update_self, hs]
      show s.sem p + 1 + (e + 1) + _ = s.sem p + (e + 1 + 1) + _
      have : s.sem p + 1 + (e + 1) = s.sem p + (e + 1 + 1) := by omega
      rw [this]
      rfl
  | lead =>
    rw [Sys.continue, hs] at ht
    dsimp only at ht
    split_ifs at ht
    obtain rfl := some_inj.mp ht
    exact h.keep rfl rfl (by rw [hs]; rfl) (fun _ => rfl) (fun _ => rfl)
  | walk n w =>
    cases n with
    | some y =>
      rw [Sys.continue, hs] at ht
      obtain rfl := some_inj.mp ht
      exact h.keep rfl rfl (by rw [hs]; rfl) (fun q => hclear q _ (fun _ => rfl) y) (fun q => hclear q _ (fun _ => rfl) y)
    | none =>
      rw [Sys.continue, hs] at ht
      obtain rfl := some_inj.mp ht
      exact h.keep rfl rfl (by rw [hs]; rfl) (fun _ => rfl) (fun _ => rfl)
  | wake w =>
    cases w with
    | some y =>
      rw [Sys.continue, hs] at ht
      obtain rfl := some_inj.mp ht
      exact h.keep rfl rfl (by rw [hs]; rfl) (fun _ => rfl) (fun _ => rfl)
    | none =>
      rw [Sys.continue, hs] at ht
      obtain rfl := some_inj.mp ht
      exact h.keep rfl rfl (by rw [hs]; rfl) (fun q => hret q _ rfl) (fun q => hret q _ rfl)
  | wakeFlag y w =>
    rw [Sys.continue, hs] at ht
    obtain rfl := some_inj.mp ht
    exact h.keep rfl rfl (by rw [hs]; split_ifs <;> rfl) (fun _ => rfl) (fun _ => rfl)
  | wakeUnlock y w =>
    rw [Sys.continue, hs] at ht
    obtain rfl := some_inj.mp ht
    exact h.post (apply_update (show (Pc.wake w).absorbed = (s.pc p).absorbed by rw [hs]; rfl)) rfl rfl

theorem balanced_next (h : Balanced sem s) (ht : s.next a = some t) : Balanced sem t := by
  cases a with
  | step p => exact balanced_continue h ht
  | work p r | hold =>
    rw [Sys.next] at ht
    split_ifs at ht
    obtain rfl := some_inj.mp ht
    exact h
  | call p n =>
    rw [Sys.next] at ht
    split_ifs at ht with hcall
    obtain rfl := some_inj.mp ht
    have hs := isIdle_iff.mp hcall.1
    refine h.keep rfl rfl (by rw [hs]; rfl) (fun q => ?_) (fun q => ?_) <;>
    · show (s.hist ++ [call p n]).countP _ = _
      rw [countP_snoc, if_neg (by rintro ⟨⟩)]
      rfl
  | drop =>
    obtain rfl := some_inj.mp ht
    exact h
  | signal p =>
    obtain rfl := some_inj.mp ht
    exact h.post (fun _ => rfl) rfl rfl

/-! ### What a step does to the entries -/

/-- A step of a process clears one entry, ends a transaction without an id, or leaves all entries alone. -/
inductive Effect (s t : Sys) (σ : Spec) (p : Nat) : Prop
  | clear (x n : Nat) : s.lock = some p → σ.phase x = .called n → toXid n ≠ invalidTransactionId →
      t.hist = s.hist ++ [.clear p x] → t.proc = Function.update s.proc x (s.proc x).ended →
      t.latestCompletedXid = (if transactionIdPrecedes s.latestCompletedXid (toXid n) = true then toXid n
        else s.latestCompletedXid) → Effect s t σ p
  | noXid (n : Nat) : σ.phase p = .called n → toXid n = invalidTransactionId → t.hist = s.hist ++ [.ret p false] →
      t.proc = Function.update s.proc p (s.proc p).endedWithoutXid → t.latestCompletedXid = s.latestCompletedXid →
      Effect s t σ p
  | quiet : (t.hist = s.hist ∨ (∃ f, t.hist = s.hist ++ [.ret p f]) ∨ ∃ x, t.hist = s.hist ++ [.post x]) →
      t.proc = s.proc → t.latestCompletedXid = s.latestCompletedXid → Effect s t σ p

theorem continue_effect (h : Inv σ₀ s l g place σ) (ht : s.continue p = some t) : Effect s t σ p := by
  cases hs : s.pc p with
  | idle => rw [Sys.continue, hs] at ht; cases ht
  | start x =>
    obtain ⟨n, hn⟩ : ∃ n, σ.phase p = .called n := by
      have := (h.free_phase (p := p) (by rw [hs]; rfl)).2
      rw [hs] at this
      exact this
    have hx : x = toXid n := by
      have := h.entries.xid p n hn
      rw [hs] at this
      exact this
    rw [Sys.continue, hs] at ht
    dsimp only at ht
    split_ifs at ht with h0
    · obtain rfl := some_inj.mp ht
      exact .noXid n hn (hx.symm.trans h0) rfl rfl rfl
    · obtain rfl := some_inj.mp ht
      exact .quiet (.inl rfl) rfl rfl
    · obtain rfl := some_inj.mp ht
      exact .quiet (.inl rfl) rfl rfl
  | direct x =>
    obtain ⟨n, hn⟩ : ∃ n, σ.phase p = .called n := by
      have := (h.free_phase (p := p) (by rw [hs]; rfl)).2
      rw [hs] at this
      exact this
    have hx : x = toXid n := by
      have := h.entries.xid p n hn
      rw [hs] at this
      exact this
    rw [Sys.continue, hs] at ht
    obtain rfl := some_inj.mp ht
    refine .clear p n ((h.owner p).mpr (by rw [hs]; rfl)) hn (fun h0 => ?_) rfl rfl (by rw [← hx]; rfl)
    obtain ⟨y, hy⟩ := h.entries.valid p n hn h0
    rw [hs] at hy
    cases hy
  | walk n w =>
    cases n with
    | none =>
      rw [Sys.continue, hs] at ht
      obtain rfl := some_inj.mp ht
      exact .quiet (.inl rfl) rfl rfl
    | some x =>
      obtain ⟨done, rest, hg, -, -, hr⟩ := h.phases.ahead h.lists hs
      obtain ⟨n, hn⟩ := hr x List.mem_cons_self
      have hplace : place x = .group p :=
        (h.lists.mem_group x p).mp (.inl (by rw [hg]; exact List.mem_append_right done List.mem_cons_self))
      have hrole : (s.pc x).role ≠ .outside := by
        intro hr'
        rw [h.lists.outside hr'] at hplace
        cases hplace
      have hlat : (s.pc x).latestXid = none := by
        cases hpc : s.pc x <;> rw [hpc] at hrole <;> first | rfl | exact absurd rfl hrole
      have hx := h.entries.xid x n hn
      rw [hlat] at hx
      rw [Sys.continue, hs] at ht
      obtain rfl := some_inj.mp ht
      refine .clear x n ((h.owner p).mpr (by rw [hs]; rfl)) hn (fun h0 => ?_) rfl rfl (by rw [← hx]; rfl)
      obtain ⟨y, hy⟩ := h.entries.valid x n hn h0
      rw [hy] at hrole
      exact hrole rfl
  | directRelease =>
    rw [Sys.continue, hs] at ht
    obtain rfl := some_inj.mp ht
    exact .quiet (.inr (.inl ⟨_, rfl⟩)) rfl rfl
  | cas n =>
    rw [Sys.continue, hs] at ht
    dsimp only at ht
    by_cases hf : s.procArrayGroupFirst = n
    · rw [if_pos hf] at ht
      obtain rfl := some_inj.mp ht
      exact .quiet (.inl rfl) rfl rfl
    · rw [if_neg hf] at ht
      obtain rfl := some_inj.mp ht
      exact .quiet (.inl rfl) rfl rfl
  | giveBack e =>
    cases e <;> rw [Sys.continue, hs] at ht <;> obtain rfl := some_inj.mp ht
    · exact .quiet (.inr (.inl ⟨_, rfl⟩)) rfl rfl
    · exact .quiet (.inl rfl) rfl rfl
  | wake w =>
    cases w <;> rw [Sys.continue, hs] at ht <;> obtain rfl := some_inj.mp ht
    · exact .quiet (.inr (.inl ⟨_, rfl⟩)) rfl rfl
    · exact .quiet (.inl rfl) rfl rfl
  | wakeUnlock x w =>
    rw [Sys.continue, hs] at ht
    obtain rfl := some_inj.mp ht
    exact .quiet (.inr (.inr ⟨_, rfl⟩)) rfl rfl
  | sleep e | check e | lead | detachCas n =>
    rw [Sys.continue, hs] at ht
    dsimp only at ht
    split_ifs at ht <;> obtain rfl := some_inj.mp ht <;> exact .quiet (.inl rfl) rfl rfl
  | enroll x | readFirst | writeNext n | detach | wakeWrite x w | wakeFlag x w =>
    rw [Sys.continue, hs] at ht
    obtain rfl := some_inj.mp ht
    exact .quiet (.inl rfl) rfl rfl

end Effects
end PgStorage.Procarray
