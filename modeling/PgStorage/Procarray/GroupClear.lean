import PgStorage.Lib.Trace
import PgStorage.Procarray.Effects

/-! Group clearing of transaction ids.

In every run the history is one of the specification: each call with an id is cleared exactly once,
by a process that holds the lock, and then returns. Signals that a call absorbs beyond the one
that wakes it are given back. As long as the ids in use are less than 2^31 apart, which
`GetNewTransactionId` sees to, `latestCompletedXid` is the id of the greatest number cleared. -/
namespace PgStorage.Procarray
open Links Locks
open Function List Option Spec

section GroupClear
variable {σ₀ σ σ' : Spec} {s t : Sys} {l : List Nat} {g : Nat → List Nat} {place : Nat → Place} {p x : Nat}
  {sem : Nat → Nat} {a : Act}

/-- Two transactions whose ids can be compared. -/
def Near (m n : Nat) : Prop := m < n + 2 ^ 31 ∧ n < m + 2 ^ 31

variable {n v : Nat} {hist : List Event}

theorem transactionIdPrecedes_iff {m : Nat} (hm : transactionIdIsNormal (toXid m) = true)
    (hn : transactionIdIsNormal (toXid n) = true) (h : Near m n) :
    transactionIdPrecedes (toXid m) (toXid n) = true ↔ m < n := by
  rw [transactionIdPrecedes, if_pos ⟨hm, hn⟩, decide_eq_true_iff]
  unfold toXid
  obtain ⟨h1, h2⟩ := h
  omega

/-- An id may be assigned: it is near all others that are in use. -/
def Spec.Admits (σ : Spec) (n : Nat) : Prop :=
  toXid n ≠ invalidTransactionId → transactionIdIsNormal (toXid n) = true ∧ Near n σ.latest ∧
    ∀ q m, σ.phase q = .called m → toXid m ≠ invalidTransactionId → Near n m

/-- The ids of the calls under way and of the last transaction cleared. -/
structure Window (latestCompletedXid : Nat) (σ : Spec) : Prop where
  latest : latestCompletedXid = toXid σ.latest
  normal : transactionIdIsNormal (toXid σ.latest) = true
  called : ∀ p n, σ.phase p = .called n → toXid n ≠ invalidTransactionId →
    transactionIdIsNormal (toXid n) = true ∧ Near n σ.latest
  pair : ∀ p q m n, σ.phase p = .called m → σ.phase q = .called n → toXid m ≠ invalidTransactionId →
    toXid n ≠ invalidTransactionId → Near m n

theorem Near.symm {m : Nat} (h : Near m n) : Near n m := ⟨h.2, h.1⟩

theorem called_of_update {f : Phase} {q : Nat} (hph : ∀ n, f ≠ .called n)
    (h : update σ.phase p f q = .called n) : σ.phase q = .called n := by
  rcases eq_or_ne q p with rfl | hq
  · rw [update_self] at h
    exact absurd h (hph n)
  · rwa [update_of_ne hq] at h

theorem Window.clear (h : Window v σ) (hn : σ.phase x = .called n) (h0 : toXid n ≠ invalidTransactionId) :
    Window (if transactionIdPrecedes v (toXid n) = true then toXid n else v)
      ⟨update σ.phase x .cleared, max σ.latest n⟩ := by
  obtain ⟨hnormal, hnear⟩ := h.called x n hn h0
  have hiff := transactionIdPrecedes_iff h.normal hnormal hnear.symm
  have hmax : max σ.latest n = if transactionIdPrecedes (toXid σ.latest) (toXid n) = true then n else σ.latest := by
    split_ifs with hp
    · exact max_eq_right (le_of_lt (hiff.mp hp))
    · exact max_eq_left (Nat.le_of_not_lt fun hlt => hp (hiff.mpr hlt))
  have hc : ∀ {q m}, update σ.phase x .cleared q = .called m → σ.phase q = .called m := called_of_update nofun
  refine ⟨?_, ?_, fun q m hq hm => ?_, fun q r m m' hq hr => h.pair q r m m' (hc hq) (hc hr)⟩
  · rw [h.latest]
    dsimp only
    rw [hmax]
    split_ifs <;> rfl
  · dsimp only
    rw [hmax]
    split_ifs
    · exact hnormal
    · exact h.normal
  · obtain ⟨h1, h2⟩ := h.called q m (hc hq) hm
    refine ⟨h1, ?_⟩
    dsimp only
    rw [hmax]
    split_ifs
    · exact h.pair q x m n (hc hq) hn hm h0
    · exact h2

theorem Window.ret (h : Window v σ) : Window v {σ with phase := update σ.phase p .out} := by
  have hc : ∀ {q m}, update σ.phase p .out q = .called m → σ.phase q = .called m := called_of_update nofun
  exact ⟨h.latest, h.normal, fun q m hq => h.called q m (hc hq), fun q r m n hq hr => h.pair q r m n (hc hq) (hc hr)⟩

theorem Window.call (h : Window v σ) (ha : σ.Admits n) :
    Window v {σ with phase := update σ.phase p (.called n)} := by
  refine ⟨h.latest, h.normal, fun q m hq hm => ?_, fun q r m m' hq hr hm hm' => ?_⟩
  · rcases eq_or_ne q p with rfl | hqp
    · dsimp only at hq
      rw [update_self] at hq
      cases hq
      exact ⟨(ha hm).1, (ha hm).2.1⟩
    · dsimp only at hq
      rw [update_of_ne hqp] at hq
      exact h.called q m hq hm
  · dsimp only at hq hr
    rcases eq_or_ne q p with rfl | hqp <;> rcases eq_or_ne r q with rfl | hrq
    · rw [update_self] at hq hr
      cases hq
      cases hr
      exact ⟨Nat.lt_add_of_pos_right (by decide), Nat.lt_add_of_pos_right (by decide)⟩
    · rw [update_self] at hq
      rw [update_of_ne hrq] at hr
      cases hq
      exact (ha hm).2.2 r m' hr hm'
    · rw [update_of_ne hqp] at hq hr
      exact h.pair r r m m' hq hr hm hm'
    · rw [update_of_ne hqp] at hq
      rcases eq_or_ne r p with rfl | hrp
      · rw [update_self] at hr
        cases hr
        exact ((ha hm').2.2 q m hq hm).symm
      · rw [update_of_ne hrp] at hr
        exact h.pair q r m m' hq hr hm hm'

/-- The history of a step of a process, followed by the specification. -/
theorem window_effect (h : Inv σ₀ s l g place σ) (hw : Window s.latestCompletedXid σ) (he : Effect s t σ p)
    (ht : σ₀.run t.hist = some σ') : Window t.latestCompletedXid σ' := by
  rcases he with ⟨x, n, -, hn, h0, hh, -, hlat⟩ | ⟨n, hn, h0, hh, -, hlat⟩ | ⟨hh, -, hlat⟩
  · rw [hh, run_snoc h.hist (next_clear hn)] at ht
    cases ht
    rw [hlat]
    exact hw.clear hn h0
  · have hnext : σ.next (.ret p false) = some {σ with phase := update σ.phase p .out} := by
      rw [Spec.next, hn]
      exact if_pos h0
    rw [hh, run_snoc h.hist hnext] at ht
    cases ht
    rw [hlat]
    exact hw.ret
  · rw [hlat]
    rcases hh with hh | ⟨f, hh⟩ | ⟨x, hh⟩
    · rw [hh, h.hist] at ht
      cases ht
      exact hw
    · rw [hh, run, foldlM_append, ← run, h.hist] at ht
      simp only [bind_eq_bind, bind_some, foldlM_cons, foldlM_nil] at ht
      obtain ⟨σ₁, hnext, he⟩ := bind_eq_some_iff.mp ht
      cases he
      rw [Spec.next] at hnext
      split at hnext
      · cases hnext
        exact hw.ret
      · split_ifs at hnext
        cases hnext
        exact hw.ret
      · cases hnext
    · rw [hh, run_snoc h.hist (τ := σ) rfl] at ht
      cases ht
      exact hw

/-- What the steps of a run must meet for the last part: an id is assigned only when the specification admits it. -/
def Spaced (σ₀ : Spec) (s : Sys) : Act → Prop
  | .call _ n => ∀ σ, σ₀.run s.hist = some σ → σ.Admits n
  | _ => True

theorem window_next (h : Inv σ₀ s l g place σ) (hw : Window s.latestCompletedXid σ) (ha : Spaced σ₀ s a)
    (ht : s.next a = some t) (hσ : σ₀.run t.hist = some σ') : Window t.latestCompletedXid σ' := by
  cases a with
  | step p => exact window_effect h hw (continue_effect h ht) hσ
  | call p n =>
    rw [Sys.next] at ht
    split_ifs at ht with hcall
    obtain rfl := some_inj.mp ht
    obtain ⟨-, hph⟩ := h.free_phase (p := p) (by rw [isIdle_iff.mp hcall.1]; rfl)
    rw [isIdle_iff.mp hcall.1] at hph
    have hrun := run_snoc h.hist (next_call hph n)
    cases hrun.symm.trans hσ
    exact hw.call (ha σ h.hist)
  | work p r | hold =>
    rw [Sys.next] at ht
    split_ifs at ht
    obtain rfl := some_inj.mp ht
    cases h.hist.symm.trans hσ
    exact hw
  | drop =>
    obtain rfl := some_inj.mp ht
    cases h.hist.symm.trans hσ
    exact hw
  | signal p =>
    obtain rfl := some_inj.mp ht
    cases (run_snoc h.hist (τ := σ) rfl).symm.trans hσ
    exact hw

/-- The greatest number never falls, and is at least each number that has been cleared. -/
theorem Spec.latest_le (h : σ.run hist = some σ') : σ.latest ≤ σ'.latest := by
  induction hist generalizing σ with
  | nil =>
    cases h
    exact le_refl _
  | cons e rest ih =>
    obtain ⟨σ₁, he, hrest⟩ := bind_eq_some_iff.mp h
    refine le_trans ?_ (ih hrest)
    cases e with
    | call q n => rw [next] at he; split at he <;> cases he; exact le_refl _
    | clear r q => rw [next] at he; split at he <;> cases he; exact le_max_left ..
    | ret q f =>
      rw [next] at he
      split at he
      · cases he; exact le_refl _
      · split_ifs at he; cases he; exact le_refl _
      · cases he
    | post q => cases he; exact le_refl _

theorem Spec.cleared_le {q : Nat} (hn : σ.phase p = .called n)
    (h : σ.run (.clear q p :: hist) = some σ') : n ≤ σ'.latest := by
  obtain ⟨σ₁, he, hrest⟩ := bind_eq_some_iff.mp h
  rw [next_clear hn] at he
  cases he
  exact le_trans (le_max_right ..) (latest_le hrest)

/-! ### Runs -/

/-- What holds in a state that a run has reached. -/
structure Serves (sem : Nat → Nat) (s : Sys) (σ : Spec) : Prop where
  /-- The list of those who wait has one leader; its members have not been cleared. -/
  list : ∃ l, Linked s.procArrayGroupNext s.procArrayGroupFirst l ∧
    (∀ p ∈ l, s.procArrayGroupMember p = true ∧ ∃ n, σ.phase p = .called n) ∧
    (l ≠ [] → ∃ q ∈ l, (s.pc q).role = .leading ∧ ∀ p ∈ l, p ≠ q → (s.pc p).role = .follower)
  /-- Nor is the list of a leader damaged that has taken it over. -/
  groups : ∀ q, ∃ g, Linked s.procArrayGroupNext (s.pc q).head g ∧ ∀ p ∈ g, s.procArrayGroupMember p = true
  /-- The assertion of a follower that has been woken. -/
  freed : ∀ p, (s.pc p).role = .follower → s.procArrayGroupMember p = false → s.procArrayGroupNext p = none
  idle : ∀ p, s.pc p = .idle ↔ σ.phase p = .out
  running : ∀ p n, σ.phase p = .called n → toXid n ≠ invalidTransactionId →
    (s.proc p).pgxact.xid ≠ invalidTransactionId
  cleared : ∀ p, σ.phase p = .cleared → (s.proc p).Cleared
  balance : ∀ p, s.pc p = .idle →
    s.sem p + s.hist.countP (Event.isRet p) = sem p + s.hist.countP (Event.isPost p)
  /-- While its call is under way an entry changes only by being cleared under the lock. -/
  changes : ∀ a t p n, s.next a = some t → σ.phase p = .called n → toXid n ≠ invalidTransactionId →
    t.proc p = s.proc p ∨ ∃ q, a = .step q ∧ t.hist = s.hist ++ [.clear q p]
  kept : ∀ a t p, s.next a = some t → σ.phase p = .cleared → t.proc p = s.proc p
  clears : ∀ a t q p, s.next a = some t → t.hist = s.hist ++ [.clear q p] →
    a = .step q ∧ s.lock = some q ∧ s.outside = 0 ∧ t.proc p = (s.proc p).ended

theorem Inv.idle (h : Inv σ₀ s l g place σ) (p : Nat) : s.pc p = .idle ↔ σ.phase p = .out := by
  constructor
  · intro hs
    have := (h.free_phase (p := p) (by rw [hs]; rfl)).2
    rw [hs] at this
    exact this
  · intro hout
    cases hp : place p with
    | free =>
      have := h.phases.free p hp
      rw [hout] at this
      cases hs : s.pc p <;> rw [hs] at this <;> first | rfl | (obtain ⟨n, hn⟩ := this; cases hn) | cases this
    | shared =>
      obtain ⟨n, hn⟩ := h.phases.shared p hp
      rw [hout] at hn
      cases hn
    | group q =>
      rcases h.lists.group_leader hp with hr | hr
      · -- a member of a group in which the leader is walking
        cases hq : s.pc q <;> rw [hq] at hr <;> try cases hr
        next m w =>
          obtain ⟨done, rest, hg, -, hd, hc⟩ := h.phases.walk q m w hq
          rcases (h.lists.mem_group p q).mpr hp with hm | hm
          · rw [hg] at hm
            rcases mem_append.mp hm with hm | hm
            · rw [hd p hm] at hout; cases hout
            · obtain ⟨n, hn⟩ := hc p hm
              rw [hn] at hout
              cases hout
          · rw [hq] at hm; cases hm
      · rw [h.phases.woken p q hp hr] at hout; cases hout

theorem not_snoc {e : Event} : hist ≠ hist ++ [e] := by
  intro h
  have := congrArg length h
  rw [length_append, length_singleton] at this
  omega

theorem snoc_inj {l : List Event} {e e' : Event} (h : l ++ [e] = l ++ [e']) : e = e' :=
  singleton_inj.mp (append_cancel_left h)

theorem Inv.changes (h : Inv σ₀ s l g place σ) (ht : s.next a = some t) :
    t.proc p = s.proc p ∨ σ.phase p = .out ∨ (∃ n, σ.phase p = .called n ∧ toXid n = invalidTransactionId) ∨
      ∃ q n, a = .step q ∧ σ.phase p = .called n ∧ t.hist = s.hist ++ [.clear q p] := by
  cases a with
  | step q =>
    rcases continue_effect h ht with ⟨x, n, -, hn, -, hh, hproc, -⟩ | ⟨n, hn, h0, -, hproc, -⟩ | ⟨-, hproc, -⟩
    · rcases eq_or_ne p x with rfl | hpx
      · exact .inr (.inr (.inr ⟨q, n, rfl, hn, hh⟩))
      · exact .inl (by rw [hproc, update_of_ne hpx])
    · rcases eq_or_ne p q with rfl | hpq
      · exact .inr (.inr (.inl ⟨n, hn, h0⟩))
      · exact .inl (by rw [hproc, update_of_ne hpq])
    · exact .inl (by rw [hproc])
  | work q r =>
    rw [Sys.next] at ht
    split_ifs at ht with hidle
    obtain rfl := some_inj.mp ht
    rcases eq_or_ne p q with rfl | hpq
    · exact .inr (.inl ((h.idle p).mp (isIdle_iff.mp hidle)))
    · exact .inl (update_of_ne hpq ..)
  | call q n | hold =>
    rw [Sys.next] at ht
    split_ifs at ht
    obtain rfl := some_inj.mp ht
    exact .inl rfl
  | drop | signal q =>
    obtain rfl := some_inj.mp ht
    exact .inl rfl

theorem Inv.clears (h : Inv σ₀ s l g place σ) {q : Nat} (ht : s.next a = some t)
    (hh : t.hist = s.hist ++ [.clear q p]) :
    a = .step q ∧ s.lock = some q ∧ s.outside = 0 ∧ t.proc p = (s.proc p).ended := by
  cases a with
  | step r =>
    rcases continue_effect h ht with ⟨x, n, hlock, -, -, hh', hproc, -⟩ | ⟨n, -, -, hh', -, -⟩ | ⟨hh', -, -⟩
    · have he := snoc_inj (hh'.symm.trans hh)
      cases he
      exact ⟨rfl, hlock, h.alone (by rw [hlock]; nofun), by rw [hproc, update_self]⟩
    · cases snoc_inj (hh'.symm.trans hh)
    · rcases hh' with hh' | ⟨f, hh'⟩ | ⟨x, hh'⟩
      · exact absurd (hh'.symm.trans hh) not_snoc
      · cases snoc_inj (hh'.symm.trans hh)
      · cases snoc_inj (hh'.symm.trans hh)
  | work r x | hold =>
    rw [Sys.next] at ht
    split_ifs at ht
    obtain rfl := some_inj.mp ht
    exact absurd hh not_snoc
  | call r n =>
    rw [Sys.next] at ht
    split_ifs at ht
    obtain rfl := some_inj.mp ht
    cases snoc_inj (l := s.hist) hh
  | drop =>
    obtain rfl := some_inj.mp ht
    exact absurd hh not_snoc
  | signal r =>
    obtain rfl := some_inj.mp ht
    cases snoc_inj (l := s.hist) hh

theorem Inv.serves (h : Inv σ₀ s l g place σ) (hb : Balanced sem s) : Serves sem s σ := by
  refine ⟨⟨l, h.lists.shared, fun p hp => ?_, fun hl => ?_⟩, fun q => ⟨g q, h.lists.groups q, fun p hp => ?_⟩,
    fun p hr hm => ?_, h.idle, h.entries.running, h.entries.cleared, fun p hs => ?_, fun a t p n ht hn h0 => ?_,
    fun a t p ht hc => ?_, fun a t q p ht hh => h.clears ht hh⟩
  · have hplace := (h.lists.mem_shared p).mp hp
    exact ⟨h.lists.member p (.inl (by rw [hplace]; nofun)), h.phases.shared p hplace⟩
  · obtain ⟨q, hq⟩ := h.lists.led hl
    refine ⟨q, (h.lists.mem_shared q).mpr (h.lists.leading hq), hq, fun p hp hne => ?_⟩
    have hall := h.lists.allows p
    rw [(h.lists.mem_shared p).mp hp] at hall
    exact hall.resolve_right fun hr => hne (h.lists.leader p q hr hq)
  · have hplace := (h.lists.mem_group p q).mp (.inl hp)
    exact h.lists.member p (.inl (by rw [hplace]; nofun))
  · have hfree : place p = .free := by
      by_contra hne
      rw [h.lists.member p (.inl hne)] at hm
      cases hm
    exact h.lists.freed p hfree hr
  · have := hb p
    rw [hs] at this
    exact this
  · rcases h.changes (p := p) ht with hp | hp | ⟨m, hm, h0'⟩ | ⟨q, -, ha, -, hh⟩
    · exact .inl hp
    · rw [hn] at hp; cases hp
    · rw [hn] at hm
      cases hm
      exact absurd h0' h0
    · exact .inr ⟨q, ha, hh⟩
  · rcases h.changes (p := p) ht with hp | hp | ⟨m, hm, -⟩ | ⟨q, m, -, hm, -⟩
    · exact hp
    · rw [hc] at hp; cases hp
    · rw [hc] at hm; cases hm
    · rw [hc] at hm; cases hm

variable {proc : Nat → PgProc} {latestCompleted : Nat}

theorem inv_start_state (proc : Nat → PgProc) (sem : Nat → Nat) (n : Nat) :
    Inv (start n) (Sys.start proc sem n) [] (fun _ => []) (fun _ => .free) (start n) := by
  refine ⟨fun p => iff_of_false nofun nofun, fun e => absurd rfl e, ?_, ?_, ?_, rfl⟩
  · exact ⟨rfl, fun _ => rfl, fun p => iff_of_false not_mem_nil nofun,
      fun p q => iff_of_false (not_or.mpr ⟨not_mem_nil, nofun⟩) nofun, nofun, fun _ => .inl rfl, nofun,
      fun e => absurd rfl e, nofun, nofun, nofun, fun p hp => by rcases hp with hp | hp; exacts [absurd rfl hp, nomatch hp]⟩
  · exact ⟨fun _ _ => rfl, nofun, nofun, nofun⟩
  · exact ⟨nofun, nofun, nofun, nofun⟩

theorem holds_reaches (hr : Trace.Reaches Sys.next (fun _ _ => True) (Sys.start proc sem latestCompleted) s) :
    Holds (start latestCompleted) s ∧ Balanced sem s := by
  refine hr.keeps (P := fun s => Holds (start latestCompleted) s ∧ Balanced sem s) ⟨?_, fun _ => rfl⟩ ?_
  · exact ⟨[], _, _, _, inv_start_state proc sem latestCompleted⟩
  · rintro s a t - ht ⟨⟨l, g, place, σ, hi⟩, hb⟩
    exact ⟨inv_next hi ht, balanced_next hb ht⟩

theorem window_reaches (hr : Trace.Reaches Sys.next (Spaced (start latestCompleted))
    (Sys.start proc sem latestCompleted) s) (h0 : transactionIdIsNormal (toXid latestCompleted) = true) :
    ∀ σ, (start latestCompleted).run s.hist = some σ → Window s.latestCompletedXid σ := by
  refine (hr.keeps (P := fun s => Holds (start latestCompleted) s ∧
    ∀ σ, (start latestCompleted).run s.hist = some σ → Window s.latestCompletedXid σ) ⟨?_, ?_⟩ ?_).2
  · exact ⟨[], _, _, _, inv_start_state proc sem latestCompleted⟩
  · intro σ hσ
    cases hσ
    exact ⟨rfl, h0, nofun, nofun⟩
  · rintro s a t hok ht ⟨⟨l, g, place, σ, hi⟩, hw⟩
    exact ⟨inv_next hi ht, fun σ' hσ => window_next hi (hw σ hi.hist) hok ht hσ⟩

/-- **Each call that ends a transaction is served once.** In every reached state the history is one
of the specification, in which each call with an id is cleared exactly once before it returns, and
the lists, entries and semaphores are as they should be. In a run in which ids are assigned as the
specification admits, `latestCompletedXid` is the id of a number that never falls and is at least
every number cleared. -/
theorem group_clear (proc : Nat → PgProc) (sem : Nat → Nat) (latestCompleted : Nat) :
    (∀ s, Trace.Reaches Sys.next (fun _ _ => True) (Sys.start proc sem latestCompleted) s →
      ∃ σ, (Spec.start latestCompleted).run s.hist = some σ ∧ Serves sem s σ) ∧
    (transactionIdIsNormal (toXid latestCompleted) = true →
      ∀ s, Trace.Reaches Sys.next (Spaced (Spec.start latestCompleted)) (Sys.start proc sem latestCompleted) s →
      ∃ σ, (Spec.start latestCompleted).run s.hist = some σ ∧ s.latestCompletedXid = toXid σ.latest ∧
        ∀ h₁ h₂ σ₁, s.hist = h₁ ++ h₂ → (Spec.start latestCompleted).run h₁ = some σ₁ → σ₁.latest ≤ σ.latest ∧
          ∀ q p n h₃, h₂ = .clear q p :: h₃ → σ₁.phase p = .called n → n ≤ σ.latest) := by
  refine ⟨fun s hr => ?_, fun h0 s hr => ?_⟩
  · obtain ⟨⟨l, g, place, σ, hi⟩, hb⟩ := holds_reaches hr
    exact ⟨σ, hi.hist, hi.serves hb⟩
  · obtain ⟨⟨l, g, place, σ, hi⟩, -⟩ := holds_reaches (hr.mono fun _ _ _ => trivial)
    refine ⟨σ, hi.hist, (window_reaches hr h0 σ hi.hist).latest, fun h₁ h₂ σ₁ hh h1 => ?_⟩
    have hrun : σ₁.run h₂ = some σ := by
      have := hi.hist
      rw [hh, run, foldlM_append, ← run, h1] at this
      exact this
    refine ⟨latest_le hrun, fun q p n h₃ he hn => ?_⟩
    rw [he] at hrun
    exact cleared_le hn hrun

/-- Process `p` runs the transaction with the number `100 + p`. -/
def busyProc (p : Nat) : PgProc :=
  ⟨{xid := 100 + p, xmin := 100, vacuumFlags := procInVacuum, overflowed := true, delayChkpt := true, nxids := 3}, 7, false⟩

/-- One process has the lock, and two others form a group; the follower is also woken in vain. -/
def groupOfTwo : List Act :=
  [.call 1 101, .step 1, .call 2 102, .step 2, .call 3 103, .step 3, .step 2, .step 2, .step 2, .step 2,
    .step 3, .step 3, .step 3, .step 3, .signal 3, .step 3, .step 3, .step 1, .step 1, .step 2, .step 2, .step 2,
    .step 2, .step 2, .step 2, .step 2, .step 2, .step 2, .step 2, .step 3, .step 3, .step 3, .step 3]

theorem group_clear_two :
    (∃ s, s.latestCompletedXid = 103 ∧ s.sem 3 = 1 ∧ ∃ σ, (Spec.start 100).run s.hist = some σ ∧
      Serves (fun _ => 0) s σ) ∧
    ∃ σ, (Spec.start 100).run [] = some σ ∧ (Sys.start busyProc (fun _ => 0) 100).latestCompletedXid = toXid σ.latest := by
  have hrun : (Trace.follow Sys.next (fun _ _ => True) (Sys.start busyProc (fun _ => 0) 100) groupOfTwo).map
      (fun s => (s.latestCompletedXid, s.sem 3)) = some (103, 1) := by decide +kernel
  obtain ⟨s, hs, he⟩ := map_eq_some_iff.mp hrun
  rw [Prod.mk.injEq] at he
  have h := group_clear busyProc (fun _ => 0) 100
  refine ⟨⟨s, he.1, he.2, h.1 s (Trace.Reaches.of_follow .start hs)⟩, ?_⟩
  obtain ⟨σ, h1, h2, -⟩ := h.2 (by decide) _ .start
  exact ⟨σ, h1, h2⟩

end GroupClear
end PgStorage.Procarray
