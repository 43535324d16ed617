import PgStorage.Buffer.Cleanup
import PgStorage.Lib.Count
import PgStorage.Lib.Trace

/-! `LockBufferForCleanup` is safe and loses no wake-up. -/
namespace PgStorage.Buffer.Cleanup
open Function Option Sys
variable {β : Type}

/-- The points at which the waiter bit may be that of the backend. -/
def Pc.marked : Pc β → Bool
  | .unlock => true
  | .sleep => true
  | .resetLatch => true
  | .interrupts => true
  | .clear => true
  | .unlockBuffers => true
  | _ => false

/-- The points at which a backend has the content lock for the check. -/
def Pc.locking : Pc β → Bool
  | .check => true
  | .unlock => true
  | .refuse => true
  | _ => false

/-- The points between setting the waiter bit and waking up. -/
def Pc.waiting : Pc β → Bool
  | .unlock => true
  | .sleep => true
  | _ => false

/-- A wake-up is on its way, or will be sent by a backend that has still to give up its pin. -/
def Woken (s : Sys β) (p : β) : Prop :=
  (s.pinCountWaiter = true ∧ s.waitBackendPid = some p ∧ (s.refcount = 1 → ∃ q, s.pc q = .unpinRecheck)) ∨
  (s.pinCountWaiter = false ∧ (s.latch p = true ∨ ∃ q, s.pc q = .unpinSignal (some p)))

structure Inv [Fintype β] (s : Sys β) : Prop where
  count : s.refcount = Count.count (0 < ·) s.privateRefCount
  holder : ∀ p, s.HoldsLock p → 0 < s.privateRefCount p
  alone : ∀ p, s.exclusive = some p → ∀ q, s.shared q = false
  one : ∀ p q, (s.pc p).inCleanup = true → (s.pc q).inCleanup = true → p = q
  pinned : ∀ p, (s.pc p).inCleanup = true → s.privateRefCount p = 1
  locked : ∀ p, (s.pc p).locking = true → s.exclusive = some p
  waiter : s.pinCountWaiter = true → ∃ p, s.waitBackendPid = some p ∧ (s.pc p).marked = true
  woken : ∀ p, (s.pc p).waiting = true → Woken s p
  since : ∀ k p, s.returns[k]? = some p → ∀ q, q ≠ p → 0 < s.privateRefCount q → k < s.since q

section Cleanup
variable {s t : Sys β} {p q : β} {c : Pc β} {interrupt : Bool}

theorem inCleanup_of_marked (h : c.marked = true) : c.inCleanup = true := by
  cases c <;> first | rfl | exact absurd h nofun

theorem inCleanup_of_locking (h : c.locking = true) : c.inCleanup = true := by
  cases c <;> first | rfl | exact absurd h nofun

theorem inCleanup_of_waiting (h : c.waiting = true) : c.inCleanup = true := by
  cases c <;> first | rfl | exact absurd h nofun

/-! ### Pins -/

theorem ne_of_idle (hidle : (s.pc p).inCleanup = false) (hq : (s.pc q).inCleanup = true) : q ≠ p := by
  rintro rfl
  rw [hidle] at hq
  exact absurd hq nofun

theorem Woken.keep (hw : Woken s q) (hbit : t.pinCountWaiter = s.pinCountWaiter)
    (hpid : t.waitBackendPid = s.waitBackendPid) (hrc : t.refcount = s.refcount)
    (hlatch : s.latch q = true → t.latch q = true)
    (hpc : ∀ r, s.pc r = .unpinRecheck ∨ s.pc r = .unpinSignal (some q) → t.pc r = s.pc r) : Woken t q := by
  rcases hw with ⟨hb, hw, hr⟩ | ⟨hb, hl | ⟨r, hr⟩⟩
  · refine .inl ⟨hbit.trans hb, hpid.trans hw, fun h1 => ?_⟩
    obtain ⟨r, hr⟩ := hr (hrc.symm.trans h1)
    exact ⟨r, (hpc r (.inl hr)).trans hr⟩
  · exact .inr ⟨hbit.trans hb, .inl (hlatch hl)⟩
  · exact .inr ⟨hbit.trans hb, .inr ⟨r, (hpc r (.inr hr)).trans hr⟩⟩

variable [Fintype β]

/-- Who is alone with a pin. -/
theorem count_alone (hi : Inv s) (h1 : s.refcount = 1) (hp : 0 < s.privateRefCount p) (hq : q ≠ p) :
    s.privateRefCount q = 0 := by
  rcases Nat.eq_zero_or_pos (s.privateRefCount q) with h0 | hpos
  · exact h0
  · have hle : Count.count (0 < ·) s.privateRefCount ≤ 1 := by rw [← hi.count, h1]
    exact absurd (Count.count_eq_one (P := (0 < ·)) hle hp hpos) hq

theorem refcount_pos (hi : Inv s) (hp : 0 < s.privateRefCount p) : 0 < s.refcount := by
  rw [hi.count]
  exact Count.count_pos (P := (0 < ·)) hp

variable [DecidableEq β]

theorem pinBuffer_inv (hi : Inv s) (hidle : s.pc p = .idle) : Inv (s.pinBuffer p) := by
  have hcount := Count.count_update (0 < ·) s.privateRefCount p (s.privateRefCount p + 1)
  have hout : (s.pc p).inCleanup = false := by rw [hidle]; rfl
  have hgrow : ∀ q, 0 < s.privateRefCount q →
    0 < update s.privateRefCount p (s.privateRefCount p + 1) q := by
    intro q hq
    by_cases hqp : q = p
    · rw [hqp, update_self]; exact Nat.succ_pos _
    · rwa [update_of_ne hqp]
  have hpinned : ∀ q, (s.pc q).inCleanup = true →
      update s.privateRefCount p (s.privateRefCount p + 1) q = 1 := by
    intro q hq
    rw [update_of_ne (ne_of_idle hout hq)]
    exact hi.pinned q hq
  rw [pinBuffer]
  split
  next h0 =>
    rw [h0] at hcount hgrow hpinned ⊢
    simp only [lt_irrefl, if_false, zero_add, Nat.one_pos, if_true, add_zero] at hcount
    refine {hi with
      count := by dsimp only; rw [zero_add, hcount, hi.count]
      holder := fun q hq => hgrow q (hi.holder q hq)
      pinned := hpinned
      woken := fun q hq => ?_
      since := fun k r hr q hqr hpos => ?_}
    · have hpos := refcount_pos hi (p := q) (by rw [hi.pinned q (inCleanup_of_waiting hq)]; exact Nat.one_pos)
      rcases hi.woken q hq with ⟨hb, hw, -⟩ | hw
      · exact .inl ⟨hb, hw, fun h1 => by dsimp only at h1; omega⟩
      · exact .inr hw
    · dsimp only at hpos ⊢
      by_cases hqp : q = p
      · rw [hqp, update_self]
        exact (List.getElem?_eq_some_iff.mp hr).1
      · rw [update_of_ne hqp] at hpos ⊢
        exact hi.since k r hr q hqr hpos
  next h0 =>
    simp only [Nat.pos_of_ne_zero h0, Nat.succ_pos, if_true, Nat.add_right_cancel_iff] at hcount
    refine {hi with
      count := by dsimp only; rw [hcount, hi.count]
      holder := fun q hq => hgrow q (hi.holder q hq)
      pinned := hpinned
      since := fun k r hr q hqr hpos => ?_}
    dsimp only at hpos
    by_cases hqp : q = p
    · exact hi.since k r hr q hqr (hqp ▸ Nat.pos_of_ne_zero h0)
    · rw [update_of_ne hqp] at hpos
      exact hi.since k r hr q hqr hpos

theorem unpinBuffer_inv (hi : Inv s) (hidle : s.pc p = .idle) (hpos : 0 < s.privateRefCount p)
    (hlock : s.privateRefCount p = 1 → ¬ s.HoldsLock p) : Inv (s.unpinBuffer p) := by
  have hcount := Count.count_update (0 < ·) s.privateRefCount p (s.privateRefCount p - 1)
  have hout : (s.pc p).inCleanup = false := by rw [hidle]; rfl
  have hless : ∀ q, 0 < update s.privateRefCount p (s.privateRefCount p - 1) q →
    0 < s.privateRefCount q := by
    intro q hq
    by_cases hqp : q = p
    · rw [hqp]; exact hpos
    · rwa [update_of_ne hqp] at hq
  have hpinned : ∀ q, (s.pc q).inCleanup = true →
      update s.privateRefCount p (s.privateRefCount p - 1) q = 1 := by
    intro q hq
    rw [update_of_ne (ne_of_idle hout hq)]
    exact hi.pinned q hq
  have hsince : ∀ k r, s.returns[k]? = some r → ∀ q, q ≠ r →
      0 < update s.privateRefCount p (s.privateRefCount p - 1) q → k < s.since q :=
    fun k r hr q hqr hq => hi.since k r hr q hqr (hless q hq)
  rw [unpinBuffer]
  split
  next h1 =>
    rw [h1] at hcount hpinned hsince ⊢
    simp only [Nat.sub_self, lt_irrefl, Nat.one_pos, if_true, if_false, add_zero] at hcount
    have hholder : ∀ q, s.HoldsLock q → 0 < update s.privateRefCount p (1 - 1) q := by
      intro q hq
      have hqp : q ≠ p := by
        rintro rfl
        exact hlock h1 hq
      rw [update_of_ne hqp]
      exact hi.holder q hq
    have hrc : s.refcount - 1 = Count.count (0 < ·) (update s.privateRefCount p (1 - 1)) := by
      have := hi.count
      rw [Nat.sub_self]
      omega
    split
    next hbit =>
      have hkeep : ∀ q, (update s.pc p Pc.unpinRecheck q).inCleanup = true →
          q ≠ p ∧ update s.pc p Pc.unpinRecheck q = s.pc q := by
        intro q hq
        have hqp : q ≠ p := by
          rintro rfl
          rw [update_self] at hq
          exact absurd hq nofun
        exact ⟨hqp, update_of_ne hqp _ _⟩
      refine ⟨hrc, hholder, hi.alone, fun q r hq hr => ?_, fun q hq => ?_, fun q hq => ?_, fun _ => ?_,
        fun q hq => ?_, hsince⟩
      · obtain ⟨-, hqe⟩ := hkeep q hq
        obtain ⟨-, hre⟩ := hkeep r hr
        simp only [goto, hqe, hre] at hq hr
        exact hi.one q r hq hr
      · obtain ⟨-, hqe⟩ := hkeep q hq
        simp only [goto, hqe] at hq
        exact hpinned q hq
      · obtain ⟨-, hqe⟩ := hkeep q (inCleanup_of_locking hq)
        simp only [goto, hqe] at hq
        exact hi.locked q hq
      · obtain ⟨q, hw, hm⟩ := hi.waiter hbit
        refine ⟨q, hw, ?_⟩
        simp only [goto]
        rw [update_of_ne (ne_of_idle hout (inCleanup_of_marked hm))]
        exact hm
      · obtain ⟨hqp, hqe⟩ := hkeep q (inCleanup_of_waiting hq)
        simp only [goto, hqe] at hq
        rcases hi.woken q hq with ⟨hb, hw, -⟩ | ⟨hb, -⟩
        · exact .inl ⟨hb, hw, fun _ => ⟨p, update_self _ _ _⟩⟩
        · rw [hb] at hbit
          exact absurd hbit nofun
    next hbit =>
      refine {hi with count := hrc, holder := hholder, pinned := hpinned, since := hsince, woken := fun q hq => ?_}
      rcases hi.woken q hq with ⟨hb, -⟩ | hw
      · exact absurd hb hbit
      · exact .inr hw
  next h1 =>
    simp only [hpos, if_true, show 0 < s.privateRefCount p - 1 by omega, Nat.add_right_cancel_iff] at hcount
    refine {hi with
      count := hi.count.trans hcount.symm
      holder := fun q hq => ?_
      pinned := hpinned
      since := hsince}
    dsimp only
    by_cases hqp : q = p
    · rw [hqp, update_self]
      omega
    · rw [update_of_ne hqp]
      exact hi.holder q hq

theorem lockShared_inv (hi : Inv s) (hpos : 0 < s.privateRefCount p) (hfree : s.exclusive = none) :
    Inv {s with shared := update s.shared p true} := by
  refine {hi with holder := fun q hq => ?_, alone := fun q hq => absurd hq (by simp [hfree])}
  rcases hq with hq | hq
  · exact hi.holder q (.inl hq)
  · by_cases hqp : q = p
    · rw [hqp]; exact hpos
    · dsimp only at hq
      rw [update_of_ne hqp] at hq
      exact hi.holder q (.inr hq)

omit [DecidableEq β] in
/-- The lock is free, so no backend is at a point where it has it. -/
theorem lockExclusive_inv (hi : Inv s) (hpos : 0 < s.privateRefCount p) (hfree : s.LockFree) :
    Inv {s with exclusive := some p} := by
  refine {hi with holder := fun q hq => ?_, alone := fun _ _ => hfree.2, locked := fun q hq => ?_}
  · rcases hq with hq | hq
    · rw [← some_inj.mp hq]; exact hpos
    · exact hi.holder q (.inr hq)
  · have := hi.locked q hq
    rw [hfree.1] at this
    exact absurd this nofun

theorem unlock_inv (hi : Inv s) (hidle : s.pc p = .idle) :
    Inv (if s.exclusive = some p then {s with exclusive := none}
      else {s with shared := update s.shared p false}) := by
  split
  next he =>
    refine {hi with holder := fun q hq => ?_, alone := nofun, locked := fun q hq => ?_}
    · rcases hq with hq | hq
      · exact absurd hq nofun
      · exact hi.holder q (.inr hq)
    · have hq' := hi.locked q hq
      rw [he] at hq'
      rw [← some_inj.mp hq', hidle] at hq
      exact absurd hq nofun
  · have hless : ∀ q, update s.shared p false q = true → s.shared q = true := by
      intro q hq
      by_cases hqp : q = p
      · rw [hqp, update_self] at hq
        exact absurd hq nofun
      · rwa [update_of_ne hqp] at hq
    refine {hi with holder := fun q hq => ?_, alone := fun q hq r => ?_}
    · rcases hq with hq | hq
      · exact hi.holder q (.inl hq)
      · exact hi.holder q (.inr (hless q hq))
    · cases hr : update s.shared p false r with
      | false => exact hr
      | true =>
        have := hi.alone q hq r
        rw [hless r hr] at this
        exact absurd this nofun

/-! ### Points of `LockBufferForCleanup` -/

/-- A backend comes to another point, and nothing but the waiter bit, latches and returns changes. What
it was relied on for is given. -/
theorem goto_inv (hi : Inv s) (hpc : t.pc = update s.pc p c)
    (hpins : t.privateRefCount = s.privateRefCount ∧ t.refcount = s.refcount ∧ t.since = s.since)
    (hlock : t.shared = s.shared ∧ ∀ q, t.exclusive = some q → (s.LockFree ∧ q = p ∧ 0 < s.privateRefCount p) ∨
      s.exclusive = some q)
    (hin : c.inCleanup = true → s.privateRefCount p = 1 ∧ ∀ q, q ≠ p → (s.pc q).inCleanup = false)
    (hlocked : ∀ q, q ≠ p → (s.pc q).locking = true → t.exclusive = some q)
    (hlocking : c.locking = true → t.exclusive = some p)
    (hwaiter : t.pinCountWaiter = true → ∃ q, t.waitBackendPid = some q ∧
      (update s.pc p c q).marked = true)
    (hwoken : ∀ q, q ≠ p → (s.pc q).waiting = true → Woken t q) (hwaiting : c.waiting = true → Woken t p)
    (hreturns : t.returns = s.returns ∨
      t.returns = s.returns ++ [p] ∧ ∀ q, q ≠ p → s.privateRefCount q = 0) : Inv t := by
  obtain ⟨hpriv, hrc, hsince⟩ := hpins
  refine ⟨by rw [hrc, hpriv]; exact hi.count, fun q hq => ?_, fun q hq r => ?_, fun q r hq hr => ?_,
    fun q hq => ?_,
    fun q hq => ?_, fun hb => ?_, fun q hq => ?_, fun k r hr q hqr hpos => ?_⟩
  · rw [hpriv]
    rcases hq with hq | hq
    · rcases hlock.2 q hq with ⟨-, rfl, hpos⟩ | hq
      · exact hpos
      · exact hi.holder q (.inl hq)
    · rw [hlock.1] at hq
      exact hi.holder q (.inr hq)
  · rw [hlock.1]
    rcases hlock.2 q hq with ⟨hfree, -, -⟩ | hq
    · exact hfree.2 r
    · exact hi.alone q hq r
  · rw [hpc] at hq hr
    by_cases hqp : q = p
    · by_cases hrp : r = p
      · rw [hqp, hrp]
      · rw [hqp, update_self] at hq
        rw [update_of_ne hrp, (hin hq).2 r hrp] at hr
        exact absurd hr nofun
    · by_cases hrp : r = p
      · rw [hrp, update_self] at hr
        rw [update_of_ne hqp, (hin hr).2 q hqp] at hq
        exact absurd hq nofun
      · rw [update_of_ne hqp] at hq
        rw [update_of_ne hrp] at hr
        exact hi.one q r hq hr
  · rw [hpc] at hq
    rw [hpriv]
    by_cases hqp : q = p
    · rw [hqp, update_self] at hq
      rw [hqp]
      exact (hin hq).1
    · rw [update_of_ne hqp] at hq
      exact hi.pinned q hq
  · rw [hpc] at hq
    by_cases hqp : q = p
    · rw [hqp, update_self] at hq
      rw [hqp]
      exact hlocking hq
    · rw [update_of_ne hqp] at hq
      exact hlocked q hqp hq
  · rw [hpc]
    exact hwaiter hb
  · rw [hpc] at hq
    by_cases hqp : q = p
    · rw [hqp, update_self] at hq
      rw [hqp]
      exact hwaiting hq
    · rw [update_of_ne hqp] at hq
      exact hwoken q hqp hq
  · rw [hpriv] at hpos
    rw [hsince]
    rcases hreturns with hret | ⟨hret, halone⟩
    · rw [hret] at hr
      exact hi.since k r hr q hqr hpos
    · rw [hret] at hr
      by_cases hk : k < s.returns.length
      · rw [List.getElem?_append_left hk] at hr
        exact hi.since k r hr q hqr hpos
      · rw [List.getElem?_append_right (by omega)] at hr
        have hk0 : k - s.returns.length = 0 := by
          by_contra hne
          rw [List.getElem?_eq_none (by rw [List.length_singleton]; omega)] at hr
          exact absurd hr nofun
        rw [hk0] at hr
        obtain rfl : p = r := some_inj.mp hr
        rw [halone q hqr] at hpos
        exact absurd hpos (lt_irrefl 0)

omit [DecidableEq β] in
theorem bit_mine (hi : Inv s) (hp : (s.pc p).inCleanup = true) (hbit : s.pinCountWaiter = true) :
    s.waitBackendPid = some p ∧ (s.pc p).marked = true := by
  obtain ⟨q, hw, hm⟩ := hi.waiter hbit
  obtain rfl := hi.one q p (inCleanup_of_marked hm) hp
  exact ⟨hw, hm⟩

/-- The backend inside of `LockBufferForCleanup` goes on: no other one waits. -/
theorem inside_inv (hi : Inv s) (hp : (s.pc p).inCleanup = true) (hpc : t.pc = update s.pc p c)
    (hpins : t.privateRefCount = s.privateRefCount ∧ t.refcount = s.refcount ∧ t.since = s.since)
    (hlock : t.shared = s.shared ∧ ∀ q, t.exclusive = some q → (s.LockFree ∧ q = p) ∨ s.exclusive = some q)
    (hlocking : c.locking = true → t.exclusive = some p)
    (hwaiter : t.pinCountWaiter = true → t.waitBackendPid = some p ∧ c.marked = true)
    (hwaiting : c.waiting = true → Woken t p)
    (hreturns : t.returns = s.returns ∨
      t.returns = s.returns ++ [p] ∧ ∀ q, q ≠ p → s.privateRefCount q = 0) : Inv t := by
  have hone := hi.pinned p hp
  have hothers : ∀ q, q ≠ p → (s.pc q).inCleanup = false := by
    intro q hqp
    cases hq : (s.pc q).inCleanup with
    | false => rfl
    | true => exact absurd (hi.one q p hq hp) hqp
  have hnone : ∀ {q}, q ≠ p → (s.pc q).inCleanup = true → False := by
    intro q hqp hq
    rw [hothers q hqp] at hq
    exact absurd hq nofun
  refine goto_inv hi hpc hpins ⟨hlock.1, fun q hq => ?_⟩ (fun _ => ⟨hone, hothers⟩)
    (fun q hqp hq => (hnone hqp (inCleanup_of_locking hq)).elim) hlocking
    (fun hb => ⟨p, (hwaiter hb).1, by rw [update_self]; exact (hwaiter hb).2⟩)
    (fun q hqp hq => (hnone hqp (inCleanup_of_waiting hq)).elim) hwaiting hreturns
  rcases hlock.2 q hq with ⟨hfree, rfl⟩ | hq
  · exact .inl ⟨hfree, rfl, by rw [hone]; exact Nat.one_pos⟩
  · exact .inr hq

/-- A backend in the middle of `UnpinBuffer` goes on. -/
theorem unpin_goto_inv (hi : Inv s) (hp : (s.pc p).inCleanup = false) (hc : c.inCleanup = false)
    (hpc : t.pc = update s.pc p c)
    (hrest : t.privateRefCount = s.privateRefCount ∧ t.refcount = s.refcount ∧ t.since = s.since ∧
      t.shared = s.shared ∧ t.exclusive = s.exclusive ∧ t.returns = s.returns)
    (hbit : t.pinCountWaiter = true → s.pinCountWaiter = true ∧ t.waitBackendPid = s.waitBackendPid)
    (hwoken : ∀ q, q ≠ p → Woken s q → Woken t q) : Inv t := by
  obtain ⟨hpriv, hrc, hsince, hsh, hex, hret⟩ := hrest
  refine goto_inv hi hpc ⟨hpriv, hrc, hsince⟩ ⟨hsh, fun q hq => .inr (hex ▸ hq)⟩
    (fun h => absurd (hc.symm.trans h) nofun) (fun q _ hq => hex.trans (hi.locked q hq))
    (fun h => absurd (hc.symm.trans (inCleanup_of_locking h)) nofun) (fun hb => ?_)
    (fun q hqp hq => hwoken q hqp (hi.woken q hq))
    (fun h => absurd (hc.symm.trans (inCleanup_of_waiting h)) nofun) (.inl hret)
  obtain ⟨hb, hw⟩ := hbit hb
  obtain ⟨q, hq, hm⟩ := hi.waiter hb
  refine ⟨q, hw.trans hq, ?_⟩
  rw [update_of_ne (ne_of_idle hp (inCleanup_of_marked hm))]
  exact hm

/-- The waiter is woken under the header lock by whoever sees its pin alone. -/
theorem unpinRecheck_inv (hi : Inv s) (hc : s.pc p = .unpinRecheck)
    (ht : s.step p interrupt = some t) : Inv t := by
  have hout : (s.pc p).inCleanup = false := by rw [hc]; rfl
  simp only [step, hc] at ht
  split at ht
  next hlast =>
    obtain rfl := some_inj.mp ht
    refine unpin_goto_inv hi hout rfl rfl ⟨rfl, rfl, rfl, rfl, rfl, rfl⟩ nofun fun q _ hw => ?_
    rcases hw with ⟨-, hw, -⟩ | ⟨hb, -⟩
    · exact .inr ⟨rfl, .inr ⟨p, (update_self _ _ _).trans (by rw [hw])⟩⟩
    · rw [hb] at hlast
      exact absurd hlast.1 nofun
  next hlast =>
    obtain rfl := some_inj.mp ht
    refine unpin_goto_inv hi hout rfl rfl ⟨rfl, rfl, rfl, rfl, rfl, rfl⟩ (fun hb => ⟨hb, rfl⟩) fun q _ hw => ?_
    rcases hw with ⟨hb, hw, -⟩ | ⟨hb, hl | ⟨r, hr⟩⟩
    · exact .inl ⟨hb, hw, fun h1 => absurd ⟨hb, h1⟩ hlast⟩
    · exact .inr ⟨hb, .inl hl⟩
    · have hrp : r ≠ p := by
        rintro rfl
        rw [hc] at hr
        exact absurd hr nofun
      exact .inr ⟨hb, .inr ⟨r, (update_of_ne hrp _ _).trans hr⟩⟩

theorem unpinSignal_inv {w : Option β} (hi : Inv s) (hc : s.pc p = .unpinSignal w)
    (ht : s.step p interrupt = some t) : Inv t := by
  have hout : (s.pc p).inCleanup = false := by rw [hc]; rfl
  have hkeep : ∀ {q}, s.pc q = .unpinRecheck → update s.pc p Pc.idle q = .unpinRecheck := by
    intro q hq
    rw [update_of_ne]
    · exact hq
    · rintro rfl
      rw [hc] at hq
      exact absurd hq nofun
  cases w with
  | none =>
    simp only [step, hc, some_inj] at ht
    subst ht
    refine unpin_goto_inv hi hout rfl rfl ⟨rfl, rfl, rfl, rfl, rfl, rfl⟩ (fun hb => ⟨hb, rfl⟩) fun q _ hw => ?_
    refine hw.keep rfl rfl rfl id fun r hr => update_of_ne ?_ _ _
    rintro rfl
    rw [hc] at hr
    exact hr.elim nofun nofun
  | some v =>
    simp only [step, hc, some_inj] at ht
    subst ht
    refine unpin_goto_inv hi hout rfl rfl ⟨rfl, rfl, rfl, rfl, rfl, rfl⟩ (fun hb => ⟨hb, rfl⟩) fun q _ hw => ?_
    rcases hw with ⟨hb, hw, hr⟩ | ⟨hb, hl⟩
    · exact .inl ⟨hb, hw, fun h1 => (hr h1).imp fun r => hkeep⟩
    · refine .inr ⟨hb, ?_⟩
      by_cases hqv : q = v
      · exact .inl (hqv ▸ update_self _ _ _)
      · rcases hl with hl | ⟨r, hr⟩
        · exact .inl ((update_of_ne hqv _ _).trans hl)
        · have hrp : r ≠ p := by
            rintro rfl
            rw [hc] at hr
            exact hqv (some_inj.mp (Pc.unpinSignal.inj hr)).symm
          exact .inr ⟨r, (update_of_ne hrp _ _).trans hr⟩

theorem clearWaiter_inv (hi : Inv s) (hp : (s.pc p).inCleanup = true) (hc : c.locking = false)
    (hm : c.marked = false) : Inv ((s.clearWaiter p).goto p c) := by
  have hw : c.waiting = true → c.marked = true := by cases c <;> first | exact fun _ => rfl | exact nofun
  have hnot : ∀ {b : Bool}, b = false → b = true → False := by
    rintro b rfl
    exact nofun
  rw [clearWaiter]
  split
  next =>
    exact inside_inv hi hp rfl ⟨rfl, rfl, rfl⟩ ⟨rfl, fun q hq => .inr hq⟩ (fun h => (hnot hc h).elim) nofun
      (fun h => (hnot hm (hw h)).elim) (.inl rfl)
  next hno =>
    exact inside_inv hi hp rfl ⟨rfl, rfl, rfl⟩ ⟨rfl, fun q hq => .inr hq⟩ (fun h => (hnot hc h).elim)
      (fun hb => absurd ⟨hb, (bit_mine hi hp hb).1⟩ hno) (fun h => (hnot hm (hw h)).elim) (.inl rfl)

/-- **The check.** Where it succeeds no other backend has a pin. -/
theorem check_inv (hi : Inv s) (hc : s.pc p = .check) (ht : s.step p interrupt = some t) : Inv t := by
  have hp : (s.pc p).inCleanup = true := by rw [hc]; rfl
  have hex : s.exclusive = some p := hi.locked p (by rw [hc]; rfl)
  have hnobit : ¬ s.pinCountWaiter = true := by
    intro hb
    have := (bit_mine hi hp hb).2
    rw [hc] at this
    exact absurd this nofun
  simp only [step, hc, if_neg hnobit] at ht
  split at ht
  next h1 =>
    obtain rfl := some_inj.mp ht
    refine inside_inv hi hp rfl ⟨rfl, rfl, rfl⟩ ⟨rfl, fun q hq => .inr hq⟩ nofun (fun hb => absurd hb hnobit) nofun
      (.inr ⟨rfl, fun q hqp => count_alone hi h1 ?_ hqp⟩)
    rw [hi.pinned p hp]
    exact Nat.one_pos
  next h1 =>
    obtain rfl := some_inj.mp ht
    exact inside_inv hi hp rfl ⟨rfl, rfl, rfl⟩ ⟨rfl, fun q hq => .inr hq⟩ (fun _ => hex) (fun _ => ⟨rfl, rfl⟩)
      (fun _ => .inl ⟨rfl, rfl, fun h => absurd h h1⟩) (.inl rfl)

omit [Fintype β] in
/-- The backends in the middle of `UnpinBuffer` are other ones. -/
theorem goto_other (hp : (s.pc p).inCleanup = true) (r : β)
    (hr : s.pc r = .unpinRecheck ∨ s.pc r = .unpinSignal (some q)) : update s.pc p c r = s.pc r := by
  refine update_of_ne ?_ _ _
  rintro rfl
  rcases hr with hr | hr
  · rw [hr] at hp
    exact absurd hp nofun
  · rw [hr] at hp
    exact absurd hp nofun

theorem step_inv (hi : Inv s) (ht : s.step p interrupt = some t) : Inv t := by
  cases hc : s.pc p with
  | idle => simp only [step, hc] at ht; exact absurd ht nofun
  | unpinRecheck => exact unpinRecheck_inv hi hc ht
  | unpinSignal w => exact unpinSignal_inv hi hc ht
  | check => exact check_inv hi hc ht
  | lock =>
    have hp : (s.pc p).inCleanup = true := by rw [hc]; rfl
    simp only [step, hc] at ht
    split at ht
    next hfree =>
      obtain rfl := some_inj.mp ht
      refine inside_inv hi hp rfl ⟨rfl, rfl, rfl⟩ ⟨rfl, fun q hq => .inl ⟨hfree, (some_inj.mp hq).symm⟩⟩
        (fun _ => rfl) (fun hb => ?_) nofun (.inl rfl)
      have := (bit_mine hi hp hb).2
      rw [hc] at this
      exact absurd this nofun
    next => exact absurd ht nofun
  | unlock =>
    have hp : (s.pc p).inCleanup = true := by rw [hc]; rfl
    simp only [step, hc, some_inj] at ht
    subst ht
    refine inside_inv hi hp rfl ⟨rfl, rfl, rfl⟩ ⟨rfl, nofun⟩ nofun
      (fun hb => ⟨(bit_mine hi hp hb).1, rfl⟩) (fun _ => ?_) (.inl rfl)
    exact (hi.woken p (by rw [hc]; rfl)).keep rfl rfl rfl id (goto_other hp)
  | sleep =>
    have hp : (s.pc p).inCleanup = true := by rw [hc]; rfl
    simp only [step, hc] at ht
    split at ht
    · obtain rfl := some_inj.mp ht
      exact inside_inv hi hp rfl ⟨rfl, rfl, rfl⟩ ⟨rfl, fun q hq => .inr hq⟩ nofun
        (fun hb => ⟨(bit_mine hi hp hb).1, rfl⟩) nofun (.inl rfl)
    · exact absurd ht nofun
  | resetLatch =>
    have hp : (s.pc p).inCleanup = true := by rw [hc]; rfl
    simp only [step, hc, some_inj] at ht
    subst ht
    exact inside_inv hi hp rfl ⟨rfl, rfl, rfl⟩ ⟨rfl, fun q hq => .inr hq⟩ nofun
      (fun hb => ⟨(bit_mine hi hp hb).1, rfl⟩) nofun (.inl rfl)
  | interrupts =>
    have hp : (s.pc p).inCleanup = true := by rw [hc]; rfl
    simp only [step, hc, some_inj] at ht
    subst ht
    cases interrupt with
    | false | true =>
      exact inside_inv hi hp rfl ⟨rfl, rfl, rfl⟩ ⟨rfl, fun q hq => .inr hq⟩ nofun
        (fun hb => ⟨(bit_mine hi hp hb).1, rfl⟩) nofun (.inl rfl)
  | clear | unlockBuffers =>
    simp only [step, hc, some_inj] at ht
    subst ht
    exact clearWaiter_inv hi (by rw [hc]; rfl) rfl rfl
  | refuse =>
    have hp : (s.pc p).inCleanup = true := by rw [hc]; rfl
    simp only [step, hc, some_inj] at ht
    subst ht
    refine inside_inv hi hp rfl ⟨rfl, rfl, rfl⟩ ⟨rfl, nofun⟩ nofun (fun hb => ?_) nofun (.inl rfl)
    have := (bit_mine hi hp hb).2
    rw [hc] at this
    exact absurd this nofun

theorem lockForCleanup_inv (hi : Inv s) (hnone : ∀ q, (s.pc q).inCleanup = false)
    (h1 : s.privateRefCount p = 1) : Inv (s.goto p .lock) := by
  have hno : ∀ {q}, (s.pc q).inCleanup = true → False := fun hq => absurd ((hnone _).symm.trans hq) nofun
  refine goto_inv hi rfl ⟨rfl, rfl, rfl⟩ ⟨rfl, fun q hq => .inr hq⟩ (fun _ => ⟨h1, fun q _ => hnone q⟩)
    (fun q _ hq => (hno (inCleanup_of_locking hq)).elim) nofun (fun hb => ?_)
    (fun q _ hq => (hno (inCleanup_of_waiting hq)).elim) nofun (.inl rfl)
  obtain ⟨q, -, hm⟩ := hi.waiter hb
  exact (hno (inCleanup_of_marked hm)).elim

theorem setLatch_inv (hi : Inv s) : Inv {s with latch := update s.latch p true} := by
  refine {hi with woken := fun q hq => (hi.woken q hq).keep rfl rfl rfl (fun hl => ?_) fun _ _ => rfl}
  by_cases hqp : q = p
  · rw [hqp]
    exact update_self _ _ _
  · exact (update_of_ne hqp _ _).trans hl

/-- The latch is that of a backend outside of `LockBufferForCleanup`. -/
theorem resetLatch_inv (hi : Inv s) (hidle : s.pc p = .idle) :
    Inv {s with latch := update s.latch p false} := by
  have hout : (s.pc p).inCleanup = false := by rw [hidle]; rfl
  refine {hi with woken := fun q hq => (hi.woken q hq).keep rfl rfl rfl (fun hl => ?_) fun _ _ => rfl}
  exact (update_of_ne (ne_of_idle hout (inCleanup_of_waiting hq)) _ _).trans hl

theorem next_inv {a : Act β} (hi : Inv s) (ht : s.next a = some t) : Inv t := by
  cases a with
  | pin p =>
    simp only [next, ite_none_right_eq_some, some_inj] at ht
    obtain ⟨hidle, rfl⟩ := ht
    exact pinBuffer_inv hi hidle
  | unpin p =>
    simp only [next, ite_none_right_eq_some, some_inj] at ht
    obtain ⟨⟨hidle, hpos, hlock⟩, rfl⟩ := ht
    exact unpinBuffer_inv hi hidle hpos hlock
  | lockShared p =>
    simp only [next, ite_none_right_eq_some, some_inj] at ht
    obtain ⟨⟨-, hpos, -, hfree⟩, rfl⟩ := ht
    exact lockShared_inv hi hpos hfree
  | lockExclusive p =>
    simp only [next, ite_none_right_eq_some, some_inj] at ht
    obtain ⟨⟨-, hpos, hfree⟩, rfl⟩ := ht
    exact lockExclusive_inv hi hpos hfree
  | unlock p =>
    simp only [next, ite_none_right_eq_some] at ht
    obtain ⟨⟨hidle, -⟩, ht⟩ := ht
    have hinv := unlock_inv hi hidle
    split at ht
    next he =>
      rw [if_pos he] at hinv
      exact some_inj.mp ht ▸ hinv
    next he =>
      rw [if_neg he] at hinv
      exact some_inj.mp ht ▸ hinv
  | lockForCleanup p =>
    simp only [next, ite_none_right_eq_some, some_inj] at ht
    obtain ⟨⟨-, hnone⟩, rfl⟩ := ht
    split
    next h1 => exact lockForCleanup_inv hi hnone h1
    next => exact hi
  | resetLatch p =>
    simp only [next, ite_none_right_eq_some, some_inj] at ht
    obtain ⟨hidle, rfl⟩ := ht
    exact resetLatch_inv hi hidle
  | setLatch p =>
    obtain rfl := some_inj.mp ht
    exact setLatch_inv hi
  | step p interrupt => exact step_inv hi ht

omit [DecidableEq β] in
theorem create_inv : Inv (create : Sys β) where
  count := (Count.count_eq_zero.mpr fun _ => lt_irrefl 0).symm
  holder := fun _ hq => hq.elim nofun nofun
  alone := nofun
  one := nofun
  pinned := nofun
  locked := nofun
  waiter := nofun
  woken := nofun
  since := nofun

theorem reached_inv (h : Trace.Reaches next (fun _ _ => True) create s) : Inv s :=
  h.keeps create_inv fun _ _ _ _ hs hi => next_inv hi hs

/-- Only the check that succeeds adds to the callers that returned. -/
theorem step_returns (ht : s.step p interrupt = some t) :
    t.returns = s.returns ∨
      s.pc p = .check ∧ s.refcount = 1 ∧ t = {s with returns := s.returns ++ [p]}.goto p .idle := by
  rw [step] at ht
  split at ht
  next => exact absurd ht nofun
  next =>
    split at ht
    · exact .inl (some_inj.mp ht ▸ rfl)
    · exact .inl (some_inj.mp ht ▸ rfl)
  next => exact .inl (some_inj.mp ht ▸ rfl)
  next => exact .inl (some_inj.mp ht ▸ rfl)
  next =>
    obtain ⟨-, hs⟩ := ite_none_right_eq_some.mp ht
    exact .inl (some_inj.mp hs ▸ rfl)
  next hc =>
    split at ht
    next h1 => exact .inr ⟨hc, h1, (some_inj.mp ht).symm⟩
    next =>
      split at ht
      · exact .inl (some_inj.mp ht ▸ rfl)
      · exact .inl (some_inj.mp ht ▸ rfl)
  next => exact .inl (some_inj.mp ht ▸ rfl)
  next =>
    obtain ⟨-, hs⟩ := ite_none_right_eq_some.mp ht
    exact .inl (some_inj.mp hs ▸ rfl)
  next => exact .inl (some_inj.mp ht ▸ rfl)
  next => exact .inl (some_inj.mp ht ▸ rfl)
  next =>
    rw [← some_inj.mp ht, clearWaiter]
    exact .inl (by split <;> rfl)
  next => exact .inl (some_inj.mp ht ▸ rfl)
  next =>
    rw [← some_inj.mp ht, clearWaiter]
    exact .inl (by split <;> rfl)

theorem refcount_one (hi : Inv s) (hp : s.privateRefCount p = 1) (hothers : ∀ q, q ≠ p → s.privateRefCount q = 0) :
    s.refcount = 1 := by
  have hcount := Count.count_update (0 < ·) s.privateRefCount p 0
  have hnone : Count.count (0 < ·) (update s.privateRefCount p 0) = 0 := by
    refine Count.count_eq_zero.mpr fun q => ?_
    by_cases hqp : q = p
    · rw [hqp, update_self]
      exact lt_irrefl 0
    · rw [update_of_ne hqp, hothers q hqp]
      exact lt_irrefl 0
  rw [hi.count]
  simpa only [hnone, hp, Nat.one_pos, if_true, lt_irrefl, if_false, add_zero, zero_add]
    using hcount.symm

/-- **Cleanup locks.** In every state that is reached: a call that returns has the content lock for itself,
and its check found no pin of another backend; whoever has the content lock later took its pin after
that; and while the waiter sleeps alone with its pin, somebody is on the way to wake it, or its latch is set. -/
theorem lockBufferForCleanup_safe {s : Sys β}
    (h : Trace.Reaches Sys.next (fun _ _ => True) Sys.create s) :
    (∀ p interrupt t, s.step p interrupt = some t → t.returns ≠ s.returns →
      t.returns = s.returns ++ [p] ∧ t.pc p = .idle ∧ t.exclusive = some p ∧ (∀ q, t.shared q = false) ∧
        ∀ q, q ≠ p → s.privateRefCount q = 0) ∧
    (∀ k p, s.returns[k]? = some p → ∀ q, q ≠ p → s.HoldsLock q → k < s.since q) ∧
    (∀ p, s.pc p = .sleep → (∀ q, q ≠ p → s.privateRefCount q = 0) →
      (∃ q, s.pc q = .unpinRecheck ∨ s.pc q = .unpinSignal (some p)) ∨ s.latch p = true) := by
  have hi := reached_inv h
  refine ⟨fun p interrupt t ht hne => ?_, fun k p hk q hqp hq => hi.since k p hk q hqp (hi.holder q hq),
    fun p hc halone => ?_⟩
  · rcases step_returns ht with heq | ⟨hc, h1, rfl⟩
    · exact absurd heq hne
    · have hex : s.exclusive = some p := hi.locked p (by rw [hc]; rfl)
      have hpin : s.privateRefCount p = 1 := hi.pinned p (by rw [hc]; rfl)
      exact ⟨rfl, update_self _ _ _, hex, hi.alone p hex,
        fun q hqp => count_alone hi h1 (by rw [hpin]; exact Nat.one_pos) hqp⟩
  · have h1 := refcount_one hi (hi.pinned p (by rw [hc]; rfl)) halone
    rcases hi.woken p (by rw [hc]; rfl) with ⟨-, -, hr⟩ | ⟨-, hl | ⟨q, hq⟩⟩
    · obtain ⟨q, hq⟩ := hr h1
      exact .inl ⟨q, .inl hq⟩
    · exact .inr hl
    · exact .inl ⟨q, .inr hq⟩

/-- One backend waits for the other, which unpins the buffer. -/
def unpinWhileAsleep : List (Act (Fin 2)) :=
  [.pin 0, .pin 1, .lockShared 1, .unlock 1, .lockForCleanup 0, .step 0 false, .step 0 false, .step 0 false,
    .unpin 1, .step 1 false]

/-- The waiter sleeps, and the other backend is about to wake it. -/
theorem lockBufferForCleanup_safe_asleep :
    ∃ s : Sys (Fin 2), (∃ q, s.pc q = .unpinRecheck ∨ s.pc q = .unpinSignal (some 0)) ∨ s.latch 0 = true := by
  have hrun : ((Trace.follow next (fun _ _ => True) create unpinWhileAsleep).map fun s =>
      (s.pc 0, s.privateRefCount 1)) = some (.sleep, 0) := by decide
  obtain ⟨s, hs, he⟩ := map_eq_some_iff.mp hrun
  obtain ⟨hc, h0⟩ := Prod.mk.inj he
  have halone : ∀ q : Fin 2, q ≠ 0 → s.privateRefCount q = 0 := by
    intro q hq
    obtain rfl : q = 1 := by omega
    exact h0
  exact ⟨s, (lockBufferForCleanup_safe (Trace.Reaches.start.of_follow hs)).2.2 0 hc halone⟩

end Cleanup
end PgStorage.Buffer.Cleanup
