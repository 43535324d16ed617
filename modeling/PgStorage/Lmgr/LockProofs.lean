import PgStorage.Lmgr.Books

/-! Safety of the lock manager.

Each routine works on one element of the lock table at a time, so its effect is told by the
books of that element and by what stays as it was elsewhere. An entry with nothing held is
left behind by a transaction that has timed out. If its lock is removed before the
transaction has run `LockReleaseAll`, the entry points at an element of the free list, and
`LockReleaseAll` removes whatever lock has the tag of that element. As long as no lock is
removed under the entry of another transaction, the books of every lock are right and no two
transactions hold locks that conflict. -/
namespace PgStorage.Lmgr
open Trace
open Function List Option LockSys ProcState

/-- What a transaction asks of a lock, and whether it is in the queue. -/
def ProcState.pending (a : Addr) : ProcState → Option (Nat × Bool)
  | .waiting b t => if b = a then some (t, true) else none
  | .timedOut b t => if b = a then some (t, false) else none
  | .running | .ended => none

section Safety
variable {X T : Type} [Fintype X] [DecidableEq X] [DecidableEq T] {ctl : Ctl} {s s' u : LockSys X T} {a : Addr} {x : X}
  {t : Nat} {tag : T} {e : XidEnt}

/-- The books of the lock at `a`. -/
def LockSys.Books (ctl : Ctl) (s : LockSys X T) (a : Addr) : Prop :=
  Accounted ctl (s.lock a) (fun x => s.xidHash x a) fun x => (s.proc x).pending a

/-- What holds in every state that is reached without a lock being removed under an entry. -/
structure LockInv (ctl : Ctl) (s : LockSys X T) : Prop where
  books : ∀ tag a, s.lockHash tag = some a → s.Books ctl a
  tagged : ∀ tag a, s.lockHash tag = some a → (s.lock a).tag = tag
  live : ∀ tag a, s.lockHash tag = some a → a < s.fresh ∧ a ∉ s.free
  free_lt : ∀ a ∈ s.free, a < s.fresh
  free_nodup : s.free.Nodup
  entries : ∀ x a e, s.xidHash x a = some e → s.lockHash (s.lock a).tag = some a
  asks : ∀ x a p, (s.proc x).pending a = some p → (s.xidHash x a).isSome = true
  queued : ∀ x, ∀ a ∈ s.lockQueue x, (s.xidHash x a).isSome = true
  queue_nodup : ∀ x, (s.lockQueue x).Nodup

/-- Two states agree on every lock but the one at `a`. -/
structure Elsewhere (s s' : LockSys X T) (a : Addr) : Prop where
  lock : ∀ b, b ≠ a → s'.lock b = s.lock b
  ent : ∀ x b, b ≠ a → s'.xidHash x b = s.xidHash x b
  pending : ∀ x b, b ≠ a → (s'.proc x).pending b = (s.proc x).pending b

omit [Fintype X] [DecidableEq X] [DecidableEq T] in
theorem Elsewhere.refl (s : LockSys X T) (a : Addr) : Elsewhere s s a :=
  ⟨fun _ _ => rfl, fun _ _ _ => rfl, fun _ _ _ => rfl⟩

omit [Fintype X] [DecidableEq X] [DecidableEq T] in
theorem Elsewhere.trans (h : Elsewhere s s' a) (h' : Elsewhere s' u a) : Elsewhere s u a :=
  ⟨fun b hb => (h'.lock b hb).trans (h.lock b hb), fun x b hb => (h'.ent x b hb).trans (h.ent x b hb),
    fun x b hb => (h'.pending x b hb).trans (h.pending x b hb)⟩

omit [Fintype X] [DecidableEq X] [DecidableEq T] in
theorem Elsewhere.books [Fintype X] (h : Elsewhere s s' a) {b : Addr} (hb : b ≠ a) (hs : s.Books ctl b) :
    s'.Books ctl b := by
  have hent : (fun x => s'.xidHash x b) = fun x => s.xidHash x b := funext fun x => h.ent x b hb
  have hpend : (fun x => (s'.proc x).pending b) = fun x => (s.proc x).pending b := funext fun x => h.pending x b hb
  rw [LockSys.Books, h.lock b hb, hent, hpend]
  exact hs

omit [DecidableEq X] [DecidableEq T] in
/-- A lock changes and stays in the table. -/
theorem LockInv.change (h : LockInv ctl s) (hlive : s.lockHash tag = some a) (he : Elsewhere s s' a)
    (hhash : s'.lockHash = s.lockHash) (hfree : s'.free = s.free) (hfresh : s'.fresh = s.fresh)
    (htag : (s'.lock a).tag = (s.lock a).tag) (hb : s'.Books ctl a)
    (hq : ∀ x, ∀ b ∈ s'.lockQueue x, (s'.xidHash x b).isSome = true) (hnd : ∀ x, (s'.lockQueue x).Nodup) :
    LockInv ctl s' := by
  have htags (b : Addr) : (s'.lock b).tag = (s.lock b).tag := by
    by_cases hba : b = a
    · rw [hba, htag]
    · rw [he.lock b hba]
  refine ⟨fun tag' b hl => ?_, fun tag' b hl => ?_, fun tag' b hl => ?_, ?_, ?_, fun x b f hf => ?_,
    fun x b p hp => ?_, hq, hnd⟩
  · by_cases hba : b = a
    · rw [hba]
      exact hb
    · exact he.books hba (h.books tag' b (hhash ▸ hl))
  · rw [htags]
    exact h.tagged tag' b (hhash ▸ hl)
  · rw [hfresh, hfree]
    exact h.live tag' b (hhash ▸ hl)
  · rw [hfree, hfresh]
    exact h.free_lt
  · rw [hfree]
    exact h.free_nodup
  · rw [hhash, htags]
    by_cases hba : b = a
    · rw [hba, h.tagged tag a hlive]
      exact hlive
    · exact h.entries x b f ((he.ent x b hba).symm.trans hf)
  · by_cases hba : b = a
    · subst hba
      obtain ⟨i, q⟩ := p
      exact (hb.requests x i q hp).2
    · rw [he.ent x b hba]
      exact h.asks x b p ((he.pending x b hba).symm.trans hp)

omit [DecidableEq X] in
/-- A lock that nobody has an entry for leaves the table. -/
theorem LockInv.remove (h : LockInv ctl s) (hlive : s.lockHash tag = some a) (he : Elsewhere s s' a)
    (hhash : s'.lockHash = update s.lockHash tag none) (hfree : s'.free = a :: s.free)
    (hfresh : s'.fresh = s.fresh) (hnone : ∀ x, s'.xidHash x a = none) (hidle : ∀ x, (s'.proc x).pending a = none)
    (hq : ∀ x, ∀ b ∈ s'.lockQueue x, (s'.xidHash x b).isSome = true) (hnd : ∀ x, (s'.lockQueue x).Nodup) :
    LockInv ctl s' := by
  have hold {tag' : T} {b : Addr} (hl : s'.lockHash tag' = some b) : s.lockHash tag' = some b ∧ b ≠ a := by
    rw [hhash] at hl
    have hne : tag' ≠ tag := by
      intro e
      rw [e, update_self] at hl
      cases hl
    rw [update_of_ne hne] at hl
    refine ⟨hl, fun e => hne ?_⟩
    rw [← h.tagged tag' b hl, e, h.tagged tag a hlive]
  refine ⟨fun tag' b hl => ?_, fun tag' b hl => ?_, fun tag' b hl => ?_, fun b hb => ?_, ?_, fun x b f hf => ?_,
    fun x b p hp => ?_, hq, hnd⟩
  · exact he.books (hold hl).2 (h.books tag' b (hold hl).1)
  · rw [he.lock b (hold hl).2]
    exact h.tagged tag' b (hold hl).1
  · rw [hfresh, hfree, mem_cons]
    have hb := h.live tag' b (hold hl).1
    exact ⟨hb.1, fun hm => hm.elim (hold hl).2 hb.2⟩
  · rw [hfree, mem_cons] at hb
    rw [hfresh]
    rcases hb with rfl | hb
    · exact (h.live tag b hlive).1
    · exact h.free_lt b hb
  · rw [hfree]
    exact nodup_cons.mpr ⟨(h.live tag a hlive).2, h.free_nodup⟩
  · have hba : b ≠ a := by
      intro e
      rw [e, hnone] at hf
      cases hf
    have hb := h.entries x b f ((he.ent x b hba).symm.trans hf)
    have hne : (s.lock b).tag ≠ tag := by
      intro e
      rw [e, hlive] at hb
      exact hba (some.inj hb).symm
    rw [hhash, he.lock b hba, update_of_ne hne]
    exact hb
  · have hba : b ≠ a := by
      intro e
      rw [e, hidle] at hp
      cases hp
    rw [he.ent x b hba]
    exact h.asks x b p ((he.pending x b hba).symm.trans hp)

omit [DecidableEq X] [DecidableEq T] in
theorem accounted_init {ent : X → Option XidEnt} {pend : X → Option (Nat × Bool)} (he : ∀ x, ent x = none)
    (hp : ∀ x, pend x = none) : Accounted ctl (Lock.init tag) ent pend := by
  have hheld (x : X) (i : Nat) : heldBy ent x i = 0 := by rw [heldBy, he]; rfl
  have hfor (i : Nat) : waitersFor pend i = 0 := Count.count_eq_zero.mpr fun x => by rw [hp]; rintro ⟨⟩
  have hall : waitersAll pend = 0 := Count.count_eq_zero.mpr fun x => by rw [hp]; rintro ⟨⟩
  refine ⟨fun x i => (hheld x i).ge, fun x e hx => ?_, fun i _ => ?_, ?_, fun i _ => ?_, fun i _ => ?_, ?_,
    fun x t q hx => ?_, fun x => ?_, nodup_nil, fun x y i j _ _ _ hx => ?_⟩
  · rw [he] at hx
    cases hx
  · simp only [hheld, Finset.sum_const_zero]
    rfl
  · exact (Finset.sum_eq_zero fun _ _ => rfl).symm
  · simp [Lock.init]
  · rw [hfor]
    rfl
  · rw [hall]
    rfl
  · rw [hp] at hx
    cases hx
  · simp [Lock.init, hp]
  · rw [hheld] at hx
    cases hx

omit [DecidableEq X] [DecidableEq T] in
/-- What the free list gives is not in use. -/
theorem LockInv.unused (h : LockInv ctl s) (ha : a ∈ s.free ∨ a = s.fresh) :
    (∀ tag, s.lockHash tag ≠ some a) ∧ (∀ x, s.xidHash x a = none) ∧ ∀ x, (s.proc x).pending a = none := by
  have hdead (tag : T) : s.lockHash tag ≠ some a := by
    intro hl
    have hlive := h.live tag a hl
    rcases ha with ha | rfl
    · exact hlive.2 ha
    · exact absurd hlive.1 (lt_irrefl _)
  have hent (x : X) : s.xidHash x a = none := by
    cases hx : s.xidHash x a with
    | none => rfl
    | some e => exact absurd (h.entries x a e hx) (hdead _)
  refine ⟨hdead, hent, fun x => ?_⟩
  cases hp : (s.proc x).pending a with
  | none => rfl
  | some p =>
    have := h.asks x a p hp
    rw [hent] at this
    cases this

omit [DecidableEq X] in
/-- A new lock is put in the table at an element that is not in use. -/
theorem LockInv.insert (h : LockInv ctl s) (hnew : s.lockHash tag = none) (hdead : ∀ tag, s.lockHash tag ≠ some a)
    (hent : ∀ x, s.xidHash x a = none) (hidle : ∀ x, (s.proc x).pending a = none) {free : List Addr} {fresh : Addr}
    (hsub : ∀ b ∈ free, b ∈ s.free) (hnd : free.Nodup) (ha : a ∉ free) (hlt : a < fresh) (hle : s.fresh ≤ fresh) :
    LockInv ctl {s with
      free := free, fresh := fresh, lockHash := update s.lockHash tag (some a)
      lock := update s.lock a (.init tag)} := by
  have hcases {tag' : T} {b : Addr} (hl : update s.lockHash tag (some a) tag' = some b) :
      (tag' = tag ∧ b = a) ∨ (b ≠ a ∧ s.lockHash tag' = some b) := by
    by_cases ht : tag' = tag
    · rw [ht, update_self] at hl
      exact .inl ⟨ht, (some.inj hl).symm⟩
    · rw [update_of_ne ht] at hl
      exact .inr ⟨fun e => hdead tag' (e ▸ hl), hl⟩
  refine ⟨fun tag' b hl => ?_, fun tag' b hl => ?_, fun tag' b hl => ?_, fun b hb => ?_, hnd, fun x b f hf => ?_,
    h.asks, h.queued, h.queue_nodup⟩
  · rcases hcases hl with ⟨rfl, rfl⟩ | ⟨hb, hl⟩
    · dsimp only [LockSys.Books]
      rw [update_self]
      exact accounted_init hent hidle
    · dsimp only [LockSys.Books]
      rw [update_of_ne hb]
      exact h.books tag' b hl
  · dsimp only
    rcases hcases hl with ⟨rfl, rfl⟩ | ⟨hb, hl⟩
    · rw [update_self]
      rfl
    · rw [update_of_ne hb]
      exact h.tagged tag' b hl
  · rcases hcases hl with ⟨rfl, rfl⟩ | ⟨hb, hl⟩
    · exact ⟨hlt, ha⟩
    · have := h.live tag' b hl
      exact ⟨lt_of_lt_of_le this.1 hle, fun hm => this.2 (hsub b hm)⟩
  · exact lt_of_lt_of_le (h.free_lt b (hsub b hb)) hle
  · have hb : b ≠ a := by
      intro e
      rw [e, hent] at hf
      cases hf
    have hl := h.entries x b f hf
    have ht : (s.lock b).tag ≠ tag := by
      intro e
      rw [e, hnew] at hl
      cases hl
    dsimp only
    rw [update_of_ne hb, update_of_ne ht]
    exact hl

omit [DecidableEq X] in
theorem enterLock_spec (h : LockInv ctl s) (tag : T) :
    LockInv ctl (s.enterLock tag).2 ∧ (s.enterLock tag).2.lockHash tag = some (s.enterLock tag).1 ∧
      (s.enterLock tag).2.proc = s.proc ∧ (s.enterLock tag).2.procPrio = s.procPrio := by
  rw [enterLock]
  cases hl : s.lockHash tag with
  | some a => exact ⟨h, hl, rfl, rfl⟩
  | none =>
    rw [takeFree]
    cases hf : s.free with
    | cons a rest =>
      obtain ⟨hdead, hent, hidle⟩ := h.unused (.inl (hf ▸ mem_cons_self))
      have hnd := h.free_nodup
      rw [hf] at hnd
      refine ⟨h.insert hl hdead hent hidle (fun b hb => ?_) (nodup_cons.mp hnd).2 (nodup_cons.mp hnd).1
        (h.free_lt a (hf ▸ mem_cons_self)) (le_refl _), update_self .., rfl, rfl⟩
      rw [hf]
      exact mem_cons_of_mem a hb
    | nil =>
      obtain ⟨hdead, hent, hidle⟩ := h.unused (.inr rfl)
      exact ⟨h.insert hl hdead hent hidle (fun b hb => absurd hb not_mem_nil) nodup_nil not_mem_nil
        (Nat.lt_succ_self _) (Nat.le_succ _), update_self .., rfl, rfl⟩

omit [Fintype X] [DecidableEq T] in
theorem setEnt_at (v : Option XidEnt) :
    (fun y => (s.setEnt x a v).xidHash y a) = update (fun y => s.xidHash y a) x v := by
  funext y
  by_cases hy : y = x
  · subst hy
    simp only [setEnt, update_self]
  · simp only [setEnt, update_of_ne hy]

omit [Fintype X] [DecidableEq T] in
theorem setEnt_of_ne (v : Option XidEnt) {b : Addr} (hb : b ≠ a) (y : X) :
    (s.setEnt x a v).xidHash y b = s.xidHash y b := by
  by_cases hy : y = x
  · subst hy
    simp only [setEnt, update_self, update_of_ne hb]
  · simp only [setEnt, update_of_ne hy]

omit [Fintype X] [DecidableEq T] in
theorem pending_setProc (p : ProcState) :
    (fun y => (update s.proc x p y).pending a) =
      update (fun y => (s.proc y).pending a) x (p.pending a) := by
  funext y
  by_cases hy : y = x
  · subst hy
    simp only [update_self]
  · simp only [update_of_ne hy]

omit [Fintype X] [DecidableEq X] [DecidableEq T] in
theorem pending_running (hx : s.proc x = .running) (b : Addr) : (s.proc x).pending b = none := by rw [hx]; rfl

omit [DecidableEq T] in
theorem enterXid_spec (h : LockInv ctl s) (hlive : s.lockHash tag = some a) (x : X) :
    LockInv ctl (s.enterXid x a) ∧ (s.enterXid x a).lockHash = s.lockHash ∧ (s.enterXid x a).proc = s.proc ∧
      ((s.enterXid x a).xidHash x a).isSome = true := by
  rw [enterXid]
  cases he : s.xidHash x a with
  | some e => exact ⟨h, rfl, rfl, by rw [he]; rfl⟩
  | none =>
    have hat := setEnt_at (s := s) (x := x) (a := a) (some .init)
    have hself : ((s.setEnt x a (some .init)).xidHash x a) = some .init := by
      rw [congrFun hat x, update_self]
    have hkeep (y : X) (b : Addr) (hb : (s.xidHash y b).isSome = true) :
        ((s.setEnt x a (some .init)).xidHash y b).isSome = true := by
      by_cases hba : b = a
      · subst hba
        have hyx : y ≠ x := by
          intro e
          rw [e, he] at hb
          cases hb
        rw [congrFun hat y, update_of_ne hyx]
        exact hb
      · rw [setEnt_of_ne _ hba]
        exact hb
    refine ⟨h.change hlive ⟨fun _ _ => rfl, fun y b hb => setEnt_of_ne _ hb y, fun _ _ _ => rfl⟩ rfl rfl rfl rfl ?_
      (fun y b hb => ?_) (fun y => ?_), rfl, rfl, ?_⟩
    · have hb := (h.books tag a hlive).enter (x := x) he
      rw [← hat] at hb
      exact hb
    · dsimp only at hb ⊢
      by_cases hyx : y = x
      · subst hyx
        rw [update_self, mem_cons] at hb
        rcases hb with rfl | hb
        · rw [hself]
          rfl
        · exact hkeep y b (h.queued y b hb)
      · rw [update_of_ne hyx] at hb
        exact hkeep y b (h.queued y b hb)
    · dsimp only
      by_cases hyx : y = x
      · subst hyx
        rw [update_self]
        refine nodup_cons.mpr ⟨fun hm => ?_, h.queue_nodup y⟩
        have := h.queued y a hm
        rw [he] at this
        cases this
      · rw [update_of_ne hyx]
        exact h.queue_nodup y
    · dsimp only
      rw [hself]
      rfl

/-- What wake-ups on the lock at `a` do: everything else stays as it was, and so does every
process that was not in the queue. -/
structure Woken (s s' : LockSys X T) (a : Addr) : Prop where
  elsewhere : Elsewhere s s' a
  lockHash : s'.lockHash = s.lockHash
  free : s'.free = s.free
  fresh : s'.fresh = s.fresh
  lockQueue : s'.lockQueue = s.lockQueue
  tag : (s'.lock a).tag = (s.lock a).tag
  isSome : ∀ x, (s'.xidHash x a).isSome = (s.xidHash x a).isSome
  proc : ∀ x, (s.proc x).pending a = none → s'.proc x = s.proc x

omit [Fintype X] [DecidableEq X] [DecidableEq T] in
theorem Woken.refl (s : LockSys X T) (a : Addr) : Woken s s a :=
  ⟨.refl s a, rfl, rfl, rfl, rfl, rfl, fun _ => rfl, fun _ _ => rfl⟩

omit [Fintype X] [DecidableEq X] [DecidableEq T] in
theorem Woken.trans (h : Woken s s' a) (h' : Woken s' u a) : Woken s u a :=
  ⟨h.elsewhere.trans h'.elsewhere, h'.lockHash.trans h.lockHash, h'.free.trans h.free, h'.fresh.trans h.fresh,
    h'.lockQueue.trans h.lockQueue, h'.tag.trans h.tag, fun x => (h'.isSome x).trans (h.isSome x),
    fun x hx => (h'.proc x (by rw [h.proc x hx]; exact hx)).trans (h.proc x hx)⟩

omit [Fintype X] [DecidableEq X] [DecidableEq T] in
theorem pending_waiting (h : (s.proc x).pending a = some (t, true)) : s.proc x = .waiting a t := by
  cases hp : s.proc x with
  | waiting b t' =>
    rw [hp, pending] at h
    split_ifs at h with hb
    cases h
    rw [hb]
  | timedOut b t' =>
    rw [hp, pending] at h
    split_ifs at h
    cases h
  | running | ended =>
    rw [hp] at h
    cases h

omit [DecidableEq T] in
theorem wake_spec (h : s.Books ctl a) (hp : x ∈ (s.lock a).waitProcs) {e' : XidEnt}
    (hr : lockResolveConflicts ctl (s.lock a) (s.ent x a) (s.proc x).token = some e') :
    (s.wake a x e').Books ctl a ∧ Woken s (s.wake a x e') a ∧
      ((s.wake a x e').lock a).waitProcs = (s.lock a).waitProcs.erase x := by
  obtain ⟨t, hpend⟩ := (h.queue x).mp hp
  have hproc := pending_waiting hpend
  obtain ⟨e, he⟩ := isSome_iff_exists.mp (h.requests x t true hpend).2
  have hent : s.ent x a = e := by
    rw [ent, he]
    rfl
  have htok : (s.proc x).token = t := by
    rw [hproc]
    rfl
  rw [hent, htok] at hr
  obtain ⟨rfl, hfree⟩ := h.resolved he hr
  have hlock : (s.wake a x (e.add t)).lock a =
      grantLock {s.lock a with waitProcs := (s.lock a).waitProcs.erase x} t := by
    simp only [wake, setProc, setLock, update_self, htok]
    rfl
  refine ⟨?_, ⟨⟨fun b hb => update_of_ne hb .., fun y b hb => setEnt_of_ne _ hb y, fun y b hb => ?_⟩,
    rfl, rfl, rfl, rfl, ?_, fun y => ?_, fun y hy => ?_⟩, ?_⟩
  · have hout : Accounted ctl {s.lock a with waitProcs := (s.lock a).waitProcs.erase x} (fun y => s.xidHash y a) _ :=
      h.requeue hpend false (h.nodup.erase x) (fun y hy => mem_erase_of_ne hy)
        (by simp [h.nodup.mem_erase_iff])
    have hgrant := hout.grant (update_self ..) he hfree
    rw [LockSys.Books, hlock]
    rw [update_idem, ← setEnt_at] at hgrant
    have hnone : (fun y => ((s.wake a x (e.add t)).proc y).pending a) =
        update (fun y => (s.proc y).pending a) x none := pending_setProc (s := s) (.running)
    rw [hnone]
    exact hgrant
  · by_cases hyx : y = x
    · subst hyx
      simp only [wake, setProc, update_self, hproc, pending, if_neg hb.symm]
    · simp only [wake, setProc, update_of_ne hyx]
      rfl
  · rw [hlock]
    rfl
  · have hat := congrFun (setEnt_at (s := s) (x := x) (a := a) (some (e.add t))) y
    show ((s.setEnt x a (some (e.add t))).xidHash y a).isSome = _
    rw [hat]
    by_cases hyx : y = x
    · subst hyx
      rw [update_self, he]
      rfl
    · rw [update_of_ne hyx]
  · have hyx : y ≠ x := by
      intro e
      rw [e, hpend] at hy
      cases hy
    exact update_of_ne hyx ..
  · rw [hlock]
    rfl

omit [DecidableEq T] in
theorem procLockWakeup_spec {ps : List X} (h : s.Books ctl a) (hq : (s.lock a).waitProcs = ps) :
    (procLockWakeup ctl a ps s).Books ctl a ∧ Woken s (procLockWakeup ctl a ps s) a := by
  induction ps generalizing s with
  | nil => exact ⟨h, .refl s a⟩
  | cons p ps ih =>
    rw [procLockWakeup]
    cases hr : lockResolveConflicts ctl (s.lock a) (s.ent p a) (s.proc p).token with
    | none => exact ⟨h, .refl s a⟩
    | some e =>
      obtain ⟨hb, hw, hrest⟩ := wake_spec h (by rw [hq]; exact mem_cons_self) hr
      rw [hq, erase_cons_head] at hrest
      obtain ⟨hb', hw'⟩ := ih hb hrest
      exact ⟨hb', hw.trans hw'⟩

omit [DecidableEq T] in
/-- Wake-ups keep the invariant. -/
theorem LockInv.woken (h : LockInv ctl s) (hlive : s.lockHash tag = some a) :
    LockInv ctl (procLockWakeup ctl a (s.lock a).waitProcs s) ∧
      Woken s (procLockWakeup ctl a (s.lock a).waitProcs s) a := by
  obtain ⟨hb, hw⟩ := procLockWakeup_spec (h.books tag a hlive) rfl
  refine ⟨h.change hlive hw.elsewhere hw.lockHash hw.free hw.fresh hw.tag hb (fun x b hm => ?_) (fun x => ?_), hw⟩
  · rw [hw.lockQueue] at hm
    by_cases hba : b = a
    · rw [hba, hw.isSome, ← hba]
      exact h.queued x b hm
    · rw [hw.elsewhere.ent x b hba]
      exact h.queued x b hm
  · rw [hw.lockQueue]
    exact h.queue_nodup x

/-! ### LockAcquire -/

omit [Fintype X] [DecidableEq X] in
theorem procSleep_perm (procPrio : X → Int) (prio : Int) (x : X) (q : List X) :
    (procSleep procPrio prio x q).Perm (x :: q) := by
  induction q with
  | nil => exact List.Perm.refl _
  | cons p q ih =>
    rw [procSleep]
    split_ifs
    · exact (ih.cons p).trans (List.Perm.swap x p q)
    · exact List.Perm.refl _

omit [DecidableEq T] in
/-- A request that meets no conflict is counted and granted. -/
theorem LockInv.acquired (h : LockInv ctl s) (hlive : s.lockHash tag = some a) (hx : s.proc x = .running)
    (ht : t ∈ ctl.types) (he : s.xidHash x a = some e)
    (hfree : ∀ y, y ≠ x → ∀ j ∈ ctl.types, 0 < heldBy (fun y => s.xidHash y a) y j →
      (ctl.conflictTab t).getLsbD j = false) :
    LockInv ctl ((s.setEnt x a (some (e.add t))).setLock a (grantLock ((s.lock a).request t) t)) := by
  have hat := setEnt_at (s := s) (x := x) (a := a) (some (e.add t))
  have hidle := pending_running hx a
  have hkeep (y : X) (b : Addr) (hb : (s.xidHash y b).isSome = true) :
      ((s.setEnt x a (some (e.add t))).xidHash y b).isSome = true := by
    by_cases hba : b = a
    · subst hba
      rw [congrFun hat y]
      by_cases hyx : y = x
      · subst hyx
        rw [update_self]
        rfl
      · rw [update_of_ne hyx]
        exact hb
    · rw [setEnt_of_ne _ hba]
      exact hb
  refine h.change hlive ⟨fun b hb => update_of_ne hb .., fun y b hb => setEnt_of_ne _ hb y,
    fun _ _ _ => rfl⟩ rfl rfl rfl ?_ ?_ (fun y b hb => hkeep y b (h.queued y b hb)) h.queue_nodup
  · simp only [setLock, update_self]
    rfl
  · have hreq := (h.books tag a hlive).request hidle ht (by rw [he]; rfl)
    have hgrant := hreq.grant (update_self ..) he hfree
    rw [update_idem, ← hat] at hgrant
    have hback : update (fun y => (s.proc y).pending a) x none = fun y => (s.proc y).pending a := by
      rw [← hidle]
      exact update_eq_self ..
    rw [hback] at hgrant
    simp only [LockSys.Books, setLock, update_self]
    exact hgrant

omit [DecidableEq T] in
/-- A request that meets a conflict is counted and put to sleep. -/
theorem LockInv.asleep (h : LockInv ctl s) (hlive : s.lockHash tag = some a) (hx : s.proc x = .running)
    (ht : t ∈ ctl.types) (he : s.xidHash x a = some e) (prio : Int) :
    LockInv ctl ((s.setLock a {(s.lock a).request t with
      waitProcs := procSleep s.procPrio prio x (s.lock a).waitProcs}).setProc x (.waiting a t)) := by
  have hidle := pending_running hx a
  have hperm := procSleep_perm s.procPrio prio x (s.lock a).waitProcs
  have hbooks := h.books tag a hlive
  have hout : x ∉ (s.lock a).waitProcs := by
    intro hm
    obtain ⟨t', ht'⟩ := (hbooks.queue x).mp hm
    rw [hidle] at ht'
    cases ht'
  refine h.change hlive ⟨fun b hb => update_of_ne hb .., fun _ _ _ => rfl, fun y b hb => ?_⟩ rfl rfl rfl ?_ ?_
    h.queued h.queue_nodup
  · by_cases hyx : y = x
    · subst hyx
      simp only [setProc, update_self, pending, if_neg hb.symm]
      exact (pending_running hx b).symm
    · simp only [setProc, update_of_ne hyx]
      rfl
  · simp only [setProc, setLock, update_self]
    rfl
  · have hreq := hbooks.request hidle ht (by rw [he]; rfl)
    have hsleep := hreq.requeue (update_self ..) true (hperm.nodup_iff.mpr (nodup_cons.mpr ⟨hout, hbooks.nodup⟩))
      (fun y hy => hperm.mem_iff.trans ((mem_cons).trans (or_iff_right hy)))
      ⟨fun _ => rfl, fun _ => hperm.mem_iff.mpr mem_cons_self⟩
    rw [update_idem] at hsleep
    have hpend : (fun y => ((update s.proc x (.waiting a t)) y).pending a) =
        update (fun y => (s.proc y).pending a) x (some (t, true)) := by
      rw [pending_setProc, pending, if_pos rfl]
    simp only [LockSys.Books, setProc, setLock, update_self]
    rw [hpend]
    exact hsleep

theorem inv_lockAcquire (h : LockInv ctl s) (hx : s.proc x = .running) (ht : t ∈ ctl.types) :
    LockInv ctl (lockAcquire ctl s x tag t).1 := by
  rw [lockAcquire]
  obtain ⟨h1, hlive, hproc, -⟩ := enterLock_spec h tag
  generalize s.enterLock tag = r at *
  obtain ⟨a, s1⟩ := r
  dsimp only at h1 hlive hproc ⊢
  obtain ⟨h2, hhash, hproc2, hsome⟩ := enterXid_spec h1 hlive x
  generalize s1.enterXid x a = s2 at *
  obtain ⟨e, he⟩ := isSome_iff_exists.mp hsome
  have hent : s2.ent x a = e := by
    rw [ent, he]
    rfl
  have hrun : s2.proc x = .running := by rw [hproc2, hproc, hx]
  rw [← hhash] at hlive
  have hreq := (h2.books tag a hlive).request (pending_running hrun a) ht (by rw [he]; rfl)
  rw [hent]
  split_ifs with hn
  · exact h2.acquired hlive hrun ht he fun y hy j hj hpos => absurd hpos (hreq.alone he hn hy hj)
  · cases hr : lockResolveConflicts ctl ((s2.lock a).request t) e t with
    | some e' =>
      obtain ⟨rfl, hfree⟩ := hreq.resolved he hr
      exact h2.acquired hlive hrun ht he hfree
    | none => exact h2.asleep hlive hrun ht he (ctl.prio t)

omit [DecidableEq X] [DecidableEq T] in
/-- A process that is not running has an entry for a lock in the table. -/
theorem LockInv.asked (h : LockInv ctl s) {p : Nat × Bool} (hp : (s.proc x).pending a = some p) :
    s.lockHash (s.lock a).tag = some a := by
  obtain ⟨e, he⟩ := isSome_iff_exists.mp (h.asks x a p hp)
  exact h.entries x a e he

omit [DecidableEq T] in
theorem inv_handleDeadLock (h : LockInv ctl s) (x : X) : LockInv ctl (handleDeadLock s x) := by
  rw [handleDeadLock]
  cases hp : s.proc x with
  | running => exact h
  | ended => exact h
  | timedOut a t => exact h
  | waiting a t =>
    have hpend : (s.proc x).pending a = some (t, true) := by rw [hp, pending, if_pos rfl]
    have hlive := h.asked hpend
    have hbooks := h.books _ a hlive
    refine h.change hlive ⟨fun b hb => update_of_ne hb .., fun _ _ _ => rfl, fun y b hb => ?_⟩ rfl rfl rfl ?_ ?_
      h.queued h.queue_nodup
    · by_cases hyx : y = x
      · subst hyx
        simp only [setProc, update_self, hp, pending, if_neg hb.symm]
      · simp only [setProc, update_of_ne hyx]
        rfl
    · simp only [setProc, setLock, update_self]
    · have hout := hbooks.requeue hpend false (hbooks.nodup.erase x) (fun y hy => mem_erase_of_ne hy)
        (by simp [hbooks.nodup.mem_erase_iff])
      have hpend' : (fun y => ((update s.proc x (.timedOut a t)) y).pending a) =
          update (fun y => (s.proc y).pending a) x (some (t, false)) := by
        rw [pending_setProc, pending, if_pos rfl]
      simp only [LockSys.Books, setProc, setLock, update_self]
      rw [hpend']
      exact hout

omit [DecidableEq T] in
theorem inv_waitOnLockError (h : LockInv ctl s) (hs : waitOnLockError s x = some s') : LockInv ctl s' := by
  rw [waitOnLockError] at hs
  cases hp : s.proc x with
  | running | ended | waiting a t =>
    rw [hp] at hs
    cases hs
  | timedOut a t =>
    rw [hp] at hs
    cases hs
    have hpend : (s.proc x).pending a = some (t, false) := by rw [hp, pending, if_pos rfl]
    have hlive := h.asked hpend
    refine h.change hlive ⟨fun b hb => update_of_ne hb .., fun _ _ _ => rfl, fun y b hb => ?_⟩ rfl rfl rfl ?_ ?_
      h.queued h.queue_nodup
    · by_cases hyx : y = x
      · subst hyx
        simp only [setProc, update_self, hp, pending, if_neg hb.symm]
      · simp only [setProc, update_of_ne hyx]
        rfl
    · simp only [setProc, setLock, update_self]
      rfl
    · have hout := (h.books _ a hlive).unrequest hpend
      have hpend' : (fun y => ((update s.proc x .running) y).pending a) =
          update (fun y => (s.proc y).pending a) x none := pending_setProc (.running)
      simp only [LockSys.Books, setProc, setLock, update_self]
      rw [hpend']
      exact hout

/-! ### LockRelease -/

section Writes
omit [Fintype X] [DecidableEq T]

omit [DecidableEq X] in
theorem setLock_lock (l : Lock X T) : (s.setLock a l).lock a = l := update_self ..

omit [DecidableEq X] in
theorem setLock_setLock (l l' : Lock X T) : (s.setLock a l).setLock a l' = s.setLock a l' := by
  simp only [setLock, update_idem]

theorem setLock_removeXid (l : Lock X T) : (s.setLock a l).removeXid x a = (s.removeXid x a).setLock a l := rfl

theorem setLock_setEnt (l : Lock X T) (v : Option XidEnt) :
    (s.setLock a l).setEnt x a v = (s.setEnt x a v).setLock a l := rfl

omit [DecidableEq X] in
theorem setLock_xidHash (l : Lock X T) : (s.setLock a l).xidHash = s.xidHash := rfl

end Writes

omit [DecidableEq T] in
theorem queued_setEnt (h : LockInv ctl s) (f : XidEnt) (y : X) (b : Addr) (hb : b ∈ s.lockQueue y) :
    ((s.setEnt x a (some f)).xidHash y b).isSome = true := by
  by_cases hba : b = a
  · subst hba
    rw [congrFun (setEnt_at (s := s) (x := x) (a := b) (some f)) y]
    by_cases hyx : y = x
    · subst hyx
      rw [update_self]
      rfl
    · rw [update_of_ne hyx]
      exact h.queued y b hb
  · rw [setEnt_of_ne _ hba]
    exact h.queued y b hb

omit [DecidableEq T] in
theorem queued_removeXid (h : LockInv ctl s) (y : X) :
    (∀ b ∈ (s.removeXid x a).lockQueue y, ((s.removeXid x a).xidHash y b).isSome = true) ∧
      ((s.removeXid x a).lockQueue y).Nodup := by
  simp only [removeXid]
  by_cases hyx : y = x
  · subst hyx
    rw [update_self]
    refine ⟨fun b hb => ?_, (h.queue_nodup y).erase a⟩
    obtain ⟨hba, hb⟩ := (h.queue_nodup y).mem_erase_iff.mp hb
    rw [setEnt_of_ne _ hba]
    exact h.queued y b hb
  · rw [update_of_ne hyx]
    refine ⟨fun b hb => ?_, h.queue_nodup y⟩
    by_cases hba : b = a
    · subst hba
      rw [congrFun (setEnt_at (s := s) (x := x) (a := b) none) y, update_of_ne hyx]
      exact h.queued y b hb
    · rw [setEnt_of_ne _ hba]
      exact h.queued y b hb

/-- A lock is removed by the only transaction with an entry for it. -/
theorem LockInv.removed (h : LockInv ctl s) (hlive : s.lockHash tag = some a) (hx : s.proc x = .running)
    (hsole : ∀ y, y ≠ x → s.xidHash y a = none) (l : Lock X T) :
    LockInv ctl {(s.setLock a l).removeXid x a with
      lockHash := update s.lockHash tag none, free := a :: s.free} := by
  have hat := setEnt_at (s := s) (x := x) (a := a) none
  refine h.remove hlive ⟨fun b hb => update_of_ne hb .., fun y b hb => setEnt_of_ne _ hb y, fun _ _ _ => rfl⟩
    rfl rfl rfl (fun y => ?_) (fun y => ?_) (fun y => (queued_removeXid (x := x) (a := a) h y).1)
    (fun y => (queued_removeXid (x := x) (a := a) h y).2)
  · refine (congrFun hat y).trans ?_
    by_cases hyx : y = x
    · rw [hyx, update_self]
    · rw [update_of_ne hyx]
      exact hsole y hyx
  · by_cases hyx : y = x
    · rw [hyx]
      exact pending_running hx a
    · cases hp : (s.proc y).pending a with
      | none => exact hp
      | some p =>
        have := h.asks y a p hp
        rw [hsole y hyx] at this
        cases this

omit [DecidableEq T] in
/-- A transaction gives back locks and leaves the lock in the table. -/
theorem LockInv.givenBack (h : LockInv ctl s) (hlive : s.lockHash tag = some a) {l : Lock X T} {v : Option XidEnt}
    (htag : l.tag = (s.lock a).tag)
    (hb : Accounted ctl l (update (fun y => s.xidHash y a) x v) fun y => (s.proc y).pending a) :
    LockInv ctl ((if v = none then s.removeXid x a else s.setEnt x a v).setLock a l) := by
  have hat := setEnt_at (s := s) (x := x) (a := a) v
  have htag' : ((update s.lock a l) a).tag = (s.lock a).tag := by rw [update_self, htag]
  have hbooks : Accounted ctl ((update s.lock a l) a) (fun y => (s.setEnt x a v).xidHash y a)
      fun y => (s.proc y).pending a := by
    rw [hat, update_self]
    exact hb
  cases v with
  | none =>
    rw [if_pos rfl]
    exact h.change hlive ⟨fun b hb => update_of_ne hb .., fun y b hb => setEnt_of_ne _ hb y, fun _ _ _ => rfl⟩
      rfl rfl rfl htag' hbooks (fun y => (queued_removeXid h y).1) (fun y => (queued_removeXid h y).2)
  | some f =>
    rw [if_neg (some_ne_none f)]
    exact h.change hlive ⟨fun b hb => update_of_ne hb .., fun y b hb => setEnt_of_ne _ hb y, fun _ _ _ => rfl⟩
      rfl rfl rfl htag' hbooks (fun y b hm => queued_setEnt h f y b hm) h.queue_nodup

theorem inv_lockRelease (h : LockInv ctl s) (hx : s.proc x = .running) (ht : t ∈ ctl.types)
    (hlive : s.lockHash tag = some a) (he : s.xidHash x a = some e) (hpos : 0 < e.holders t)
    (hsole : (s.lock a).nHolding = 1 → ∀ y, y ≠ x → s.xidHash y a = none) :
    LockInv ctl (lockRelease ctl s x tag t).1 := by
  have hrel := (h.books tag a hlive).release (pending_running hx a) he ht hpos
  obtain ⟨htag, hq, -, hn, -⟩ := clearMask_fields (l := (s.lock a).ungrant t) (t := t)
  have hn1 : ((s.lock a).ungrant t).nHolding = (s.lock a).nHolding - 1 := rfl
  rw [lockRelease, hlive]
  dsimp only
  by_cases h0 : ((s.lock a).ungrant t).nHolding = 0
  · simp only [if_pos h0, removeLock, setLock, hlive, he]
    have hzero : (e.sub t).nHolding = 0 := by
      by_contra hne
      rw [if_neg hne] at hrel
      exact hne (hrel.entry_eq_zero (hn.trans h0) (update_self ..))
    rw [if_pos hzero]
    have hrem := h.removed hlive hx (hsole (by omega)) (((s.lock a).ungrant t).clearMask t)
    simpa only [removeXid, setEnt, setLock, update_idem] using hrem
  · simp only [if_neg h0, setLock_xidHash, he]
    have hwake {u : LockSys X T} (hu : LockInv ctl (u.setLock a (((s.lock a).ungrant t).clearMask t)))
        (hl : u.lockHash tag = some a) : LockInv ctl (procLockWakeup ctl a ((s.lock a).ungrant t).waitProcs
          (u.setLock a (((s.lock a).ungrant t).clearMask t))) := by
      have hlock : ((u.setLock a (((s.lock a).ungrant t).clearMask t)).lock a).waitProcs =
          ((s.lock a).ungrant t).waitProcs := by
        rw [setLock_lock, hq]
      rw [← hlock]
      exact (hu.woken hl).1
    by_cases hz : (e.sub t).nHolding = 0
    · rw [if_pos hz] at hrel ⊢
      have hback := h.givenBack hlive htag hrel
      rw [setLock_removeXid, setLock_setLock]
      exact hwake hback hlive
    · rw [if_neg hz] at hrel ⊢
      have hback := h.givenBack hlive htag hrel
      rw [setLock_setEnt, setLock_setLock]
      exact hwake hback hlive

/-! ### LockReleaseAll -/

theorem releaseEntry_spec (h : LockInv ctl s) (hx : s.proc x = .running) (he : s.xidHash x a = some e)
    (hsole : (s.lock a).nHolding = e.nHolding → ∀ y, y ≠ x → s.xidHash y a = none) :
    (releaseEntry ctl s x a).2 = true ∧ LockInv ctl (releaseEntry ctl s x a).1 ∧
      Elsewhere s (releaseEntry ctl s x a).1 a ∧ (releaseEntry ctl s x a).1.proc x = .running := by
  have hlive := h.entries x a e he
  rw [releaseEntry, he]
  dsimp only
  by_cases hn : (s.lock a).nHolding = e.nHolding
  · rw [if_neg (not_not.mpr hn), if_pos rfl, removeLock]
    rw [show ((s.setLock a {s.lock a with nHolding := 0}).removeXid x a).lockHash (s.lock a).tag = some a from hlive]
    exact ⟨rfl, h.removed hlive hx (hsole hn) _, ⟨fun b hb => update_of_ne hb .., fun y b hb =>
      setEnt_of_ne _ hb y, fun _ _ _ => rfl⟩, hx⟩
  · rw [if_pos hn]
    have hrel := (h.books _ a hlive).releaseAll (pending_running hx a) he
    obtain ⟨htag, hq, hnh, -⟩ := dropTypes_fields (e := e) ctl.nLockTypes
      (l := {s.lock a with nHolding := (s.lock a).nHolding - e.nHolding, nActive := (s.lock a).nActive - e.nHolding})
    generalize Lock.dropTypes {s.lock a with
      nHolding := (s.lock a).nHolding - e.nHolding, nActive := (s.lock a).nActive - e.nHolding} e ctl.nLockTypes = l at *
    rw [if_neg (by rw [hnh]; exact sub_ne_zero.mpr hn), setLock_removeXid]
    have hback : LockInv ctl ((s.removeXid x a).setLock a l) := h.givenBack hlive htag hrel
    obtain ⟨hinv, hw⟩ := hback.woken hlive
    rw [setLock_lock] at hinv hw
    have hels : Elsewhere s ((s.removeXid x a).setLock a l) a :=
      ⟨fun b hb => update_of_ne hb .., fun y b hb => setEnt_of_ne _ hb y, fun _ _ _ => rfl⟩
    refine ⟨rfl, hinv, hels.trans hw.elsewhere, ?_⟩
    exact (hw.proc x (pending_running (s := s) hx a)).trans hx

theorem releaseEntries_spec {n : Nat} {q : List Addr} (h : LockInv ctl s) (hx : s.proc x = .running) (hnd : q.Nodup)
    (hq : ∀ b ∈ q, (s.xidHash x b).isSome = true)
    (hsole : ∀ b ∈ q, (s.lock b).nHolding = (s.ent x b).nHolding → ∀ y, y ≠ x → s.xidHash y b = none) :
    (releaseEntries ctl x n q s).2 = true ∧ LockInv ctl (releaseEntries ctl x n q s).1 ∧
      (releaseEntries ctl x n q s).1.proc x = .running := by
  induction q generalizing n s with
  | nil =>
    rw [releaseEntries]
    exact ⟨rfl, h, hx⟩
  | cons a q ih =>
    cases n with
    | zero =>
      rw [releaseEntries]
      exact ⟨rfl, h, hx⟩
    | succ n =>
      obtain ⟨hnot, hnd⟩ := nodup_cons.mp hnd
      obtain ⟨e, he⟩ := isSome_iff_exists.mp (hq a mem_cons_self)
      have hent : s.ent x a = e := by
        rw [ent, he]
        rfl
      obtain ⟨htrue, hinv, hels, hrun⟩ := releaseEntry_spec h hx he (hent ▸ hsole a mem_cons_self)
      rw [releaseEntries]
      generalize releaseEntry ctl s x a = r at *
      obtain ⟨u, ok⟩ := r
      cases htrue
      have hba {b : Addr} (hb : b ∈ q) : b ≠ a := fun e => hnot (e ▸ hb)
      refine ih hinv hrun hnd (fun b hb => ?_) (fun b hb hn y hy => ?_)
      · rw [hels.ent x b (hba hb)]
        exact hq b (mem_cons_of_mem a hb)
      · rw [hels.ent y b (hba hb)]
        rw [hels.lock b (hba hb), ent, hels.ent x b (hba hb)] at hn
        exact hsole b (mem_cons_of_mem a hb) hn y hy

omit [DecidableEq T] in
/-- A transaction ends with its queue empty. -/
theorem LockInv.ended (h : LockInv ctl s) (hx : s.proc x = .running) :
    LockInv ctl (setProc {s with lockQueue := update s.lockQueue x []} x .ended) := by
  have hpend (b : Addr) : (fun y => (update s.proc x .ended y).pending b) = fun y => (s.proc y).pending b := by
    rw [pending_setProc]
    exact (congrArg (update _ x) (pending_running hx b).symm).trans (update_eq_self ..)
  refine ⟨fun tag b hl => ?_, h.tagged, h.live, h.free_lt, h.free_nodup, h.entries, fun y b p hp => ?_,
    fun y b hb => ?_, fun y => ?_⟩
  · have := h.books tag b hl
    rw [LockSys.Books, ← hpend b] at this
    exact this
  · exact h.asks y b p ((congrFun (hpend b) y).symm.trans hp)
  · simp only [setProc] at hb ⊢
    by_cases hyx : y = x
    · rw [hyx, update_self] at hb
      exact absurd hb not_mem_nil
    · rw [update_of_ne hyx] at hb
      exact h.queued y b hb
  · simp only [setProc]
    by_cases hyx : y = x
    · rw [hyx, update_self]
      exact nodup_nil
    · rw [update_of_ne hyx]
      exact h.queue_nodup y

theorem inv_lockReleaseAll (h : LockInv ctl s) (hx : s.proc x = .running)
    (hsole : ∀ b ∈ s.lockQueue x, (s.lock b).nHolding = (s.ent x b).nHolding → ∀ y, y ≠ x → s.xidHash y b = none) :
    LockInv ctl ((lockReleaseAll ctl s x).1.setProc x .ended) := by
  obtain ⟨htrue, hinv, hrun⟩ := releaseEntries_spec (n := 2001) h hx (h.queue_nodup x) (h.queued x) hsole
  rw [lockReleaseAll]
  generalize releaseEntries ctl x 2001 (s.lockQueue x) s = r at *
  obtain ⟨u, ok⟩ := r
  cases htrue
  exact hinv.ended hrun

/-- What a transaction holds of a type on the lock at `a`. -/
def LockSys.held (s : LockSys X T) (x : X) (a : Addr) (i : Nat) : Int := (s.ent x a).holders i

/-- A transaction holds a lock of type `i` on the object `tag`. -/
def LockSys.Holds (s : LockSys X T) (x : X) (tag : T) (i : Nat) : Prop := ∃ a, (s.lock a).tag = tag ∧ 0 < s.held x a i

/-- The number of transactions that wait for type `i` of the lock at `a`, those included whose
timeout has not reached `WaitOnLock` yet. -/
def LockSys.waiters (s : LockSys X T) (a : Addr) (i : Nat) : Nat :=
  (Finset.univ.filter fun x => s.proc x = .waiting a i ∨ s.proc x = .timedOut a i).card

/-- The number of transactions that wait for the lock at `a`. -/
def LockSys.allWaiters (s : LockSys X T) (a : Addr) : Nat :=
  (Finset.univ.filter fun x => ((s.proc x).pending a).isSome = true).card

/-- The counters of the lock at `a` agree with the entries and the waiters. -/
structure LockSys.Counted (ctl : Ctl) (s : LockSys X T) (a : Addr) : Prop where
  active : ∀ i ∈ ctl.types, (s.lock a).activeHolders i = ∑ x, s.held x a i
  nActive : (s.lock a).nActive = ∑ i ∈ ctl.types, (s.lock a).activeHolders i
  mask : ∀ i ∈ ctl.types, (s.lock a).mask.getLsbD i = true ↔ 0 < (s.lock a).activeHolders i
  waiting : ∀ i ∈ ctl.types, (s.lock a).holders i - (s.lock a).activeHolders i = s.waiters a i
  nHolding : (s.lock a).nHolding = (s.lock a).nActive + s.allWaiters a

/-- No two transactions hold locks that conflict on one object, and the counters of every lock
are right. -/
structure LockSys.Safe (ctl : Ctl) (s : LockSys X T) : Prop where
  exclusive : ∀ tag x y i j, i ∈ ctl.types → j ∈ ctl.types → x ≠ y → s.Holds x tag i → s.Holds y tag j →
    ¬ ctl.Conflict i j
  counted : ∀ tag a, s.lockHash tag = some a → s.Counted ctl a

/-- How the lock manager is called: a type is one of the table's, and what is released is held. -/
def LockSys.Legal (ctl : Ctl) (s : LockSys X T) : Act X T → Prop
  | .acquire _ _ t => t ∈ ctl.types
  | .release x tag t => t ∈ ctl.types ∧ ((s.lockHash tag).any fun a => decide (0 < s.held x a t)) = true
  | .releaseAll _ | .deadLock _ | .waitError _ => True

/-- No transaction but `x` has an entry for the lock at `a`. -/
def LockSys.Sole (s : LockSys X T) (x : X) (a : Addr) : Prop := ∀ y, y ≠ x → (s.xidHash y a).isNone = true

/-- A lock that this step removes has no entries of other transactions. -/
def LockSys.NoneLeft (s : LockSys X T) : Act X T → Prop
  | .release x tag _ => ∀ a ∈ s.lockHash tag, (s.lock a).nHolding = 1 → s.Sole x a
  | .releaseAll x => ∀ a ∈ s.lockQueue x, (s.lock a).nHolding = (s.ent x a).nHolding → s.Sole x a
  | .acquire .. | .deadLock _ | .waitError _ => True

theorem inv_step {r : Act X T} (h : LockInv ctl s) (hlegal : s.Legal ctl r) (hleft : s.NoneLeft r)
    (hs : step ctl s r = some s') : LockInv ctl s' := by
  have hsole {y : X} {b : Addr} (hb : s.Sole y b) (z : X) (hz : z ≠ y) : s.xidHash z b = none :=
    isNone_iff_eq_none.mp (hb z hz)
  cases r with
  | acquire y tag' i =>
    rw [step] at hs
    split_ifs at hs with hy
    cases hs
    exact inv_lockAcquire h hy hlegal
  | release y tag' i =>
    rw [step] at hs
    split_ifs at hs with hy
    cases hs
    obtain ⟨hi, hheld⟩ := hlegal
    cases hl : s.lockHash tag' with
    | none =>
      rw [hl] at hheld
      cases hheld
    | some a =>
      rw [hl, any_some, decide_eq_true_iff] at hheld
      cases he : s.xidHash y a with
      | none =>
        rw [held, ent, he] at hheld
        exact absurd hheld (lt_irrefl 0)
      | some e =>
        rw [held, ent, he] at hheld
        exact inv_lockRelease h hy hi hl he hheld fun hn => hsole (hleft a hl hn)
  | releaseAll y =>
    rw [step] at hs
    split_ifs at hs with hy
    cases hs
    exact inv_lockReleaseAll h hy fun b hb hn => hsole (hleft b hb hn)
  | deadLock y =>
    cases hs
    exact inv_handleDeadLock h y
  | waitError y => exact inv_waitOnLockError h hs

omit [DecidableEq X] [DecidableEq T] in
theorem inv_start (tag : T) (procPrio : X → Int) : LockInv ctl (start tag procPrio) where
  books _ _ h := nomatch h
  tagged _ _ h := nomatch h
  live _ _ h := nomatch h
  free_lt _ h := absurd h not_mem_nil
  free_nodup := nodup_nil
  entries _ _ _ h := nomatch h
  asks _ _ _ h := nomatch h
  queued _ _ h := absurd h not_mem_nil
  queue_nodup _ := nodup_nil

omit [Fintype X] [DecidableEq X] [DecidableEq T] in
theorem pending_fst (i : Nat) : ((s.proc x).pending a).map Prod.fst = some i ↔
    s.proc x = .waiting a i ∨ s.proc x = .timedOut a i := by
  cases hp : s.proc x with
  | running | ended => simp [pending]
  | waiting b j | timedOut b j =>
    by_cases hb : b = a <;> simp [pending, hb]

omit [DecidableEq X] [DecidableEq T] in
theorem LockInv.safe (h : LockInv ctl s) : s.Safe ctl := by
  have hfind {tag : T} {y : X} {i : Nat} (hy : s.Holds y tag i) : ∃ a, s.lockHash tag = some a ∧ 0 < s.held y a i := by
    obtain ⟨a, rfl, hpos⟩ := hy
    refine ⟨a, ?_, hpos⟩
    cases he : s.xidHash y a with
    | none =>
      rw [held, ent, he] at hpos
      exact absurd hpos (lt_irrefl 0)
    | some e => exact h.entries y a e he
  refine ⟨fun tag y z i j hi hj hne hy hz => ?_, fun tag a hl => ?_⟩
  · obtain ⟨a, ha, hya⟩ := hfind hy
    obtain ⟨b, hb, hzb⟩ := hfind hz
    rw [ha] at hb
    cases hb
    exact (h.books tag a ha).exclusive y z i j hi hj hne hya hzb
  · have hbooks := h.books tag a hl
    refine ⟨hbooks.active, hbooks.nActive, hbooks.mask, fun i hi => ?_, hbooks.nHolding⟩
    have hcount : waitersFor (fun y => (s.proc y).pending a) i = s.waiters a i := by
      rw [waitersFor, Count.count, waiters]
      simp only [pending_fst]
    rw [hbooks.holders i hi, hcount]
    omega

instance legalDecidable (s : LockSys X T) (r : Act X T) : Decidable (s.Legal ctl r) :=
  match r with
  | .acquire .. => inferInstanceAs (Decidable (_ ∈ ctl.types))
  | .release .. => inferInstanceAs (Decidable (_ ∧ _))
  | .releaseAll _ | .deadLock _ | .waitError _ => isTrue trivial

instance (s : LockSys X T) (x : X) (a : Addr) : Decidable (s.Sole x a) :=
  inferInstanceAs (Decidable (∀ y, y ≠ x → (s.xidHash y a).isNone = true))

instance (s : LockSys X T) (r : Act X T) : Decidable (s.NoneLeft r) :=
  match r with
  | .release x tag _ => inferInstanceAs (Decidable (∀ a ∈ s.lockHash tag, (s.lock a).nHolding = 1 → s.Sole x a))
  | .releaseAll x =>
    inferInstanceAs (Decidable (∀ a ∈ s.lockQueue x, (s.lock a).nHolding = (s.ent x a).nHolding → s.Sole x a))
  | .acquire .. | .deadLock _ | .waitError _ => isTrue trivial

local instance threeProcs : NeZero 3 := ⟨by decide⟩
local instance twoLocks : NeZero 2 := ⟨by decide⟩

/-- Two writers and a reader on one object: the first wakes the second when it ends, the third
times out and ends. -/
def sharedObject : List (Act (Fin 3) (Fin 2)) :=
  [.acquire 0 0 1, .acquire 1 0 1, .acquire 2 0 2, .deadLock 2, .waitError 2, .releaseAll 0, .releaseAll 2]

local instance fiveProcs : NeZero 5 := ⟨by decide⟩

/-- Transaction 1 times out on the object 0, whose lock is then removed; transaction 2 locks the
object at another element, which the `LockReleaseAll` of transaction 1 removes. -/
def removedUnder : List (Act (Fin 5) (Fin 2)) :=
  [.acquire 4 1 1, .acquire 0 0 1, .acquire 1 0 1, .deadLock 1, .waitError 1, .release 0 0 1, .release 4 1 1,
    .acquire 2 0 1, .releaseAll 1, .acquire 3 0 1]

end Safety

end PgStorage.Lmgr
