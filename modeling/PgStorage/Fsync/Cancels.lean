import PgStorage.Fsync.Scan

/-! The cancels on their way.

A file that vanished was cancelled, and the cancel is in the table or in the queue: absorbing the queue
empties the requests for the file and marks what is detached as cancelled. So the retry that follows on a
missing file skips the segment. -/
namespace PgStorage.Fsync
open List Sys

section
variable {s t u : Sys} {m : Request} {k : Fork} {l : List Request} {r : RelFileNode} {f : ForkNumber}
  {rest : List ForkNumber} {a b : Finset Nat}

theorem requests_congr (h : t.pendingOpsTable k.1 = s.pendingOpsTable k.1) : t.requests k = s.requests k := by
  rw [requests, h, requests]

theorem canceled_congr (h : t.pendingOpsTable k.1 = s.pendingOpsTable k.1) : t.canceled k = s.canceled k := by
  rw [canceled, h, canceled]

theorem absorb_table (s : Sys) (r : RelFileNode) : s.absorbFsyncRequests.pendingOpsTable r =
    s.queue.foldl (fun e m => m.apply s.mdsyncCycleCtr r e) (s.pendingOpsTable r) := by
  have hfold : ∀ l s, (foldl remember s l).pendingOpsTable r =
      l.foldl (fun e m => m.apply s.mdsyncCycleCtr r e) (s.pendingOpsTable r) := by
    intro l
    induction l with
    | nil => exact fun _ => rfl
    | cons m l ih =>
      intro s
      rw [foldl_cons, ih, remember_table, (remember_frame s m).ctr, foldl_cons]
  exact hfold s.queue s

theorem absorb_congr (hq : t.queue = s.queue) (hc : t.mdsyncCycleCtr = s.mdsyncCycleCtr)
    (ht : t.pendingOpsTable r = s.pendingOpsTable r) :
    t.absorbFsyncRequests.pendingOpsTable r = s.absorbFsyncRequests.pendingOpsTable r := by
  rw [absorb_table, absorb_table, hq, hc, ht]

theorem absorb_nil (hq : t.queue = []) : t.absorbFsyncRequests.pendingOpsTable r = t.pendingOpsTable r := by
  rw [absorb_table, hq]
  rfl

theorem absorb_snoc (hq : t.queue = s.queue ++ [m]) (hc : t.mdsyncCycleCtr = s.mdsyncCycleCtr)
    (ht : t.pendingOpsTable r = s.pendingOpsTable r) :
    t.absorbFsyncRequests.pendingOpsTable r = (s.absorbFsyncRequests.remember m).pendingOpsTable r := by
  rw [absorb_table, hq, hc, ht, foldl_append, ← absorb_table, remember_table, (absorb_frame s).ctr]
  rfl

/-- The requests for a fork after a queue. -/
def settle (k : Fork) (l : List Request) (a : Finset Nat) : Finset Nat :=
  l.foldl (fun a m => if m.covers k = true then ∅ else m.adds k ∪ a) a

theorem settle_mono (h : a ⊆ b) : settle k l a ⊆ settle k l b := by
  induction l generalizing a b with
  | nil => exact h
  | cons m l ih =>
    rw [settle, settle, foldl_cons, foldl_cons]
    refine ih ?_
    split
    · exact subset_rfl
    · exact Finset.union_subset_union_right h

/-- What was there and is not there any more was cancelled. -/
theorem settle_covered (ha : a ≠ ∅) (h : settle k l a = ∅) : ∃ m ∈ l, m.covers k = true := by
  induction l generalizing a with
  | nil => exact absurd h ha
  | cons m l ih =>
    rw [settle, foldl_cons] at h
    by_cases hm : m.covers k = true
    · exact ⟨m, mem_cons_self, hm⟩
    · rw [if_neg hm] at h
      obtain ⟨m', hm', hx⟩ := ih (fun he => ha (Finset.union_eq_empty.mp he).2) h
      exact ⟨m', mem_cons_of_mem m hm', hx⟩

theorem absorb_requests (s : Sys) (k : Fork) :
    s.absorbFsyncRequests.requests k = settle k s.queue (s.requests k) := by
  have hfold : ∀ l s, (foldl remember s l).requests k = settle k l (s.requests k) := by
    intro l
    induction l with
    | nil => exact fun _ => rfl
    | cons m l ih =>
      intro s
      rw [foldl_cons, ih, requests_remember]
      rfl
  exact hfold s.queue s

theorem remember_canceled (h : s.canceled k = true) : (s.remember m).canceled k = true := by
  rw [canceled_remember, h, Bool.or_true]

/-- A cancel in the queue marks the fork. -/
theorem covered_canceled (h : ∃ m ∈ s.queue, m.covers k = true) (hs : (s.pendingOpsTable k.1).isSome = true) :
    s.absorbFsyncRequests.canceled k = true := by
  have hfold : ∀ l s, (∃ m ∈ l, m.covers k = true) → (s.pendingOpsTable k.1).isSome = true →
      (foldl remember s l).canceled k = true := by
    intro l
    induction l with
    | nil => exact fun _ ⟨_, hm, _⟩ => absurd hm not_mem_nil
    | cons m l ih =>
      rintro s ⟨m', hm', hc⟩ hs
      rw [foldl_cons]
      rcases mem_cons.mp hm' with rfl | hm'
      · have hkeep : ∀ l s, s.canceled k = true → (foldl remember s l).canceled k = true := by
          intro l
          induction l with
          | nil => exact fun _ h => h
          | cons m l ih => exact fun s h => ih _ (remember_canceled h)
        refine hkeep l _ ?_
        rw [canceled_remember, hc, hs]
        rfl
      · obtain ⟨e, he⟩ := Option.isSome_iff_exists.mp hs
        obtain ⟨e', he', -⟩ := remember_some (m := m) he
        exact ih _ ⟨m', hm', hc⟩ (he' ▸ rfl)
  exact hfold s.queue s h hs

theorem requests_mdsync (s : Sys) (k : Fork) : s.mdsync.requests k = s.absorbFsyncRequests.requests k := by
  rw [mdsync]
  split
  next =>
    rw [requests, requests]
    dsimp only
    cases s.absorbFsyncRequests.pendingOpsTable k.1 <;> rfl
  next => rfl

theorem requests_keep {e : PendingOperationEntry} {c : CycleCtr} (he : s.pendingOpsTable r = some e) (k : Fork) :
    (s.setEntry r (some {e with cycleCtr := c})).requests k = s.requests k := by
  rw [requests, setEntry_table, requests]
  split
  next hr => rw [hr, he]; rfl
  next => rfl

theorem requests_drop {e : PendingOperationEntry} (he : s.pendingOpsTable r = some e)
    (hr : ∀ f, e.requests f = ∅) (k : Fork) : (s.setEntry r none).requests k = s.requests k := by
  rw [requests, setEntry_table, requests]
  split
  next hk => rw [hk, he]; exact (hr k.2).symm
  next => rfl

structure Queued (s : Sys) : Prop where
  gone : ∀ k, s.gone k = true → s.sent k = false
  requests : ∀ k, s.sent k = false → s.absorbFsyncRequests.requests k = ∅
  canceled : ∀ k, s.sent k = false → s.pc.fork = some k → s.pc.detached ≠ ∅ →
    s.absorbFsyncRequests.canceled k = true
  first : ∀ r f rest requests n i, s.pc = .attempt r f rest requests n i → i = 0
  retry : ∀ r f rest requests n i, s.pc = .retry r f rest requests n i →
    s.absorbFsyncRequests.canceled (r, f) = true

/-- Between two forks. -/
theorem Queued.between (h : Queued s) (hgone : t.gone = s.gone) (hsent : t.sent = s.sent) (hpc : t.pc.fork = none)
    (hreq : ∀ k, t.absorbFsyncRequests.requests k ⊆ s.absorbFsyncRequests.requests k) : Queued t := by
  refine ⟨fun k hk => ?_, fun k hk => ?_, fun k _ hk => ?_, fun r f rest requests n i hp => ?_,
    fun r f rest requests n i hp => ?_⟩
  · rw [hsent]
    exact h.gone k (hgone ▸ hk)
  · exact Finset.subset_empty.mp (h.requests k (hsent ▸ hk) ▸ hreq k)
  · exact absurd (hpc.symm.trans hk) nofun
  · rw [hp] at hpc
    exact absurd hpc nofun
  · rw [hp] at hpc
    exact absurd hpc nofun

/-- What `Queued` says of a state does not depend on the rest. -/
structure SameQueue (s t : Sys) : Prop where
  queue : t.queue = s.queue
  ctr : t.mdsyncCycleCtr = s.mdsyncCycleCtr
  table : t.pendingOpsTable = s.pendingOpsTable
  sent : t.sent = s.sent

theorem SameQueue.absorb (h : SameQueue s t) (r : RelFileNode) :
    t.absorbFsyncRequests.pendingOpsTable r = s.absorbFsyncRequests.pendingOpsTable r :=
  absorb_congr h.queue h.ctr (congrFun h.table r)

/-- Inside a fork. -/
theorem Queued.inside (h : Queued s) (hst : SameQueue s t)
    (hgone : ∀ k, t.gone k = true → s.gone k = true ∨ s.sent k = false)
    (hdet : ∀ k, t.pc.fork = some k → t.pc.detached ≠ ∅ → s.pc.fork = some k ∧ s.pc.detached ≠ ∅)
    (hfirst : ∀ r f rest requests n i, t.pc = .attempt r f rest requests n i → i = 0)
    (hretry : ∀ r f rest requests n i, t.pc = .retry r f rest requests n i →
      s.absorbFsyncRequests.canceled (r, f) = true) : Queued t := by
  refine ⟨fun k hk => ?_, fun k hk => ?_, fun k hk hf hd => ?_, hfirst, fun r f rest requests n i hp => ?_⟩
  · rw [hst.sent]
    exact (hgone k hk).elim (h.gone k) id
  · rw [requests_congr (hst.absorb k.1)]
    exact h.requests k (hst.sent ▸ hk)
  · rw [canceled_congr (hst.absorb k.1)]
    obtain ⟨hf', hd'⟩ := hdet k hf hd
    exact h.canceled k (hst.sent ▸ hk) hf' hd'
  · rw [canceled_congr (hst.absorb (r, f).1)]
    exact hretry r f rest requests n i hp

theorem Queued.absorb (h : Queued s) : Queued s.absorbFsyncRequests := by
  have hf := absorb_frame s
  have ht : ∀ r, s.absorbFsyncRequests.absorbFsyncRequests.pendingOpsTable r =
      s.absorbFsyncRequests.pendingOpsTable r := fun r => absorb_nil rfl
  refine ⟨fun k hk => ?_, fun k hk => ?_, fun k hk hp hd => ?_, ?_, fun r f rest requests n i hp => ?_⟩
  · rw [hf.sent]
    exact h.gone k (hf.gone ▸ hk)
  · rw [requests_congr (ht k.1)]
    exact h.requests k (hf.sent ▸ hk)
  · rw [canceled_congr (ht k.1)]
    rw [hf.pc] at hp hd
    exact h.canceled k (hf.sent ▸ hk) hp hd
  · rw [hf.pc]
    exact h.first
  · rw [canceled_congr (ht (r, f).1)]
    exact h.retry r f rest requests n i (hf.pc ▸ hp)

/-! ### Steps -/

/-- A request for the fork was sent, or a cancel that is new ends what was there. -/
theorem Queued.send (h : Queued s) (hs : Scanning s) (ht : s.send m = some t) : Queued t := by
  have hsend : t.queue = s.queue ++ [m] ∧ t.mdsyncCycleCtr = s.mdsyncCycleCtr ∧
      t.pendingOpsTable = s.pendingOpsTable ∧ t.gone = s.gone ∧ t.pc = s.pc ∧
      ∀ k, (t.sent k = false → m.covers k = true ∨ s.sent k = false ∧ m.adds k = ∅) ∧
        (s.gone k = true → s.sent k = false → t.sent k = false) := by
    cases m with
    | segment r f n =>
      rw [send] at ht
      split at ht
      next => exact absurd ht (by simp)
      next hg =>
        obtain rfl := Option.some_inj.mp ht
        refine ⟨rfl, rfl, rfl, rfl, rfl, fun k => ?_⟩
        by_cases hk : k = (r, f)
        · subst hk
          exact ⟨fun hx => absurd hx (by simp), fun hx => absurd hx hg⟩
        · simp [Request.covers, Request.adds, hk]
    | forgetRelation r f | forgetDatabase d =>
      obtain rfl := Option.some_inj.mp ht
      refine ⟨rfl, rfl, rfl, rfl, rfl, fun k => ?_⟩
      dsimp only [Request.adds]
      split
      next hk => exact ⟨fun _ => .inl hk, fun _ _ => rfl⟩
      next => exact ⟨fun hx => .inr ⟨hx, rfl⟩, fun _ hx => hx⟩
  obtain ⟨hq, hc, htable, hgone, hpc, hsent⟩ := hsend
  have ha : ∀ r, t.absorbFsyncRequests.pendingOpsTable r =
      (s.absorbFsyncRequests.remember m).pendingOpsTable r := fun r => absorb_snoc hq hc (congrFun htable r)
  refine ⟨fun k hk => ?_, fun k hk => ?_, fun k hk hp hd => ?_, hpc ▸ h.first, fun r f rest requests n i hp => ?_⟩
  · rw [hgone] at hk
    exact (hsent k).2 hk (h.gone k hk)
  · rw [requests_congr (ha k.1), requests_remember]
    split
    next => rfl
    next hm =>
      obtain ⟨hk', hadds⟩ := ((hsent k).1 hk).resolve_left hm
      rw [hadds, h.requests k hk', Finset.empty_union]
  · rw [hpc] at hp hd
    rw [canceled_congr (ha k.1), canceled_remember]
    rcases (hsent k).1 hk with hm | ⟨hk', -⟩
    · have hcur : s.pc.current = some k.1 := by
        cases hx : s.pc <;> rw [hx] at hp <;> cases hp <;> rfl
      rw [hm, hs.absorb.present k.1 ((absorb_frame s).pc ▸ hcur)]
      rfl
    · rw [h.canceled k hk' hp hd, Bool.or_true]
  · rw [canceled_congr (ha (r, f).1)]
    exact remember_canceled (h.retry r f rest requests n i (hpc ▸ hp))

theorem Queued.mdsync (h : Queued s) : Queued s.mdsync := by
  have hf := absorb_frame s
  have hm : s.mdsync.gone = s.absorbFsyncRequests.gone ∧ s.mdsync.sent = s.absorbFsyncRequests.sent ∧
      s.mdsync.pc.fork = none ∧ s.mdsync.queue = [] := by
    rw [Sys.mdsync]
    dsimp only
    split <;> exact ⟨rfl, rfl, rfl, rfl⟩
  obtain ⟨hgone, hsent, hpc, hq⟩ := hm
  refine h.between (hgone.trans hf.gone) (hsent.trans hf.sent) hpc fun k => ?_
  rw [requests_congr (absorb_nil hq), requests_mdsync]

/-- Detached requests that are cancelled already are found to be. -/
theorem Queued.detach (h : Queued s) {e : PendingOperationEntry} (he : s.pendingOpsTable r = some e) :
    Queued (s.detach r e f rest) := by
  have htable : ∀ r', (s.detach r e f rest).pendingOpsTable r' = if r' = r then some {e with
      requests := Function.update e.requests f ∅
      canceled := Function.update e.canceled f false} else s.pendingOpsTable r' := setEntry_table s r _
  have hreq : ∀ k, (s.detach r e f rest).requests k ⊆ s.requests k := by
    intro k
    rw [Sys.requests, htable, Sys.requests]
    split
    next hr =>
      rw [hr, he]
      by_cases hk : k.2 = f
      · simp [hk]
      · simp [hk]
    next => exact subset_rfl
  refine ⟨h.gone, fun k hk => ?_, fun k hk hp hd => ?_, by rintro _ _ _ _ _ _ ⟨⟩, by rintro _ _ _ _ _ _ ⟨⟩⟩
  · have hx := h.requests k hk
    rw [absorb_requests] at hx ⊢
    exact Finset.subset_empty.mp (hx ▸ settle_mono (hreq k))
  · obtain rfl : (r, f) = k := Option.some_inj.mp hp
    have hx := h.requests (r, f) hk
    rw [absorb_requests] at hx
    refine covered_canceled (settle_covered ?_ hx) ?_
    · rw [Sys.requests, he]
      exact hd
    · rw [htable, if_pos rfl]
      rfl

theorem Queued.next {act : Act} (h : Queued s) (hs : Scanning s) (ht : s.next act = some t) : Queued t := by
  have hsame : ∀ {t : Sys}, t.queue = s.queue → (∀ k, t.requests k = s.requests k) →
      ∀ k, t.absorbFsyncRequests.requests k ⊆ s.absorbFsyncRequests.requests k :=
    fun hq hreq k => by rw [absorb_requests, absorb_requests, hq, hreq]
  cases moves_of_next ht with
  | send hm => exact h.send hs hm
  | @remove k hk =>
    refine h.inside ⟨rfl, rfl, rfl, rfl⟩ (fun k' hk' => ?_) (fun _ hf hd => ⟨hf, hd⟩) h.first h.retry
    by_cases hx : k' = k
    · exact .inr (hx ▸ hk)
    · exact .inl ((Function.update_of_ne hx true s.gone).symm.trans hk')
  | @create k =>
    refine h.inside ⟨rfl, rfl, rfl, rfl⟩ (fun k' hk' => ?_) (fun _ hf hd => ⟨hf, hd⟩) h.first h.retry
    by_cases hx : k' = k
    · exact absurd hk' (by simp [hx])
    · exact .inl ((Function.update_of_ne hx false s.gone).symm.trans hk')
  | absorb => exact h.absorb
  | mdsync => exact h.mdsync
  | pass hp =>
    exact h.between rfl rfl (by rw [hp]; rfl) (hsame rfl fun _ => rfl)
  | visit | last | missingAgain | failed | finish => exact h.between rfl rfl rfl (hsame rfl fun _ => rfl)
  | detach hp he => exact h.detach he
  | keep hp he => exact h.between rfl rfl rfl (hsame rfl (requests_keep he))
  | drop hp he hr => exact h.between rfl rfl rfl (hsame rfl (requests_drop he hr))
  | @take r f rest requests n u c hp hn hu =>
    have hu' : Queued u ∧ u.pc = s.pc := by
      rcases hu with rfl | rfl
      · exact ⟨h, rfl⟩
      · exact ⟨h.absorb, (absorb_frame s).pc⟩
    rw [← hu'.2] at hp
    refine hu'.1.inside ⟨rfl, rfl, rfl, rfl⟩ (fun _ hk => .inl hk) (fun k hf hd => ?_)
      (fun r f rest requests n i hx => ?_) nofun
    · rw [hp]
      exact ⟨hf, Finset.ne_empty_of_mem hn⟩
    · cases hx
      rfl
  | @synced r f rest requests n i hp =>
    refine h.inside ⟨rfl, rfl, rfl, rfl⟩ (fun _ hk => .inl hk) (fun k hf hd => ?_) nofun nofun
    rw [hp]
    exact ⟨hf, Finset.insert_ne_empty n requests⟩
  | @missing r f rest requests n i hp hg =>
    refine h.inside ⟨rfl, rfl, rfl, rfl⟩ (fun _ hk => .inl hk) (fun k hf hd => ?_) nofun
      (fun r f rest requests n i hx => ?_)
    · rw [hp]
      exact ⟨hf, hd⟩
    · cases hx
      refine h.canceled (r, f) (h.gone _ hg) (by rw [hp]; rfl) ?_
      rw [hp]
      exact Finset.insert_ne_empty n requests
  | @skip r f rest requests n i c hp =>
    rw [← (absorb_frame s).pc] at hp
    refine h.absorb.inside ⟨rfl, rfl, rfl, rfl⟩ (fun _ hk => .inl hk) (fun k hf hd => ?_) nofun nofun
    rw [hp]
    exact ⟨hf, Finset.insert_ne_empty n requests⟩
  | @again r f rest requests n i c hp hc =>
    exact absurd (h.retry r f rest requests n i hp) (by rw [hc]; exact nofun)

theorem queued_start : Queued .start :=
  ⟨nofun, fun _ _ => rfl, nofun, nofun, nofun⟩

end
end PgStorage.Fsync
