import PgStorage.Fsync.Cancels

/-! What a completed `mdsync` has synced.

The bitmap of a fork is detached before its segments are synced, and an error does not put back what is
left of it. A run in which that loses nothing keeps its obligations; any run raises errors for files that
are still there only. -/
namespace PgStorage.Fsync
open Function Option

section
variable {s t u : Sys} {k : Fork} {n : Nat} {r : RelFileNode} {f : ForkNumber} {rest : List ForkNumber}

/-- A failure loses nothing if the fork was cancelled since its requests were detached, or if all that was
left of them was requested again. -/
def Sys.harmless (s : Sys) : Act → Bool
  | .attempt .failed => s.pc.fork.all fun k => s.canceled k || decide (s.pc.detached ⊆ s.requests k)
  | _ => true

/-- In a fork, or between the forks of an entry. -/
theorem Owing.inside (h : Owing s) (howed : t.owed = s.owed) (hold : t.old = s.old)
    (htable : t.pendingOpsTable = s.pendingOpsTable) (htodo : t.todo = s.todo)
    (hcur : t.pc.current = s.pc.current) (hrest : t.pc.rest = s.pc.rest) (hbusy : t.pc.busy = s.pc.busy)
    (hheld : ∀ k n, n ∈ s.owed k → Held s k n → Held t k n) : Owing t := by
  refine ⟨fun k => ?_, fun k n hn => ?_, fun hb k n hn => ?_⟩
  · rw [hold, howed]
    exact h.older k
  · rw [howed] at hn
    rw [requests_congr (congrFun htable k.1)]
    exact (h.owed k n hn).imp_right (hheld k n hn)
  · rw [hold] at hn
    rw [hbusy] at hb
    rw [htodo, hcur, hrest]
    exact (h.old hb k n hn).imp_right (Or.imp_right (hheld k n (h.older k hn)))

/-- The scan ends, or has not begun. -/
theorem Owing.idle (h : Owing s) (howed : t.owed = s.owed) (hold : t.old = s.old)
    (hreq : ∀ k, t.requests k = s.requests k) (hp : t.pc.busy = false)
    (hheld : ∀ k n, n ∈ s.owed k → Held s k n → n ∈ s.requests k) : Owing t := by
  refine ⟨fun k => ?_, fun k n hn => ?_, fun hb => ?_⟩
  · rw [hold, howed]
    exact h.older k
  · rw [howed] at hn
    rw [hreq]
    exact .inl ((h.owed k n hn).elim id (hheld k n hn))
  · exact absurd hb (by rw [hp]; exact nofun)

theorem not_held (hp : s.pc.fork = none) : ¬Held s k n := fun hh => absurd (hp.symm.trans hh.1) nofun

/-- All that is owed is in the table when `mdsync` begins, and the scan will visit it. -/
theorem Owing.mdsync (h : Owing s) (hs : Scanning s) (hp : s.pc = .idle) : Owing s.mdsync := by
  have ha := h.absorb
  have hsync := hs.mdsync hp
  have hm : s.mdsync.owed = s.absorbFsyncRequests.owed ∧ s.mdsync.old = s.absorbFsyncRequests.owed ∧
      s.mdsync.todo = s.mdsync.keys := by
    rw [Sys.mdsync]
    dsimp only
    split <;> exact ⟨rfl, rfl, rfl⟩
  obtain ⟨howed, hold, htodo⟩ := hm
  have hin : ∀ k n, n ∈ s.absorbFsyncRequests.owed k → n ∈ s.mdsync.requests k := by
    intro k n hn
    rw [requests_mdsync]
    exact (ha.owed k n hn).resolve_right (not_held (by rw [(absorb_frame s).pc, hp]; rfl))
  refine ⟨fun k => ?_, fun k n hn => ?_, fun _ k n hn => ?_⟩
  · rw [hold, howed]
  · rw [howed] at hn
    exact .inl (hin k n hn)
  · rw [hold] at hn
    have hr := hin k n hn
    refine .inl ?_
    rw [htodo, hsync.keys]
    rw [Sys.requests] at hr
    cases hx : s.mdsync.pendingOpsTable k.1 with
    | none =>
      rw [hx] at hr
      exact absurd hr (Finset.notMem_empty n)
    | some e => rfl

theorem Owing.visit (h : Owing s) (hp : s.pc = .scan) :
    Owing {s with todo := s.todo.erase r, pc := .forks r (List.finRange (maxForknum + 1))} := by
  have hnone : ∀ {k n}, ¬Held s k n := not_held (by rw [hp]; rfl)
  refine ⟨h.older, fun k n hn => .inl ((h.owed k n hn).resolve_right hnone), fun _ k n hn => ?_⟩
  rcases h.old (by rw [hp]; rfl) k n hn with hx | hx | hx
  · by_cases hk : k.1 = r
    · exact .inr (.inl ⟨congrArg some hk.symm, List.mem_finRange k.2⟩)
    · exact .inl ((List.mem_erase_of_ne hk).mpr hx)
  · rw [hp] at hx
    exact absurd hx.1 nofun
  · exact absurd hx hnone

/-- What was in the entry is held now. -/
theorem Owing.detach (h : Owing s) (hp : s.pc = .forks r (f :: rest)) {e : PendingOperationEntry}
    (he : s.pendingOpsTable r = some e) : Owing (s.detach r e f rest) := by
  have htable : ∀ r', (s.detach r e f rest).pendingOpsTable r' = if r' = r then some {e with
      requests := update e.requests f ∅
      canceled := update e.canceled f false} else s.pendingOpsTable r' := setEntry_table s r _
  have hin : ∀ k n, n ∈ s.owed k → n ∈ s.requests k := fun k n hn =>
    (h.owed k n hn).resolve_right (not_held (by rw [hp]; rfl))
  have hheld : ∀ n, n ∈ s.owed (r, f) → Held (s.detach r e f rest) (r, f) n := by
    intro n hn
    have hr := hin (r, f) n hn
    rw [Sys.requests, he] at hr
    refine ⟨rfl, hr, ?_⟩
    rw [Sys.canceled, htable, if_pos rfl]
    exact update_self ..
  refine ⟨h.older, fun k n hn => ?_, fun _ k n hn => ?_⟩
  · by_cases hk : k = (r, f)
    · subst hk
      exact .inr (hheld n hn)
    · refine .inl ?_
      have hr := hin k n hn
      rw [Sys.requests] at hr ⊢
      rw [htable]
      split
      next hkr =>
        rw [hkr, he] at hr
        have hkf : k.2 ≠ f := fun hkf => hk (Prod.ext hkr hkf)
        simpa [hkf] using hr
      next => exact hr
  · rcases h.old (by rw [hp]; rfl) k n hn with hx | ⟨hx, hy⟩ | hx
    · exact .inl hx
    · rw [hp] at hx hy
      rcases List.mem_cons.mp hy with hf | hf
      · obtain rfl : k = (r, f) := Prod.ext (some_inj.mp hx).symm hf
        exact .inr (.inr (hheld n (h.older _ hn)))
      · exact .inr (.inl ⟨hx, hf⟩)
    · exact absurd hx (not_held (by rw [hp]; rfl))

/-- All forks of the entry are done. -/
theorem Owing.finishEntry (h : Owing s) (hp : s.pc = .forks r []) (howed : t.owed = s.owed) (hold : t.old = s.old)
    (hreq : ∀ k, t.requests k = s.requests k) (htodo : t.todo = s.todo) : Owing t := by
  have hnone : ∀ {k n}, ¬Held s k n := not_held (by rw [hp]; rfl)
  refine ⟨fun k => ?_, fun k n hn => ?_, fun _ k n hn => ?_⟩
  · rw [hold, howed]
    exact h.older k
  · rw [howed] at hn
    rw [hreq]
    exact .inl ((h.owed k n hn).resolve_right hnone)
  · rw [hold] at hn
    rw [htodo]
    rcases h.old (by rw [hp]; rfl) k n hn with hx | ⟨-, hx⟩ | hx
    · exact .inl hx
    · rw [hp] at hx
      exact absurd hx List.not_mem_nil
    · exact absurd hx hnone

theorem Owing.synced {requests : Finset Nat} {i : Nat} (h : Owing s) (hp : s.pc = .attempt r f rest requests n i) :
    Owing {s with
      owed := update s.owed (r, f) ((s.owed (r, f)).erase n)
      old := update s.old (r, f) ((s.old (r, f)).erase n)
      pc := .segments r f rest requests} := by
  have herase : ∀ (g : Fork → Finset Nat) k m, m ∈ update g (r, f) ((g (r, f)).erase n) k →
      m ∈ g k ∧ (k = (r, f) → m ≠ n) := by
    intro g k m hm
    by_cases hk : k = (r, f)
    · subst hk
      rw [update_self] at hm
      exact ⟨Finset.mem_of_mem_erase hm, fun _ => Finset.ne_of_mem_erase hm⟩
    · rw [update_of_ne hk] at hm
      exact ⟨hm, fun hx => absurd hx hk⟩
  have hheld : ∀ k m, (k = (r, f) → m ≠ n) → Held s k m →
      (some (r, f) = some k ∧ m ∈ requests ∧ s.canceled k = false) := by
    rintro k m hne ⟨hf, hd, hc⟩
    rw [hp] at hf hd
    exact ⟨hf, (Finset.mem_insert.mp hd).resolve_left (hne (some_inj.mp hf).symm), hc⟩
  refine ⟨fun k m hm => ?_, fun k m hm => ?_, fun _ k m hm => ?_⟩
  · obtain ⟨hold, hne⟩ := herase s.old k m hm
    have howed := h.older k hold
    dsimp only
    by_cases hk : k = (r, f)
    · subst hk
      rw [update_self]
      exact Finset.mem_erase.mpr ⟨hne rfl, howed⟩
    · rw [update_of_ne hk]
      exact howed
  · obtain ⟨howed, hne⟩ := herase s.owed k m hm
    exact (h.owed k m howed).imp_right (hheld k m hne)
  · obtain ⟨hold, hne⟩ := herase s.old k m hm
    rcases h.old (by rw [hp]; rfl) k m hold with hx | hx | hx
    · exact .inl hx
    · rw [hp] at hx
      exact .inr (.inl hx)
    · exact .inr (.inr (hheld k m hne hx))

/-- **A step that loses nothing keeps what is owed.** -/
theorem Owing.next {a : Act} (h : Owing s) (hs : Scanning s) (hq : Queued s) (hok : s.harmless a = true)
    (ht : s.next a = some t) : Owing t := by
  cases moves_of_next ht with
  | @send m t hm =>
    cases m with
    | segment r f n =>
      rw [Sys.send] at hm
      split at hm
      next => exact absurd hm (by simp)
      next => exact some_inj.mp hm ▸ {h with}
    | forgetRelation r f | forgetDatabase d => exact some_inj.mp hm ▸ {h with}
  | remove | create => exact {h with}
  | absorb => exact h.absorb
  | mdsync hp => exact h.mdsync hs hp
  | pass hp he hc =>
    rw [List.erase_of_not_mem (hs.pass he hc)]
    exact h
  | visit hp => exact h.visit hp
  | detach hp he => exact h.detach hp he
  | keep hp he => exact h.finishEntry hp rfl rfl (requests_keep he) rfl
  | drop hp he hr => exact h.finishEntry hp rfl rfl (requests_drop he hr) rfl
  | last hp =>
    refine h.inside rfl rfl rfl rfl (by rw [hp]; rfl) (by rw [hp]; rfl) (by rw [hp]; rfl) fun k n _ hh => ?_
    have hd := hh.2.1
    rw [hp] at hd
    exact absurd hd (Finset.notMem_empty n)
  | @take r f rest requests n u c hp hn hu =>
    have hu' : Owing u ∧ u.pc = s.pc := by
      rcases hu with rfl | rfl
      · exact ⟨h, rfl⟩
      · exact ⟨h.absorb, (absorb_frame s).pc⟩
    rw [← hu'.2] at hp
    refine hu'.1.inside rfl rfl rfl rfl (by rw [hp]; rfl) (by rw [hp]; rfl) (by rw [hp]; rfl) fun k m _ hh => ?_
    rw [Held, hp] at hh
    have hm : m ∈ insert n (requests.erase n) := by
      rw [Finset.insert_erase hn]
      exact hh.2.1
    exact ⟨hh.1, hm, hh.2.2⟩
  | synced hp => exact h.synced hp
  | missing hp =>
    refine h.inside rfl rfl rfl rfl (by rw [hp]; rfl) (by rw [hp]; rfl) (by rw [hp]; rfl) fun k m _ hh => ?_
    rw [Held, hp] at hh
    exact hh
  | @missingAgain r f rest requests n i hp hi => exact absurd (hq.first r f rest requests n i hp) hi.ne'
  | @failed r f rest requests n i hp hg =>
    refine h.idle rfl rfl (fun _ => rfl) rfl fun k m _ hh => ?_
    rw [Sys.harmless, hh.1] at hok
    rcases (Bool.or_eq_true _ _).mp hok with hc | hd
    · exact absurd hc (by rw [hh.2.2]; rintro ⟨⟩)
    · exact of_decide_eq_true hd hh.2.1
  | @skip r f rest requests n i c hp hc =>
    have hp' : s.absorbFsyncRequests.pc = .retry r f rest requests n i := (absorb_frame s).pc.trans hp
    refine h.absorb.inside rfl rfl rfl rfl (by rw [hp']; rfl) (by rw [hp']; rfl) (by rw [hp']; rfl)
      fun k m _ hh => ?_
    rw [Held, hp'] at hh
    obtain rfl : (r, f) = k := some_inj.mp hh.1
    exact absurd hc (by rw [hh.2.2]; rintro ⟨⟩)
  | again hp hc => exact absurd (hq.retry _ _ _ _ _ _ hp) (by rw [hc]; rintro ⟨⟩)
  | finish hp =>
    exact h.idle rfl rfl (fun _ => rfl) rfl fun k m _ hh => absurd hh (not_held (by rw [hp]; rfl))

theorem owing_start : Owing .start :=
  ⟨fun _ => subset_rfl, fun _ n hn => absurd hn (Finset.notMem_empty n), nofun⟩

theorem queued_of_reaches {Ok : Sys → Act → Prop} (h : Trace.Reaches Sys.next Ok .start s) :
    Scanning s ∧ Queued s :=
  h.keeps (P := fun s => Scanning s ∧ Queued s) ⟨scanning_start, queued_start⟩
    fun _ _ _ _ ht hi => ⟨hi.1.next ht, hi.2.next hi.1 ht⟩

theorem owing_of_reaches (h : Trace.Reaches Sys.next (fun s a => s.harmless a = true) .start s) : Owing s :=
  (h.keeps (P := fun s => (Scanning s ∧ Queued s) ∧ Owing s) ⟨⟨scanning_start, queued_start⟩, owing_start⟩
    fun _ _ _ hok ht hi => ⟨⟨hi.1.1.next ht, hi.1.2.next hi.1.1 ht⟩, hi.2.next hi.1.1 hi.1.2 hok ht⟩).2

/-- **A run whose failures are harmless keeps its obligations, and errors are for files that exist.** When
such a run completes an `mdsync`, nothing is left of what was owed when that began. -/
theorem fsync_obligations (s t : Sys) (k : Fork) :
    (Trace.Reaches Sys.next (fun s a => s.harmless a = true) .start s → s.next .finish = some t → t.old k = ∅) ∧
    ∀ outcome, Trace.Reaches Sys.next (fun _ _ => True) .start s → s.pc.fork = some k →
      s.next (.attempt outcome) = some t → t.pc.busy = false → s.gone k = false := by
  refine ⟨fun hr ht => ?_, fun outcome hr hp ht hidle => ?_⟩
  · have h := owing_of_reaches hr
    cases moves_of_next ht with
    | finish hp htodo =>
      refine Finset.eq_empty_of_forall_notMem fun n hn => ?_
      rcases h.old (by rw [hp]; rfl) k n hn with hx | hx | hx
      · rw [htodo] at hx
        exact absurd hx List.not_mem_nil
      · rw [hp] at hx
        exact absurd hx.1 nofun
      · exact absurd hx (not_held (by rw [hp]; rfl))
  · have hq := (queued_of_reaches hr).2
    cases moves_of_next ht with
    | synced | missing => exact absurd hidle nofun
    | missingAgain hp' hi => exact absurd (hq.first _ _ _ _ _ _ hp') hi.ne'
    | failed hp' hg =>
      rw [hp'] at hp
      exact some_inj.mp hp ▸ hg

end

def file : Fork := (⟨0, 0, 0⟩, 0)

/-- A segment is requested, `mdsync` detaches the request, and then the file is cancelled and removed. -/
def removed : List Act :=
  [.send (.segment file.1 file.2 0), .mdsync, .visit file.1, .step, .step,
    .send (.forgetRelation file.1 none), .remove file, .attempt .missing] ++ List.replicate 9 .step

/-- A segment is requested, and its `fsync` fails. -/
def failing : List Act :=
  [.send (.segment file.1 file.2 0), .mdsync, .visit file.1, .step, .step]

/-- The next `mdsync` finds no request for it. -/
def forgotten : List Act :=
  failing ++ [.attempt .failed, .mdsync, .visit file.1] ++ List.replicate 9 .step

theorem fsync_obligations_file :
    (∃ s t, Trace.Reaches Sys.next (fun s a => s.harmless a = true) .start s ∧ s.next .finish = some t ∧
      t.old file = ∅) ∧
    ∃ s t, Trace.Reaches Sys.next (fun _ _ => True) .start s ∧ s.next (.attempt .failed) = some t ∧
      t.pc.busy = false ∧ s.gone file = false := by
  constructor
  · have heval : (Trace.follow Sys.next (fun s a => s.harmless a = true) .start removed).map
        (fun s => (s.next .finish).isSome) = some true := by
      decide +kernel
    obtain ⟨s, hs, hfinish⟩ := map_eq_some_iff.mp heval
    obtain ⟨t, ht⟩ := isSome_iff_exists.mp hfinish
    have hr := Trace.Reaches.start.of_follow hs
    exact ⟨s, t, hr, ht, (fsync_obligations s t file).1 hr ht⟩
  · have heval : (Trace.follow Sys.next (fun _ _ => True) .start failing).map
        (fun s => (s.pc.fork, (s.next (.attempt .failed)).map fun t => t.pc.busy)) =
          some (some file, some false) := by
      decide +kernel
    obtain ⟨s, hs, hvals⟩ := map_eq_some_iff.mp heval
    rw [Prod.mk.injEq] at hvals
    obtain ⟨t, ht, hidle⟩ := map_eq_some_iff.mp hvals.2
    have hr := Trace.Reaches.start.of_follow hs
    exact ⟨s, t, hr, ht, hidle, (fsync_obligations s t file).2 .failed hr hvals.1 ht hidle⟩

/-- A request is lost with an `fsync` that fails: the `mdsync` after it completes without having synced it. -/
theorem fsync_forgotten : ¬ ∀ s t, Trace.Reaches Sys.next (fun _ _ => True) .start s → s.next .finish = some t →
    ∀ k, t.old k = ∅ := by
  intro h
  have heval : (Trace.follow Sys.next (fun _ _ => True) .start forgotten).map
      (fun s => (s.next .finish).map fun t => t.old file) = some (some {0}) := by
    decide +kernel
  obtain ⟨s, hs, hfinish⟩ := map_eq_some_iff.mp heval
  obtain ⟨t, ht, hold⟩ := map_eq_some_iff.mp hfinish
  have hempty := h s t (Trace.Reaches.start.of_follow hs) ht file
  rw [hold] at hempty
  exact absurd hempty (by decide)

end PgStorage.Fsync
