import PgStorage.Fsync.Obligations

/-! The steps of the system, and the scan of the table.

`Moves` says once what a step can do; the invariants are derived from it case by case. -/
namespace PgStorage.Fsync
open Option
open Function (update)

/-- The steps, one for each way through the code. -/
inductive Moves (s : Sys) : Act → Sys → Prop
  | send {m t} (h : s.send m = some t) : Moves s (.send m) t
  | remove {k} (hk : s.sent k = false) : Moves s (.remove k) {s with gone := update s.gone k true}
  | create {k} : Moves s (.create k) {s with gone := update s.gone k false}
  | absorb (hp : s.pc = .idle) : Moves s .absorb s.absorbFsyncRequests
  | mdsync (hp : s.pc = .idle) : Moves s .mdsync s.mdsync
  | pass {r e} (hp : s.pc = .scan) (he : s.pendingOpsTable r = some e) (hc : e.cycleCtr = s.mdsyncCycleCtr) :
    Moves s (.visit r) {s with todo := s.todo.erase r}
  | visit {r e} (hp : s.pc = .scan) (he : s.pendingOpsTable r = some e) (hc : e.cycleCtr ≠ s.mdsyncCycleCtr) :
    Moves s (.visit r) {s with todo := s.todo.erase r, pc := .forks r (List.finRange (maxForknum + 1))}
  | detach {r f rest e} (hp : s.pc = .forks r (f :: rest)) (he : s.pendingOpsTable r = some e) :
    Moves s .step (s.detach r e f rest)
  | keep {r e} (hp : s.pc = .forks r []) (he : s.pendingOpsTable r = some e) :
    Moves s .step {s.setEntry r (some {e with cycleCtr := s.mdsyncCycleCtr}) with pc := .scan}
  | drop {r e} (hp : s.pc = .forks r []) (he : s.pendingOpsTable r = some e) (hr : ∀ f, e.requests f = ∅) :
    Moves s .step {s.setEntry r none with keys := s.keys.erase r, pc := .scan}
  | last {r f rest} (hp : s.pc = .segments r f rest ∅) : Moves s .step {s with pc := .forks r rest}
  | take {r f rest requests n u c} (hp : s.pc = .segments r f rest requests) (hn : n ∈ requests)
    (hu : u = s ∨ u = s.absorbFsyncRequests) :
    Moves s .step {u with absorbCounter := c, pc := .attempt r f rest (requests.erase n) n 0}
  | synced {r f rest requests n i} (hp : s.pc = .attempt r f rest requests n i) :
    Moves s (.attempt .synced) {s with
      owed := update s.owed (r, f) ((s.owed (r, f)).erase n)
      old := update s.old (r, f) ((s.old (r, f)).erase n)
      pc := .segments r f rest requests}
  | missing {r f rest requests n i} (hp : s.pc = .attempt r f rest requests n i) (hg : s.gone (r, f) = true) :
    Moves s (.attempt .missing) {s with pc := .retry r f rest requests n i}
  | missingAgain {r f rest requests n i} (hp : s.pc = .attempt r f rest requests n i) (hi : 0 < i) :
    Moves s (.attempt .missing) s.raise
  | failed {r f rest requests n i} (hp : s.pc = .attempt r f rest requests n i) (hg : s.gone (r, f) = false) :
    Moves s (.attempt .failed) s.raise
  | skip {r f rest requests n i c} (hp : s.pc = .retry r f rest requests n i)
    (hc : s.absorbFsyncRequests.canceled (r, f) = true) :
    Moves s .step {s.absorbFsyncRequests with absorbCounter := c, pc := .segments r f rest requests}
  | again {r f rest requests n i c} (hp : s.pc = .retry r f rest requests n i)
    (hc : s.absorbFsyncRequests.canceled (r, f) = false) :
    Moves s .step {s.absorbFsyncRequests with absorbCounter := c, pc := .attempt r f rest requests n (i + 1)}
  | finish (hp : s.pc = .scan) (ht : s.todo = []) : Moves s .finish {s with mdsyncInProgress := false, pc := .idle}

section
variable {s t : Sys} {r : RelFileNode} {f : ForkNumber} {rest : List ForkNumber} {requests : Finset Nat} {n i : Nat}

theorem moves_nextSegment (hp : s.pc = .segments r f rest requests) :
    Moves s .step (s.nextSegment r f rest requests) := by
  rw [Sys.nextSegment, bmsFirstMember]
  by_cases hne : requests.Nonempty
  · rw [dif_pos hne]
    dsimp only
    have hn := requests.min'_mem hne
    split
    · exact .take (u := s.absorbFsyncRequests) hp hn (.inr rfl)
    · exact .take (u := s) hp hn (.inl rfl)
  · rw [dif_neg hne]
    rw [Finset.not_nonempty_iff_eq_empty.mp hne] at hp
    exact .last hp

theorem moves_finishEntry {e : PendingOperationEntry} (hp : s.pc = .forks r []) (he : s.pendingOpsTable r = some e) :
    Moves s .step (s.finishEntry r e) := by
  rw [Sys.finishEntry]
  split
  next => exact .keep hp he
  next hne => exact .drop hp he fun f => by_contra fun hf => hne ⟨f, hf⟩

theorem moves_attempt {outcome : Outcome} (hp : s.pc = .attempt r f rest requests n i)
    (h : s.attempt r f rest requests n i outcome = some t) : Moves s (.attempt outcome) t := by
  cases outcome with
  | synced => exact some_inj.mp h ▸ .synced hp
  | missing =>
    rw [Sys.attempt] at h
    split at h
    next hg =>
      split at h
      next hi => exact some_inj.mp h ▸ .missingAgain hp hi
      next => exact some_inj.mp h ▸ .missing hp hg
    next => exact absurd h nofun
  | failed =>
    rw [Sys.attempt] at h
    split at h
    next => exact absurd h nofun
    next hg => exact some_inj.mp h ▸ .failed hp (Bool.eq_false_iff.mpr hg)

theorem moves_retry (hp : s.pc = .retry r f rest requests n i) (h : s.retry r f rest requests n i = some t) :
    Moves s .step t := by
  obtain ⟨e, he, ht⟩ := map_eq_some_iff.mp h
  have hc : s.absorbFsyncRequests.canceled (r, f) = e.canceled f := by
    rw [Sys.canceled, show s.absorbFsyncRequests.pendingOpsTable r = some e from he]
    rfl
  split at ht
  next hx => exact ht ▸ .skip hp (hc.trans hx)
  next hx => exact ht ▸ .again hp (hc.trans (Bool.eq_false_iff.mpr hx))

theorem moves_of_next {a : Act} (h : s.next a = some t) : Moves s a t := by
  cases a with
  | send m => exact .send h
  | remove k =>
    rw [Sys.next] at h
    split at h
    next => exact absurd h nofun
    next hk => exact some_inj.mp h ▸ .remove (Bool.eq_false_iff.mpr hk)
  | create k => exact some_inj.mp h ▸ .create
  | absorb =>
    rw [Sys.next] at h
    split at h
    next hp => exact some_inj.mp h ▸ .absorb hp
    next => exact absurd h nofun
  | mdsync =>
    rw [Sys.next] at h
    split at h
    next hp => exact some_inj.mp h ▸ .mdsync hp
    next => exact absurd h nofun
  | visit r =>
    rw [Sys.next] at h
    split at h
    next hp =>
      obtain ⟨e, he, ht⟩ := map_eq_some_iff.mp h
      dsimp only at ht
      split at ht
      next hc => exact ht ▸ .pass hp he hc
      next hc => exact ht ▸ .visit hp he hc
    next => exact absurd h nofun
  | attempt outcome =>
    rw [Sys.next] at h
    split at h
    next hp => exact moves_attempt hp h
    next => exact absurd h nofun
  | step =>
    rw [Sys.next] at h
    split at h
    next hp =>
      obtain ⟨e, he, ht⟩ := map_eq_some_iff.mp h
      exact ht ▸ .detach hp he
    next hp =>
      obtain ⟨e, he, ht⟩ := map_eq_some_iff.mp h
      exact ht ▸ moves_finishEntry hp he
    next hp => exact some_inj.mp h ▸ moves_nextSegment hp
    next hp => exact moves_retry hp h
    next => exact absurd h nofun
  | finish =>
    rw [Sys.next] at h
    split at h
    next hp =>
      split at h
      next ht => exact some_inj.mp h ▸ .finish hp ht
      next => exact absurd h nofun
    next => exact absurd h nofun

end

/-! ### The scan -/

section Scan
variable {s t : Sys} {r : RelFileNode}

/-- A cycle is not the next one. -/
theorem cycle_ne (c : CycleCtr) : c + 1 ≠ c := by
  bv_omega

section
variable (h : Scanning s)
include h

/-- The scan is where it was, and the entries keep their cycles. -/
theorem Scanning.stay (hkeys : t.keys = s.keys) (htodo : t.todo = s.todo)
    (hctr : t.mdsyncCycleCtr = s.mdsyncCycleCtr) (hprog : t.mdsyncInProgress = s.mdsyncInProgress)
    (hcur : t.pc.current = s.pc.current) (hbusy : t.pc.busy = s.pc.busy)
    (htable : ∀ r, (t.pendingOpsTable r).map (·.cycleCtr) = (s.pendingOpsTable r).map (·.cycleCtr)) :
    Scanning t := by
  have hsome : ∀ r, (t.pendingOpsTable r).isSome = (s.pendingOpsTable r).isSome := fun r => by
    rw [← isSome_map, htable, isSome_map]
  constructor
  · intro r
    rw [hkeys, hsome]
    exact h.keys r
  · exact hkeys ▸ h.nodup
  · intro r hr
    rw [hcur] at hr
    rw [hsome]
    exact h.present r hr
  · exact htodo ▸ h.todo_nodup
  · rw [htodo, hcur]
    exact h.todo_current
  · intro r hr
    rw [htodo] at hr
    obtain ⟨e, he, hc⟩ := h.todo r hr
    have ht := htable r
    rw [he] at ht
    obtain ⟨e', he', hc'⟩ := map_eq_some_iff.mp ht
    exact ⟨e', he', by rw [hc', hctr, hc]⟩
  · rw [hbusy, htodo]
    exact h.idle
  · rw [hprog, hbusy]
    exact h.progress
  · intro hp r e he
    rw [hprog, hbusy] at hp
    have ht := htable r
    rw [he] at ht
    obtain ⟨e', he', hc'⟩ := map_eq_some_iff.mp ht.symm
    rw [htodo, hcur, hctr, show e.cycleCtr = e'.cycleCtr from hc'.symm]
    exact h.fresh hp r e' he'

/-- All entries are of the last cycle when the scan begins, also after a failure. -/
theorem Scanning.mdsync (hp : s.pc = .idle) : Scanning s.mdsync := by
  have ha := h.absorb
  have hf := absorb_frame s
  have hpc : s.absorbFsyncRequests.pc = .idle := hf.pc.trans hp
  have htodo : s.absorbFsyncRequests.todo = [] := ha.idle (by rw [hpc]; rfl)
  have hkey : ∀ r, (s.mdsync.pendingOpsTable r).isSome = (s.absorbFsyncRequests.pendingOpsTable r).isSome ∧
      ∀ e, s.mdsync.pendingOpsTable r = some e → e.cycleCtr = s.absorbFsyncRequests.mdsyncCycleCtr := by
    intro r
    rw [Sys.mdsync]
    dsimp only
    split
    next =>
      refine ⟨isSome_map, fun e he => ?_⟩
      obtain ⟨e', -, rfl⟩ := map_eq_some_iff.mp he
      rfl
    next hprog =>
      refine ⟨rfl, fun e he => ?_⟩
      rcases ha.fresh (.inl (Bool.eq_false_iff.mpr hprog)) r e he with hx | hx | hx
      · rw [htodo] at hx
        exact absurd hx List.not_mem_nil
      · rw [hpc] at hx
        exact absurd hx nofun
      · exact hx
  have hk : s.mdsync.keys = s.absorbFsyncRequests.keys := by
    rw [Sys.mdsync]
    dsimp only
    split <;> rfl
  have ht : s.mdsync.todo = s.absorbFsyncRequests.keys := by
    rw [Sys.mdsync]
    dsimp only
    split <;> rfl
  have hc : s.mdsync.mdsyncCycleCtr = s.absorbFsyncRequests.mdsyncCycleCtr + 1 := by
    rw [Sys.mdsync]
    dsimp only
    split <;> rfl
  have hkeys : ∀ r, r ∈ s.mdsync.keys ↔ (s.mdsync.pendingOpsTable r).isSome = true := fun r => by
    rw [hk, (hkey r).1]
    exact ha.keys r
  refine ⟨hkeys, hk ▸ ha.nodup, nofun, ht ▸ ha.nodup, nofun, fun r hr => ?_, nofun, nofun, fun _ r e he => ?_⟩
  · rw [ht, ← hk] at hr
    obtain ⟨e, he⟩ := isSome_iff_exists.mp ((hkeys r).mp hr)
    exact ⟨e, he, by rw [(hkey r).2 e he, hc]⟩
  · rw [ht, ← hk, hkeys, he]
    exact .inl rfl

theorem Scanning.pass {e : PendingOperationEntry} (he : s.pendingOpsTable r = some e)
    (hc : e.cycleCtr = s.mdsyncCycleCtr) : r ∉ s.todo := by
  intro hr
  obtain ⟨e', he', hc'⟩ := h.todo r hr
  rw [he, some_inj] at he'
  rw [← he', hc] at hc'
  exact cycle_ne _ hc'

theorem Scanning.visit (hp : s.pc = .scan) {e : PendingOperationEntry}
    (he : s.pendingOpsTable r = some e) {rest : List ForkNumber} :
    Scanning {s with todo := s.todo.erase r, pc := .forks r rest} := by
  have hbusy : s.pc.busy = true := by
    rw [hp]
    rfl
  refine ⟨h.keys, h.nodup, fun r' hr => ?_, h.todo_nodup.erase r, fun r' hr => ?_,
    fun r' hr => h.todo r' (List.mem_of_mem_erase hr), nofun, fun hf => ?_, fun _ r' e' he' => ?_⟩
  · obtain rfl : r = r' := some_inj.mp hr
    exact he ▸ rfl
  · intro hx
    obtain rfl : r = r' := some_inj.mp hx
    exact h.todo_nodup.not_mem_erase hr
  · exact absurd (h.progress hf) (by rw [hbusy]; exact nofun)
  · by_cases hr : r' = r
    · exact .inr (.inl (congrArg some hr.symm))
    · rcases h.fresh (.inr hbusy) r' e' he' with hx | hx | hx
      · exact .inl ((List.mem_erase_of_ne hr).mpr hx)
      · rw [hp] at hx
        exact absurd hx nofun
      · exact .inr (.inr hx)

/-- What is left of a processed entry is of this cycle. -/
theorem Scanning.keep (hp : s.pc = .forks r []) {e : PendingOperationEntry}
    (he : s.pendingOpsTable r = some e) :
    Scanning {s.setEntry r (some {e with cycleCtr := s.mdsyncCycleCtr}) with pc := .scan} := by
  have hcur : s.pc.current = some r := by
    rw [hp]
    rfl
  have hbusy : s.pc.busy = true := by
    rw [hp]
    rfl
  refine ⟨fun r' => (h.keys r').trans ?_, h.nodup, nofun, h.todo_nodup, nofun, fun r' hr => ?_, nofun,
    fun hf => absurd (h.progress hf) (by rw [hbusy]; exact nofun), fun _ r' e' he' => ?_⟩
  · dsimp only
    rw [setEntry_table]
    split
    next hr => rw [hr, he]; rfl
    next => rfl
  · dsimp only
    rw [setEntry_table, if_neg fun hx : r' = r => h.todo_current r' hr (hx ▸ hcur)]
    exact h.todo r' hr
  · dsimp only at he'
    rw [setEntry_table] at he'
    split at he'
    next =>
      obtain rfl := some_inj.mp he'
      exact .inr (.inr rfl)
    next hr =>
      rcases h.fresh (.inr hbusy) r' e' he' with hx | hx | hx
      · exact .inl hx
      · exact absurd (some_inj.mp (hx.symm.trans hcur)) hr
      · exact .inr (.inr hx)

theorem Scanning.drop (hp : s.pc = .forks r []) :
    Scanning {s.setEntry r none with keys := s.keys.erase r, pc := .scan} := by
  have hcur : s.pc.current = some r := by
    rw [hp]
    rfl
  have hbusy : s.pc.busy = true := by
    rw [hp]
    rfl
  refine ⟨fun r' => ?_, h.nodup.erase r, nofun, h.todo_nodup, nofun, fun r' hr => ?_, nofun,
    fun hf => absurd (h.progress hf) (by rw [hbusy]; exact nofun), fun _ r' e' he' => ?_⟩
  · dsimp only
    rw [setEntry_table, h.nodup.mem_erase_iff, h.keys]
    split
    next hr => exact ⟨fun hx => absurd hr hx.1, nofun⟩
    next hr => exact ⟨fun hx => hx.2, fun hx => ⟨hr, hx⟩⟩
  · dsimp only
    rw [setEntry_table, if_neg fun hx : r' = r => h.todo_current r' hr (hx ▸ hcur)]
    exact h.todo r' hr
  · dsimp only at he'
    rw [setEntry_table] at he'
    split at he'
    next => exact absurd he' nofun
    next hr =>
      rcases h.fresh (.inr hbusy) r' e' he' with hx | hx | hx
      · exact .inl hx
      · exact absurd (some_inj.mp (hx.symm.trans hcur)) hr
      · exact .inr (.inr hx)

theorem Scanning.raise (hbusy : s.pc.busy = true) : Scanning s.raise :=
  ⟨h.keys, h.nodup, nofun, .nil, nofun, nofun, fun _ => rfl, fun _ => rfl, fun hx =>
    hx.elim (fun hf => absurd (h.progress hf) (by rw [hbusy]; exact nofun)) nofun⟩

theorem Scanning.finish (hp : s.pc = .scan) (ht : s.todo = []) :
    Scanning {s with mdsyncInProgress := false, pc := .idle} := by
  refine ⟨h.keys, h.nodup, nofun, h.todo_nodup, nofun, h.todo, fun _ => ht, fun _ => rfl, fun _ r e he => ?_⟩
  rcases h.fresh (.inr (by rw [hp]; rfl)) r e he with hx | hx | hx
  · exact .inl hx
  · rw [hp] at hx
    exact absurd hx nofun
  · exact .inr (.inr hx)

end

theorem scanning_start : Scanning .start :=
  ⟨fun _ => ⟨nofun, nofun⟩, .nil, nofun, .nil, nofun, nofun, fun _ => rfl, fun _ => rfl, fun _ _ _ => nofun⟩

theorem Scanning.next {a : Act} (h : Scanning s) (ht : s.next a = some t) : Scanning t := by
  cases moves_of_next ht with
  | @send m t hm =>
    cases m with
    | segment r f n =>
      rw [Sys.send] at hm
      split at hm
      next => exact absurd hm nofun
      next => exact some_inj.mp hm ▸ {h with}
    | forgetRelation r f | forgetDatabase d => exact some_inj.mp hm ▸ {h with}
  | remove | create => exact {h with}
  | absorb hp => exact h.absorb
  | mdsync hp => exact h.mdsync hp
  | pass hp he hc =>
    rw [List.erase_of_not_mem (h.pass he hc)]
    exact h
  | visit hp he hc => exact h.visit hp he
  | @detach r f rest e hp he =>
    refine h.stay rfl rfl rfl rfl (by rw [hp]; rfl) (by rw [hp]; rfl) fun r' => ?_
    refine (congrArg _ (setEntry_table s r _ r')).trans ?_
    split
    next hr => rw [hr, he]; rfl
    next => rfl
  | keep hp he => exact h.keep hp he
  | drop hp he hr => exact h.drop hp
  | last hp | synced hp | missing hp => exact h.stay rfl rfl rfl rfl (by rw [hp]; rfl) (by rw [hp]; rfl) fun _ => rfl
  | @take r f rest requests n u c hp hn hu =>
    have hu' : Scanning u ∧ u.pc = s.pc := by
      rcases hu with rfl | rfl
      · exact ⟨h, rfl⟩
      · exact ⟨h.absorb, (absorb_frame s).pc⟩
    rw [← hu'.2] at hp
    exact hu'.1.stay rfl rfl rfl rfl (by rw [hp]; rfl) (by rw [hp]; rfl) fun _ => rfl
  | missingAgain hp | failed hp => exact h.raise (by rw [hp]; rfl)
  | skip hp | again hp =>
    rw [← (absorb_frame s).pc] at hp
    exact h.absorb.stay rfl rfl rfl rfl (by rw [hp]; rfl) (by rw [hp]; rfl) fun _ => rfl
  | finish hp htodo => exact h.finish hp htodo

end Scan
end PgStorage.Fsync
