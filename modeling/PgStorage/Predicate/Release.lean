import PgStorage.Predicate.Invariant

/-! The end of a transaction, and the release of its entry. -/
namespace PgStorage.Predicate
open Places Locks
open Function State

variable {s s' t : State} {place : Nat → Place} {holder : Nat → Holder} {b i : Nat} {c : Pc} {lock : Option Nat}

theorem Sides.inProgress_of_on (h : Sides s place) {e k : Nat} (hon : (place e).on (.possibleUnsafeConflicts k)) :
    inProgress s.sxact k = true := by
  cases hx : place e with
  | possibleUnsafe activeXact roXact =>
    rw [hx] at hon
    obtain ⟨ha, hr⟩ := h.possibleUnsafe hx
    rcases hon with heq | heq
    · cases heq
      exact ha.inProgress
    · cases heq
      exact hr.inProgress
  | none =>
    rw [hx] at hon
    exact hon.elim
  | pool =>
    rw [hx] at hon
    cases hon
  | conflict reader writer =>
    rw [hx] at hon
    exact hon.elim nofun nofun

theorem Trims.active (h : Trims s s') : s'.activeList = s.activeList := (congrArg activeList h.frame :)

/-- Moving elements and setting flags concerns nobody else. -/
theorem Inv.relink {place' : Nat → Place} (h : Inv s place holder)
    (hframe : s' = { s with sxact := s'.sxact, pool := s'.pool, conflict := s'.conflict })
    (hstatus : ∀ k, (s'.sxact k).status = (s.sxact k).status) (he : Elements s' place') (hs : Sides s' place') :
    Inv s' place' holder := by
  have hp : ∀ k, inProgress s'.sxact k = inProgress s.sxact k := fun k => inProgress_status (hstatus k)
  have hpc : s'.pc = s.pc := (congrArg pc hframe :)
  have hroster : s'.roster = s.roster := (congrArg roster hframe :)
  have hactive : s'.activeList = s.activeList := (congrArg activeList hframe :)
  have hxid : s'.oldestXid = s.oldestXid := (congrArg oldestXid hframe :)
  refine ⟨he, hs, h.marked.congr hstatus, ?_, ?_, fun {b j} hj => ?_, ?_, ?_, fun {i} hi hip => ?_, fun {b x} hx => ?_⟩
  · exact h.entries.stay (b := 0) (c := s.pc 0) (by rw [hpc, update_eq_self]) hroster rfl (fun _ => rfl) fun k _ => hp k
  · rw [hpc, show s'.finishedListLock = s.finishedListLock from (congrArg finishedListLock hframe :)]
    exact h.lock
  · rw [hpc] at hj
    rw [show s'.finished = s.finished from congrFun hroster .finished]
    exact h.points hj
  · rw [hactive, show s'.oldest = s.oldest from (congrArg State.oldest hframe :)]
    exact h.oldest.congr fun k _ => hstatus k
  · rw [hactive, writable_congr fun k _ => hstatus k, ← h.writable]
    exact (congrArg writableSxactCount hframe :)
  · rw [hactive] at hi
    rw [hp] at hip
    rw [xmin_status (hstatus i), hxid]
    exact h.ages hi hip
  · rw [show s'.snapshotXmin = s.snapshotXmin from (congrArg snapshotXmin hframe :)] at hx
    rw [hxid]
    exact h.snapshots hx

theorem Shrinks.inv {place' : Nat → Place} (h : Inv s place holder) (hs : Shrinks s place s' place') :
    Inv s' place' holder := by
  have hactive := hs.trims.active
  refine h.relink ?_ hs.trims.status hs.elements
    (h.sides.shrink hs.freed (fun _ _ _ hk => hactive ▸ hk) fun _ k _ hk => ⟨hactive ▸ hk, hs.trims.status k⟩)
  rw [hs.trims.conflict]
  exact hs.trims.frame

/-- An entry without conflicts goes back to the available ones. -/
theorem Inv.free (h : Inv s place holder) (hpc : (s.pc b).entry = some i) (hover : (s.pc b).over = true)
    (hoff : ∀ e, ¬ (place e).on (.outConflicts i) ∧ ¬ (place e).on (.inConflicts i)) (hc : c.entry = none)
    (hlock : Owner Pc.holdsFinishedListLock (update s.pc b c) lock) (hpoints : ∀ j ∈ c.points, j ∈ s.finished) :
    Inv ({ releasePredXact i s with finishedListLock := lock }.setPc b c) place (update holder i .free) := by
  have hholder := h.entries.entry hpc
  have hactive := h.entries.entry_active hpc
  have hnd := h.entries.nodup
  have hout : inProgress s.sxact i = false := by
    rw [h.entries.status i hactive, hholder]
    show (!(s.pc b).over) = false
    rw [hover]
    rfl
  have havail : i ∉ s.availableList := fun hmem => by cases hholder.symm.trans (h.entries.available.mp hmem)
  have hkeep : ∀ {k}, k ∈ s.activeList → k ≠ i → k ∈ s.activeList.erase i := fun hk hne =>
    (hnd .active).mem_erase_iff.mpr ⟨hne, hk⟩
  refine ⟨h.elements.congr (fun _ => rfl) rfl rfl rfl,
    h.sides.shrink (fun _ => .inl rfl) (fun e k hor hk => hkeep hk ?_) fun e k hon hk => ⟨hkeep hk ?_, rfl⟩,
    h.marked.congr fun _ => rfl, h.entries.move .free rfl (fun r => ?_) (fun r => ?_) ?_ (by simp) (fun b' hb' => ⟨?_, by simp⟩)
      (fun k hk => ⟨?_, ?_⟩) (iff_of_false ?_ (by simp)) (fun _ _ => rfl) fun hmem => ?_,
    hlock, fun {b' j} hj => ?_, h.oldest.erase hout, h.writable.trans (writable_erase hout).symm,
    fun {k} hk => h.ages (List.mem_of_mem_erase hk), h.snapshots⟩
  · rintro rfl
    exact hor.elim (hoff e).1 (hoff e).2
  · rintro rfl
    exact absurd ((h.sides.inProgress_of_on hon).symm.trans hout) (by simp)
  · cases r with
    | available => exact .snoc (hnd .available) havail
    | active => exact .erase (hnd .active)
    | prepared => exact .same (hnd .prepared)
    | finished => exact .same (hnd .finished)
  · cases r with
    | available => exact iff_of_true (List.mem_append_right _ List.mem_cons_self) rfl
    | active => exact iff_of_false (fun hmem => ((hnd .active).mem_erase_iff.mp hmem).1 rfl) (by rintro ⟨⟩)
    | prepared => exact iff_of_false (fun hmem => by cases hholder.symm.trans (h.entries.prepared.mp hmem)) (by rintro ⟨⟩)
    | finished => exact iff_of_false (fun hmem => by cases hholder.symm.trans (h.entries.finished.mp hmem)) (by rintro ⟨⟩)
  · exact fun heq => by cases hholder.symm.trans ((h.entries.dummy i).mpr heq)
  · rw [hholder]
    rintro ⟨⟩
    exact hb' rfl
  · rw [hc]
    rintro ⟨⟩
  · rw [hpc]
    rintro ⟨⟩
    exact hk rfl
  · rw [hc]
    rintro ⟨⟩
  · exact absurd rfl ((hnd .active).mem_erase_iff.mp hmem).1
  · change j ∈ (update s.pc b c b').points at hj
    rcases eq_or_ne b' b with rfl | hne
    · rw [update_self] at hj
      exact hpoints j hj
    · rw [update_of_ne hne] at hj
      exact h.points hj

/-- **The section of `ReleaseOneSerializableXact`**, for an entry that a process is about to release. -/
theorem Inv.releaseOne (h : Inv s place holder) (lock : Option Nat) (summarize : Bool) (hpc : (s.pc b).entry = some i)
    (hover : (s.pc b).over = true) (hc : c.entry = none)
    (hlock : Owner Pc.holdsFinishedListLock (update s.pc b c) lock) (hpoints : ∀ j ∈ c.points, j ∈ s.finished) :
    ∃ place' holder', Inv ({ releaseOneSerializableXact i false summarize s with finishedListLock := lock }.setPc b c)
      place' holder' := by
  obtain ⟨t, place', hs, heq, hoff⟩ := releaseOne_conflicts i false summarize h.elements
  rw [heq]
  have hpc' : t.pc = s.pc := (congrArg pc hs.trims.frame :)
  refine ⟨place', _, (hs.inv h).free (by rw [hpc', hpc]) (by rw [hpc', hover]) (hoff rfl) hc (by rwa [hpc']) ?_⟩
  rw [show t.finished = s.finished from (congrArg finished hs.trims.frame :)]
  exact hpoints

theorem releaseOne_lock (i : Nat) (keep summarize : Bool) (h : Elements s place) :
    (releaseOneSerializableXact i keep summarize s).finishedListLock = s.finishedListLock := by
  obtain ⟨t, place', hs, heq, -⟩ := releaseOne_conflicts i keep summarize h
  rw [heq]
  cases keep <;> exact (congrArg finishedListLock hs.trims.frame :)

/-- A release in part leaves the entry where it is. -/
theorem Inv.releasePart (h : Inv s place holder) (i : Nat) :
    ∃ place', Inv (releaseOneSerializableXact i true false s) place' holder ∧
      (releaseOneSerializableXact i true false s).pc = s.pc ∧
      (releaseOneSerializableXact i true false s).finished = s.finished := by
  obtain ⟨t, place', hs, heq, -⟩ := releaseOne_conflicts i true false h.elements
  rw [heq]
  exact ⟨place', hs.inv h, (congrArg pc hs.trims.frame :), (congrArg finished hs.trims.frame :)⟩

/-! ### The first section of `ReleasePredicateLocks` -/

theorem markFinished_sxact (isCommit didWrite : Bool) (s : State) {k : Nat} (hk : k ≠ i) :
    (markFinished i isCommit didWrite s).sxact k = s.sxact k := by
  cases isCommit <;> exact update_of_ne hk ..

theorem markFinished_queues (isCommit didWrite : Bool) (s : State) (k : Nat) :
    ((markFinished i isCommit didWrite s).sxact k).queues = (s.sxact k).queues := by
  rcases eq_or_ne k i with rfl | hk
  · cases isCommit with
    | true | false =>
      show SerializableXact.queues (update s.sxact k _ k) = _
      rw [update_self]
      rfl
  · rw [markFinished_sxact _ _ _ hk]

theorem markFinished_self (isCommit didWrite : Bool) (s : State) :
    let x := (markFinished i isCommit didWrite s).sxact i
    x.xmin = (s.sxact i).xmin ∧ (x.committed || x.rolledBack) = true ∧
      ((!(s.sxact i).rolledBack || (s.sxact i).doomed) = true → (!x.rolledBack || x.doomed) = true) := by
  cases isCommit with
  | true =>
    have hx : (markFinished i true didWrite s).sxact i = { s.sxact i with
      finishedBefore := s.nextXid
      committed := true
      commitSeqNo := s.lastSxactCommitSeqNo + 1
      readOnly := (s.sxact i).readOnly || !didWrite } := update_self ..
    rw [hx]
    exact ⟨rfl, rfl, id⟩
  | false =>
    have hx : (markFinished i false didWrite s).sxact i = { s.sxact i with
      finishedBefore := s.nextXid, doomed := true, rolledBack := true, prepared := false } := update_self ..
    rw [hx]
    exact ⟨rfl, Bool.or_true _, fun _ => rfl⟩

/-- What the first section leaves of the books of a transaction in progress. -/
structure Closed (i : Nat) (s s' : State) (place' : Nat → Place) : Prop where
  frame : s' = { s with
    sxact := s'.sxact
    pool := s'.pool
    sxactGlobalXmin := s'.sxactGlobalXmin
    sxactGlobalXminCount := s'.sxactGlobalXminCount
    writableSxactCount := s'.writableSxactCount
    lastSxactCommitSeqNo := s'.lastSxactCommitSeqNo
    canPartialClearThrough := s'.canPartialClearThrough }
  elements : Elements s' place'
  sides : Sides s' place'
  marked : Marked s'
  others : ∀ k, k ≠ i → (s'.sxact k).status = (s.sxact k).status
  ended : inProgress s'.sxact i = false
  oldest : Oldest s'.sxact s'.activeList s'.oldest
  writable : s'.writableSxactCount = writable s'.sxact s'.activeList

theorem releasePredicateLocks_spec (b : Nat) (isCommit didWrite : Bool) (h : Elements s place) (hs : Sides s place)
    (hm : Marked s) (hnd : s.activeList.Nodup) (hi : i ∈ s.activeList) (hp : inProgress s.sxact i = true)
    (ho : Oldest s.sxact s.activeList s.oldest) (hw : s.writableSxactCount = writable s.sxact s.activeList) :
    ∃ s' place' needToClear, releasePredicateLocks b i isCommit didWrite s =
      s'.setPc b (.finishing i isCommit needToClear) ∧ Closed i s s' place' := by
  obtain ⟨hxmin, hdone, hdoomed⟩ := markFinished_self (i := i) isCommit didWrite s
  obtain ⟨s₁, hs₁, hframe₁, hsxact₁, hwritable₁⟩ : ∃ s₁, s₁ = (if (s.sxact i).readOnly then
        markFinished i isCommit didWrite s else uncountWritable (markFinished i isCommit didWrite s)) ∧
      s₁ = { s with
        sxact := s₁.sxact
        writableSxactCount := s₁.writableSxactCount
        lastSxactCommitSeqNo := s₁.lastSxactCommitSeqNo
        canPartialClearThrough := s₁.canPartialClearThrough } ∧
      s₁.sxact = (markFinished i isCommit didWrite s).sxact ∧
      s₁.writableSxactCount = s.writableSxactCount - if (s.sxact i).readOnly then 0 else 1 := by
    refine ⟨_, rfl, ?_⟩
    cases (s.sxact i).readOnly <;> cases isCommit <;> exact ⟨rfl, rfl, rfl⟩
  have hactive₁ : s₁.activeList = s.activeList := (congrArg activeList hframe₁ :)
  have h₁ : Elements s₁ place := h.congr (fun k => by rw [hsxact₁]; exact markFinished_queues isCommit didWrite s k)
    (congrArg pool hframe₁ :) (congrArg conflict hframe₁ :) (congrArg conflicts hframe₁ :)
  obtain ⟨place', h₂, hoff⟩ := releaseConflicts_spec isCommit didWrite h₁ (hs.reporting i)
  rw [releasePredicateLocks]
  simp only []
  rw [← hs₁]
  generalize releaseConflicts i (s.sxact i).readOnly isCommit didWrite s₁ = s₂ at h₂
  have hactive₂ : s₂.activeList = s.activeList := h₂.trims.active.trans hactive₁
  have hothers : ∀ k, k ≠ i → (s₂.sxact k).status = (s.sxact k).status := fun k hk => by
    rw [h₂.trims.status k, hsxact₁, markFinished_sxact _ _ _ hk]
  have hself : (s₂.sxact i).status = ((markFinished i isCommit didWrite s).sxact i).status := by
    rw [h₂.trims.status i, hsxact₁]
  have hover : inProgress s₂.sxact i = false := by
    have hsame : inProgress s₂.sxact i = inProgress (markFinished i isCommit didWrite s).sxact i := inProgress_status hself
    rw [hsame, inProgress]
    cases hc : ((markFinished i isCommit didWrite s).sxact i).committed with
    | true => simp
    | false =>
      rw [hc, Bool.false_or] at hdone
      rw [hdone]
      rfl
  have hxmin₂ : (s₂.sxact i).xmin = ((markFinished i isCommit didWrite s).sxact i).xmin := xmin_status hself
  have hends : Ends s.sxact s₂.sxact s₂.activeList i :=
    ⟨hactive₂ ▸ hnd, hactive₂ ▸ hi, hp, hover, hxmin₂.trans hxmin, fun k _ hk => hothers k hk⟩
  have holdest₂ : s₂.oldest = s.oldest :=
    (congrArg oldest h₂.trims.frame :).trans (congrArg oldest hframe₁ :)
  obtain ⟨globalXmin, count, heq, holdest⟩ := uncountXmin_spec hends (by rw [hactive₂, holdest₂]; exact ho)
  have hwritable : s₂.writableSxactCount = writable s₂.sxact s₂.activeList := by
    have hends' := hends.writable
    rw [hactive₂, ← hw] at hends'
    rw [show s₂.writableSxactCount = s₁.writableSxactCount from (congrArg writableSxactCount h₂.trims.frame :),
      hwritable₁, hends', hactive₂, Nat.add_sub_cancel]
  refine ⟨{ s₂ with sxactGlobalXmin := globalXmin, sxactGlobalXminCount := count }, place', (uncountXmin i s₂).2, ?_, ?_,
    h₂.elements.congr (fun _ => rfl) rfl rfl rfl, ?_, ⟨fun k => ?_, ?_⟩, hothers, hover, holdest, hwritable⟩
  · rw [← heq]
  · rw [h₂.trims.frame, hframe₁]
  · refine hs.shrink h₂.freed (fun _ _ _ hk => hactive₂ ▸ hk) fun e k hon hk => ⟨hactive₂ ▸ hk, hothers k ?_⟩
    rintro rfl
    exact hoff e hon
  · rcases eq_or_ne k i with rfl | hk
    · exact (congrArg (fun x => x.2.2.2.2) hself).trans (hdoomed (hm.doomed k))
    · exact (congrArg (fun x => x.2.2.2.2) (hothers k hk)).trans (hm.doomed k)
  · rcases eq_or_ne oldCommittedSxact i with heqi | hk
    · rw [inProgress, ← heqi] at hp
      simp at hp
    · exact (congrArg (fun x => x.1) (hothers _ hk)).trans hm.dummy

/-- **A transaction in progress ends**, the one that a process runs or one that is prepared. -/
theorem Inv.close (h : Inv s place holder) (prepared : List Nat) (isCommit didWrite : Bool)
    (hholder : holder i = .process b ∨ holder i = .prepared) (hp : inProgress s.sxact i = true)
    (hpc : ∀ k, k ≠ i → (s.pc b).entry ≠ some k) (hlock : (s.pc b).holdsFinishedListLock = false)
    (hprepared : Differs i s.preparedXacts prepared) (hoff : i ∉ prepared) :
    ∃ place' holder', Inv (releasePredicateLocks b i isCommit didWrite { s with preparedXacts := prepared })
      place' holder' := by
  have hnd := h.entries.nodup
  have hi : i ∈ s.activeList := by
    rw [h.entries.active]
    rcases hholder with heq | heq
    · rw [heq]
      rfl
    · rw [heq]
      exact .inl rfl
  obtain ⟨t, place', needToClear, heq, hc⟩ := releasePredicateLocks_spec (s := { s with preparedXacts := prepared }) b
    isCommit didWrite (h.elements.congr (fun _ => rfl) rfl rfl rfl) (h.sides.same rfl fun _ => rfl)
    (h.marked.congr fun _ => rfl) (hnd .active) hi hp h.oldest h.writable
  have hactive : t.activeList = s.activeList := (congrArg activeList hc.frame :)
  have hpct : t.pc = s.pc := (congrArg pc hc.frame :)
  have hfinished : t.finished = s.finished := (congrArg finished hc.frame :)
  have hxid : t.oldestXid = s.oldestXid := (congrArg oldestXid hc.frame :)
  have hroster : t.roster = roster { s with preparedXacts := prepared } := (congrArg roster hc.frame :)
  have hentries : Entries (t.setPc b (.finishing i isCommit needToClear)) (update holder i (.process b)) := by
    refine h.entries.move (.process b) (show update t.pc b _ = _ by rw [hpct]) (fun r => ?_) (fun r => ?_) ?_ nofun
      (fun b' hb' => ⟨?_, ?_⟩) (fun k hk => ⟨?_, hpc k hk⟩) (iff_of_true rfl rfl) (fun k hk => ?_) fun _ => ?_
    · show Differs i (s.roster r) (t.roster r)
      rw [hroster]
      cases r with
      | prepared => exact hprepared
      | available => exact .same (hnd .available)
      | active => exact .same (hnd .active)
      | finished => exact .same (hnd .finished)
    · show i ∈ t.roster r ↔ _
      rw [hroster]
      cases r with
      | prepared => exact iff_of_false hoff nofun
      | available =>
        refine iff_of_false (fun hmem => ?_) nofun
        rw [h.entries.available.mp (show i ∈ s.availableList from hmem)] at hholder
        exact hholder.elim nofun nofun
      | active => exact iff_of_true hi rfl
      | finished =>
        refine iff_of_false (fun hmem => ?_) nofun
        rw [h.entries.finished.mp (show i ∈ s.finished from hmem)] at hholder
        exact hholder.elim nofun nofun
    · intro heqi
      rw [(h.entries.dummy i).mpr heqi] at hholder
      exact hholder.elim nofun nofun
    · rcases hholder with heq | heq
      · rw [heq]
        rintro ⟨⟩
        exact hb' rfl
      · rw [heq]
        exact nofun
    · rintro ⟨⟩
      exact hb' rfl
    · rintro ⟨⟩
      exact hk rfl
    · exact inProgress_status (hc.others k hk)
    · show inProgress t.sxact i = !(update t.pc b (.finishing i isCommit needToClear) b).over
      rw [update_self, hc.ended]
      rfl
  rw [heq]
  refine ⟨place', _, hc.elements.congr (fun _ => rfl) rfl rfl rfl, hc.sides.same rfl fun _ => rfl,
    hc.marked.congr fun _ => rfl, hentries, ?_, fun {b' j} hj => ?_, hc.oldest, hc.writable, fun {k} hk hpk => ?_,
    fun {b' xmin} hx => ?_⟩
  · show Owner _ (update t.pc b _) t.finishedListLock
    rw [hpct, show t.finishedListLock = s.finishedListLock from (congrArg finishedListLock hc.frame :)]
    exact h.lock.keep hlock.symm
  · change j ∈ (update t.pc b _ b').points at hj
    show j ∈ t.finished
    rw [hfinished]
    rcases eq_or_ne b' b with rfl | hne
    · rw [update_self] at hj
      exact absurd hj List.not_mem_nil
    · rw [update_of_ne hne, hpct] at hj
      exact h.points hj
  · change k ∈ t.activeList at hk
    change inProgress t.sxact k = true at hpk
    show (t.sxact k).xmin ≤ t.oldestXid
    have hne : k ≠ i := fun heqk => absurd ((heqk ▸ hpk).symm.trans hc.ended) nofun
    rw [xmin_status (hc.others k hne), hxid]
    exact h.ages (hactive ▸ hk) ((inProgress_status (hc.others k hne)).symm.trans hpk)
  · change t.snapshotXmin b' = some xmin at hx
    show xmin ≤ t.oldestXid
    rw [show t.snapshotXmin = s.snapshotXmin from (congrArg snapshotXmin hc.frame :)] at hx
    rw [hxid]
    exact h.snapshots hx

end PgStorage.Predicate
