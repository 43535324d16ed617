import PgStorage.Predicate.Sides
import PgStorage.Predicate.Entries

/-! The invariant of the bookkeeping, and the steps that only hand entries on. -/
namespace PgStorage.Predicate
open Places Locks
open Function

structure Inv (s : State) (place : Nat → Place) (holder : Nat → Holder) : Prop where
  elements : Elements s place
  sides : Sides s place
  marked : Marked s
  entries : Entries s holder
  lock : Owner Pc.holdsFinishedListLock s.pc s.finishedListLock
  points : ∀ {b j : Nat}, j ∈ (s.pc b).points → j ∈ s.finished
  oldest : Oldest s.sxact s.activeList s.oldest
  writable : s.writableSxactCount = writable s.sxact s.activeList
  ages : ∀ {i : Nat}, i ∈ s.activeList → inProgress s.sxact i = true → (s.sxact i).xmin ≤ s.oldestXid
  snapshots : ∀ {b xmin : Nat}, s.snapshotXmin b = some xmin → xmin ≤ s.oldestXid

variable {s s' : State} {place : Nat → Place} {holder holder' : Nat → Holder} {b i : Nat} {c : Pc} {p : Holder}
  {lock : Option Nat}

theorem Pc.points_free (h : c.holdsFinishedListLock = false) : c.points = [] := by
  cases c with
  | clearing _ => cases h
  | clearingOne _ _ _ _ => cases h
  | cleared _ _ => cases h
  | _ => rfl

/-- While the lock is free, no process is inside of the finished list. -/
theorem Inv.no_points (h : Inv s place holder) (hlock : s.finishedListLock = none) (b : Nat) : (s.pc b).points = [] := by
  have hl := h.lock
  rw [hlock] at hl
  exact Pc.points_free (hl.free b)

/-- Nor is another one, while a process holds it. -/
theorem Inv.no_other_points (h : Inv s place holder) (hb : (s.pc b).holdsFinishedListLock = true) {b' : Nat}
    (hne : b' ≠ b) : (s.pc b').points = [] :=
  Pc.points_free (Bool.eq_false_iff.mpr fun hb' => hne (h.lock.unique hb' hb))

/-- The books of two states agree. -/
structure SameBooks (s s' : State) : Prop where
  sxact : s'.sxact = s.sxact
  active : s'.activeList = s.activeList
  pool : s'.pool = s.pool
  conflict : s'.conflict = s.conflict
  conflicts : s'.conflicts = s.conflicts
  oldest : s'.oldest = s.oldest
  writable : s'.writableSxactCount = s.writableSxactCount
  xid : s.oldestXid ≤ s'.oldestXid

section
variable (h : Inv s place holder)
include h

theorem Inv.other (hs : SameBooks s s') (hentries : Entries s' holder')
    (hlock : Owner Pc.holdsFinishedListLock s'.pc s'.finishedListLock)
    (hpoints : ∀ {b j}, j ∈ (s'.pc b).points → j ∈ s'.finished)
    (hsnap : ∀ {b xmin}, s'.snapshotXmin b = some xmin → xmin ≤ s'.oldestXid) : Inv s' place holder' := by
  have hstatus : ∀ k, (s'.sxact k).status = (s.sxact k).status := fun k => by rw [hs.sxact]
  refine ⟨h.elements.congr (fun k => by rw [hs.sxact]) hs.pool hs.conflict hs.conflicts, h.sides.same hs.active hstatus,
    h.marked.congr hstatus, hentries, hlock, hpoints, ?_, ?_, fun {i} hi hp => ?_, hsnap⟩
  · rw [hs.sxact, hs.active, hs.oldest]
    exact h.oldest
  · rw [hs.sxact, hs.active, hs.writable]
    exact h.writable
  · rw [hs.active] at hi
    rw [hs.sxact] at hp ⊢
    exact (h.ages hi hp).trans hs.xid

/-- A process goes on with what it has. -/
theorem Inv.turn (b : Nat) (c : Pc) (lock : Option Nat) (hentry : c.entry = (s.pc b).entry)
    (hover : c.entry ≠ none → c.over = (s.pc b).over)
    (hlock : Owner Pc.holdsFinishedListLock (update s.pc b c) lock)
    (hpoints : ∀ j ∈ c.points, j ∈ s.finished) (through : Nat) :
    Inv ({ s with finishedListLock := lock, havePartialClearedThrough := through }.setPc b c) place holder := by
  refine h.other ⟨rfl, rfl, rfl, rfl, rfl, rfl, rfl, le_rfl⟩ (h.entries.stay rfl rfl hentry hover fun _ _ => rfl) hlock
    (fun {b' j} hj => ?_) h.snapshots
  change j ∈ (update s.pc b c b').points at hj
  rcases eq_or_ne b' b with rfl | hne
  · rw [update_self] at hj
    exact hpoints j hj
  · rw [update_of_ne hne] at hj
    exact h.points hj

/-- An entry is handed on. -/
theorem Inv.hand (lock : Option Nat) {finished prepared : List Nat} (p : Holder)
    (hroster : ∀ r, Differs i (s.roster r)
      (State.roster { s with finished, preparedXacts := prepared } r))
    (hself : ∀ r, i ∈ State.roster { s with finished, preparedXacts := prepared } r ↔ p.on r)
    (hi : i ≠ oldCommittedSxact) (hdummy : p ≠ .dummy)
    (hother : ∀ b', b' ≠ b → holder i ≠ .process b' ∧ p ≠ .process b')
    (hentry : ∀ k, k ≠ i → c.entry ≠ some k ∧ (s.pc b).entry ≠ some k) (hmine : c.entry = some i ↔ p = .process b)
    (hnew : inProgress s.sxact i = p.inProgress (update s.pc b c))
    (hlock : Owner Pc.holdsFinishedListLock (update s.pc b c) lock)
    (hpoints : ∀ b' j, j ∈ (update s.pc b c b').points → j ∈ finished) :
    Inv ({ s with finished, preparedXacts := prepared, finishedListLock := lock }.setPc b c) place
      (update holder i p) :=
  h.other ⟨rfl, rfl, rfl, rfl, rfl, rfl, rfl, le_rfl⟩
    (h.entries.move p rfl hroster hself hi hdummy hother hentry hmine (fun _ _ => rfl) fun _ => hnew) hlock
    (fun {b' j} hj => hpoints b' j hj) h.snapshots

/-- An entry on the finished list is not the dummy, and its transaction is over. -/
theorem Inv.of_finished (hi : i ∈ s.finished) :
    holder i = .finished ∧ i ∈ s.activeList ∧ i ≠ oldCommittedSxact ∧ inProgress s.sxact i = false := by
  have hholder := h.entries.finished.mp hi
  have hactive : i ∈ s.activeList := h.entries.active.mpr (by rw [hholder]; exact .inl rfl)
  refine ⟨hholder, hactive, fun heq => ?_, ?_⟩
  · rw [(h.entries.dummy i).mpr heq] at hholder
    cases hholder
  · rw [h.entries.status i hactive, hholder]
    rfl

/-- Taking an entry off the finished list. -/
theorem Inv.take (lock : Option Nat) (hi : i ∈ s.finished) (hpc : (s.pc b).entry = none) (hc : c.entry = some i)
    (hover : c.over = true) (hlock : Owner Pc.holdsFinishedListLock (update s.pc b c) lock)
    (hpoints : ∀ j ∈ c.points, j ∈ s.finished.erase i) (hothers : ∀ b', b' ≠ b → (s.pc b').points = []) :
    Inv ({ s with finished := s.finished.erase i, finishedListLock := lock }.setPc b c) place
      (update holder i (.process b)) := by
  obtain ⟨hholder, hactive, hdummy, hover'⟩ := h.of_finished hi
  have hnd := h.entries.nodup
  refine h.hand lock (.process b) (fun r => ?_) (fun r => ?_) hdummy (by simp) (fun b' hb' => ⟨?_, ?_⟩) (fun k hk => ⟨?_, ?_⟩)
    (iff_of_true hc rfl) ?_ hlock fun b' j hj => ?_
  · cases r with
    | finished => exact .erase (hnd .finished)
    | available => exact .same (hnd .available)
    | active => exact .same (hnd .active)
    | prepared => exact .same (hnd .prepared)
  · cases r with
    | finished => exact iff_of_false (fun hmem => ((hnd .finished).mem_erase_iff.mp hmem).1 rfl) (by rintro ⟨⟩)
    | available => exact iff_of_false (fun hmem => by cases hholder.symm.trans (h.entries.available.mp hmem)) (by rintro ⟨⟩)
    | active => exact iff_of_true hactive rfl
    | prepared => exact iff_of_false (fun hmem => by cases hholder.symm.trans (h.entries.prepared.mp hmem)) (by rintro ⟨⟩)
  · rw [hholder]
    rintro ⟨⟩
  · rintro ⟨⟩
    exact hb' rfl
  · rw [hc]
    rintro ⟨⟩
    exact hk rfl
  · rw [hpc]
    rintro ⟨⟩
  · show _ = !(update s.pc b c b).over
    rw [update_self, hover, hover']
    rfl
  · rcases eq_or_ne b' b with rfl | hne
    · rw [update_self] at hj
      exact hpoints j hj
    · rw [update_of_ne hne, hothers b' hne] at hj
      exact absurd hj List.not_mem_nil

/-- Putting an entry on the finished list, with its lock free. -/
theorem Inv.give (hpc : (s.pc b).entry = some i) (hover : (s.pc b).over = true)
    (hfree : s.finishedListLock = none) (hc : c.entry = none) (hholds : c.holdsFinishedListLock = false) :
    Inv ({ s with finished := s.finished ++ [i] }.setPc b c) place (update holder i .finished) := by
  have hholder := h.entries.entry hpc
  have hactive := h.entries.entry_active hpc
  have hnd := h.entries.nodup
  have hmem : i ∉ s.finished := fun hmem => by cases hholder.symm.trans (h.entries.finished.mp hmem)
  refine h.hand s.finishedListLock .finished (fun r => ?_) (fun r => ?_) ?_ (by simp) (fun b' hb' => ⟨?_, by simp⟩)
    (fun k hk => ⟨?_, ?_⟩) (iff_of_false ?_ (by simp)) ?_ (h.lock.keep ?_) fun b' j hj => ?_
  · cases r with
    | finished => exact .snoc (hnd .finished) hmem
    | available => exact .same (hnd .available)
    | active => exact .same (hnd .active)
    | prepared => exact .same (hnd .prepared)
  · cases r with
    | finished => exact iff_of_true (List.mem_append_right _ List.mem_cons_self) (.inr rfl)
    | available =>
      exact iff_of_false (fun hmem => by cases hholder.symm.trans (h.entries.available.mp hmem)) (·.elim (by simp) (by simp))
    | active => exact iff_of_true hactive (.inl rfl)
    | prepared =>
      exact iff_of_false (fun hmem => by cases hholder.symm.trans (h.entries.prepared.mp hmem)) (·.elim (by simp) (by simp))
  · exact fun heq => by cases hholder.symm.trans ((h.entries.dummy i).mpr heq)
  · rw [hholder]
    rintro ⟨⟩
    exact hb' rfl
  · rw [hc]
    rintro ⟨⟩
  · rw [hpc]
    rintro ⟨⟩
    exact hk rfl
  · rw [hc]
    rintro ⟨⟩
  · rw [h.entries.status i hactive, hholder]
    show (!(s.pc b).over) = false
    rw [hover]
    rfl
  · have hl := h.lock
    rw [hfree] at hl
    rw [hholds, hl.free b]
  · refine absurd hj ?_
    rcases eq_or_ne b' b with rfl | hne
    · rw [update_self, Pc.points_free hholds]
      exact List.not_mem_nil
    · rw [update_of_ne hne, h.no_points hfree b']
      exact List.not_mem_nil

/-- A transaction that is prepared for a two-phase commit. -/
theorem Inv.prepare {didWrite : Bool} (hpc : s.pc b = .running i didWrite) :
    Inv ({ s with preparedXacts := i :: s.preparedXacts }.setPc b .idle) place (update holder i .prepared) := by
  have hentry : (s.pc b).entry = some i := by rw [hpc]; rfl
  have hholder := h.entries.entry hentry
  have hactive := h.entries.entry_active hentry
  have hnd := h.entries.nodup
  have hmem : i ∉ s.preparedXacts := fun hmem => nomatch hholder.symm.trans (h.entries.prepared.mp hmem)
  refine h.hand s.finishedListLock .prepared (fun r => ?_) (fun r => ?_) ?_ nofun (fun b' hb' => ⟨?_, nofun⟩)
    (fun k hk => ⟨nofun, ?_⟩) (iff_of_false nofun nofun) ?_ (h.lock.keep (by rw [hpc]; rfl)) fun b' j hj => ?_
  · cases r with
    | prepared => exact .cons (hnd .prepared) hmem
    | available => exact .same (hnd .available)
    | active => exact .same (hnd .active)
    | finished => exact .same (hnd .finished)
  · cases r with
    | prepared => exact iff_of_true List.mem_cons_self (.inr rfl)
    | available =>
      exact iff_of_false (fun hmem => nomatch hholder.symm.trans (h.entries.available.mp hmem)) (·.elim nofun nofun)
    | active => exact iff_of_true hactive (.inl rfl)
    | finished =>
      exact iff_of_false (fun hmem => nomatch hholder.symm.trans (h.entries.finished.mp hmem)) (·.elim nofun nofun)
  · exact fun heq => nomatch hholder.symm.trans ((h.entries.dummy i).mpr heq)
  · rw [hholder]
    rintro ⟨⟩
    exact hb' rfl
  · rw [hentry]
    rintro ⟨⟩
    exact hk rfl
  · rw [h.entries.status i hactive, hholder]
    show (!(s.pc b).over) = true
    rw [hpc]
    rfl
  · rcases eq_or_ne b' b with rfl | hne
    · rw [update_self] at hj
      exact absurd hj List.not_mem_nil
    · rw [update_of_ne hne] at hj
      exact h.points hj

end

end PgStorage.Predicate
