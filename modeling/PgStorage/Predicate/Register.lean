import PgStorage.Predicate.Release

/-! Registering a transaction. -/
namespace PgStorage.Predicate
open Places Locks
open Function List State

variable {s s' t : State} {place : Nat → Place} {holder : Nat → Holder} {b i xmin : Nat} {rest : List Nat}

/-- No entry is to be had, or the snapshot is taken without an error, an imported one is not older than
`SxactGlobalXmin`, and the pool has an element for every writer a read-only transaction has to wait for. -/
def registersCleanly (s : State) (readOnly : Bool) (source : Option VirtualTransactionId) (raises : Bool) : Bool :=
  s.availableList.isEmpty || !(source.isNone && raises) && (takeSnapshot s source).all fun xmin =>
    readOnly && decide (s.writableSxactCount = 0) ||
      (source.isNone || s.sxactGlobalXmin.all fun globalXmin => decide (globalXmin ≤ xmin)) &&
        (!readOnly || decide (s.activeList.countP (fun k => (s.sxact k).mayMakeUnsafe) ≤ s.pool.length))

theorem Inv.fresh (h : Inv s place holder) (havail : s.availableList = i :: rest) :
    holder i = .free ∧ i ∉ s.activeList ∧ i ≠ oldCommittedSxact := by
  have hfree : holder i = .free := h.entries.available.mp (by
    rw [havail]
    exact mem_cons_self)
  refine ⟨hfree, fun hmem => ?_, fun heq => ?_⟩
  · rw [h.entries.active, hfree] at hmem
    cases hmem
  · exact nomatch hfree.symm.trans ((h.entries.dummy i).mpr heq)

/-- The entry goes back at once: the import failed, or the transaction does without it. -/
theorem Inv.giveBack (h : Inv s place holder) (havail : s.availableList = i :: rest) {snapshotXmin : Nat → Option Nat}
    (hsnap : ∀ {b xmin}, snapshotXmin b = some xmin → xmin ≤ s.oldestXid) (hpc : (s.pc b).entry = none)
    (hlock : (s.pc b).holdsFinishedListLock = false) :
    Inv ((releasePredXact i { s with availableList := rest, activeList := s.activeList ++ [i], snapshotXmin }).setPc b .idle)
      place (update holder i .free) := by
  obtain ⟨hfree, hactive, hdummy⟩ := h.fresh havail
  have hnd := h.entries.nodup
  have havail' := hnd .available
  rw [roster, havail] at havail'
  have herase : (s.activeList ++ [i]).erase i = s.activeList := by
    rw [erase_append_right [i] hactive, erase_cons_head, append_nil]
  refine h.other ⟨rfl, herase, rfl, rfl, rfl, rfl, rfl, le_rfl⟩
    (h.entries.move .free rfl (fun r => ?_) (fun r => ?_) hdummy (by simp) (fun b' hb' => ⟨?_, by simp⟩)
      (fun k hk => ⟨by rintro ⟨⟩, ?_⟩) (iff_of_false (by rintro ⟨⟩) (by rintro ⟨⟩)) (fun _ _ => rfl) fun hmem => ?_)
    (h.lock.keep hlock.symm) (fun {b' j} hj => ?_) hsnap
  · cases r with
    | available =>
      show Differs i s.availableList (rest ++ [i])
      rw [havail]
      have hsnoc : Differs i rest (rest ++ [i]) := .snoc (nodup_cons.mp havail').2 (nodup_cons.mp havail').1
      have htail : Differs i (i :: rest) rest := .tail havail'
      exact ⟨hsnoc.1, fun y hy => (hsnoc.2 y hy).trans (htail.2 y hy)⟩
    | active =>
      show Differs i s.activeList ((s.activeList ++ [i]).erase i)
      rw [herase]
      exact .same (hnd .active)
    | prepared => exact .same (hnd .prepared)
    | finished => exact .same (hnd .finished)
  · cases r with
    | available => exact iff_of_true (mem_append_right _ mem_cons_self) rfl
    | active =>
      show i ∈ (s.activeList ++ [i]).erase i ↔ _
      rw [herase]
      exact iff_of_false hactive (by rintro ⟨⟩)
    | prepared => exact iff_of_false (fun hmem => by cases hfree.symm.trans (h.entries.prepared.mp hmem)) (by rintro ⟨⟩)
    | finished => exact iff_of_false (fun hmem => by cases hfree.symm.trans (h.entries.finished.mp hmem)) (by rintro ⟨⟩)
  · rw [hfree]
    rintro ⟨⟩
  · rw [hpc]
    rintro ⟨⟩
  · change i ∈ (s.activeList ++ [i]).erase i at hmem
    rw [herase] at hmem
    exact absurd hmem hactive
  · change j ∈ (update s.pc b .idle b').points at hj
    rcases eq_or_ne b' b with rfl | hne
    · rw [update_self] at hj
      exact absurd hj not_mem_nil
    · rw [update_of_ne hne] at hj
      exact h.points hj

/-- What the section leaves of the books where it registers the entry. -/
structure Opened (i xmin : Nat) (rest : List Nat) (snapshotXmin : Nat → Option Nat) (s s' : State)
    (place' : Nat → Place) : Prop where
  frame : s' = { s with
    sxact := s'.sxact
    availableList := rest
    activeList := s.activeList ++ [i]
    sxactGlobalXmin := s'.sxactGlobalXmin
    sxactGlobalXminCount := s'.sxactGlobalXminCount
    writableSxactCount := s'.writableSxactCount
    conflict := s'.conflict
    pool := s'.pool
    snapshotXmin }
  elements : Elements s' place'
  sides : Sides s' place'
  marked : Marked s'
  others : ∀ k, k ≠ i → (s'.sxact k).status = (s.sxact k).status
  begun : inProgress s'.sxact i = true
  xmin : (s'.sxact i).xmin = xmin
  oldest : Oldest s'.sxact s'.activeList s'.oldest
  writable : s'.writableSxactCount = writable s'.sxact s'.activeList

theorem Inv.open {place' : Nat → Place} (h : Inv s place holder) (snapshotXmin : Nat → Option Nat)
    (havail : s.availableList = i :: rest) (hsnap : ∀ {b xmin}, snapshotXmin b = some xmin → xmin ≤ s.oldestXid)
    (hpc : (s.pc b).entry = none) (hlock : (s.pc b).holdsFinishedListLock = false) (hxmin : xmin ≤ s.oldestXid)
    (ho : Opened i xmin rest snapshotXmin s s' place') :
    Inv (s'.setPc b (.running i false)) place' (update holder i (.process b)) := by
  obtain ⟨hfree, hactive, hdummy⟩ := h.fresh havail
  have hnd := h.entries.nodup
  have havail' := hnd .available
  rw [roster, havail] at havail'
  have hactive' : s'.activeList = s.activeList ++ [i] := (congrArg activeList ho.frame :)
  have hpc' : s'.pc = s.pc := (congrArg pc ho.frame :)
  have hxid : s'.oldestXid = s.oldestXid := (congrArg oldestXid ho.frame :)
  have hroster : s'.roster = roster { s with availableList := rest, activeList := s.activeList ++ [i] } :=
    (congrArg roster ho.frame :)
  have hentries : Entries (s'.setPc b (.running i false)) (update holder i (.process b)) := by
    refine h.entries.move (.process b) (show update s'.pc b _ = _ by rw [hpc']) (fun r => ?_) (fun r => ?_) hdummy
      (by simp) (fun b' hb' => ⟨?_, ?_⟩) (fun k hk => ⟨?_, ?_⟩) (iff_of_true rfl rfl) (fun k hk => ?_) fun _ => ?_
    · show Differs i (s.roster r) (s'.roster r)
      rw [hroster]
      cases r with
      | available =>
        show Differs i s.availableList rest
        rw [havail]
        exact .tail havail'
      | active => exact .snoc (hnd .active) hactive
      | prepared => exact .same (hnd .prepared)
      | finished => exact .same (hnd .finished)
    · show i ∈ s'.roster r ↔ _
      rw [hroster]
      cases r with
      | available => exact iff_of_false (nodup_cons.mp havail').1 (by rintro ⟨⟩)
      | active => exact iff_of_true (mem_append_right _ mem_cons_self) rfl
      | prepared => exact iff_of_false (fun hmem => by cases hfree.symm.trans (h.entries.prepared.mp hmem)) (by rintro ⟨⟩)
      | finished => exact iff_of_false (fun hmem => by cases hfree.symm.trans (h.entries.finished.mp hmem)) (by rintro ⟨⟩)
    · rw [hfree]
      rintro ⟨⟩
    · rintro ⟨⟩
      exact hb' rfl
    · rintro ⟨⟩
      exact hk rfl
    · rw [hpc]
      rintro ⟨⟩
    · exact inProgress_status (ho.others k hk)
    · show inProgress s'.sxact i = !(update s'.pc b (.running i false) b).over
      rw [update_self, ho.begun]
      rfl
  refine ⟨ho.elements.congr (fun _ => rfl) rfl rfl rfl, ho.sides.same rfl fun _ => rfl, ho.marked.congr fun _ => rfl,
    hentries, ?_, fun {b' j} hj => ?_, ho.oldest, ho.writable, fun {k} hk hp => ?_, fun {b' x} hx => ?_⟩
  · show Owner _ (update s'.pc b _) s'.finishedListLock
    rw [hpc', show s'.finishedListLock = s.finishedListLock from (congrArg finishedListLock ho.frame :)]
    exact h.lock.keep hlock.symm
  · change j ∈ (update s'.pc b _ b').points at hj
    show j ∈ s'.finished
    rw [show s'.finished = s.finished from (congrArg finished ho.frame :)]
    rcases eq_or_ne b' b with rfl | hne
    · rw [update_self] at hj
      exact absurd hj not_mem_nil
    · rw [update_of_ne hne, hpc'] at hj
      exact h.points hj
  · change k ∈ s'.activeList at hk
    change inProgress s'.sxact k = true at hp
    show (s'.sxact k).xmin ≤ s'.oldestXid
    rw [hxid]
    rcases eq_or_ne k i with rfl | hne
    · rw [ho.xmin]
      exact hxmin
    · rw [hactive'] at hk
      rw [xmin_status (ho.others k hne)]
      exact h.ages ((mem_append.mp hk).resolve_right fun hx => hne (mem_singleton.mp hx))
        ((inProgress_status (ho.others k hne)).symm.trans hp)
  · change s'.snapshotXmin b' = some x at hx
    show x ≤ s'.oldestXid
    rw [show s'.snapshotXmin = snapshotXmin from (congrArg State.snapshotXmin ho.frame :)] at hx
    rw [hxid]
    exact hsnap hx

/-! ### The section -/

theorem countXmin_frame (xmin : Nat) (s : State) : countXmin xmin s =
    { s with
      sxactGlobalXmin := (countXmin xmin s).sxactGlobalXmin
      sxactGlobalXminCount := (countXmin xmin s).sxactGlobalXminCount } := by
  rw [countXmin]
  split
  · rfl
  · split <;> rfl

theorem Inv.enterSxact (h : Inv s place holder) (havail : s.availableList = i :: rest) (readOnly : Bool)
    (snapshotXmin : Nat → Option Nat) (hg : ∀ globalXmin, s.sxactGlobalXmin = some globalXmin → globalXmin ≤ xmin) :
    ∃ t, t = Predicate.enterSxact { s with availableList := rest, activeList := s.activeList ++ [i], snapshotXmin } i xmin
      readOnly ∧ t.writableSxactCount = s.writableSxactCount ∧
      Predicate.writable t.sxact t.activeList = s.writableSxactCount + (if readOnly then 0 else 1) ∧
      (t.sxact i).readOnly = readOnly ∧ t.pool = s.pool ∧ t.pc = s.pc ∧
      t.sxact = update s.sxact i (newSxact s xmin readOnly) ∧
      Opened i xmin rest snapshotXmin s { t with writableSxactCount := Predicate.writable t.sxact t.activeList } place := by
  obtain ⟨-, hactive, hdummy⟩ := h.fresh havail
  have hsxact : (Predicate.enterSxact { s with availableList := rest, activeList := s.activeList ++ [i], snapshotXmin } i
      xmin readOnly).sxact = update s.sxact i (newSxact s xmin readOnly) := by
    rw [Predicate.enterSxact, countXmin_frame]
    rfl
  have hframe := countXmin_frame xmin { s with availableList := rest, activeList := s.activeList ++ [i], snapshotXmin }
  have holdest : (Predicate.enterSxact { s with availableList := rest, activeList := s.activeList ++ [i], snapshotXmin } i
      xmin readOnly).oldest =
      (countXmin xmin { s with availableList := rest, activeList := s.activeList ++ [i], snapshotXmin }).oldest := rfl
  have hothers : ∀ k, k ≠ i → (update s.sxact i (newSxact s xmin readOnly) k).status = (s.sxact k).status :=
    fun k hk => by rw [update_of_ne hk]
  have hself : update s.sxact i (newSxact s xmin readOnly) i = newSxact s xmin readOnly :=
    update_self ..
  have hin : inProgress (update s.sxact i (newSxact s xmin readOnly)) i = true := by
    rw [inProgress, hself]
    exact decide_eq_true hdummy
  have hwas : ∀ k ∈ s.activeList, k ≠ i := fun k hk heq => hactive (heq ▸ hk)
  have hwritable : Predicate.writable (update s.sxact i (newSxact s xmin readOnly)) (s.activeList ++ [i]) =
      s.writableSxactCount + (if readOnly then 0 else 1) := by
    rw [Predicate.writable, countP_append, countP_singleton, hin, hself, h.writable]
    refine congrArg₂ (· + ·) (writable_congr fun k hk => hothers k (hwas k hk)) ?_
    cases readOnly <;> rfl
  have hold := (h.oldest.congr fun k hk => hothers k (hwas k hk)).count i
  have hcount := countXmin_oldest
    (s := { s with availableList := rest, activeList := s.activeList ++ [i], snapshotXmin })
    (fun globalXmin hx => by
      rw [hself]
      exact hg globalXmin hx) hin
  rw [hself] at hcount
  rw [show countOldest _ s.oldest i = _ from hcount.symm] at hold
  obtain ⟨t, ht⟩ : ∃ t, t = Predicate.enterSxact
    { s with availableList := rest, activeList := s.activeList ++ [i], snapshotXmin } i xmin readOnly := ⟨_, rfl⟩
  have htframe : t = { s with
      sxact := t.sxact
      availableList := rest
      activeList := s.activeList ++ [i]
      sxactGlobalXmin := t.sxactGlobalXmin
      sxactGlobalXminCount := t.sxactGlobalXminCount
      snapshotXmin } := by
    rw [ht, Predicate.enterSxact, hframe]
    rfl
  rw [← ht] at hsxact holdest
  have hactive' : t.activeList = s.activeList ++ [i] := (congrArg activeList htframe :)
  have hqueues : ∀ k, (t.sxact k).queues = (s.sxact k).queues := fun k => by
    rw [hsxact]
    rcases eq_or_ne k i with rfl | hk
    · rw [hself, h.sides.queues h.elements hactive]
      rfl
    · rw [update_of_ne hk]
  refine ⟨t, ht, (congrArg writableSxactCount htframe :), ?_, ?_, (congrArg pool htframe :),
    (congrArg pc htframe :), hsxact, ?_, h.elements.congr hqueues (congrArg pool htframe :)
      (congrArg conflict htframe :) (congrArg conflicts htframe :), ?_, ⟨fun k => ?_, ?_⟩, fun k hk => ?_, ?_, ?_,
    ?_, rfl⟩
  · rw [hsxact, hactive', hwritable]
  · rw [hsxact, hself]
    rfl
  · refine (congrArg (fun u : State => { u with writableSxactCount := Predicate.writable t.sxact t.activeList }) htframe).trans ?_
    simp only [show t.conflict = s.conflict from (congrArg conflict htframe :),
      show t.pool = s.pool from (congrArg pool htframe :)]
  · refine h.sides.shrink (fun _ => .inl rfl) (fun _ k _ hk => ?_) fun _ k _ hk => ⟨?_, ?_⟩
    · rw [show _ = t.activeList from rfl, hactive']
      exact mem_append_left _ hk
    · rw [show _ = t.activeList from rfl, hactive']
      exact mem_append_left _ hk
    · rw [show _ = t.sxact from rfl, hsxact]
      exact hothers k (hwas k hk)
  · show (!(t.sxact k).rolledBack || (t.sxact k).doomed) = true
    rw [hsxact]
    rcases eq_or_ne k i with rfl | hk
    · rw [hself]
      rfl
    · rw [update_of_ne hk]
      exact h.marked.doomed k
  · show (t.sxact oldCommittedSxact).committed = true
    rw [hsxact, update_of_ne hdummy.symm]
    exact h.marked.dummy
  · show (t.sxact k).status = _
    rw [hsxact]
    exact hothers k hk
  · show inProgress t.sxact i = true
    rw [hsxact]
    exact hin
  · show (t.sxact i).xmin = xmin
    rw [hsxact, hself]
    rfl
  · show Oldest t.sxact t.activeList t.oldest
    rw [hsxact, hactive', holdest]
    exact hold

/-- **The section registers the transaction or leaves nothing behind.** -/
theorem Inv.register {readOnly : Bool} {source : Option VirtualTransactionId} {raises : Bool} (h : Inv s place holder)
    (hpc : s.pc b = .registering readOnly source) (hclean : registersCleanly s readOnly source raises = true) :
    ∃ place' holder', Inv (getSerializableTransactionSnapshotInt b readOnly source raises s) place' holder' := by
  have hentry : (s.pc b).entry = none := by rw [hpc]; rfl
  have hlock : (s.pc b).holdsFinishedListLock = false := by rw [hpc]; rfl
  rw [getSerializableTransactionSnapshotInt, createPredXact]
  cases havail : s.availableList with
  | nil =>
    exact ⟨place, holder, h.turn b (.summarize readOnly source) s.finishedListLock hentry.symm nofun
      (h.lock.keep hlock.symm) nofun s.havePartialClearedThrough⟩
  | cons i rest =>
    rw [registersCleanly, havail, isEmpty_cons, Bool.false_or, Bool.and_eq_true, Bool.not_eq_true'] at hclean
    obtain ⟨hraises, htake⟩ := hclean
    have hsource : ∀ u : State, u.lxid = s.lxid → u.snapshotXmin = s.snapshotXmin → u.oldestXid = s.oldestXid →
        takeSnapshot u source = takeSnapshot s source := fun u h₁ h₂ h₃ => by
      cases source with
      | none => exact congrArg some h₃
      | some v => rw [takeSnapshot, takeSnapshot, h₁, h₂]
    simp only [hraises, Bool.false_eq_true, if_false]
    rw [hsource { s with availableList := rest, activeList := s.activeList ++ [i] } rfl rfl rfl]
    cases hx : takeSnapshot s source with
    | none => exact ⟨place, _, h.giveBack havail h.snapshots hentry hlock⟩
    | some xmin =>
      rw [hx, Option.all_some] at htake
      have hxmin : xmin ≤ s.oldestXid := by
        cases source with
        | none =>
          cases hx
          exact le_rfl
        | some v =>
          rw [takeSnapshot] at hx
          split at hx
          · exact h.snapshots hx
          · cases hx
      have hsnap : ∀ {b' x}, update s.snapshotXmin b (some xmin) b' = some x → x ≤ s.oldestXid :=
        fun {b' x} hb' => by
          rcases eq_or_ne b' b with rfl | hne
          · rw [update_self] at hb'
            cases hb'
            exact hxmin
          · rw [update_of_ne hne] at hb'
            exact h.snapshots hb'
      simp only []
      split
      next hexempt => exact ⟨place, _, h.giveBack havail hsnap hentry hlock⟩
      next hregister =>
        rw [Bool.or_eq_true, or_iff_right hregister, Bool.and_eq_true] at htake
        have hg : ∀ globalXmin, s.sxactGlobalXmin = some globalXmin → globalXmin ≤ xmin := fun globalXmin hglobal => by
          cases source with
          | none =>
            cases hx
            have ho := h.oldest
            rw [State.oldest, hglobal] at ho
            obtain ⟨k, hk, hcount⟩ := countP_pos_iff.mp (ho.1 ▸ ho.2.1)
            rw [Bool.and_eq_true, decide_eq_true_eq] at hcount
            rw [← hcount.2]
            exact h.ages hk hcount.1
          | some v =>
            rw [hglobal] at htake
            exact of_decide_eq_true htake.1
        obtain ⟨t, ht, hcount, hwritable, hro, hpool, hpct, hsxact, hopened⟩ := h.enterSxact havail readOnly
          (update s.snapshotXmin b (some xmin)) hg
        simp only [← ht]
        cases readOnly with
        | false =>
          refine ⟨place, _, h.open (update s.snapshotXmin b (some xmin)) havail hsnap hentry hlock
            hxmin ?_⟩
          show Opened i xmin rest _ s { t with writableSxactCount := t.writableSxactCount + 1 } place
          rw [hcount, ← show _ = s.writableSxactCount + 1 from hwritable]
          exact hopened
        | true =>
          obtain ⟨-, hactive, -⟩ := h.fresh havail
          have hwas : ∀ k ∈ s.activeList, k ≠ i := fun k hk heq => hactive (heq ▸ hk)
          have hactive' : t.activeList = s.activeList ++ [i] := (congrArg activeList hopened.frame :)
          have hnd : t.activeList.Nodup := by
            rw [hactive']
            exact (Differs.snoc (h.entries.nodup .active) hactive).1
          have hroom : t.activeList.countP (fun k => (t.sxact k).mayMakeUnsafe) ≤ t.pool.length := by
            rw [hpool, hactive', countP_append, hsxact,
              countP_congr fun k hk => by rw [update_of_ne (hwas k hk)], countP_singleton,
              update_self]
            exact of_decide_eq_true htake.2
          obtain ⟨u, hu, hlinks, place', he, hs⟩ := setPossibleUnsafeConflicts_spec (s := t)
            (hopened.elements.congr (fun _ => rfl) rfl rfl rfl) (hopened.sides.same rfl fun _ => rfl)
            (hopened.marked.congr fun _ => rfl) ⟨hactive' ▸ mem_append_right _ mem_cons_self, hopened.begun, hro⟩
            hnd (fun _ hk => hk) (fun e k _ heq => hactive (h.sides.possibleUnsafe heq).2.mem) hroom
          rw [if_pos rfl, hu]
          have hactiveu : u.activeList = t.activeList := (congrArg activeList hlinks.frame :)
          have hframe := hlinks.frame.trans (congrArg (fun v : State => { v with
            sxact := u.sxact, pool := u.pool, conflict := u.conflict, writableSxactCount := t.writableSxactCount })
            hopened.frame)
          refine ⟨place', _, h.open (update s.snapshotXmin b (some xmin)) havail hsnap hentry hlock
            hxmin ⟨?_, he, hs, ?_, fun k hk => (hlinks.status k).trans (hopened.others k hk),
              (inProgress_status (hlinks.status i)).trans hopened.begun, (xmin_status (hlinks.status i)).trans hopened.xmin, ?_, ?_⟩⟩
          · refine hframe.trans ?_
            simp only [show u.sxactGlobalXmin = t.sxactGlobalXmin from (congrArg sxactGlobalXmin hlinks.frame :),
              show u.sxactGlobalXminCount = t.sxactGlobalXminCount from
                (congrArg sxactGlobalXminCount hlinks.frame :),
              show u.writableSxactCount = t.writableSxactCount from (congrArg State.writableSxactCount hlinks.frame :)]
          · exact Marked.congr (s := t) (hopened.marked.congr fun _ => rfl) hlinks.status
          · rw [hactiveu, show u.oldest = t.oldest from (congrArg State.oldest hlinks.frame :)]
            have hold : Oldest t.sxact _ t.oldest := hopened.oldest
            exact hold.congr fun k _ => hlinks.status k
          · rw [hactiveu, writable_congr fun k _ => hlinks.status k, hwritable, ← hcount]
            exact (congrArg writableSxactCount hlinks.frame :)

end PgStorage.Predicate
