import Mathlib

/-! The writer that a reader conflicts with.

A serializable transaction that reads a version of a tuple looks for a transaction that wrote it and overlaps its own:
the one that inserted the version where the reader does not see it, and the one that deleted it where it does. Which of
the two is looked at depends on what `HeapTupleSatisfiesVacuum` returns. Transaction ids are given by their full
numbers, and hint bits are left out. -/
namespace PgStorage.ConflictOut

inductive XidStatus where
  | inProgress
  | committed
  | aborted
deriving DecidableEq

/-- The loop of `SubTransGetTopmostTransaction`, which does not look further back than the horizon. -/
def climb (subTransGetParent : Nat → Option Nat) (transactionXmin : Nat) : Nat → Nat → Nat
  | 0, xid => xid
  | fuel + 1, xid =>
    if xid < transactionXmin then xid
    else
      match subTransGetParent xid with
      | none => xid
      | some parentXid => climb subTransGetParent transactionXmin fuel parentXid

/-- The transactions with their subtransactions. A parent gets its id first, and all end together. -/
structure Xacts where
  status : Nat → XidStatus
  subTransGetParent : Nat → Option Nat
  parent_lt : ∀ x p, subTransGetParent x = some p → p < x
  ended : ∀ x y, climb subTransGetParent 0 x x = climb subTransGetParent 0 y y →
    status x = .committed → status y ≠ .inProgress

/-- The top-level transaction. -/
def Xacts.topmost (w : Xacts) (xid : Nat) : Nat := climb w.subTransGetParent 0 xid xid

def Xacts.subTransGetTopmostTransaction (w : Xacts) (transactionXmin xid : Nat) : Nat :=
  climb w.subTransGetParent transactionXmin xid xid

structure Snapshot where
  xmin : Nat
  xmax : Nat
  xip : List Nat

/-- `XidIsConcurrent` -/
def Snapshot.xidIsConcurrent (snap : Snapshot) (xid : Nat) : Bool :=
  if xid < snap.xmin then false
  else if snap.xmax ≤ xid then true
  else decide (xid ∈ snap.xip)

/-- The transaction that reads: its id, if it has one, its snapshot, and `TransactionXmin`. -/
structure Reader (w : Xacts) where
  topXid : Option Nat
  topXid_parent : ∀ x ∈ topXid, w.subTransGetParent x = none
  snapshot : Snapshot
  transactionXmin : Nat
  transactionXmin_le : transactionXmin ≤ snapshot.xmin

/-- A version of a tuple: who inserted it, and who updated or deleted it, where somebody did more than lock it. While
the inserter runs, nobody else deletes it. -/
structure Version (w : Xacts) where
  xmin : Nat
  updateXid : Option Nat
  deleted : ∀ d ∈ updateXid, w.status xmin = .inProgress → w.status d = .aborted ∨ w.topmost d = w.topmost xmin

variable {w : Xacts}

/-- `TransactionIdIsCurrentTransactionId` -/
def Reader.isCurrent (r : Reader w) (xid : Nat) : Bool :=
  decide (r.topXid = some (w.topmost xid) ∧ w.status xid = .inProgress)

inductive HtsvResult where
  | dead
  | live
  | recentlyDead
  | insertInProgress
  | deleteInProgress
deriving DecidableEq

def heapTupleSatisfiesVacuum (r : Reader w) (tuple : Version w) (oldestXmin : Nat) : HtsvResult :=
  match w.status tuple.xmin with
  | .aborted => .dead
  | .inProgress =>
    if r.isCurrent tuple.xmin then
      match tuple.updateXid with
      | none => .insertInProgress
      | some xmax => if r.isCurrent xmax then .deleteInProgress else .insertInProgress
    else .insertInProgress
  | .committed =>
    match tuple.updateXid with
    | none => .live
    | some xmax =>
      match w.status xmax with
      | .inProgress => .deleteInProgress
      | .committed => if xmax < oldestXmin then .dead else .recentlyDead
      | .aborted => .live

def Version.getUpdateXid (tuple : Version w) : Nat := tuple.updateXid.getD 0

/-- The switch of `CheckForSerializableConflictOut`; `none` where it returns. -/
def chooseXid (visible : Bool) (tuple : Version w) : HtsvResult → Option Nat
  | .live => if visible then none else some tuple.xmin
  | .recentlyDead => if visible then some tuple.getUpdateXid else none
  | .deleteInProgress => some tuple.getUpdateXid
  | .insertInProgress => some tuple.xmin
  | .dead => none

/-- The top-level transaction that `CheckForSerializableConflictOut` looks up, if it does not return before. -/
def checkForSerializableConflictOut (r : Reader w) (visible : Bool) (tuple : Version w) : Option Nat :=
  match chooseXid visible tuple (heapTupleSatisfiesVacuum r tuple r.transactionXmin) with
  | none => none
  | some xid =>
    if some xid = r.topXid then none
    else
      let xid := w.subTransGetTopmostTransaction r.transactionXmin xid
      if xid < r.transactionXmin then none
      else if some xid = r.topXid then none
      else some xid

/-- A conflict with the transaction is considered: it is looked up, and found to be concurrent. -/
def Considers (r : Reader w) (visible : Bool) (tuple : Version w) (xid : Nat) : Prop :=
  checkForSerializableConflictOut r visible tuple = some xid ∧ r.snapshot.xidIsConcurrent xid = true

/-- What was written with the id belongs to another transaction that overlaps the reader's, and is not undone. -/
def Overlaps (r : Reader w) (xid : Nat) : Prop :=
  r.topXid ≠ some (w.topmost xid) ∧ r.snapshot.xidIsConcurrent (w.topmost xid) = true ∧ w.status xid ≠ .aborted

/-- The transaction whose write the reader misses is considered. -/
def NamesWriter (r : Reader w) (visible : Bool) (tuple : Version w) : Prop :=
  if visible then ∀ d ∈ tuple.updateXid, Overlaps r d → Considers r visible tuple (w.topmost d)
  else Overlaps r tuple.xmin → Considers r visible tuple (w.topmost tuple.xmin)

/-- The reader does not see a version whose inserter is concurrent and has committed, and somebody has deleted it since
or is about to. -/
def Hidden (r : Reader w) (visible : Bool) (tuple : Version w) : Prop :=
  visible = false ∧ Overlaps r tuple.xmin ∧ w.status tuple.xmin = .committed ∧
    ∃ d ∈ tuple.updateXid, w.status d ≠ .aborted

/-! ### Which writer is named -/

theorem climb_le (w : Xacts) (horizon fuel xid : Nat) : climb w.subTransGetParent horizon fuel xid ≤ xid := by
  induction fuel generalizing xid with
  | zero => exact le_refl _
  | succ n ih =>
    simp only [climb]
    split
    · exact le_refl _
    · split
      · exact le_refl _
      · next p hp => exact le_trans (ih p) (le_of_lt (w.parent_lt _ _ hp))

theorem topmost_le (w : Xacts) (xid : Nat) : w.topmost xid ≤ xid := climb_le w 0 xid xid

variable {xid : Nat} {r : Reader w} {tuple : Version w}

/-- The horizon does not matter for a transaction that is not older. -/
theorem climb_horizon (w : Xacts) {horizon fuel : Nat} (h : horizon ≤ climb w.subTransGetParent 0 fuel xid) :
    climb w.subTransGetParent horizon fuel xid = climb w.subTransGetParent 0 fuel xid := by
  induction fuel generalizing xid with
  | zero => rfl
  | succ n ih =>
    have hle := le_trans h (climb_le w 0 (n + 1) xid)
    simp only [climb, if_neg (Nat.not_lt.mpr hle), if_neg (Nat.not_lt_zero xid)] at h ⊢
    cases hp : w.subTransGetParent xid with
    | none => rfl
    | some p =>
      rw [hp] at h
      exact ih h

theorem climb_of_horizon_le (w : Xacts) {horizon fuel : Nat}
    (h : horizon ≤ climb w.subTransGetParent horizon fuel xid) :
    climb w.subTransGetParent horizon fuel xid = climb w.subTransGetParent 0 fuel xid := by
  induction fuel generalizing xid with
  | zero => rfl
  | succ n ih =>
    have hle := le_trans h (climb_le w horizon (n + 1) xid)
    simp only [climb, if_neg (Nat.not_lt.mpr hle), if_neg (Nat.not_lt_zero xid)] at h ⊢
    cases hp : w.subTransGetParent xid with
    | none => rfl
    | some p =>
      rw [hp] at h
      exact ih h

theorem topmost_of_top (h : w.subTransGetParent xid = none) : w.topmost xid = xid := by
  unfold Xacts.topmost
  cases xid with
  | zero => rfl
  | succ n => simp only [climb, h, if_neg (Nat.not_lt_zero _)]

theorem xmin_le_of_concurrent {snap : Snapshot} (h : snap.xidIsConcurrent xid = true) :
    snap.xmin ≤ xid := by
  unfold Snapshot.xidIsConcurrent at h
  split at h
  · cases h
  · next hge => exact Nat.not_lt.mp hge

/-- A chosen id that overlaps is looked up by its top-level transaction. -/
theorem considers_of_choose {visible : Bool}
    (hchoose : chooseXid visible tuple (heapTupleSatisfiesVacuum r tuple r.transactionXmin) = some xid)
    (hover : Overlaps r xid) : Considers r visible tuple (w.topmost xid) := by
  obtain ⟨hother, hconc, _⟩ := hover
  have hxmin := le_trans r.transactionXmin_le (xmin_le_of_concurrent hconc)
  have hself : some xid ≠ r.topXid := fun he => by
    rw [topmost_of_top (r.topXid_parent xid he.symm)] at hother
    exact hother he.symm
  have htop : w.subTransGetTopmostTransaction r.transactionXmin xid = w.topmost xid := climb_horizon w hxmin
  refine ⟨?_, hconc⟩
  simp only [checkForSerializableConflictOut, hchoose]
  rw [if_neg hself, htop, if_neg (Nat.not_lt.mpr hxmin), if_neg (Ne.symm hother)]

/-- What is looked up is the top-level transaction of the chosen id. -/
theorem choose_of_considers {visible : Bool} (h : Considers r visible tuple xid) : ∃ x,
      chooseXid visible tuple (heapTupleSatisfiesVacuum r tuple r.transactionXmin) = some x ∧ w.topmost x = xid := by
  obtain ⟨h, _⟩ := h
  unfold checkForSerializableConflictOut at h
  split at h
  · cases h
  · next x hx =>
    split at h
    · cases h
    · dsimp only at h
      split at h
      · cases h
      · next hge =>
        split at h
        · cases h
        · cases h
          exact ⟨x, hx, (climb_of_horizon_le w (Nat.not_lt.mp hge)).symm⟩

/-- A version that the reader sees names its deleter. -/
theorem considers_deleter {d : Nat} (hd : d ∈ tuple.updateXid)
    (hseen : r.isCurrent tuple.xmin = true ∨ w.status tuple.xmin = .committed) (hover : Overlaps r d) :
    Considers r true tuple (w.topmost d) := by
  refine considers_of_choose ?_ hover
  obtain ⟨hother, hconc, hlive⟩ := hover
  have hget : tuple.getUpdateXid = d := by rw [Version.getUpdateXid, hd, Option.getD_some]
  cases hins : w.status tuple.xmin with
  | aborted =>
    rcases hseen with hcur | hcom
    · have := of_decide_eq_true hcur
      rw [hins] at this
      exact absurd this.2 (by decide)
    · rw [hins] at hcom
      cases hcom
  | inProgress =>
    rcases hseen with hcur | hcom
    · obtain ⟨hown, _⟩ := of_decide_eq_true hcur
      rcases tuple.deleted d hd hins with habort | hsame
      · exact absurd habort hlive
      · rw [hsame] at hother
        exact absurd hown hother
    · rw [hins] at hcom
      cases hcom
  | committed =>
    have hd : tuple.updateXid = some d := hd
    simp only [heapTupleSatisfiesVacuum, hins, hd]
    cases hdel : w.status d with
    | aborted => exact absurd hdel hlive
    | inProgress => exact congrArg some hget
    | committed =>
      have hnot : ¬ d < r.transactionXmin := by
        have := r.transactionXmin_le
        have := xmin_le_of_concurrent hconc
        have := topmost_le w d
        omega
      dsimp only
      rw [if_neg hnot]
      exact congrArg some hget

/-- A version that the reader does not see names its inserter, unless it is hidden by who deleted it. -/
theorem considers_inserter (hover : Overlaps r tuple.xmin)
    (hnot : ¬ Hidden r false tuple) : Considers r false tuple (w.topmost tuple.xmin) := by
  refine considers_of_choose ?_ hover
  unfold heapTupleSatisfiesVacuum
  cases hins : w.status tuple.xmin with
  | aborted => exact absurd hins hover.2.2
  | inProgress =>
    have hcur : ¬ r.isCurrent tuple.xmin = true := fun hcur => hover.1 (of_decide_eq_true hcur).1
    dsimp only
    rw [if_neg hcur, chooseXid]
  | committed =>
    cases hupd : tuple.updateXid with
    | none => rfl
    | some d =>
      have hdel : w.status d = .aborted := by
        by_contra hlive
        exact hnot ⟨rfl, hover, hins, d, hupd, hlive⟩
      dsimp only
      rw [hdel]
      rfl

/-- A hidden inserter is not considered: the check returns, or looks at the transaction that is deleting. -/
theorem not_considers_hidden (h : Hidden r false tuple) :
    ¬ Considers r false tuple (w.topmost tuple.xmin) := by
  obtain ⟨-, _, hins, d, hd, hlive⟩ := h
  intro hcon
  obtain ⟨x, hx, hsame⟩ := choose_of_considers hcon
  have hd : tuple.updateXid = some d := hd
  simp only [heapTupleSatisfiesVacuum, hins, hd] at hx
  cases hdel : w.status d with
  | aborted => exact hlive hdel
  | inProgress =>
    simp only [hdel, chooseXid, Version.getUpdateXid, hd, Option.getD_some, Option.some.injEq] at hx
    subst hx
    exact w.ended tuple.xmin d hsame.symm hins hdel
  | committed =>
    rw [hdel] at hx
    dsimp only at hx
    split at hx <;> cases hx

/-- **The writer is named unless the version is hidden**: the inserter of an invisible version is missed exactly when it
has committed and the version has since been deleted or is being deleted. -/
theorem namesWriter_iff {w : Xacts} (r : Reader w) (visible : Bool) (tuple : Version w)
    (hseen : visible = true → r.isCurrent tuple.xmin = true ∨ w.status tuple.xmin = .committed) :
    NamesWriter r visible tuple ↔ ¬ Hidden r visible tuple := by
  cases visible with
  | true =>
    exact ⟨fun _ h => Bool.noConfusion h.1, fun _ d hd hover => considers_deleter hd (hseen rfl) hover⟩
  | false =>
    exact ⟨fun h hhid => not_considers_hidden hhid (h hhid.2.1), fun h hover => considers_inserter hover h⟩

theorem climb_none (fuel xid : Nat) : climb (fun _ => none) 0 fuel xid = xid := by
  cases fuel with
  | zero => rfl
  | succ n => simp only [climb, if_neg (Nat.not_lt_zero xid)]

/-- Transactions without subtransactions: those from 12 on are running, the others have committed. -/
def plainXacts : Xacts where
  status x := if 12 ≤ x then .inProgress else .committed
  subTransGetParent _ := none
  parent_lt _ _ h := nomatch h
  ended x y h := by
    rw [climb_none, climb_none] at h
    rw [h]
    intro hcom hrun
    rw [hcom] at hrun
    cases hrun

/-- A reader without an id whose snapshot was taken when transactions 10 and 12 were running. -/
def plainReader : Reader plainXacts where
  topXid := none
  topXid_parent _ h := nomatch h
  snapshot := ⟨10, 13, [10, 12]⟩
  transactionXmin := 10
  transactionXmin_le := le_refl _

/-- Inserted by a transaction that has committed since the snapshot was taken. -/
def insertedBy10 (updateXid : Option Nat) : Version plainXacts where
  xmin := 10
  updateXid := updateXid
  deleted _ _ h := by cases h

theorem inserter_named : NamesWriter plainReader false (insertedBy10 none) :=
  (namesWriter_iff plainReader false (insertedBy10 none) (fun h => Bool.noConfusion h)).mpr
    fun h => by
      obtain ⟨_, hd, _⟩ := h.2.2.2
      cases hd

/-- Transaction 12 is deleting the version, so that its inserter is not looked at. -/
theorem inserter_missed : Overlaps plainReader 10 ∧
    checkForSerializableConflictOut plainReader false (insertedBy10 (some 12)) = some 12 ∧
    ¬ NamesWriter plainReader false (insertedBy10 (some 12)) := by
  have hover : Overlaps plainReader 10 := ⟨by decide, by decide, by decide⟩
  have hfound : checkForSerializableConflictOut plainReader false (insertedBy10 (some 12)) = some 12 := by decide
  refine ⟨hover, hfound, fun hnames => ?_⟩
  have hten : checkForSerializableConflictOut plainReader false (insertedBy10 (some 12)) = some 10 := (hnames hover).1
  rw [hfound] at hten
  cases hten

end PgStorage.ConflictOut
