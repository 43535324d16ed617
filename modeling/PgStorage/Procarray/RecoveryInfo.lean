import PgStorage.Procarray.GroupClear

/-! The first snapshot of a standby.

A record of running transactions initializes `KnownAssignedXids`. The ids that have not completed are sorted as numbers
and then added one after the other, each of which has to follow the one before in the order of transaction ids. The
array is given by its entries from tail to head. -/
namespace PgStorage.RecoveryInfo
open Procarray
open List

def transactionIdAdvance (x : Nat) : Nat :=
  if (x + 1) % 2 ^ 32 < firstNormalTransactionId then firstNormalTransactionId else (x + 1) % 2 ^ 32

def transactionIdRetreat (x : Nat) : Nat := if x ≤ firstNormalTransactionId then 2 ^ 32 - 1 else x - 1

def transactionIdFollowsOrEquals (id1 id2 : Nat) : Bool := !transactionIdPrecedes id1 id2

/-- The array, with each id's flag in `KnownAssignedXidsValid`. -/
structure KnownAssigned where
  maxKnownAssignedXids : Nat
  numKnownAssignedXids : Nat
  tailKnownAssignedXids : Nat
  entries : List (Nat × Bool)

def KnownAssigned.head (k : KnownAssigned) : Nat := k.tailKnownAssignedXids + k.entries.length

/-- The ids that are valid. -/
def KnownAssigned.xids (k : KnownAssigned) : List Nat := (k.entries.filter Prod.snd).map Prod.fst

def KnownAssigned.reset (k : KnownAssigned) : KnownAssigned :=
  {k with numKnownAssignedXids := 0, tailKnownAssignedXids := 0, entries := []}

/-- `KnownAssignedXidsCompress`, with `PROCARRAY_MAXPROCS`. -/
def KnownAssigned.compress (maxProcs : Nat) (force : Bool) (k : KnownAssigned) : KnownAssigned :=
  if !force ∧ (k.entries.length < 4 * maxProcs ∨ k.entries.length < 2 * k.numKnownAssignedXids) then k
  else {k with tailKnownAssignedXids := 0, entries := k.entries.filter Prod.snd}

/-- Marks entries that precede an id, up to the first valid one that does not. -/
def expire (isPrepared : Nat → Bool) (removeXid : Nat) : List (Nat × Bool) → List (Nat × Bool)
  | [] => []
  | (xid, valid) :: rest =>
    if valid ∧ transactionIdFollowsOrEquals xid removeXid = true then (xid, valid) :: rest
    else (xid, valid && isPrepared xid) :: expire isPrepared removeXid rest

def KnownAssigned.removePreceding (maxProcs : Nat) (isPrepared : Nat → Bool) (removeXid : Nat) (k : KnownAssigned) :
    KnownAssigned :=
  if removeXid = invalidTransactionId then k.reset
  else
    let entries := expire isPrepared removeXid k.entries
    let num := k.numKnownAssignedXids - (k.entries.countP Prod.snd - entries.countP Prod.snd)
    let live := entries.dropWhile fun e => !e.2
    let tail := if live.isEmpty then 0 else k.tailKnownAssignedXids + (entries.length - live.length)
    KnownAssigned.compress maxProcs false
      {k with numKnownAssignedXids := num, tailKnownAssignedXids := tail, entries := live}

/-- How many ids there are from one to another, where they cross the wrap point. -/
def countXids (toXid : Nat) : Nat → Nat → Nat
  | 0, _ => 1
  | fuel + 1, nextXid =>
    if transactionIdPrecedes nextXid toXid then countXids toXid fuel (transactionIdAdvance nextXid) + 1 else 1

def xidsFrom : Nat → Nat → List (Nat × Bool)
  | 0, _ => []
  | n + 1, nextXid => (nextXid, true) :: xidsFrom n (transactionIdAdvance nextXid)

/-- `KnownAssignedXidsAdd`; nothing where it raises an error. -/
def KnownAssigned.add (maxProcs : Nat) (fromXid toXid : Nat) (k : KnownAssigned) : Option KnownAssigned :=
  let nxids := if fromXid ≤ toXid then toXid - fromXid + 1 else countXids toXid (2 ^ 32) fromXid
  if k.entries.getLast?.any fun e => transactionIdFollowsOrEquals e.1 fromXid then none
  else
    let k := if k.maxKnownAssignedXids < k.head + nxids then k.compress maxProcs true else k
    if k.maxKnownAssignedXids < k.head + nxids then none
    else
      some {k with
        numKnownAssignedXids := k.numKnownAssignedXids + nxids
        entries := k.entries ++ xidsFrom nxids fromXid}

inductive StandbyState where
  | initialized
  | snapshotPending
  | snapshotReady
deriving DecidableEq

structure State where
  standbyState : StandbyState
  known : KnownAssigned
  latestObservedXid : Nat
  standbySnapshotPendingXmin : Nat
  lastOverflowedXid : Nat
  latestCompletedXid : Nat
  nextXid : Nat

/-- `RunningTransactionsData`; its subtransactions are behind the `xcnt` others. -/
structure RunningTransactions where
  xcnt : Nat
  subxidOverflow : Bool
  nextXid : Nat
  oldestRunningXid : Nat
  latestCompletedXid : Nat
  xids : List Nat

/-- What the standby knows of: `PROCARRAY_MAXPROCS`, the transactions that are prepared or have completed. -/
structure Standby where
  maxProcs : Nat
  isPrepared : Nat → Bool
  completed : Nat → Bool

/-- The loop that extends `pg_subtrans`; nothing if it has not ended. -/
def observe (nextXid : Nat) : Nat → Nat → Option Nat
  | 0, _ => none
  | fuel + 1, latestObservedXid =>
    if transactionIdPrecedes latestObservedXid nextXid then
      observe nextXid fuel (transactionIdAdvance latestObservedXid)
    else some latestObservedXid

/-- The ids that are added, in the order of `xidComparator`. -/
def sortXids (completed : Nat → Bool) (xids : List Nat) : List Nat :=
  (xids.filter fun xid => !completed xid).insertionSort (· ≤ ·)

/-- The part that initializes the state. -/
def applyInitial (env : Standby) (running : RunningTransactions) (s : State) : Option State :=
  let xids := sortXids env.completed running.xids
  if xids ≠ [] ∧ s.known.numKnownAssignedXids ≠ 0 then none
  else
    (xids.foldlM (fun (k : KnownAssigned) xid => k.add env.maxProcs xid xid) s.known).bind fun known =>
      (observe running.nextXid (2 ^ 32) (transactionIdAdvance s.latestObservedXid)).bind fun observed =>
        let latest := transactionIdRetreat observed
        let s := {s with
          known := known
          latestObservedXid := latest
          latestCompletedXid :=
            if transactionIdPrecedes s.latestCompletedXid running.latestCompletedXid then running.latestCompletedXid
            else s.latestCompletedXid
          nextXid :=
            if transactionIdPrecedes s.nextXid (transactionIdAdvance latest) then transactionIdAdvance latest
            else s.nextXid}
        if running.subxidOverflow then
          some {s with
            standbyState := .snapshotPending, standbySnapshotPendingXmin := latest, lastOverflowedXid := latest}
        else
          some {s with standbyState := .snapshotReady, standbySnapshotPendingXmin := invalidTransactionId}

/-- `ProcArrayApplyRecoveryInfo`; nothing where it raises an error. -/
def applyRecoveryInfo (env : Standby) (running : RunningTransactions) (s : State) : Option State :=
  let s := {s with known := s.known.removePreceding env.maxProcs env.isPrepared running.oldestRunningXid}
  match s.standbyState with
  | .snapshotReady => some s
  | .snapshotPending =>
    if !running.subxidOverflow ∨ running.xcnt = 0 then
      applyInitial env running {s with known := s.known.reset, standbyState := .initialized}
    else if transactionIdPrecedes s.standbySnapshotPendingXmin running.oldestRunningXid then
      some {s with standbyState := .snapshotReady}
    else some s
  | .initialized => applyInitial env running s

/-- An array that holds ids from its first cell on, all of them valid. -/
def KnownAssigned.full (max : Nat) (xids : List Nat) : KnownAssigned :=
  ⟨max, xids.length, 0, xids.map fun x => (x, true)⟩

theorem KnownAssigned.xids_full (max : Nat) (xids : List Nat) : (full max xids).xids = xids := by
  unfold KnownAssigned.xids full
  dsimp only
  rw [filter_eq_self.mpr, map_map]
  · exact map_id xids
  · intro e he
    obtain ⟨x, _, rfl⟩ := mem_map.mp he
    rfl

def Follows (x y : Nat) : Prop := transactionIdPrecedes x y = true

instance (x y : Nat) : Decidable (Follows x y) := inferInstanceAs (Decidable (_ = true))

variable {max maxProcs : Nat} {xids ys : List Nat}

theorem KnownAssigned.add_full (x : Nat) : (full max xids).add maxProcs x x =
    if (∀ l ∈ xids.getLast?, Follows l x) ∧ xids.length < max then some (full max (xids ++ [x])) else none := by
  have hcompress : (full max xids).compress maxProcs true = full max xids := by
    unfold compress full
    rw [if_neg (by simp)]
    congr 1
    refine filter_eq_self.mpr fun e he => ?_
    obtain ⟨x, _, rfl⟩ := mem_map.mp he
    rfl
  have hhead : (full max xids).head = xids.length := by simp [head, full]
  have hlast : ((full max xids).entries.getLast?.any fun e => transactionIdFollowsOrEquals e.1 x) = true ↔
      ¬ ∀ l ∈ xids.getLast?, Follows l x := by
    unfold full
    dsimp only
    rw [getLast?_map]
    cases xids.getLast? with
    | none => simp
    | some l => simp [transactionIdFollowsOrEquals, Follows]
  unfold add
  dsimp only
  rw [if_pos (le_refl x), Nat.sub_self, hcompress, ite_self, hhead]
  by_cases hfollow : ∀ l ∈ xids.getLast?, Follows l x
  · rw [if_neg (fun h => hlast.mp h hfollow)]
    by_cases hroom : xids.length < max
    · rw [if_neg (by simp only [full]; omega), if_pos ⟨hfollow, hroom⟩]
      simp [full, xidsFrom]
    · rw [if_pos (by simp only [full]; omega), if_neg (fun h => hroom h.2)]
  · rw [if_pos (hlast.mpr hfollow), if_neg (fun h => hfollow h.1)]

/-- Ids can be added when each follows the one before and there is room for all. -/
theorem foldlM_add (maxProcs : Nat) (ys : List Nat) (hfull : xids.length ≤ max) (hchain : xids.IsChain Follows)
    (r : KnownAssigned) :
    ys.foldlM (fun (k : KnownAssigned) xid => k.add maxProcs xid xid) (KnownAssigned.full max xids) = some r ↔
      r = KnownAssigned.full max (xids ++ ys) ∧ (xids ++ ys).IsChain Follows ∧ (xids ++ ys).length ≤ max := by
  induction ys generalizing xids with
  | nil =>
    rw [append_nil]
    exact ⟨fun h => ⟨(Option.some.inj h).symm, hchain, hfull⟩, fun h => congrArg some h.1.symm⟩
  | cons y ys ih =>
    rw [foldlM_cons, KnownAssigned.add_full]
    have hsplit : xids ++ y :: ys = xids ++ [y] ++ ys := by rw [append_assoc, singleton_append]
    rw [hsplit]
    split
    · next hok =>
      have hnext : (xids ++ [y]).IsChain Follows :=
        isChain_append.mpr ⟨hchain, isChain_singleton y, fun l hl z hz => by
          cases hz
          exact hok.1 l hl⟩
      exact ih (by rw [length_append]; exact hok.2) hnext
    · next hnot =>
      refine ⟨fun h => (nomatch h), fun h => absurd ?_ hnot⟩
      obtain ⟨-, hch, hlen⟩ := h
      rw [← hsplit] at hch hlen
      rw [length_append, length_cons] at hlen
      exact ⟨fun l hl => (isChain_append.mp hch).2.2 l hl y rfl, by omega⟩

/-- The full numbers of the listed ids are normal and less than 2^31 before a given one. -/
def Window (nextXid : Nat) (xids : List Nat) : Prop :=
  ∀ n ∈ xids, transactionIdIsNormal (toXid n) = true ∧ n < nextXid ∧ nextXid < n + 2 ^ 31

/-- No two of the ids are the same, and none is on the other side of the wrap point. -/
def OneEpoch (xids : List Nat) : Prop := xids.Nodup ∧ ∀ m ∈ xids, ∀ n ∈ xids, m / 2 ^ 32 = n / 2 ^ 32

/-- The full numbers of the listed ids that have not completed. -/
def remaining (completed : Nat → Bool) (xids : List Nat) : List Nat := xids.filter fun n => !completed (toXid n)

variable {nextXid : Nat} {completed : Nat → Bool}

theorem Window.remaining (h : Window nextXid xids) : Window nextXid (remaining completed xids) :=
  fun n hn => h n (mem_of_mem_filter hn)

theorem Window.follows_iff (h : Window nextXid xids) {m n : Nat} (hm : m ∈ xids) (hn : n ∈ xids) :
    Follows (toXid m) (toXid n) ↔ m < n := by
  obtain ⟨hmn, hm1, hm2⟩ := h m hm
  obtain ⟨hnn, hn1, hn2⟩ := h n hn
  exact transactionIdPrecedes_iff hmn hnn ⟨by omega, by omega⟩

/-- The full numbers in the order in which the ids are added. -/
def inOrder (xids : List Nat) : List Nat := xids.insertionSort fun m n => toXid m ≤ toXid n

theorem sortXids_map (completed : Nat → Bool) (xids : List Nat) :
    sortXids completed (xids.map toXid) = (inOrder (remaining completed xids)).map toXid := by
  unfold sortXids inOrder RecoveryInfo.remaining
  rw [filter_map]
  exact (map_insertionSort (fun m n => toXid m ≤ toXid n) (· ≤ ·) toXid _ fun _ _ _ _ => Iff.rfl).symm

theorem mem_inOrder {n : Nat} : n ∈ inOrder xids ↔ n ∈ xids := mem_insertionSort _

/-- Sorted as numbers, the ids follow each other exactly when they are of one epoch. -/
theorem isChain_inOrder_iff (h : Window nextXid xids) :
    ((inOrder xids).map toXid).IsChain Follows ↔ OneEpoch xids := by
  have hperm : (inOrder xids).Perm xids := perm_insertionSort _ xids
  have hsorted : (inOrder xids).Pairwise fun m n => toXid m ≤ toXid n := pairwise_insertionSort _ xids
  have hlt : ((inOrder xids).map toXid).IsChain Follows ↔ (inOrder xids).Pairwise (· < ·) := by
    rw [← isChain_iff_pairwise, isChain_map]
    exact List.IsChain.iff_of_mem_imp fun {m n} hm hn => h.follows_iff (mem_inOrder.mp hm) (mem_inOrder.mp hn)
  rw [hlt]
  constructor
  · intro hchain
    refine ⟨hperm.nodup_iff.mp (hchain.imp Nat.ne_of_lt), ?_⟩
    have hboth := hchain.and hsorted
    have hepoch : (inOrder xids).Pairwise fun m n => m / 2 ^ 32 = n / 2 ^ 32 := by
      refine hboth.imp_of_mem fun {m n} hm hn hmn => ?_
      obtain ⟨hless, hle⟩ := hmn
      have hm := h m (mem_inOrder.mp hm)
      have hn := h n (mem_inOrder.mp hn)
      unfold toXid at hle
      omega
    intro m hm n hn
    exact List.Pairwise.forall_of_forall_of_flip (R := fun m n : Nat => m / 2 ^ 32 = n / 2 ^ 32) (fun _ _ => rfl)
      hepoch (hepoch.imp fun he => he.symm) (mem_inOrder.mpr hm) (mem_inOrder.mpr hn)
  · rintro ⟨hnodup, hepoch⟩
    have hboth := (hperm.nodup_iff.mpr hnodup).and hsorted
    refine hboth.imp_of_mem fun {m n} hm hn hmn => ?_
    obtain ⟨hne, hle⟩ := hmn
    have := hepoch m (mem_inOrder.mp hm) n (mem_inOrder.mp hn)
    unfold toXid at hle
    omega

/-! ### The standby's state -/

/-- The full number of the id that comes next. -/
def successor (n : Nat) : Nat := if (n + 1) % 2 ^ 32 = 0 then n + 4 else n + 1

theorem toXid_successor {n : Nat} (h : transactionIdIsNormal (toXid n) = true) :
    toXid (successor n) = transactionIdAdvance (toXid n) ∧ transactionIdIsNormal (toXid (successor n)) = true := by
  have h := of_decide_eq_true h
  unfold toXid successor transactionIdAdvance transactionIdIsNormal firstNormalTransactionId at *
  rw [decide_eq_true_iff]
  split_ifs <;> omega

theorem successor_le {m n : Nat} (hn : transactionIdIsNormal (toXid n) = true) (h : m < n) : successor m ≤ n := by
  have hn := of_decide_eq_true hn
  unfold successor toXid firstNormalTransactionId at *
  split_ifs <;> omega

/-- The loop ends at the next id, from any id less than 2^31 before it. -/
theorem observe_eq {next latest fuel : Nat} (hnext : transactionIdIsNormal (toXid next) = true)
    (hlatest : transactionIdIsNormal (toXid latest) = true) (hle : latest ≤ next) (hnear : next < latest + 2 ^ 31)
    (hfuel : next < latest + fuel) : observe (toXid next) fuel (toXid latest) = some (toXid next) := by
  induction fuel generalizing latest with
  | zero => omega
  | succ n ih =>
    have hiff := transactionIdPrecedes_iff hlatest hnext ⟨by omega, by omega⟩
    rw [observe]
    rcases Nat.lt_or_eq_of_le hle with hlt | rfl
    · obtain ⟨hsucc, hnormal⟩ := toXid_successor hlatest
      have hgt : latest < successor latest := by
        unfold successor
        split_ifs <;> omega
      rw [if_pos (hiff.mpr hlt), ← hsucc]
      exact ih hnormal (successor_le hnext hlt) (by omega) (by omega)
    · rw [if_neg fun h => lt_irrefl _ (hiff.mp h)]

theorem removePreceding_empty (max maxProcs : Nat) (isPrepared : Nat → Bool) (removeXid : Nat) :
    (KnownAssigned.full max []).removePreceding maxProcs isPrepared removeXid = KnownAssigned.full max [] := by
  unfold KnownAssigned.removePreceding
  split
  · rfl
  · simp [KnownAssigned.full, expire, KnownAssigned.compress]

/-- A record and a state that it may be applied in, with the full numbers of the listed ids, of the next id and of the
latest one observed. -/
structure Recorded (running : RunningTransactions) (s : State) (xids : List Nat) (next latest : Nat) : Prop where
  listed : running.xids = xids.map toXid
  window : Window next xids
  nextXid : running.nextXid = toXid next
  nextNormal : transactionIdIsNormal (toXid next) = true
  latestObservedXid : s.latestObservedXid = toXid latest
  latestNormal : transactionIdIsNormal (toXid latest) = true
  observed : latest < next ∧ next < latest + 2 ^ 31
  complete : running.subxidOverflow = false
  initialized : s.standbyState = .initialized
  empty : s.known = KnownAssigned.full s.known.maxKnownAssignedXids []

/-- The record was applied: the ids that have not completed are known, and snapshots are enabled. -/
def Applied (env : Standby) (running : RunningTransactions) (s : State) : Prop :=
  ∃ t, applyRecoveryInfo env running s = some t ∧
    (∀ x, x ∈ t.known.xids ↔ x ∈ running.xids ∧ env.completed x = false) ∧ t.standbyState = .snapshotReady ∧
    t.latestObservedXid = transactionIdRetreat running.nextXid

variable {env : Standby} {running : RunningTransactions} {s : State} {next latest : Nat}

theorem mem_sortXids {x : Nat} : x ∈ sortXids completed xids ↔ x ∈ xids ∧ completed x = false := by
  rw [sortXids, mem_insertionSort, mem_filter, Bool.not_eq_true']

/-- What applying the record comes down to. -/
theorem Recorded.apply (h : Recorded running s xids next latest) :
    applyRecoveryInfo env running s = ((sortXids env.completed running.xids).foldlM
      (fun (k : KnownAssigned) xid => k.add env.maxProcs xid xid)
      (KnownAssigned.full s.known.maxKnownAssignedXids [])).bind fun known =>
        some {s with
          known := known
          latestObservedXid := transactionIdRetreat running.nextXid
          latestCompletedXid :=
            if transactionIdPrecedes s.latestCompletedXid running.latestCompletedXid then running.latestCompletedXid
            else s.latestCompletedXid
          nextXid :=
            if transactionIdPrecedes s.nextXid (transactionIdAdvance (transactionIdRetreat running.nextXid)) then
              transactionIdAdvance (transactionIdRetreat running.nextXid)
            else s.nextXid
          standbyState := .snapshotReady
          standbySnapshotPendingXmin := invalidTransactionId} := by
  obtain ⟨hsucc, hnormal⟩ := toXid_successor h.latestNormal
  have hobs : observe running.nextXid (2 ^ 32) (transactionIdAdvance s.latestObservedXid) = some running.nextXid := by
    have hgt : latest < successor latest := by
      unfold successor
      split_ifs <;> omega
    rw [h.nextXid, h.latestObservedXid, ← hsucc]
    have := h.observed
    exact observe_eq h.nextNormal hnormal (successor_le h.nextNormal h.observed.1) (by omega) (by omega)
  have hremove := removePreceding_empty s.known.maxKnownAssignedXids env.maxProcs env.isPrepared
    running.oldestRunningXid
  rw [← h.empty] at hremove
  unfold applyRecoveryInfo
  rw [hremove]
  simp only [h.initialized, applyInitial, h.complete, hobs, Option.bind_some]
  have hnum : s.known.numKnownAssignedXids = 0 := by rw [h.empty]; rfl
  rw [if_neg fun hn => hn.2 hnum, ← h.empty]
  rfl

/-- **The record is applied exactly when the remaining ids are of one epoch**, without repetition, and fit into the
array. -/
theorem applyRecoveryInfo_iff (env : Standby) (running : RunningTransactions) (s : State) (xids : List Nat)
    (next latest : Nat) (h : Recorded running s xids next latest) :
    Applied env running s ↔ OneEpoch (remaining env.completed xids) ∧
      (remaining env.completed xids).length ≤ s.known.maxKnownAssignedXids := by
  have hsort : sortXids env.completed running.xids = (inOrder (remaining env.completed xids)).map toXid := by
    rw [h.listed, sortXids_map]
  have hlength : (sortXids env.completed running.xids).length = (remaining env.completed xids).length := by
    rw [hsort, length_map, inOrder, length_insertionSort]
  rw [← isChain_inOrder_iff h.window.remaining, ← hsort, ← hlength]
  have hadd := foldlM_add env.maxProcs (sortXids env.completed running.xids)
    (Nat.zero_le s.known.maxKnownAssignedXids) (List.IsChain.nil (R := Follows))
  unfold Applied
  rw [h.apply]
  constructor
  · rintro ⟨t, ht, -⟩
    obtain ⟨known, hknown, -⟩ := Option.bind_eq_some_iff.mp ht
    exact ((hadd known).mp hknown).2
  · intro hok
    rw [(hadd _).mpr ⟨rfl, hok⟩]
    refine ⟨_, rfl, fun x => ?_, rfl, rfl⟩
    dsimp only
    rw [KnownAssigned.xids_full, nil_append]
    exact mem_sortXids

/-- A standby that has seen ids up to 2^32 - 2, on which nothing has completed. -/
def waiting : State :=
  ⟨.initialized, KnownAssigned.full 10 [], 2 ^ 32 - 2, 0, 0, 2 ^ 32 - 2, 2 ^ 32 - 1⟩

/-- A record of transactions taken when 5 was to be the next id. -/
def recordBefore5 (xids : List Nat) : RunningTransactions := ⟨xids.length, false, 5, xids.headD 5, 2 ^ 32 - 2, xids⟩

def noneCompleted : Standby := ⟨10, fun _ => false, fun _ => false⟩

theorem recorded_before5 (xids : List Nat) (h : Window (2 ^ 32 + 5) xids) :
    Recorded (recordBefore5 (xids.map toXid)) waiting xids (2 ^ 32 + 5) (2 ^ 32 - 2) :=
  ⟨rfl, h, rfl, rfl, rfl, rfl, ⟨by decide, by decide⟩, rfl, rfl, rfl⟩

theorem epoch_applied : Applied noneCompleted (recordBefore5 [2 ^ 32 - 1, 2 ^ 32 - 3]) waiting := by
  have hwindow : Window (2 ^ 32 + 5) [2 ^ 32 - 1, 2 ^ 32 - 3] := by
    intro n hn
    rcases mem_cons.mp hn with rfl | hn
    · exact ⟨rfl, by decide, by decide⟩
    · cases mem_singleton.mp hn
      exact ⟨rfl, by decide, by decide⟩
  refine (applyRecoveryInfo_iff noneCompleted _ waiting [2 ^ 32 - 1, 2 ^ 32 - 3] (2 ^ 32 + 5) (2 ^ 32 - 2)
    (recorded_before5 _ hwindow)).mpr ⟨⟨by decide, by decide⟩, by decide⟩

/-- Ids from both sides of the wrap point, and an id that is listed twice. -/
theorem wrapped_refused : Window (2 ^ 32 + 5) [2 ^ 32 - 1, 2 ^ 32 + 3] ∧
    applyRecoveryInfo noneCompleted (recordBefore5 [2 ^ 32 - 1, 3]) waiting = none ∧
    applyRecoveryInfo noneCompleted (recordBefore5 [3, 3]) waiting = none := by
  refine ⟨?_, by decide, by decide⟩
  intro n hn
  rcases mem_cons.mp hn with rfl | hn
  · exact ⟨rfl, by decide, by decide⟩
  · cases mem_singleton.mp hn
    exact ⟨rfl, by decide, by decide⟩

end PgStorage.RecoveryInfo
