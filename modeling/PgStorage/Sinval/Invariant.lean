import PgStorage.Lib.Locks
import PgStorage.Sinval.Sinvaladt

/-! What holds between any two steps, as long as no counter is renumbered.

Message numbers are then positions in the log of all messages. The invariant has one part for
the locks, one for the entries of the backends, one for the buffer and the counters of the
segment, and for each process one about where it is and, if it receives, one about what it has
been told. `notified` is the number of messages the `hasMessages` flag of an entry must tell of:
a writer that is kicking has not yet told the entries in front of it. -/
namespace PgStorage.Sinval
open Locks

section Definitions
variable {M : Type}

/-- A backend that started when `since` messages were in the log has been told every message up
to the position at the end, in order, or a reset in place of messages that are in the log when
the reset comes. -/
inductive Delivered (log : List M) (since : Nat) : List (Event M) → Nat → Prop
  | start : Delivered log since [] since
  | message {told : List (Event M)} {k : Nat} {m : M} : Delivered log since told k → log[k]? = some m →
      Delivered log since (told ++ [.message m]) (k + 1)
  | reset {told : List (Event M)} {k next sent : Nat} : Delivered log since told k → k ≤ next → next ≤ sent →
      sent ≤ log.length → Delivered log since (told ++ [.reset sent]) next

def Pc.writing : Pc M → Bool
  | .check _ | .fill .. | .publish .. | .kick .. => true
  | .cleanupRead .. | .cleanup .. | .cleanupUnlock .. | .cleanupRelease _ => true
  | _ => false

def Pc.cleaning : Pc M → Bool
  | .cleanup .. | .cleanupUnlock .. => true
  | _ => false

def Pc.reading : Pc M → Bool
  | .getClear _ | .getMax _ | .getReset .. | .getData .. | .getUnlock _ => true
  | _ => false

/-- Inside `SIGetDataEntries`, past the test of the flag. -/
def Pc.getting : Pc M → Bool
  | .getLock _ => true
  | pc => pc.reading

/-- What of `SIGetDataEntries` matters for the messages: those taken but not yet returned,
whether a reset is about to be returned, whether the flag has been cleared and not yet been set
again, the limit that was read, and whether messages are being taken. -/
structure View (M : Type) where
  pending : List M := []
  resetting : Bool := false
  cleared : Bool := false
  limit : Option Int := none
  taking : Bool := false

def Pc.view : Pc M → View M
  | .getMax _ => {cleared := true}
  | .getReset _ max => {cleared := true, limit := some max}
  | .getData _ max data => {pending := data, cleared := true, limit := some max, taking := true}
  | .getUnlock .reset => {resetting := true}
  | .getUnlock (.messages data) => {pending := data}
  | _ => {}

/-- The messages a writer has put into the buffer but not published. -/
def Pc.written : Pc M → List M
  | .fill _ done _ _ | .publish _ done _ => done
  | _ => []

/-- The entry a writer has come to that tells the backends. -/
def Pc.kicking : Pc M → Option Nat
  | .kick i _ => some i
  | _ => none

/-- What the local variables of a process satisfy. -/
def Pc.Ok (g : SISeg M) : Pc M → Prop
  | .fill max done todo _ =>
    max = g.maxMsgNum + done.length ∧ max + todo.length ≤ g.minMsgNum + maxNumMessages
  | .publish max done _ => max = g.maxMsgNum + done.length ∧ max ≤ g.minMsgNum + maxNumMessages
  | .cleanupLock minFree | .cleanupRead _ minFree | .cleanup _ minFree => minFree ≤ maxNumMessages
  | _ => True

/-- The number of messages that the flag of entry `i` tells of. -/
def notified (s : Sys M) (i : Nat) : Nat :=
  match s.writeLock.bind fun w => (s.pc w).kicking with
  | some j => if i < j then s.log.length else s.completed
  | none => s.log.length

structure Locked (s : Sys M) : Prop where
  write : Owner Pc.writing s.pc s.writeLock
  read : Owner Pc.cleaning s.pc s.readLock
  shared : Sharers Pc.reading s.pc s.readers
  alone : s.readLock ≠ none → s.readers = []

structure Slotted (s : Sys M) : Prop where
  own : ∀ p, s.pc p ≠ .absent → s.slot p < s.seg.lastBackend ∧ (s.own p).procPid = p ∧ p ≠ 0
  active : ∀ i, (s.seg.procState i).procPid ≠ 0 →
    s.pc (s.seg.procState i).procPid ≠ .absent ∧ s.slot (s.seg.procState i).procPid = i
  bound : s.seg.lastBackend ≤ s.seg.maxBackends

/-- The counters and the buffer, and what is known of the writer. -/
structure Stored (s : Sys M) : Prop where
  nonneg : 0 ≤ s.seg.minMsgNum
  le : s.seg.minMsgNum ≤ s.seg.maxMsgNum
  room : s.seg.maxMsgNum ≤ s.seg.minMsgNum + maxNumMessages
  log : s.seg.maxMsgNum = s.log.length
  buffer : ∀ (p k : Nat) (m : M), s.seg.minMsgNum ≤ k → (s.log ++ (s.pc p).written)[k]? = some m →
    s.seg.buffer ((k : Int) % maxNumMessages) = m
  ok : ∀ p, (s.pc p).Ok s.seg
  completed : s.completed ≤ s.log.length
  idle : (∀ p, (s.pc p).kicking = none) → s.completed = s.log.length

/-- A process that receives messages. -/
structure Receiver (s : Sys M) (p : Nat) : Prop where
  above : (s.own p).resetState = false → s.seg.minMsgNum ≤ (s.own p).nextMsgNum
  below : (s.own p).nextMsgNum ≤ s.seg.maxMsgNum
  taking : (s.pc p).view.taking = true → (s.own p).resetState = false
  told : ∃ k : Nat, Delivered s.log (s.since p) (s.heard p ++ (s.pc p).view.pending.map .message) k ∧
    (k : Int) ≤ (s.own p).nextMsgNum ∧ ((s.pc p).view.resetting = false → (k : Int) = (s.own p).nextMsgNum)
  limit : ∀ max, (s.pc p).view.limit = some max → s.seg.minMsgNum ≤ max ∧
    (s.own p).nextMsgNum ≤ max ∧ max ≤ s.seg.maxMsgNum ∧
    (max < notified s (s.slot p) → (s.own p).hasMessages = true)
  flagged : (s.pc p).view.cleared = false →
    (s.own p).nextMsgNum < notified s (s.slot p) ∨ (s.own p).resetState = true →
    (s.own p).hasMessages = true

structure Inv (s : Sys M) : Prop where
  locked : Locked s
  slotted : Slotted s
  stored : Stored s
  receiver : ∀ p, s.pc p ≠ .absent → (s.own p).sendOnly = false → Receiver s p

end Definitions

section Facts
variable {M : Type} {s t : Sys M} {p q : Nat} {log l : List M} {since k : Nat} {told : List (Event M)}

theorem Delivered.append (h : Delivered log since told k) : Delivered (log ++ l) since told k := by
  induction h with
  | start => exact .start
  | message _ hm ih =>
    refine .message ih ?_
    rw [List.getElem?_append_left (List.getElem?_eq_some_iff.mp hm).1]
    exact hm
  | reset _ hk hn hs ih => exact .reset ih hk hn (le_trans hs (by rw [List.length_append]; exact Nat.le_add_right _ _))

theorem Pc.writing_of_kicking {c : Pc M} {j : Nat} (h : c.kicking = some j) : c.writing = true := by
  cases c <;> first | rfl | cases h

variable {i n : Nat} {st : Nat → ProcState}

theorem notified_kicking (hl : Locked s) {j : Nat} (h : (s.pc p).kicking = some j) :
    notified s i = if i < j then s.log.length else s.completed := by
  simp only [notified, (hl.write p).mpr (Pc.writing_of_kicking h), Option.bind_some, h]

theorem notified_idle (h : ∀ q, (s.pc q).kicking = none) : notified s i = s.log.length := by
  unfold notified
  cases s.writeLock with
  | none => rfl
  | some w => simp only [Option.bind_some, h w]

theorem notified_congr (hs : Locked s) (ht : Locked t) (hk : ∀ q, (t.pc q).kicking = (s.pc q).kicking)
    (hlog : t.log = s.log) (hc : t.completed = s.completed) (i : Nat) : notified t i = notified s i := by
  by_cases hno : ∀ q, (s.pc q).kicking = none
  · rw [notified_idle hno, notified_idle fun q => (hk q).trans (hno q), hlog]
  · obtain ⟨q, hq⟩ := not_forall.mp hno
    obtain ⟨j, hj⟩ := Option.ne_none_iff_exists'.mp hq
    rw [notified_kicking hs hj, notified_kicking ht ((hk q).trans hj), hlog, hc]

theorem notified_le (h : s.completed ≤ s.log.length) (i : Nat) : notified s i ≤ s.log.length := by
  unfold notified
  split
  · split_ifs
    · exact le_refl _
    · exact h
  · exact le_refl _

theorem Slotted.inj (h : Slotted s) (hp : s.pc p ≠ .absent) (hq : s.pc q ≠ .absent) (e : s.slot q = s.slot p) :
    q = p := by
  rw [← (h.own q hq).2.1, ← (h.own p hp).2.1, Sys.own, Sys.own, e]

theorem lastActive_le (st : Nat → ProcState) (n : Nat) : lastActive st n ≤ n := by
  induction n with
  | zero => exact le_refl 0
  | succ n ih =>
    simp only [lastActive]
    split_ifs
    · exact le_refl _
    · exact Nat.le_succ_of_le ih

theorem lt_lastActive (hi : i < n) (ha : (st i).procPid ≠ 0) :
    i < lastActive st n := by
  induction n with
  | zero => exact absurd hi (Nat.not_lt_zero i)
  | succ n ih =>
    simp only [lastActive]
    split_ifs with hn
    · exact hi
    · have hne : i ≠ n := fun e => hn (e ▸ ha)
      exact ih (by omega)

theorem freeEntry_spec {g : SISeg M} (h : freeEntry g = some i) (hb : g.lastBackend ≤ g.maxBackends) :
    i < g.maxBackends ∧ (i < g.lastBackend ∧ (g.procState i).procPid = 0 ∨ i = g.lastBackend) := by
  unfold freeEntry at h
  split at h
  · next j hj =>
    obtain rfl := Option.some_inj.mp h
    have hlt := List.mem_range.mp (List.mem_of_find?_eq_some hj)
    have hz := List.find?_some hj
    exact ⟨lt_of_lt_of_le hlt hb, .inl ⟨hlt, by simpa using hz⟩⟩
  · split_ifs at h with hlt
    obtain rfl := Option.some_inj.mp h
    exact ⟨hlt, .inr rfl⟩

/-! ### The scan of the backends -/

/-- A backend that the scan looks at. -/
def ProcState.Participates (st : ProcState) : Prop :=
  st.procPid ≠ 0 ∧ st.resetState = false ∧ st.sendOnly = false

/-- The scan has seen the backends below `n`: it has reset those that are too far back, and its
minimum is a lower bound of the others, the greatest there is. -/
structure Scanned (start : Int) (lowbound : Int) (st : Nat → ProcState) (n : Nat) (a : Scan) : Prop where
  reset : ∀ i < n, (st i).Participates → (st i).nextMsgNum < lowbound →
    a.procState i = {st i with resetState := true}
  kept : ∀ i, ¬ (i < n ∧ (st i).Participates ∧ (st i).nextMsgNum < lowbound) → a.procState i = st i
  le : ∀ i < n, (st i).Participates → lowbound ≤ (st i).nextMsgNum → a.min ≤ (st i).nextMsgNum
  le_start : a.min ≤ start
  greatest : ∀ m, m ≤ start → (∀ i < n, (st i).Participates → lowbound ≤ (st i).nextMsgNum →
    m ≤ (st i).nextMsgNum) → m ≤ a.min

theorem scanned_zero (start lowbound minsig : Int) (st : Nat → ProcState) :
    Scanned start lowbound st 0 ⟨start, minsig, none, st⟩ where
  reset _ hi := absurd hi (Nat.not_lt_zero _)
  kept _ _ := rfl
  le _ hi := absurd hi (Nat.not_lt_zero _)
  le_start := le_refl _
  greatest _ hm _ := hm

theorem scanned_left {start lowbound : Int} {a b : Scan}
    (h : Scanned start lowbound st n a) (hp : (st n).Participates) (hn : lowbound ≤ (st n).nextMsgNum)
    (hmin : b.min = min a.min (st n).nextMsgNum) (hst : b.procState = a.procState) :
    Scanned start lowbound st (n + 1) b where
  reset i hi hp' hl := by
    rw [hst]
    rcases Nat.lt_succ_iff_lt_or_eq.mp hi with hlt | rfl
    · exact h.reset i hlt hp' hl
    · exact absurd hl (not_lt.mpr hn)
  kept i hi := by
    rw [hst]
    exact h.kept i fun hc => hi ⟨Nat.lt_succ_of_lt hc.1, hc.2⟩
  le i hi hp' hl := by
    rcases Nat.lt_succ_iff_lt_or_eq.mp hi with hlt | rfl
    · have := h.le i hlt hp' hl
      omega
    · omega
  le_start := by
    have := h.le_start
    omega
  greatest m hm hall := by
    have h1 := h.greatest m hm fun i hi => hall i (Nat.lt_succ_of_lt hi)
    have h2 := hall n (Nat.lt_succ_self n) hp hn
    omega

theorem scanned_succ {start lowbound : Int} {a : Scan}
    (h : Scanned start lowbound st n a) : Scanned start lowbound st (n + 1) (scanBackend lowbound a n) := by
  have hn : a.procState n = st n := h.kept n fun hc => absurd hc.1 (lt_irrefl n)
  have hcase : ∀ i, i < n + 1 → i < n ∨ i = n := fun i hi => Nat.lt_succ_iff_lt_or_eq.mp hi
  have hp : ¬((st n).procPid = 0 ∨ (st n).resetState = true ∨ (st n).sendOnly = true) →
      (st n).Participates := by
    simp [ProcState.Participates]
  unfold scanBackend
  rw [hn]
  dsimp only
  split_ifs with hskip hlow hmin hsig hsig
  · -- not looked at
    have hno : ¬ (st n).Participates := by
      rintro ⟨hpid, hr, hs⟩
      simp [hpid, hr, hs] at hskip
    refine ⟨?_, ?_, ?_, h.le_start, ?_⟩
    · intro i hi hp'
      rcases hcase i hi with hlt | rfl
      · exact h.reset i hlt hp'
      · exact absurd hp' hno
    · exact fun i hi => h.kept i fun hc => hi ⟨Nat.lt_succ_of_lt hc.1, hc.2⟩
    · intro i hi hp'
      rcases hcase i hi with hlt | rfl
      · exact h.le i hlt hp'
      · exact absurd hp' hno
    · exact fun m hm hall => h.greatest m hm fun i hi => hall i (Nat.lt_succ_of_lt hi)
  · -- reset
    refine ⟨?_, ?_, ?_, h.le_start, ?_⟩
    · intro i hi hp' hl
      rcases hcase i hi with hlt | rfl
      · rw [← h.reset i hlt hp' hl]
        exact Function.update_of_ne (Nat.ne_of_lt hlt) _ _
      · exact Function.update_self _ _ _
    · intro i hi
      have hne : i ≠ n := fun e => hi ⟨e ▸ Nat.lt_succ_self n, e ▸ hp hskip, e ▸ hlow⟩
      dsimp only
      rw [Function.update_of_ne hne]
      exact h.kept i fun hc => hi ⟨Nat.lt_succ_of_lt hc.1, hc.2⟩
    · intro i hi hp' hl
      rcases hcase i hi with hlt | rfl
      · exact h.le i hlt hp' hl
      · exact absurd hlow (not_lt.mpr hl)
    · exact fun m hm hall => h.greatest m hm fun i hi => hall i (Nat.lt_succ_of_lt hi)
  · exact scanned_left h (hp hskip) (not_lt.mp hlow) (min_eq_right (le_of_lt hmin)).symm rfl
  · exact scanned_left h (hp hskip) (not_lt.mp hlow) (min_eq_right (le_of_lt hmin)).symm rfl
  · exact scanned_left h (hp hskip) (not_lt.mp hlow) (min_eq_left (not_lt.mp hmin)).symm rfl
  · exact scanned_left h (hp hskip) (not_lt.mp hlow) (min_eq_left (not_lt.mp hmin)).symm rfl

theorem scanned (g : SISeg M) (minFree : Nat) :
    Scanned g.maxMsgNum (g.maxMsgNum - maxNumMessages + minFree) g.procState g.lastBackend
      (scanBackends g minFree) := by
  unfold scanBackends
  generalize g.lastBackend = n
  induction n with
  | zero => exact scanned_zero _ _ _ _
  | succ n ih =>
    rw [List.range_succ, List.foldl_append]
    exact scanned_succ ih

end Facts
end PgStorage.Sinval
