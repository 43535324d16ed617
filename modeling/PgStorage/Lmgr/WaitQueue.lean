import PgStorage.Lib.Ring
import PgStorage.Lmgr.LockProofs

/-! The wait queue of a lock.

The queue is a ring of links in shared memory with a header. `ProcSleep` starts at the
header's `prev` and passes processes along `prev`; `ProcLockWakeup` goes the same way. A
process is put in behind those it passes, so the order of wake-ups is that of the list
`procSleep` (`sleep_ring`). But the priorities of the processes in the queue are read from the
field `prio` of `PROC`, which nobody writes, and the processes that are passed are those of
lower priority. -/
namespace PgStorage.Lmgr
open PgStorage.Ring Trace
open Function List

/-- What a link in shared memory points at. -/
inductive Link (X : Type) where
  | head
  | proc (x : X)
  | invalid
deriving DecidableEq

/-- A `PROC_QUEUE` with the links of the processes. -/
structure ProcQueue (X : Type) where
  next : Link X → Link X
  prev : Link X → Link X
  size : Nat

section Queue
variable {X : Type}

/-- `ProcQueueInit`, with the links of all processes invalid. -/
def ProcQueue.init : ProcQueue X where
  next n := if n matches .head then .head else .invalid
  prev n := if n matches .head then .head else .invalid
  size := 0

/-- The field `prio` behind a link. -/
def Link.prio (procPrio : X → Int) : Link X → Int
  | .proc x => procPrio x
  | .head | .invalid => 0

/-- The search of `ProcSleep` for its place, with `n` processes left. -/
def ProcQueue.pass (q : ProcQueue X) (procPrio : X → Int) (prio : Int) : Nat → Link X → Link X
  | 0, proc => proc
  | n + 1, proc => if proc.prio procPrio < prio then q.pass procPrio prio n (q.prev proc) else proc

/-- The processes met along `prev`, at most `n` of them. -/
def ProcQueue.meet (q : ProcQueue X) : Nat → Link X → List X
  | n + 1, .proc x => x :: q.meet n (q.prev (.proc x))
  | _, _ => []

/-- The processes in the order in which `ProcLockWakeup` considers them. -/
def ProcQueue.order (q : ProcQueue X) : List X := q.meet q.size (q.prev .head)

variable [DecidableEq X]

def shmQueueInsertTL (q : ProcQueue X) (queue elem : Link X) : ProcQueue X :=
  let nextPtr := q.next queue
  {q with
    prev := Function.update (Function.update q.prev elem (q.prev nextPtr)) nextPtr elem
    next := Function.update (Function.update q.next elem (q.next queue)) queue elem}

/-- `SHMQueueDelete` and `SHMQueueElemInit`. -/
def shmQueueDelete (q : ProcQueue X) (elem : Link X) : ProcQueue X :=
  {q with
    next := Function.update (Function.update q.next (q.prev elem) (q.next elem)) elem .invalid
    prev := Function.update (Function.update q.prev (q.next elem) (q.prev elem)) elem .invalid}

/-- `ProcSleep` up to the sleep. -/
def ProcQueue.sleep (q : ProcQueue X) (procPrio : X → Int) (x : X) (prio : Int) : ProcQueue X :=
  let proc := q.pass procPrio prio q.size (q.prev .head)
  {shmQueueInsertTL q proc (.proc x) with size := q.size + 1}

/-- `ProcWakeup` with the size brought up to date; a process that is in no queue is left alone. -/
def ProcQueue.wakeup (q : ProcQueue X) (x : X) : ProcQueue X :=
  if q.prev (.proc x) = .invalid ∨ q.next (.proc x) = .invalid then q
  else {shmQueueDelete q (.proc x) with size := q.size - 1}

/-! ### The ring -/

/-- The links form a ring from the header along `prev` through the processes of `l`; all other
processes have invalid links. -/
structure ProcQueue.Holds (q : ProcQueue X) (l : List X) : Prop where
  ring : Anchored q.prev q.next .head (l.map .proc)
  size : q.size = l.length
  out : ∀ x, x ∉ l → q.prev (.proc x) = .invalid

section Ring
variable {q : ProcQueue X} {l : List X} {x : X} {procPrio : X → Int} {prio : Int}

omit [DecidableEq X] in
theorem holds_init : (ProcQueue.init : ProcQueue X).Holds [] :=
  ⟨⟨nodup_singleton _, rfl, rfl⟩, rfl, fun _ _ => rfl⟩

omit [DecidableEq X] in
theorem proc_mem {y : X} : Link.proc y ∈ l.map .proc ↔ y ∈ l := by
  simp only [mem_map, Link.proc.injEq, exists_eq_right]

omit [DecidableEq X] in
theorem meet_eq {a : Link X} (hc : Chain q.prev q.next a (l.map .proc) .head) : q.meet l.length (q.prev a) = l := by
  induction l generalizing a with
  | nil =>
    rw [hc.1]
    rfl
  | cons y l ih =>
    rw [hc.1]
    exact congrArg (y :: ·) (ih hc.2.2)

omit [DecidableEq X] in
theorem ProcQueue.Holds.order_eq (h : q.Holds l) : q.order = l := by
  rw [ProcQueue.order, h.size]
  exact meet_eq h.ring.2

omit [DecidableEq X] in
/-- The search stops before the first process that is not passed, or at the header. -/
theorem pass_spec (procPrio : X → Int) (prio : Int) {a : Link X} (x : X) (hc : Chain q.prev q.next a (l.map .proc) .head) :
    ∃ l₁ l₂, l = l₁ ++ l₂ ∧ procSleep procPrio prio x l = l₁ ++ x :: l₂ ∧
      q.pass procPrio prio l.length (q.prev a) = l₂.head?.elim .head .proc := by
  induction l generalizing a with
  | nil => exact ⟨[], [], rfl, rfl, hc.1⟩
  | cons y l ih =>
    rw [hc.1, procSleep, length_cons, ProcQueue.pass]
    by_cases hlt : procPrio y < prio
    · obtain ⟨l₁, l₂, hl, hs, hp⟩ := ih hc.2.2
      rw [if_pos hlt, if_pos (show (Link.proc y).prio procPrio < prio from hlt)]
      exact ⟨y :: l₁, l₂, by rw [hl]; rfl, by rw [hs]; rfl, hp⟩
    · rw [if_neg hlt, if_neg (show ¬ (Link.proc y).prio procPrio < prio from hlt)]
      exact ⟨[], y :: l, rfl, rfl, rfl⟩

/-- **A sleeper is put in the ring where the list has it.** -/
theorem ProcQueue.Holds.sleep (h : q.Holds l) (hx : x ∉ l) :
    (q.sleep procPrio x prio).Holds (procSleep procPrio prio x l) := by
  obtain ⟨l₁, l₂, hl, hs, hp⟩ := pass_spec procPrio prio x h.ring.2
  rw [← h.size] at hp
  obtain ⟨n, hn, hmem⟩ : ∃ n, q.pass procPrio prio q.size (q.prev .head) = n ∧ n ∈ Link.head :: l.map .proc := by
    refine ⟨_, hp, ?_⟩
    cases l₂ with
    | nil => exact mem_cons_self
    | cons z m =>
      refine mem_cons_of_mem _ (proc_mem.mpr ?_)
      rw [hl]
      exact mem_append_right _ mem_cons_self
  obtain ⟨hback, hnext⟩ := anchored_prev h.ring hmem
  have hsleep : q.sleep procPrio x prio = {
      next := update (update q.next (.proc x) (q.next n)) n (.proc x)
      prev := update (update q.prev (.proc x) n) (q.next n) (.proc x)
      size := q.size + 1} := by
    rw [ProcQueue.sleep, hn, shmQueueInsertTL, hback]
  have hout : Link.proc x ∉ Link.head :: l.map .proc := by
    simp only [mem_cons, reduceCtorEq, false_or, proc_mem]
    exact hx
  rw [hsleep, hs]
  refine ⟨?_, ?_, fun y hy => ?_⟩
  · have hring := h.ring
    rw [hl, map_append] at hring hout
    rw [← hn, hp]
    cases l₂ with
    | nil =>
      rw [map_nil, append_nil] at hring hout
      rw [map_append]
      exact anchored_insert hring hout
    | cons z m =>
      rw [map_append]
      exact anchored_insert_at hring hout
  · rw [h.size, hl]
    simp only [length_append, length_cons]
    omega
  · simp only [mem_append, mem_cons, not_or] at hy
    have hyl : y ∉ l := by
      rw [hl, mem_append, not_or]
      exact ⟨hy.1, hy.2.2⟩
    have hyn : Link.proc y ≠ q.next n := by
      intro e
      rw [← e, mem_cons, proc_mem] at hnext
      exact hnext.elim nofun hyl
    have hyx : Link.proc y ≠ .proc x := fun e => hy.2.1 (Link.proc.inj e)
    dsimp only
    rw [update_of_ne hyn, update_of_ne hyx]
    exact h.out y hyl

theorem ProcQueue.Holds.wakeup (h : q.Holds l) (x : X) : (q.wakeup x).Holds (l.erase x) := by
  by_cases hx : x ∈ l
  · have hin : Link.proc x ∈ Link.head :: l.map .proc := mem_cons_of_mem _ (proc_mem.mpr hx)
    have hvalid {n : Link X} (hn : n ∈ Link.head :: l.map .proc) : n ≠ .invalid := by
      rintro rfl
      simp at hn
    obtain ⟨l₁, l₂, rfl⟩ := append_of_mem hx
    have hring := h.ring
    rw [map_append, map_cons] at hring
    have hnd := hring.1
    have hx1 : x ∉ l₁ := by
      intro hm
      have := (nodup_append.mp (nodup_cons.mp hnd).2).2.2 _ (proc_mem.mpr hm) (.proc x) mem_cons_self
      exact this rfl
    have hnextmem : q.next (.proc x) ∈ Link.head :: (l₁ ++ x :: l₂).map .proc := (anchored_prev h.ring hin).2
    have hprevmem : q.prev (.proc x) ∈ Link.head :: (l₁ ++ x :: l₂).map .proc := by
      rcases chain_next_mem (chain_append.mp hring.2).2 with hm | hm
      · rw [map_append, map_cons]
        exact mem_cons_of_mem _ (mem_append_right _ (mem_cons_of_mem _ hm))
      · rw [hm]
        exact mem_cons_self
    rw [ProcQueue.wakeup, if_neg (not_or.mpr ⟨hvalid hprevmem, hvalid hnextmem⟩), erase_append_right _ hx1,
      erase_cons_head]
    refine ⟨?_, ?_, fun y hy => ?_⟩
    · rw [map_append]
      exact anchored_remove hring
    · show q.size - 1 = _
      rw [h.size]
      simp only [length_append, length_cons]
      omega
    · by_cases hyx : y = x
      · rw [hyx]
        exact update_self ..
      · have hyl : y ∉ l₁ ++ x :: l₂ := by
          simp only [mem_append, mem_cons, not_or] at hy ⊢
          exact ⟨hy.1, hyx, hy.2⟩
        have hyn : Link.proc y ≠ q.next (.proc x) := by
          intro e
          rw [← e, mem_cons, proc_mem] at hnextmem
          exact hnextmem.elim nofun hyl
        have hyx' : Link.proc y ≠ .proc x := fun e => hyx (Link.proc.inj e)
        simp only [shmQueueDelete]
        rw [update_of_ne hyx', update_of_ne hyn]
        exact h.out y hyl
  · rw [ProcQueue.wakeup, if_pos (.inl (h.out x hx)), erase_of_not_mem hx]
    exact h

end Ring

/-- A queue with, for each process, the priority with which it went to sleep last and when. -/
structure WaitTrace (X : Type) where
  queue : ProcQueue X
  asked : X → Int
  since : X → Nat
  clock : Nat

inductive WaitAct (X : Type) where
  | sleep (x : X) (prio : Int)
  | wakeup (x : X)

/-- A process that sleeps does not go to sleep again. -/
def waitStep (procPrio : X → Int) (s : WaitTrace X) : WaitAct X → Option (WaitTrace X)
  | .sleep x prio =>
    if s.queue.prev (.proc x) = .invalid then
      some ⟨s.queue.sleep procPrio x prio, Function.update s.asked x prio, Function.update s.since x s.clock,
        s.clock + 1⟩
    else none
  | .wakeup x => some {s with queue := s.queue.wakeup x}

def WaitTrace.start (asked : X → Int) (since : X → Nat) : WaitTrace X := ⟨.init, asked, since, 0⟩

/-- `y` comes before `z`: it has the higher priority, or the same and has slept longer. -/
def Before (asked : X → Int) (since : X → Nat) (y z : X) : Prop :=
  asked z < asked y ∨ asked z = asked y ∧ since y < since z

/-- The processes are considered in the order of their priorities, those of equal priority in
the order in which they went to sleep. -/
def WaitTrace.Ordered (s : WaitTrace X) : Prop := s.queue.order.Pairwise (Before s.asked s.since)

/-- The processes in the queue whose field `prio` is less than the new priority are those that
went to sleep with at least the new priority. -/
def WaitTrace.Passes (procPrio : X → Int) (s : WaitTrace X) : WaitAct X → Prop
  | .sleep _ prio => ∀ y ∈ s.queue.order, procPrio y < prio ↔ prio ≤ s.asked y
  | .wakeup _ => True

/-- What holds in a run in which every sleeper passes the right processes. -/
structure WaitInv (s : WaitTrace X) (l : List X) : Prop where
  holds : s.queue.Holds l
  sorted : l.Pairwise (Before s.asked s.since)
  past : ∀ y ∈ l, s.since y < s.clock

omit [DecidableEq X] in
theorem procSleep_sorted {procPrio : X → Int} {prio : Int} {x : X} {l : List X} {asked : X → Int} {since : X → Nat}
    (hs : l.Pairwise (Before asked since)) (hx : asked x = prio) (hlate : ∀ y ∈ l, since y < since x)
    (hpass : ∀ y ∈ l, procPrio y < prio ↔ prio ≤ asked y) :
    (procSleep procPrio prio x l).Pairwise (Before asked since) := by
  induction l with
  | nil => exact pairwise_singleton _ _
  | cons y l ih =>
    obtain ⟨hy, hl⟩ := pairwise_cons.mp hs
    rw [procSleep]
    split_ifs with hlt
    · have hge := (hpass y mem_cons_self).mp hlt
      refine pairwise_cons.mpr ⟨fun z hz => ?_, ih hl (fun z hz => hlate z (mem_cons_of_mem y hz))
        fun z hz => hpass z (mem_cons_of_mem y hz)⟩
      rcases mem_cons.mp ((procSleep_perm procPrio prio x l).mem_iff.mp hz) with rfl | hz
      · rcases lt_or_eq_of_le hge with hgt | heq
        · exact .inl (hx ▸ hgt)
        · exact .inr ⟨hx.trans heq, hlate y mem_cons_self⟩
      · exact hy z hz
    · have hless : asked y < prio := not_le.mp fun hge => hlt ((hpass y mem_cons_self).mpr hge)
      refine pairwise_cons.mpr ⟨fun z hz => ?_, hs⟩
      rcases mem_cons.mp hz with rfl | hz
      · exact .inl (hx ▸ hless)
      · refine .inl (hx ▸ lt_of_le_of_lt ?_ hless)
        exact (hy z hz).elim le_of_lt fun h => h.1.le

theorem inv_waitStep {procPrio : X → Int} {s s' : WaitTrace X} {l : List X} {r : WaitAct X} (h : WaitInv s l)
    (hpass : s.Passes procPrio r) (hs : waitStep procPrio s r = some s') : ∃ l', WaitInv s' l' := by
  cases r with
  | sleep x prio =>
    rw [waitStep] at hs
    split_ifs at hs with hfree
    cases hs
    have hx : x ∉ l := by
      intro hm
      have hin : Link.proc x ∈ l.map .proc := proc_mem.mpr hm
      obtain ⟨k, m, hl⟩ := append_of_mem hin
      have hring := h.holds.ring
      rw [hl] at hring
      rcases chain_next_mem (chain_append.mp hring.2).2 with hmem | heq
      · rw [hfree] at hmem
        have : Link.invalid ∈ l.map (Link.proc) := by
          rw [hl]
          exact mem_append_right _ (mem_cons_of_mem _ hmem)
        simp at this
      · rw [hfree] at heq
        cases heq
    have hold {y : X} (hy : y ∈ l) : y ≠ x := fun e => hx (e ▸ hy)
    refine ⟨procSleep procPrio prio x l, h.holds.sleep hx, ?_, fun y hy => ?_⟩
    · refine procSleep_sorted ?_ (update_self ..) (fun y hy => ?_) fun y hy => ?_
      · refine h.sorted.imp_of_mem fun hy hz hb => ?_
        dsimp only [Before]
        rw [update_of_ne (hold hy), update_of_ne (hold hz), update_of_ne (hold hy),
          update_of_ne (hold hz)]
        exact hb
      · dsimp only
        rw [update_of_ne (hold hy), update_self]
        exact h.past y hy
      · dsimp only
        rw [update_of_ne (hold hy)]
        exact hpass y (h.holds.order_eq ▸ hy)
    · rcases mem_cons.mp ((procSleep_perm procPrio prio x l).mem_iff.mp hy) with rfl | hy
      · dsimp only
        rw [update_self]
        exact Nat.lt_succ_self _
      · dsimp only
        rw [update_of_ne (hold hy)]
        exact Nat.lt_succ_of_lt (h.past y hy)
  | wakeup x =>
    cases hs
    exact ⟨l.erase x, h.holds.wakeup x, h.sorted.sublist erase_sublist,
      fun y hy => h.past y (erase_subset hy)⟩

/-- **In every run in which each sleeper passes the processes of at least its own priority, the
queue is ordered.** -/
theorem wait_queue_ordered (procPrio asked : X → Int) (since : X → Nat) {s : WaitTrace X}
    (h : Reaches (waitStep procPrio) (WaitTrace.Passes procPrio) (.start asked since) s) : s.Ordered := by
  have hinv : ∃ l, WaitInv s l := by
    refine h.keeps (P := fun s => ∃ l, WaitInv s l) ⟨[], holds_init, List.Pairwise.nil, nofun⟩ ?_
    intro t r u hpass hs ht
    obtain ⟨l, hl⟩ := ht
    exact inv_waitStep hl hpass hs
  obtain ⟨l, hl⟩ := hinv
  rw [WaitTrace.Ordered, hl.holds.order_eq]
  exact hl.sorted

instance (procPrio : X → Int) (s : WaitTrace X) (r : WaitAct X) : Decidable (s.Passes procPrio r) :=
  match r with
  | .sleep _ prio => inferInstanceAs (Decidable (∀ y ∈ s.queue.order, procPrio y < prio ↔ prio ≤ s.asked y))
  | .wakeup _ => isTrue trivial

/-- Two writers and a reader, with the field `prio` as it is in new shared memory. -/
theorem wait_queue_ordered_writersFirst :
    ∃ s, Reaches (waitStep fun _ : Fin 3 => 0) (WaitTrace.Passes fun _ => 0) (.start (fun _ => 0) fun _ => 0) s ∧
      s.queue.order = [1, 2] ∧ s.Ordered := by
  have heval : (follow (waitStep fun _ : Fin 3 => 0) (WaitTrace.Passes fun _ => 0) (.start (fun _ => 0) fun _ => 0)
      [.sleep 0 2, .sleep 1 2, .sleep 2 1, .wakeup 0]).map (fun s => s.queue.order) = some [1, 2] := by
    decide +kernel
  obtain ⟨s, hs, horder⟩ := Option.map_eq_some_iff.mp heval
  have hr := Reaches.start.of_follow hs
  exact ⟨s, hr, horder, wait_queue_ordered (fun _ => 0) (fun _ => 0) (fun _ => 0) hr⟩

/-- A writer that comes after a reader is considered after it. -/
theorem reader_before_writer : ¬ ∀ s : WaitTrace (Fin 2),
    Reaches (waitStep fun _ => 0) (fun _ _ => True) (.start (fun _ => 0) fun _ => 0) s → s.Ordered := by
  intro h
  have heval : (follow (waitStep fun _ : Fin 2 => 0) (fun _ _ => True) (.start (fun _ => 0) fun _ => 0)
      [.sleep 0 1, .sleep 1 2]).map (fun s => (s.queue.order, s.asked 0, s.asked 1)) = some ([0, 1], 1, 2) := by
    decide +kernel
  obtain ⟨s, hs, hvals⟩ := Option.map_eq_some_iff.mp heval
  simp only [Prod.mk.injEq] at hvals
  obtain ⟨horder, h0, h1⟩ := hvals
  have hsorted := h s (Reaches.start.of_follow hs)
  rw [WaitTrace.Ordered, horder] at hsorted
  have hbefore := (pairwise_cons.mp hsorted).1 1 mem_cons_self
  rw [Before, h0, h1] at hbefore
  omega

end Queue

end PgStorage.Lmgr
