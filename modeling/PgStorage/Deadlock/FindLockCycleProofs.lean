import PgStorage.Deadlock.FindLockCycle

/-! `FindLockCycle` finds the cycles of the waits-for graph.

The nodes of the graph are lock groups, by their leaders. The scans of holders and queues are the edges of a group in
the order in which they are tried, so that the search is a depth-first search for a cycle. Its soft edges and its
details are those of the edges on the cycle. -/
namespace PgStorage.Deadlock
open CycleSearch
open List

/-- An edge of the waits-for graph: a process that waits, and one that blocks it. -/
structure Wait (P L : Type) where
  waiter : P
  lock : L
  blocker : P
  soft : Bool

section
variable {P L : Type} [DecidableEq P] [DecidableEq L]

/-- The edges of a process that waits, as a member of a group. -/
def memberWaits (t : LockState P L) (waitOrders : List (WaitOrder P L)) (leader p : P) : List (Wait P L) :=
  match t.waitLock p with
  | none => []
  | some lock => (hardBlockers t lock p leader).map (⟨p, lock, ·, false⟩) ++
      (softBlockers t waitOrders lock p leader).map (⟨p, lock, ·, true⟩)

/-- The edges of a group. -/
def waits (t : LockState P L) (waitOrders : List (WaitOrder P L)) (leader : P) : List (Wait P L) :=
  (waitingMembers t leader).flatMap (memberWaits t waitOrders leader)

/-- The group to which an edge leads. -/
def LockState.target (t : LockState P L) (w : Wait P L) : P := t.leaderOf w.blocker

def LockState.edge (t : LockState P L) (w : Wait P L) : Edge P L := ⟨t.leaderOf w.waiter, t.leaderOf w.blocker, w.lock⟩

def LockState.info (t : LockState P L) (w : Wait P L) : DeadlockInfo P L := ⟨w.lock, t.waitLockMode w.waiter, w.waiter⟩

/-- The soft edges of a walk, the last one first. -/
def LockState.softEdges (t : LockState P L) (path : List (Wait P L)) : List (Edge P L) :=
  ((path.filter (·.soft)).map t.edge).reverse

variable {t : LockState P L} {waitOrders : List (WaitOrder P L)} {s : Search P L} {depth : Nat}

omit [DecidableEq P] [DecidableEq L] in
theorem LockState.leaderOf_leaderOf (t : LockState P L) (p : P) : t.leaderOf (t.leaderOf p) = t.leaderOf p := by
  unfold LockState.leaderOf
  cases h : t.lockGroupLeader p with
  | none => rw [Option.getD_none, h, Option.getD_none]
  | some g => rw [Option.getD_some, t.leads p g h, Option.getD_some]

omit [DecidableEq L] in
theorem mem_waitingMembers {g p : P} (hg : t.leaderOf g = g) :
    p ∈ waitingMembers t g ↔ t.leaderOf p = g ∧ (t.waitLock p).isSome := by
  unfold waitingMembers LockState.leaderOf
  rw [mem_append, mem_filter, t.member, Bool.and_eq_true, decide_eq_true_iff]
  constructor
  · rintro (h | ⟨hlead, hwait, -⟩)
    · split at h
      · next hwait =>
        rw [mem_singleton.mp h]
        exact ⟨hg, hwait⟩
      · cases h
    · rw [hlead]
      exact ⟨rfl, hwait⟩
  · rintro ⟨hlead, hwait⟩
    by_cases hp : p = g
    · subst hp
      rw [if_pos hwait]
      exact .inl mem_cons_self
    · cases hleader : t.lockGroupLeader p with
      | none =>
        rw [hleader] at hlead
        exact absurd hlead hp
      | some g' =>
        rw [hleader] at hlead
        cases hlead
        exact .inr ⟨rfl, hwait, hp⟩

theorem mem_waits {g : P} {w : Wait P L} (hg : t.leaderOf g = g) :
    w ∈ waits t waitOrders g ↔ t.leaderOf w.waiter = g ∧ t.waitLock w.waiter = some w.lock ∧
      ((w.soft = false ∧ w.blocker ∈ hardBlockers t w.lock w.waiter g) ∨
        (w.soft = true ∧ w.blocker ∈ softBlockers t waitOrders w.lock w.waiter g)) := by
  obtain ⟨p, l, q, soft⟩ := w
  unfold waits
  rw [mem_flatMap]
  constructor
  · rintro ⟨m, hm, hw⟩
    obtain ⟨hlead, -⟩ := (mem_waitingMembers hg).mp hm
    rw [memberWaits] at hw
    split at hw
    · cases hw
    · next lock hlock =>
      rcases mem_append.mp hw with hw | hw
      · obtain ⟨q', hq, heq⟩ := mem_map.mp hw
        cases heq
        exact ⟨hlead, hlock, .inl ⟨rfl, hq⟩⟩
      · obtain ⟨q', hq, heq⟩ := mem_map.mp hw
        cases heq
        exact ⟨hlead, hlock, .inr ⟨rfl, hq⟩⟩
  · rintro ⟨hlead, hlock, h⟩
    dsimp only at hlead hlock h
    refine ⟨p, (mem_waitingMembers hg).mpr ⟨hlead, by rw [hlock]; rfl⟩, ?_⟩
    rw [memberWaits, hlock]
    rcases h with ⟨rfl, hq⟩ | ⟨rfl, hq⟩
    · exact mem_append_left _ (mem_map.mpr ⟨q, hq, rfl⟩)
    · exact mem_append_right _ (mem_map.mpr ⟨q, hq, rfl⟩)

/-! ### The search as a search of the graph -/

/-- What is left in the workspace by a search that comes back over a path, or fails. -/
def Unwound (t : LockState P L) (depth : Nat) (s : Search P L) :
    Option (List (Wait P L)) × List P → Bool × Search P L → Prop
  | (none, visited), (found, s') => found = false ∧ s'.visitedProcs = visited ∧ s'.softEdges = s.softEdges ∧
      s'.deadlockDetails = s.deadlockDetails
  | (some path, visited), (found, s') =>
    found = true ∧ s'.visitedProcs = visited ∧ s'.softEdges = s.softEdges ++ t.softEdges path ∧
      s'.nDeadlockDetails = depth + path.length ∧
      (∀ i w, path[i]? = some w → s'.deadlockDetails (depth + i) = some (t.info w)) ∧
      ∀ i, depth + path.length ≤ i → s'.deadlockDetails i = s.deadlockDetails i

/-- What a scan does with a process that the search comes back from. -/
structure Records (t : LockState P L) (depth : Nat) (w : Wait P L) (s s' : Search P L) : Prop where
  visited : s'.visitedProcs = s.visitedProcs
  soft : s'.softEdges = s.softEdges ++ if w.soft then [t.edge w] else []
  count : s'.nDeadlockDetails = s.nDeadlockDetails
  here : s'.deadlockDetails depth = some (t.info w)
  below : ∀ i, depth < i → s'.deadlockDetails i = s.deadlockDetails i

omit [DecidableEq P] [DecidableEq L] in
theorem Unwound.after {s' : Search P L} {r : Option (List (Wait P L)) × List P} {out : Bool × Search P L}
    (h : Unwound t depth s' r out) (hsoft : s'.softEdges = s.softEdges)
    (hdetails : s'.deadlockDetails = s.deadlockDetails) : Unwound t depth s r out := by
  obtain ⟨result, visited⟩ := r
  cases result with
  | none => exact ⟨h.1, h.2.1, h.2.2.1.trans hsoft, h.2.2.2.trans hdetails⟩
  | some path =>
    obtain ⟨hfound, hvisited, hs, hcount, hhere, hbeyond⟩ := h
    exact ⟨hfound, hvisited, by rw [hs, hsoft], hcount, hhere, by rwa [hdetails] at hbeyond⟩

omit [DecidableEq P] [DecidableEq L] in
theorem scanBlockers_unwound {go : P → Search P L → Bool × Search P L}
    {gs : P → List P → Option (List (Wait P L)) × List P}
    (hgo : ∀ p s, Unwound t (depth + 1) s (gs (t.leaderOf p) s.visitedProcs) (go p s))
      {found missed : P → Search P L → Search P L}
    {mk : P → Wait P L} (hmk : ∀ p, (mk p).blocker = p) (hfound : ∀ p s, Records t depth (mk p) s (found p s))
    (hmissed : ∀ p s, (missed p s).visitedProcs = s.visitedProcs ∧ (missed p s).softEdges = s.softEdges ∧
      (missed p s).deadlockDetails = s.deadlockDetails)
    (procs : List P) (s : Search P L) :
    Unwound t depth s (searchEdges gs t.target (procs.map mk) s.visitedProcs)
      (scanBlockers go found missed procs s) := by
  induction procs generalizing s with
  | nil => exact ⟨rfl, rfl, rfl, rfl⟩
  | cons p procs ih =>
    have h := hgo p s
    have htarget : t.target (mk p) = t.leaderOf p := congrArg t.leaderOf (hmk p)
    rw [map_cons, searchEdges, scanBlockers, htarget]
    generalize gs (t.leaderOf p) s.visitedProcs = r at h
    generalize go p s = out at h
    obtain ⟨result, visited⟩ := r
    obtain ⟨b, s'⟩ := out
    cases result with
    | none =>
      obtain ⟨rfl, rfl, hsoft, hdetails⟩ := h
      obtain ⟨hv, hs, hd⟩ := hmissed p s'
      have hrest := ih (missed p s')
      rw [hv] at hrest
      exact hrest.after (hs.trans hsoft) (hd.trans hdetails)
    | some path =>
      obtain ⟨rfl, rfl, hsoft, hcount, hdetails, hbeyond⟩ := h
      obtain ⟨hv, hs, hn, hhere, hbelow⟩ := hfound p s'
      refine ⟨rfl, hv, ?_, ?_, fun i w hi => ?_, fun i hi => ?_⟩
      · rw [hs, hsoft, append_assoc, LockState.softEdges, LockState.softEdges]
        cases hsw : (mk p).soft with
        | false => rw [filter_cons_of_neg (by rw [hsw]; decide), if_neg Bool.false_ne_true, append_nil]
        | true => rw [filter_cons_of_pos hsw, if_pos rfl, map_cons, reverse_cons]
      · rw [hn, hcount, length_cons]
        omega
      · cases i with
        | zero =>
          cases hi
          exact hhere
        | succ i =>
          rw [hbelow _ (by omega), show depth + (i + 1) = depth + 1 + i by omega]
          exact hdetails i w hi
      · rw [length_cons] at hi
        rw [hbelow i (by omega), hbeyond i (by omega)]

section
variable {go : P → Search P L → Bool × Search P L} {gs : P → List P → Option (List (Wait P L)) × List P}
  (hgo : ∀ p s, Unwound t (depth + 1) s (gs (t.leaderOf p) s.visitedProcs) (go p s))
include hgo

theorem findLockCycleRecurseMember_unwound {leader p : P} (hp : t.leaderOf p = leader) (s : Search P L) :
    Unwound t depth s (searchEdges gs t.target (memberWaits t waitOrders leader p) s.visitedProcs)
      (findLockCycleRecurseMember t waitOrders go leader depth p s) := by
  unfold memberWaits findLockCycleRecurseMember
  cases t.waitLock p with
  | none => exact ⟨rfl, rfl, rfl, rfl⟩
  | some lock =>
    dsimp only
    rw [searchEdges_append]
    have hhard : Unwound t depth s
        (searchEdges gs t.target ((hardBlockers t lock p leader).map (⟨p, lock, ·, false⟩)) s.visitedProcs)
        (scanBlockers go (fun _ => fillDetails t lock p depth) (noteAutovacuum t p) (hardBlockers t lock p leader)
          s) := by
      apply scanBlockers_unwound hgo (fun _ => rfl)
      · intro q s
        exact ⟨rfl, (append_nil _).symm, rfl, if_pos rfl, fun i hi => if_neg (by omega)⟩
      · intro q s
        unfold noteAutovacuum
        split
        · exact ⟨rfl, rfl, rfl⟩
        · exact ⟨rfl, rfl, rfl⟩
    generalize searchEdges gs t.target _ s.visitedProcs = r at hhard ⊢
    generalize scanBlockers go _ _ (hardBlockers t lock p leader) s = out at hhard ⊢
    obtain ⟨result, visited⟩ := r
    obtain ⟨b, s'⟩ := out
    cases result with
    | some path =>
      obtain ⟨rfl, hrest⟩ := hhard
      exact ⟨rfl, hrest⟩
    | none =>
      obtain ⟨rfl, rfl, hsoft, hdetails⟩ := hhard
      refine Unwound.after (scanBlockers_unwound hgo (fun _ => rfl) (fun q s => ?_) (fun _ _ => ⟨rfl, rfl, rfl⟩) _ s')
        hsoft hdetails
      subst hp
      exact ⟨rfl, rfl, rfl, if_pos rfl, fun i hi => if_neg (by omega)⟩

theorem scanMembers_unwound {leader : P} (members : List P) (hmembers : ∀ p ∈ members, t.leaderOf p = leader)
    (s : Search P L) :
    Unwound t depth s (searchEdges gs t.target (members.flatMap (memberWaits t waitOrders leader)) s.visitedProcs)
      (scanMembers (findLockCycleRecurseMember t waitOrders go leader depth) members s) := by
  induction members generalizing s with
  | nil => exact ⟨rfl, rfl, rfl, rfl⟩
  | cons p members ih =>
    rw [flatMap_cons, searchEdges_append, scanMembers]
    have hfirst : Unwound t depth s (searchEdges gs t.target (memberWaits t waitOrders leader p) s.visitedProcs)
        (findLockCycleRecurseMember t waitOrders go leader depth p s) :=
      findLockCycleRecurseMember_unwound hgo (hmembers p mem_cons_self) s
    generalize searchEdges gs t.target (memberWaits t waitOrders leader p) s.visitedProcs = r at hfirst ⊢
    generalize findLockCycleRecurseMember t waitOrders go leader depth p s = out at hfirst ⊢
    obtain ⟨result, visited⟩ := r
    obtain ⟨b, s'⟩ := out
    cases result with
    | some path =>
      obtain ⟨rfl, hrest⟩ := hfirst
      exact ⟨rfl, hrest⟩
    | none =>
      obtain ⟨rfl, rfl, hsoft, hdetails⟩ := hfirst
      exact (ih (fun q hq => hmembers q (mem_cons_of_mem p hq)) s').after hsoft hdetails

end

theorem findLockCycleRecurse_unwound (fuel : Nat) (p : P) (s : Search P L) :
    Unwound t depth s (search (waits t waitOrders) t.target fuel (t.leaderOf p) s.visitedProcs)
      (findLockCycleRecurse t waitOrders fuel depth p s) := by
  induction fuel generalizing depth p s with
  | zero => exact ⟨rfl, rfl, rfl, rfl⟩
  | succ fuel ih =>
    rw [search, findLockCycleRecurse]
    by_cases hin : t.leaderOf p ∈ s.visitedProcs
    · rw [if_pos hin, if_pos hin]
      by_cases hhead : s.visitedProcs.head? = some (t.leaderOf p)
      · rw [if_pos hhead, if_pos hhead]
        exact ⟨rfl, rfl, (append_nil _).symm, rfl, fun i w hi => (by cases hi), fun _ _ => rfl⟩
      · rw [if_neg hhead, if_neg hhead]
        exact ⟨rfl, rfl, rfl, rfl⟩
    · rw [if_neg hin, if_neg hin]
      exact scanMembers_unwound ih _ (fun q hq => ((mem_waitingMembers (t.leaderOf_leaderOf p)).mp hq).1)
        {s with visitedProcs := s.visitedProcs ++ [t.leaderOf p]}

/-- **`FindLockCycle` is the depth-first search of the waits-for graph.** -/
theorem findLockCycle_unwound [Fintype P] (p : P) (blockingAutovacuum : Option P) :
    Unwound t 0 ⟨[], [], fun _ => none, 0, blockingAutovacuum⟩
      (findCycle (waits t waitOrders) t.target (t.leaderOf p)) (findLockCycle t waitOrders p blockingAutovacuum) :=
  findLockCycleRecurse_unwound _ p _

section
variable {ready : Search P L → Prop} {go go' : P → Search P L → Bool × Search P L}
  (hgo : ∀ p s, ready s → go p s = go' p s ∧ ready (go p s).2)
include hgo

omit [DecidableEq P] [DecidableEq L] in
theorem scanBlockers_congr {found missed : P → Search P L → Search P L} (hfound : ∀ p s, ready s → ready (found p s))
    (hmissed : ∀ p s, ready s → ready (missed p s)) (procs : List P) (hs : ready s) :
    scanBlockers go found missed procs s = scanBlockers go' found missed procs s ∧
      ready (scanBlockers go found missed procs s).2 := by
  induction procs generalizing s with
  | nil => exact ⟨rfl, hs⟩
  | cons p procs ih =>
    obtain ⟨heq, hready⟩ := hgo p s hs
    rw [scanBlockers, scanBlockers, ← heq]
    generalize go p s = out at hready
    obtain ⟨b, s'⟩ := out
    cases b with
    | true => exact ⟨rfl, hfound p s' hready⟩
    | false => exact ih (hmissed p s' hready)

omit [DecidableEq P] [DecidableEq L] in
theorem scanMembers_congr (members : List P) (hs : ready s) :
    scanMembers go members s = scanMembers go' members s ∧ ready (scanMembers go members s).2 := by
  induction members generalizing s with
  | nil => exact ⟨rfl, hs⟩
  | cons p members ih =>
    obtain ⟨heq, hready⟩ := hgo p s hs
    rw [scanMembers, scanMembers, ← heq]
    generalize go p s = out at hready
    obtain ⟨b, s'⟩ := out
    cases b with
    | true => exact ⟨rfl, hready⟩
    | false => exact ih hready

theorem findLockCycleRecurseMember_congr
    (hready : ∀ s s' : Search P L, s'.visitedProcs = s.visitedProcs → ready s → ready s') (leader p : P)
    (hs : ready s) :
    findLockCycleRecurseMember t waitOrders go leader depth p s =
        findLockCycleRecurseMember t waitOrders go' leader depth p s ∧
      ready (findLockCycleRecurseMember t waitOrders go leader depth p s).2 := by
  unfold findLockCycleRecurseMember
  cases t.waitLock p with
  | none => exact ⟨rfl, hs⟩
  | some lock =>
    dsimp only
    have hauto (q : P) (s : Search P L) (h : ready s) : ready (noteAutovacuum t p q s) := by
      unfold noteAutovacuum
      split
      · exact hready s _ rfl h
      · exact h
    obtain ⟨heq, hs'⟩ := scanBlockers_congr hgo (fun _ s => hready s (fillDetails t lock p depth s) rfl) hauto
      (hardBlockers t lock p leader) hs
    rw [← heq]
    generalize scanBlockers go _ _ (hardBlockers t lock p leader) s = out at hs'
    obtain ⟨b, s'⟩ := out
    cases b with
    | true => exact ⟨rfl, hs'⟩
    | false =>
      exact scanBlockers_congr hgo (fun q s => hready s (addSoftEdge t lock leader q (fillDetails t lock p depth s))
        rfl)
        (fun _ _ h => h) (softBlockers t waitOrders lock p leader) hs'

end

theorem findLockCycleRecurse_congr [Fintype P] (fuel fuel' depth : Nat) (p : P)
    (hnd : s.visitedProcs.Nodup) (hfuel : Fintype.card P < fuel + s.visitedProcs.length)
    (hfuel' : Fintype.card P < fuel' + s.visitedProcs.length) :
    findLockCycleRecurse t waitOrders fuel depth p s = findLockCycleRecurse t waitOrders fuel' depth p s ∧
      (findLockCycleRecurse t waitOrders fuel depth p s).2.visitedProcs.Nodup ∧
      s.visitedProcs.length ≤ (findLockCycleRecurse t waitOrders fuel depth p s).2.visitedProcs.length := by
  have hcard := hnd.length_le_card
  induction fuel generalizing fuel' depth p s with
  | zero => omega
  | succ fuel ih =>
    obtain ⟨fuel', rfl⟩ : ∃ n, fuel' = n + 1 := ⟨fuel' - 1, by omega⟩
    rw [findLockCycleRecurse, findLockCycleRecurse]
    by_cases hin : t.leaderOf p ∈ s.visitedProcs
    · rw [if_pos hin, if_pos hin]
      split
      · exact ⟨rfl, hnd, le_refl _⟩
      · exact ⟨rfl, hnd, le_refl _⟩
    · rw [if_neg hin, if_neg hin]
      -- at the next depth one more group has been visited
      let ready (s' : Search P L) : Prop :=
        s'.visitedProcs.Nodup ∧ s.visitedProcs.length + 1 ≤ s'.visitedProcs.length
      have hgo (q : P) (s' : Search P L) (hs' : ready s') :
          findLockCycleRecurse t waitOrders fuel (depth + 1) q s' =
              findLockCycleRecurse t waitOrders fuel' (depth + 1) q s' ∧
            ready (findLockCycleRecurse t waitOrders fuel (depth + 1) q s').2 := by
        obtain ⟨hnd', hlen⟩ := hs'
        obtain ⟨heq, hnd'', hlen'⟩ := ih fuel' (depth + 1) q hnd' (by omega) (by omega) hnd'.length_le_card
        exact ⟨heq, hnd'', le_trans hlen hlen'⟩
      have hready (s' s'' : Search P L) (hv : s''.visitedProcs = s'.visitedProcs) (h : ready s') : ready s'' := by
        dsimp only [ready] at h ⊢
        rwa [hv]
      have hstart : ready {s with visitedProcs := s.visitedProcs ++ [t.leaderOf p]} :=
        ⟨nodup_snoc hnd hin, by rw [length_append, length_singleton]⟩
      obtain ⟨heq, hnd', hlen⟩ := scanMembers_congr
        (fun q s' => findLockCycleRecurseMember_congr hgo hready (t.leaderOf p) q) (waitingMembers t (t.leaderOf p))
        hstart
      exact ⟨heq, hnd', Nat.le_of_succ_le hlen⟩

/-- No depth beyond the number of processes is reached. -/
theorem findLockCycle_deeper [Fintype P] {fuel : Nat} (hfuel : Fintype.card P < fuel) (p : P)
    (blockingAutovacuum : Option P) :
    findLockCycleRecurse t waitOrders fuel 0 p ⟨[], [], fun _ => none, 0, blockingAutovacuum⟩ =
      findLockCycle t waitOrders p blockingAutovacuum :=
  (findLockCycleRecurse_congr fuel (Fintype.card P + 1) 0 p nodup_nil (Nat.lt_add_right _ hfuel)
    (Nat.lt_add_right _ (Nat.lt_succ_self _))).1

end

end PgStorage.Deadlock
