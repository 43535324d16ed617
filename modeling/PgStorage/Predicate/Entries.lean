import PgStorage.Predicate.Books

/-! Who an entry belongs to.

An entry of the active list is the dummy, is the business of one process, belongs to a prepared transaction or is on the
finished list. Processes hand entries on one at a time. -/
namespace PgStorage.Predicate
open Places
open Function

/-- The entry that a process has to look after: its own, or one that it is about to release. -/
def Pc.entry : Pc → Option Nat
  | .running i _ | .finishing i _ _ | .releasing i _ | .summarizing i _ _ | .clearingOne i _ false _ => some i
  | _ => none

/-- Its transaction has ended. -/
def Pc.over : Pc → Bool
  | .running _ _ => false
  | _ => true

def Pc.holdsFinishedListLock : Pc → Bool
  | .summarizing _ _ _ | .releasing _ _ | .clearing _ | .clearingOne _ _ _ _ | .cleared _ _ => true
  | _ => false

/-- The entries of the finished list that `ClearOldPredicateLocks` keeps in its variables. -/
def Pc.points : Pc → List Nat
  | .clearing finishedSxact => finishedSxact.toList
  | .clearingOne i nextSxact keep _ => (if keep then [i] else []) ++ nextSxact.toList
  | .cleared _ nextSxact => nextSxact.toList
  | _ => []

inductive Roster
  | available
  | active
  | prepared
  | finished

def State.roster (s : State) : Roster → List Nat
  | .available => s.availableList
  | .active => s.activeList
  | .prepared => s.preparedXacts
  | .finished => s.finished

inductive Holder
  /-- No entry. -/
  | none
  | free
  | dummy
  | process (b : Nat)
  | prepared
  | finished

def Holder.on : Holder → Roster → Prop
  | .none, _ => False
  | .free, r => r = .available
  | .dummy, r | .process _, r => r = .active
  | .prepared, r => r = .active ∨ r = .prepared
  | .finished, r => r = .active ∨ r = .finished

def Holder.inProgress (pc : Nat → Pc) : Holder → Bool
  | .process b => !(pc b).over
  | .prepared => true
  | _ => false

structure Entries (s : State) (holder : Nat → Holder) : Prop where
  placed : Placed Holder.on s.roster holder
  dummy : ∀ i, holder i = .dummy ↔ i = oldCommittedSxact
  process : ∀ b i, (s.pc b).entry = some i ↔ holder i = .process b
  status : ∀ i ∈ s.activeList, inProgress s.sxact i = (holder i).inProgress s.pc

variable {s s' : State} {holder : Nat → Holder} {b i : Nat} {c : Pc} {p : Holder}

section
variable (h : Entries s holder)
include h

theorem Entries.active : i ∈ s.activeList ↔ (holder i).on .active := h.placed.mem (k := .active)

theorem Entries.finished : i ∈ s.finished ↔ holder i = .finished := by
  rw [show i ∈ s.finished ↔ _ from h.placed.mem (k := .finished)]
  cases holder i with
  | finished => exact iff_of_true (.inr rfl) rfl
  | prepared => exact iff_of_false (fun hon => hon.elim nofun nofun) nofun
  | none => exact iff_of_false id nofun
  | _ => exact iff_of_false nofun nofun

theorem Entries.prepared : i ∈ s.preparedXacts ↔ holder i = .prepared := by
  rw [show i ∈ s.preparedXacts ↔ _ from h.placed.mem (k := .prepared)]
  cases holder i with
  | prepared => exact iff_of_true (.inr rfl) rfl
  | finished => exact iff_of_false (fun hon => hon.elim nofun nofun) nofun
  | none => exact iff_of_false id nofun
  | _ => exact iff_of_false nofun nofun

theorem Entries.available : i ∈ s.availableList ↔ holder i = .free := by
  rw [show i ∈ s.availableList ↔ _ from h.placed.mem (k := .available)]
  cases holder i with
  | free => exact iff_of_true rfl rfl
  | finished | prepared => exact iff_of_false (fun hon => hon.elim nofun nofun) nofun
  | none => exact iff_of_false id nofun
  | _ => exact iff_of_false nofun nofun

theorem Entries.nodup (r : Roster) : (s.roster r).Nodup := (h.placed r).1

theorem Entries.entry (hb : (s.pc b).entry = some i) : holder i = .process b :=
  (h.process b i).mp hb

theorem Entries.entry_active (hb : (s.pc b).entry = some i) : i ∈ s.activeList := by
  rw [h.active, h.entry hb]
  rfl

/-- **One entry handed on.** The step concerns no other entry. -/
theorem Entries.move (p : Holder) (hpc : s'.pc = update s.pc b c)
    (hroster : ∀ r, Differs i (s.roster r) (s'.roster r)) (hself : ∀ r, i ∈ s'.roster r ↔ p.on r)
    (hi : i ≠ oldCommittedSxact) (hdummy : p ≠ .dummy)
    (hother : ∀ b', b' ≠ b → holder i ≠ .process b' ∧ p ≠ .process b')
    (hentry : ∀ k, k ≠ i → c.entry ≠ some k ∧ (s.pc b).entry ≠ some k) (hmine : c.entry = some i ↔ p = .process b)
    (hstatus : ∀ k, k ≠ i → inProgress s'.sxact k = inProgress s.sxact k)
    (hnew : i ∈ s'.activeList → inProgress s'.sxact i = p.inProgress s'.pc) :
    Entries s' (update holder i p) := by
  refine ⟨h.placed.move p hroster hself, fun k => ?_, fun b' k => ?_, fun k hk => ?_⟩
  · rcases eq_or_ne k i with rfl | hne
    · rw [update_self]
      exact iff_of_false hdummy hi
    · rw [update_of_ne hne]
      exact h.dummy k
  · rw [hpc]
    rcases eq_or_ne b' b with rfl | hb
    · rw [update_self]
      rcases eq_or_ne k i with rfl | hne
      · rw [update_self]
        exact hmine
      · rw [update_of_ne hne, ← h.process]
        exact iff_of_false (hentry k hne).1 (hentry k hne).2
    · rw [update_of_ne hb]
      rcases eq_or_ne k i with rfl | hne
      · rw [update_self, h.process]
        exact iff_of_false (hother b' hb).1 (hother b' hb).2
      · rw [update_of_ne hne]
        exact h.process b' k
  · rcases eq_or_ne k i with rfl | hne
    · rw [update_self]
      exact hnew hk
    · rw [update_of_ne hne, hstatus k hne, h.status k (((hroster .active).2 k hne).mp hk)]
      cases hx : holder k with
      | process b' =>
        have hb : b' ≠ b := fun heq => (hentry k hne).2 ((h.process b k).mpr (heq ▸ hx))
        show (!(s.pc b').over) = !(s'.pc b').over
        rw [hpc, update_of_ne hb]
      | _ => rfl

/-- A process that moves with what it has. -/
theorem Entries.stay (hpc : s'.pc = update s.pc b c) (hroster : s'.roster = s.roster)
    (hentry : c.entry = (s.pc b).entry) (hover : c.entry ≠ .none → c.over = (s.pc b).over)
    (hstatus : ∀ k ∈ s.activeList, inProgress s'.sxact k = inProgress s.sxact k) : Entries s' holder := by
  refine ⟨?_, h.dummy, fun b' k => ?_, fun k hk => ?_⟩
  · rw [hroster]
    exact h.placed
  · rw [hpc, Locks.apply_update hentry]
    exact h.process b' k
  · rw [show s'.activeList = s.activeList from congrFun hroster .active] at hk
    rw [hstatus k hk, h.status k hk]
    cases hx : holder k with
    | process b' =>
      show (!(s.pc b').over) = !(s'.pc b').over
      rw [hpc]
      rcases eq_or_ne b' b with rfl | hb
      · rw [update_self, hover]
        rw [hentry, (h.process b' k).mpr hx]
        exact nofun
      · rw [update_of_ne hb]
    | _ => rfl

end

theorem mem_shmQueueNext {l : List Nat} {j : Nat} (h : shmQueueNext l i = some j) : j ∈ l :=
  (List.dropWhile_sublist _).subset (List.mem_of_mem_tail (List.mem_of_head? h))

theorem shmQueueNext_ne {l : List Nat} {j : Nat} (hl : l.Nodup) (hi : i ∈ l) (h : shmQueueNext l i = some j) : j ≠ i := by
  induction l with
  | nil => exact absurd hi List.not_mem_nil
  | cons a l ih =>
    have hnd := List.nodup_cons.mp hl
    rw [shmQueueNext, List.dropWhile_cons] at h
    rcases eq_or_ne a i with rfl | hne
    · rw [if_neg (by simp)] at h
      rintro rfl
      exact hnd.1 (List.mem_of_head? h)
    · rw [if_pos (by simpa using hne)] at h
      exact ih hnd.2 ((List.mem_cons.mp hi).resolve_left hne.symm) h

end PgStorage.Predicate
