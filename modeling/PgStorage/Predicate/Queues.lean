import PgStorage.Predicate.Predicate
import PgStorage.Lib.Places
import PgStorage.Lib.Locks

/-! Where the elements of the conflict pool are.

An element is in the pool, records a conflict, on one list of each side, or keeps a read-only transaction from being
safe, on the list of a writer and on its own. -/
namespace PgStorage.Predicate
open Places Locks
open Function

inductive Queue
  | pool
  | outConflicts (i : Nat)
  | inConflicts (i : Nat)
  | possibleUnsafeConflicts (i : Nat)

def State.queue (s : State) : Queue → List Nat
  | .pool => s.pool
  | .outConflicts i => (s.sxact i).outConflicts
  | .inConflicts i => (s.sxact i).inConflicts
  | .possibleUnsafeConflicts i => (s.sxact i).possibleUnsafeConflicts

inductive Place
  /-- No element. -/
  | none
  | pool
  | conflict (reader writer : Nat)
  | possibleUnsafe (activeXact roXact : Nat)

def Place.on : Place → Queue → Prop
  | .none, _ => False
  | .pool, q => q = .pool
  | .conflict reader writer, q => q = .outConflicts reader ∨ q = .inConflicts writer
  | .possibleUnsafe activeXact roXact, q => q = .possibleUnsafeConflicts activeXact ∨ q = .possibleUnsafeConflicts roXact

def Place.linked : Place → Prop
  | .none | .pool => False
  | _ => True

theorem Place.on_pool {p : Place} : p.on .pool ↔ p = .pool := by
  cases p with
  | pool => exact iff_of_true rfl rfl
  | none => exact iff_of_false id nofun
  | _ => exact iff_of_false (fun hon => hon.elim nofun nofun) nofun

structure Elements (s : State) (place : Nat → Place) : Prop where
  placed : Placed Place.on s.queue place
  element : ∀ {e : Nat}, e < s.conflicts → place e ≠ .none
  conflict : ∀ {e reader writer : Nat}, place e = .conflict reader writer → s.conflict e = ⟨reader, writer⟩
  possibleUnsafe : ∀ {e activeXact roXact : Nat}, place e = .possibleUnsafe activeXact roXact →
    s.conflict e = ⟨activeXact, roXact⟩

variable {s s' t : State} {place : Nat → Place} {e i b : Nat}

theorem Elements.mem (h : Elements s place) {q : Queue} : e ∈ s.queue q ↔ (place e).on q := h.placed.mem

theorem Elements.nodup (h : Elements s place) (q : Queue) : (s.queue q).Nodup := (h.placed q).1

theorem Elements.linked (h : Elements s place) {q : Queue} (hq : q ≠ .pool) (he : e ∈ s.queue q) : (place e).linked := by
  have hon := h.mem.mp he
  cases hp : place e with
  | none =>
    rw [hp] at hon
    exact hon
  | pool =>
    rw [hp] at hon
    exact hq hon
  | _ => trivial

/-- What the lists of the entries depend on. -/
def SerializableXact.queues (x : SerializableXact) : List Nat × List Nat × List Nat :=
  (x.outConflicts, x.inConflicts, x.possibleUnsafeConflicts)

/-- What a transaction's part in the books depends on, with whether it is doomed where it is rolled back. -/
def SerializableXact.status (x : SerializableXact) : Bool × Bool × Bool × Nat × Bool :=
  (x.committed, x.rolledBack, x.readOnly, x.xmin, !x.rolledBack || x.doomed)

/-- The entries up to other flags and sequence numbers. -/
structure Flags (s s' : State) : Prop where
  frame : s' = { s with sxact := s'.sxact }
  queues : ∀ k, (s'.sxact k).queues = (s.sxact k).queues
  status : ∀ k, (s'.sxact k).status = (s.sxact k).status

theorem Flags.refl (s : State) : Flags s s := ⟨rfl, fun _ => rfl, fun _ => rfl⟩

theorem Flags.set {x : SerializableXact} (hq : x.queues = (s.sxact i).queues) (hs : x.status = (s.sxact i).status) :
    Flags s (s.setSxact i x) :=
  ⟨rfl, apply_update hq, apply_update hs⟩

theorem Elements.congr (h : Elements s place) (hq : ∀ k, (s'.sxact k).queues = (s.sxact k).queues)
    (hpool : s'.pool = s.pool) (hconflict : s'.conflict = s.conflict) (hconflicts : s'.conflicts = s.conflicts) :
    Elements s' place := by
  have hqueue : s'.queue = s.queue := by
    funext q
    cases q with
    | pool => exact hpool
    | outConflicts k => exact congrArg (fun x => x.1) (hq k)
    | inConflicts k => exact congrArg (fun x => x.2.1) (hq k)
    | possibleUnsafeConflicts k => exact congrArg (fun x => x.2.2) (hq k)
  refine ⟨?_, ?_, ?_, ?_⟩
  · rw [hqueue]
    exact h.placed
  · rw [hconflicts]
    exact h.element
  · rw [hconflict]
    exact h.conflict
  · rw [hconflict]
    exact h.possibleUnsafe

theorem Elements.flags (h : Elements s place) (hf : Flags s s') : Elements s' place :=
  h.congr hf.queues (congrArg State.pool hf.frame :) (congrArg State.conflict hf.frame :) (congrArg State.conflicts hf.frame :)

/-! ### Releasing -/

theorem Elements.release (h : Elements s place) (he : (place e).linked) :
    Elements (releaseRwConflict e s) (update place e .pool) := by
  have hpool : e ∉ s.queue .pool := fun hmem => by
    rw [Place.on_pool.mp (h.mem.mp hmem)] at he
    exact he
  have hself : ∀ l : List Nat, l.Nodup → ∀ q, q ≠ Queue.pool → (e ∈ l.erase e ↔ Place.pool.on q) :=
    fun l hl q hq => iff_of_false (fun hmem => (hl.mem_erase_iff.mp hmem).1 rfl) hq
  refine ⟨h.placed.move .pool (fun q => ?_) fun q => ?_, fun {e'} he' => ?_, fun {e' r w} hp => ?_, fun {e' a r} hp => ?_⟩
  · cases q with
    | pool => exact .snoc (h.nodup .pool) hpool
    | outConflicts k => exact .erase (h.nodup (.outConflicts k))
    | inConflicts k => exact .erase (h.nodup (.inConflicts k))
    | possibleUnsafeConflicts k => exact .erase (h.nodup (.possibleUnsafeConflicts k))
  · cases q with
    | pool => exact iff_of_true (List.mem_append_right _ List.mem_cons_self) rfl
    | outConflicts k => exact hself _ (h.nodup (.outConflicts k)) _ nofun
    | inConflicts k => exact hself _ (h.nodup (.inConflicts k)) _ nofun
    | possibleUnsafeConflicts k => exact hself _ (h.nodup (.possibleUnsafeConflicts k)) _ nofun
  all_goals rcases eq_or_ne e' e with rfl | hne
  · rw [update_self]
    exact nofun
  · rw [update_of_ne hne]
    exact h.element he'
  · rw [update_self] at hp
    cases hp
  · rw [update_of_ne hne] at hp
    exact h.conflict hp
  · rw [update_self] at hp
    cases hp
  · rw [update_of_ne hne] at hp
    exact h.possibleUnsafe hp

/-- The state with some elements released and other flags. -/
structure Trims (s s' : State) : Prop where
  frame : s' = { s with sxact := s'.sxact, pool := s'.pool }
  status : ∀ k, (s'.sxact k).status = (s.sxact k).status

theorem Trims.refl (s : State) : Trims s s := ⟨rfl, fun _ => rfl⟩

theorem Trims.trans (h : Trims s s') (h' : Trims s' t) : Trims s t := by
  refine ⟨?_, fun k => (h'.status k).trans (h.status k)⟩
  rw [h'.frame, h.frame]

theorem Flags.trims (h : Flags s s') : Trims s s' := by
  refine ⟨?_, h.status⟩
  conv_lhs => rw [h.frame]
  rw [show s'.pool = s.pool from (congrArg State.pool h.frame :)]

theorem Trims.release (e : Nat) (s : State) : Trims s (releaseRwConflict e s) := ⟨rfl, fun _ => rfl⟩

theorem Trims.conflict (h : Trims s s') : s'.conflict = s.conflict := (congrArg State.conflict h.frame :)

/-- Places behind releases of elements of a list. -/
def Freed (l : List Nat) (place place' : Nat → Place) : Prop := ∀ e, place' e = place e ∨ e ∈ l ∧ place' e = .pool

/-- **A loop over linked elements.** Each round may set flags and may release its element, and does if `all` holds. -/
theorem Elements.loop {f : State → Nat → State} {l : List Nat} (h : Elements s place) (all : Prop)
    (hf : ∀ s e, ∃ t, Flags s t ∧ (f s e = releaseRwConflict e t ∨ ¬ all ∧ f s e = t)) (hl : l.Nodup)
    (hlinked : ∀ e ∈ l, (place e).linked) :
    Trims s (l.foldl f s) ∧ ∃ place', Elements (l.foldl f s) place' ∧ Freed l place place' ∧
      (all → ∀ e ∈ l, place' e = .pool) := by
  induction l generalizing s place with
  | nil => exact ⟨.refl s, place, h, fun e => .inl rfl, fun _ e he => absurd he List.not_mem_nil⟩
  | cons e l ih =>
    have hnd := List.nodup_cons.mp hl
    obtain ⟨t, ht, hround⟩ := hf s e
    obtain ⟨place₁, h₁, htrims, hrest, hfreed₁, hall₁⟩ : ∃ place₁, Elements (f s e) place₁ ∧ Trims s (f s e) ∧
        (∀ e' ∈ l, place₁ e' = place e') ∧ Freed (e :: l) place place₁ ∧ (all → place₁ e = .pool) := by
      rcases hround with heq | ⟨hall, heq⟩
      · refine ⟨update place e .pool, ?_, ?_, fun e' he' => ?_, fun e' => ?_, fun _ => update_self ..⟩
        · rw [heq]
          exact (h.flags ht).release (hlinked e List.mem_cons_self)
        · rw [heq]
          exact ht.trims.trans (.release e t)
        · exact update_of_ne (fun heq => hnd.1 (by rwa [heq] at he')) ..
        · rcases eq_or_ne e' e with rfl | hne
          · exact .inr ⟨List.mem_cons_self, update_self ..⟩
          · exact .inl (update_of_ne hne ..)
      · refine ⟨place, ?_, ?_, fun e' he' => rfl, fun e' => .inl rfl, fun h => absurd h hall⟩
        · rw [heq]
          exact h.flags ht
        · rw [heq]
          exact ht.trims
    obtain ⟨htrims₂, place₂, h₂, hfreed₂, hall₂⟩ := ih h₁ hnd.2 fun e' he' => by
      rw [hrest e' he']
      exact hlinked e' (List.mem_cons_of_mem _ he')
    refine ⟨htrims.trans htrims₂, place₂, h₂, fun e' => ?_, fun h e' he' => ?_⟩
    · rcases hfreed₂ e' with heq | ⟨he', heq⟩
      · rw [heq]
        exact hfreed₁ e'
      · exact .inr ⟨List.mem_cons_of_mem _ he', heq⟩
    · rcases List.mem_cons.mp he' with rfl | he'
      · rcases hfreed₂ e' with heq | ⟨-, heq⟩
        · rw [heq]
          exact hall₁ h
        · exact heq
      · exact hall₂ h e' he'

end PgStorage.Predicate
