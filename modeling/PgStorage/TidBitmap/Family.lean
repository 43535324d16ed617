import PgStorage.TidBitmap.Intersect
import PgStorage.TidBitmap.Iterate

/-! A family of bitmaps under any sequence of operations.

`run` is the bitmaps' own run and `runSets` that of the sets they stand for, the exact one and that of all tuples added
to an operand. -/
namespace PgStorage.TidBitmap
open Function

inductive Action
  | addTuples (i : Nat) (tids : List (ItemPointerData × List Nat))
  | union (i j : Nat) (order : List (Nat × List Nat))
  | intersect (i j : Nat) (order : List Nat)

/-- The bitmap that is changed is not the other operand. -/
def step (maps : Nat → TIDBitmap) : Action → Option (Nat → TIDBitmap)
  | .addTuples i tids => (tbmAddTuples (maps i) tids).map (Function.update maps i)
  | .union i j order => if i = j then none else (tbmUnion (maps i) (maps j) order).map (Function.update maps i)
  | .intersect i j order => if i = j then none else (tbmIntersect (maps i) (maps j) order).map (Function.update maps i)

def run (maps : Nat → TIDBitmap) (actions : List Action) : Option (Nat → TIDBitmap) := actions.foldlM step maps

structure Sets where
  exact : Tuples
  added : Tuples

def tuplesOf (tids : List (ItemPointerData × List Nat)) : Tuples := {x | ∃ r ∈ tids, x = (r.1.block, r.1.offset)}

def stepSets (sets : Nat → Sets) : Action → Nat → Sets
  | .addTuples i tids => Function.update sets i ⟨(sets i).exact ∪ tuplesOf tids, (sets i).added ∪ tuplesOf tids⟩
  | .union i j _ => Function.update sets i ⟨(sets i).exact ∪ (sets j).exact, (sets i).added ∪ (sets j).added⟩
  | .intersect i j _ => Function.update sets i ⟨(sets i).exact ∩ (sets j).exact, (sets i).added ∪ (sets j).added⟩

def runSets (actions : List Action) : Nat → Sets := actions.foldl stepSets fun _ => ⟨∅, ∅⟩

/-- Every bitmap stands for its sets and is within its limit. -/
def Represents (maps : Nat → TIDBitmap) (sets : Nat → Sets) : Prop :=
  ∀ i, Inv (maps i) (sets i).exact (sets i).added ∧ Fits (maps i)

variable {maps maps' : Nat → TIDBitmap} {sets : Nat → Sets} {a t : TIDBitmap} {S A : Tuples} {i j : Nat}

theorem Represents.update (h : Represents maps sets) (ht : Inv t S A ∧ Fits t) :
    Represents (update maps i t) (update sets i ⟨S, A⟩) := by
  intro k
  by_cases hk : k = i
  · subst hk
    rw [update_self, update_self]
    exact ht
  · rw [update_of_ne hk, update_of_ne hk]
    exact h k

theorem Represents.step {action : Action} (h : Represents maps sets) (heq : step maps action = some maps') :
    Represents maps' (stepSets sets action) := by
  cases action with
  | addTuples i tids =>
    obtain ⟨t, ht, rfl⟩ := Option.map_eq_some_iff.mp heq
    exact h.update (addTuples_spec (h i).1 (h i).2 ht)
  | union i j order =>
    obtain ⟨-, heq⟩ := Option.ite_none_left_eq_some.mp heq
    obtain ⟨t, ht, rfl⟩ := Option.map_eq_some_iff.mp heq
    exact h.update (union_spec (h i).1 (h i).2 (h j).1 ht)
  | intersect i j order =>
    obtain ⟨-, heq⟩ := Option.ite_none_left_eq_some.mp heq
    obtain ⟨t, ht, rfl⟩ := Option.map_eq_some_iff.mp heq
    exact h.update (intersect_spec (h i).1 (h i).2 (h j).1 ht)

theorem Represents.run {actions : List Action} (h : Represents maps sets) (heq : run maps actions = some maps') :
    Represents maps' (actions.foldl stepSets sets) := by
  induction actions generalizing maps sets with
  | nil =>
    cases heq
    exact h
  | cons action actions ih =>
    rw [TidBitmap.run, List.foldlM_cons] at heq
    obtain ⟨maps₁, h₁, heq⟩ := Option.bind_eq_some_iff.mp heq
    exact ih (h.step h₁) heq

/-- The counts are the actual numbers, and no page is stored both exactly and in a chunk. -/
structure Consistent (t : TIDBitmap) : Prop where
  total : t.nentries = t.npages + t.nchunks
  entries : t.nentries = t.table.rows.length
  pages : t.npages = t.table.count fun e => !e.ischunk
  chunks : t.nchunks = t.table.count fun e => e.ischunk
  apart : ∀ p e, Lossy t.table p → ¬ Exact t.table p e

theorem Inv.consistent (h : Inv t S A) : Consistent t :=
  ⟨h.counted.entries, h.counted.total, h.counted.pages, h.counted.chunks, fun _ _ => h.wf.apart⟩

/-- Two bitmaps filled, united and intersected. -/
def twoBitmaps : List Action :=
  [.addTuples 0 [(⟨5, 3, by decide⟩, [])], .addTuples 1 [(⟨5, 3, by decide⟩, []), (⟨6, 1, by decide⟩, [])],
    .union 0 1 [(6, []), (5, [])], .intersect 1 0 [5, 6]]

end PgStorage.TidBitmap
