import Mathlib

/-! Things that are on lists, by the place of each.

A family of lists is accounted for when no list has anything twice and every thing is on exactly the lists that belong
to its place. Moving one thing from one place to another changes the lists in that thing only. -/
namespace PgStorage.Places
variable {ι κ P : Type} {on : P → κ → Prop} {lists lists' : κ → List ι} {place : ι → P} {x : ι} {l : List ι}

/-- Every thing is on the lists of its place, once. -/
def Placed (on : P → κ → Prop) (lists : κ → List ι) (place : ι → P) : Prop :=
  ∀ k, (lists k).Nodup ∧ ∀ x, x ∈ lists k ↔ on (place x) k

/-- Two lists that tell everything but `x` alike, the new one without repetition. -/
def Differs (x : ι) (l l' : List ι) : Prop := l'.Nodup ∧ ∀ y, y ≠ x → (y ∈ l' ↔ y ∈ l)

theorem Differs.same (h : l.Nodup) : Differs x l l := ⟨h, fun _ _ => Iff.rfl⟩

theorem Differs.snoc (h : l.Nodup) (hx : x ∉ l) : Differs x l (l ++ [x]) := by
  refine ⟨List.nodup_append.mpr ⟨h, List.pairwise_singleton _ x, fun a ha b hb => ?_⟩, fun y hy => ?_⟩
  · rintro rfl
    rw [List.mem_singleton.mp hb] at ha
    exact hx ha
  · rw [List.mem_append, List.mem_singleton]
    exact or_iff_left hy

theorem Differs.cons (h : l.Nodup) (hx : x ∉ l) : Differs x l (x :: l) :=
  ⟨List.nodup_cons.mpr ⟨hx, h⟩, fun _ hy => List.mem_cons.trans (or_iff_right hy)⟩

theorem Differs.tail (h : (x :: l).Nodup) : Differs x (x :: l) l :=
  ⟨(List.nodup_cons.mp h).2, fun _ hy => (List.mem_cons.trans (or_iff_right hy)).symm⟩

theorem Placed.mem (h : Placed on lists place) {k : κ} : x ∈ lists k ↔ on (place x) k := (h k).2 x

variable [DecidableEq ι]

theorem Differs.erase (h : l.Nodup) : Differs x l (l.erase x) :=
  ⟨h.erase x, fun _ hy => List.mem_erase_of_ne hy⟩

/-- **Moving one thing keeps the rest in its places.** -/
theorem Placed.move (h : Placed on lists place) (p : P) (hother : ∀ k, Differs x (lists k) (lists' k))
    (hself : ∀ k, x ∈ lists' k ↔ on p k) : Placed on lists' (Function.update place x p) := by
  refine fun k => ⟨(hother k).1, fun y => ?_⟩
  rcases eq_or_ne y x with rfl | hy
  · rw [Function.update_self]
    exact hself k
  · rw [Function.update_of_ne hy, (hother k).2 y hy]
    exact (h k).2 y

end PgStorage.Places
