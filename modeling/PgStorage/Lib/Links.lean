import Mathlib

/-! Singly linked chains in an array of links.

`Path next o l c` says that the links run from `o` through the nodes of `l` to `c`. A chain runs
to `none`, so a node is in it only once. A chain changes in four ways: a node is put in front,
taken from the front, linked behind a last node, or taken out behind another one. -/
namespace PgStorage.Links
open Function List
variable {ι : Type} {next next' : ι → Option ι} {o c d : Option ι} {l m : List ι} {x p : ι}

def Path (next : ι → Option ι) : Option ι → List ι → Option ι → Prop
  | o, [], c => o = c
  | o, x :: l, c => o = some x ∧ Path next (next x) l c

/-- The chain that starts at `o` is `l`. -/
def Linked (next : ι → Option ι) (o : Option ι) (l : List ι) : Prop := Path next o l none

theorem path_append : Path next o (l ++ m) c ↔ ∃ d, Path next o l d ∧ Path next d m c := by
  induction l generalizing o with
  | nil => simp only [nil_append, Path, exists_eq_left']
  | cons x l ih => simp only [cons_append, Path, ih, and_assoc, exists_and_left]

/-- Links elsewhere may change. -/
theorem path_congr (hn : ∀ y ∈ l, next' y = next y) (h : Path next o l c) : Path next' o l c := by
  induction l generalizing o with
  | nil => exact h
  | cons x l ih =>
    refine ⟨h.1, ih (fun y hy => hn y (mem_cons_of_mem x hy)) ?_⟩
    rw [hn x mem_cons_self]
    exact h.2

/-- Links lead to one place. -/
theorem path_end (h : Path next o l c) (h' : Path next o l d) : c = d := by
  induction l generalizing o with
  | nil => exact h.symm.trans h'
  | cons x l ih => exact ih h.2 h'.2

theorem linked_none : Linked next none l ↔ l = [] := by
  cases l with
  | nil => exact ⟨fun _ => rfl, fun _ => rfl⟩
  | cons x l => exact ⟨fun h => absurd h.1 nofun, nofun⟩

theorem linked_some (h : Linked next (some x) l) : ∃ m, l = x :: m ∧ Linked next (next x) m := by
  cases l with
  | nil => cases h
  | cons y m =>
    cases h.1
    exact ⟨m, rfl, h.2⟩

theorem linked_unique (h : Linked next o l) (h' : Linked next o m) : l = m := by
  induction l generalizing o m with
  | nil =>
    cases h
    exact (linked_none.mp h').symm
  | cons x l ih =>
    cases h.1
    obtain ⟨k, rfl, hk⟩ := linked_some h'
    rw [ih h.2 hk]

/-- A node that came twice would start two chains of different lengths. -/
theorem linked_nodup (h : Linked next o l) : l.Nodup := by
  induction l generalizing o with
  | nil => exact nodup_nil
  | cons x l ih =>
    refine nodup_cons.mpr ⟨fun hm => ?_, ih h.2⟩
    obtain ⟨s, t, rfl⟩ := append_of_mem hm
    obtain ⟨d, -, ht⟩ := path_append.mp h.2
    have hlen := congrArg length (linked_unique h.2 ht.2)
    simp only [length_append, length_cons] at hlen
    omega

variable [DecidableEq ι]

theorem linked_push (h : Linked next o l) (hx : x ∉ l) : Linked (update next x o) (some x) (x :: l) := by
  refine ⟨rfl, ?_⟩
  rw [update_self]
  exact path_congr (fun y hy => update_of_ne (fun e => hx (by rwa [← e])) ..) h

/-- The rest of a chain after its first node, whose link may change. -/
theorem linked_rest {v : Option ι} (h : Linked next o (x :: l)) : Linked (update next x v) (next x) l := by
  have hx : x ∉ l := (nodup_cons.mp (linked_nodup h)).1
  exact path_congr (fun y hy => update_of_ne (fun e => hx (by rwa [← e])) ..) h.2

theorem path_bend (hnd : (l ++ [p]).Nodup) (h : Path next o (l ++ [p]) c) :
    Path (update next p d) o (l ++ [p]) d := by
  obtain ⟨e, hl, hp⟩ := path_append.mp h
  have hpl : p ∉ l := fun hm => (nodup_append.mp hnd).2.2 p hm p mem_cons_self rfl
  refine path_append.mpr ⟨e, path_congr (fun y hy => update_of_ne (fun he => hpl (by rwa [← he])) ..) hl,
    hp.1, ?_⟩
  exact update_self ..

/-- A node is linked behind the last one. -/
theorem linked_snoc (h : Linked next o (l ++ [p])) (hx : x ∉ l ++ [p]) :
    Linked (update (update next x none) p (some x)) o (l ++ [p, x]) := by
  have hxp : x ≠ p := fun e => hx (mem_append_right l (by rw [e]; exact mem_cons_self))
  rw [show l ++ [p, x] = (l ++ [p]) ++ [x] by simp]
  refine path_append.mpr ⟨some x, path_bend (c := none) (linked_nodup h) ?_, rfl, ?_⟩
  · exact path_congr (fun y hy => update_of_ne (fun e => hx (by rwa [← e])) ..) h
  · rw [update_of_ne hxp, update_self]
    rfl

/-- A node behind another one is taken out; its own link may change. -/
theorem linked_unlink {v : Option ι} (h : Linked next o (l ++ p :: x :: m)) :
    Linked (update (update next p (next x)) x v) o (l ++ p :: m) := by
  have hnd := linked_nodup h
  rw [show l ++ p :: x :: m = (l ++ [p]) ++ x :: m by simp] at h hnd
  rw [show l ++ p :: m = (l ++ [p]) ++ m by simp]
  obtain ⟨e, hl, hx⟩ := path_append.mp h
  have hdis {y : ι} (hy : y ∈ l ++ [p]) (hy' : y ∈ x :: m) : False := (nodup_append.mp hnd).2.2 y hy y hy' rfl
  have hxm : x ∉ m := (nodup_cons.mp (nodup_append.mp hnd).2.1).1
  refine path_append.mpr ⟨next x, ?_, ?_⟩
  · refine path_congr (fun y hy => update_of_ne (fun e => hdis hy (by rw [e]; exact mem_cons_self)) ..) ?_
    exact path_bend (nodup_append.mp hnd).1 hl
  · refine path_congr (fun y hy => ?_) hx.2
    rw [update_of_ne fun e => hxm (by rwa [← e]), update_of_ne fun e =>
      hdis (y := p) (mem_append_right l mem_cons_self) (mem_cons_of_mem x (by rwa [← e]))]

end PgStorage.Links
