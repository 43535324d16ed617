import Mathlib

/-! Depth-first search for a cycle through a node.

A graph is given by the edges of each node, in the order in which they are tried, and the node to which each edge
leads. The search keeps one list of visited nodes, whose first one is the node it started from: coming back to that
node it has found a cycle, coming to any other visited node it gives up. A search that fails has closed its list under
all edges, and none of them leads to the start. -/
namespace PgStorage.CycleSearch
open List
open Relation (ReflTransGen)

section
variable {N E : Type}

/-- Goes along the edges, one after the other, until the search `go` comes back from one. -/
def searchEdges (go : N → List N → Option (List E) × List N) (dst : E → N) :
    List E → List N → Option (List E) × List N
  | [], visited => (none, visited)
  | e :: es, visited =>
    match go (dst e) visited with
    | (some path, visited) => (some (e :: path), visited)
    | (none, visited) => searchEdges go dst es visited

/-- The edges from a node back to the first one that has been visited, and the nodes visited. -/
def search [DecidableEq N] (edges : N → List E) (dst : E → N) : Nat → N → List N → Option (List E) × List N
  | 0, _, visited => (none, visited)
  | fuel + 1, x, visited =>
    if x ∈ visited then (if visited.head? = some x then some [] else none, visited)
    else searchEdges (search edges dst fuel) dst (edges x) (visited ++ [x])

theorem searchEdges_append (go : N → List N → Option (List E) × List N) (dst : E → N) (es es' : List E)
    (visited : List N) : searchEdges go dst (es ++ es') visited =
      match searchEdges go dst es visited with
      | (some path, visited) => (some path, visited)
      | (none, visited) => searchEdges go dst es' visited := by
  induction es generalizing visited with
  | nil => rfl
  | cons e es ih =>
    rw [cons_append, searchEdges, searchEdges]
    split
    · rfl
    · exact ih _

inductive Walk (step : N → E → Prop) (dst : E → N) : N → List E → N → Prop
  | nil {x : N} : Walk step dst x [] x
  | cons {x y : N} {e : E} {path : List E} : step x e → Walk step dst (dst e) path y → Walk step dst x (e :: path) y

/-- The nodes that the edges of a walk leave. -/
def sources (dst : E → N) : N → List E → List N
  | _, [] => []
  | x, e :: path => x :: sources dst (dst e) path

/-- The edge is the first one of its node that leads to where it leads. -/
def First (edges : N → List E) (dst : E → N) (x : N) (e : E) : Prop :=
  ∃ before behind, edges x = before ++ e :: behind ∧ ∀ e' ∈ before, dst e' ≠ dst e

variable {edges : N → List E} {dst : E → N} {step step' : N → E → Prop} {s x y : N} {path : List E}

theorem First.mem {e : E} (h : First edges dst x e) : e ∈ edges x := by
  obtain ⟨before, behind, hedges, -⟩ := h
  rw [hedges]
  exact mem_append_right _ mem_cons_self

theorem Walk.mono (h : Walk step dst x path y) (himp : ∀ x e, step x e → step' x e) : Walk step' dst x path y := by
  induction h with
  | nil => exact .nil
  | cons hstep _ ih => exact .cons (himp _ _ hstep) ih

theorem Walk.mem (h : Walk step dst x path y) {e : E} (he : e ∈ path) : ∃ z, step z e := by
  induction h with
  | nil => cases he
  | cons hstep _ ih =>
    rcases mem_cons.mp he with rfl | he
    · exact ⟨_, hstep⟩
    · exact ih he

theorem Walk.reaches {R : N → N → Prop} (h : Walk step dst x path y) (himp : ∀ z e, step z e → R z (dst e)) {e : E}
    (he : e ∈ path) : ∃ z, step z e ∧ ReflTransGen R x z := by
  induction h with
  | nil => cases he
  | cons hstep _ ih =>
    rcases mem_cons.mp he with rfl | he
    · exact ⟨_, hstep, .refl⟩
    · obtain ⟨z, hz, hreach⟩ := ih he
      exact ⟨z, hz, .head (himp _ _ hstep) hreach⟩

/-- A walk whose edges are in some relation. -/
theorem Walk.transGen {R : N → N → Prop} (h : Walk step dst x path y) (hne : path ≠ [])
    (himp : ∀ z, ∀ e ∈ path, step z e → R z (dst e)) : Relation.TransGen R x y := by
  induction h with
  | nil => exact absurd rfl hne
  | @cons x y e path hstep hrest ih =>
    have hfirst := himp x e mem_cons_self hstep
    by_cases hnil : path = []
    · subst hnil
      cases hrest
      exact .single hfirst
    · exact .head hfirst (ih hnil fun z e' he' => himp z e' (mem_cons_of_mem e he'))

/-- One edge leads from one node to the other. -/
def Leads (edges : N → List E) (dst : E → N) (x y : N) : Prop := ∃ e ∈ edges x, dst e = y

theorem walk_iff : (∃ path, path ≠ [] ∧ Walk (fun x e => e ∈ edges x) dst x path y) ↔
    Relation.TransGen (Leads edges dst) x y := by
  constructor
  · rintro ⟨path, hne, h⟩
    exact h.transGen hne fun z e _ he => ⟨e, he, rfl⟩
  · intro h
    induction h using Relation.TransGen.head_induction_on with
    | single h =>
      obtain ⟨e, he, rfl⟩ := h
      exact ⟨[e], cons_ne_nil _ _, .cons he .nil⟩
    | head h _ ih =>
      obtain ⟨e, he, rfl⟩ := h
      obtain ⟨path, -, hwalk⟩ := ih
      exact ⟨e :: path, cons_ne_nil _ _, .cons he hwalk⟩

/-! ### A search that fails -/

/-- The nodes visited by a search that fails: their edges lead to visited nodes, and not to the start. -/
structure Failed (edges : N → List E) (dst : E → N) (s : N) (visited visited' : List N) : Prop where
  starts : visited <+: visited'
  nodup : visited'.Nodup
  closed : ∀ y ∈ visited', y ∉ visited → ∀ e ∈ edges y, dst e ∈ visited' ∧ dst e ≠ s

variable {visited : List N} {go : N → List N → Option (List E) × List N}

theorem Failed.refl (h : visited.Nodup) : Failed edges dst s visited visited :=
  ⟨prefix_rfl, h, fun _ hy hn => absurd hy hn⟩

theorem Failed.trans {v1 v2 v3 : List N} (h : Failed edges dst s v1 v2) (h' : Failed edges dst s v2 v3) :
    Failed edges dst s v1 v3 := by
  refine ⟨h.starts.trans h'.starts, h'.nodup, fun y hy hn e he => ?_⟩
  by_cases hmid : y ∈ v2
  · obtain ⟨hin, hne⟩ := h.closed y hmid hn e he
    exact ⟨h'.starts.subset hin, hne⟩
  · exact h'.closed y hy hmid e he

theorem head_of_starts {v v' : List N} (h : v <+: v') (hs : v.head? = some s) : v'.head? = some s := by
  obtain ⟨rest, rfl⟩ := h
  cases v with
  | nil => exact nomatch hs
  | cons a v => exact hs

/-- What `go` says of a node it fails to come back from. -/
def FailsAt (edges : N → List E) (dst : E → N) (s : N) (go : N → List N → Option (List E) × List N) (size : Nat)
    : Prop :=
  ∀ x visited visited', visited.head? = some s → visited.Nodup → size ≤ visited.length →
    go x visited = (none, visited') → Failed edges dst s visited visited' ∧ x ∈ visited' ∧ x ≠ s

theorem searchEdges_none {size : Nat} (hgo : FailsAt edges dst s go size)
    (es : List E) {visited' : List N} (hhead : visited.head? = some s) (hnd : visited.Nodup)
    (hsize : size ≤ visited.length) (h : searchEdges go dst es visited = (none, visited')) :
    Failed edges dst s visited visited' ∧ ∀ e ∈ es, dst e ∈ visited' ∧ dst e ≠ s := by
  induction es generalizing visited with
  | nil =>
    cases h
    exact ⟨.refl hnd, nofun⟩
  | cons e es ih =>
    rw [searchEdges] at h
    split at h
    · exact nomatch h
    · next v hv =>
      obtain ⟨hfail, hin, hne⟩ := hgo _ _ _ hhead hnd hsize hv
      obtain ⟨hfail', hrest⟩ := ih (head_of_starts hfail.starts hhead) hfail.nodup
        (le_trans hsize hfail.starts.length_le) h
      refine ⟨hfail.trans hfail', fun e' he => ?_⟩
      rcases mem_cons.mp he with rfl | he
      · exact ⟨hfail'.starts.subset hin, hne⟩
      · exact hrest e' he

theorem nodup_snoc (hnd : visited.Nodup) (hx : x ∉ visited) : (visited ++ [x]).Nodup := by
  rw [nodup_append]
  exact ⟨hnd, nodup_singleton x, fun a ha b hb hab => hx (by rwa [← mem_singleton.mp hb, ← hab])⟩

variable [DecidableEq N] [Fintype N]

theorem search_none (fuel : Nat) : FailsAt edges dst s (search edges dst fuel) (Fintype.card N + 1 - fuel) := by
  induction fuel with
  | zero =>
    intro x visited visited' hhead hnd hsize h
    have := hnd.length_le_card
    omega
  | succ fuel ih =>
    intro x visited visited' hhead hnd hsize h
    rw [search] at h
    split at h
    · next hx =>
      obtain ⟨hne, rfl⟩ := Prod.mk.inj h
      refine ⟨.refl hnd, hx, fun hs => ?_⟩
      rw [if_pos (by rw [hhead, hs])] at hne
      exact nomatch hne
    · next hx =>
      have hhead' : (visited ++ [x]).head? = some s := head_of_starts (prefix_append ..) hhead
      obtain ⟨hfail, hedges⟩ := searchEdges_none ih (edges x) hhead' (nodup_snoc hnd hx) (by
        rw [length_append, length_singleton]
        omega) h
      have hin : x ∈ visited' := hfail.starts.subset (mem_append_right _ mem_cons_self)
      refine ⟨⟨(prefix_append ..).trans hfail.starts, hfail.nodup, fun y hy hn e he => ?_⟩, hin, fun hs => ?_⟩
      · by_cases hyx : y = x
        · subst hyx
          exact hedges e he
        · exact hfail.closed y hy (fun hm => by
            rcases mem_append.mp hm with hm | hm
            · exact hn hm
            · exact hyx (mem_singleton.mp hm)) e he
      · exact hx (by rw [hs]; exact mem_of_mem_head? hhead)

/-- A walk back to the start, over nodes that had not been visited. -/
structure Came (edges : N → List E) (dst : E → N) (s x : N) (path : List E) (visited visited' : List N) : Prop where
  walk : Walk (First edges dst) dst x path s
  starts : visited <+: visited'
  nodup : visited'.Nodup
  once : (sources dst x path).Nodup
  fresh : ∀ y ∈ sources dst x path, y ∉ visited ∧ y ∈ visited'
  back : x ∈ visited → x = s

omit [DecidableEq N] [Fintype N] in
theorem searchEdges_some {size : Nat} (hfails : FailsAt edges dst s go size)
    (hcomes : ∀ x visited path visited', visited.head? = some s → visited.Nodup → size ≤ visited.length →
      go x visited = (some path, visited') → Came edges dst s x path visited visited')
    (es : List E) {visited' : List N} (hhead : visited.head? = some s) (hnd : visited.Nodup)
    (hsize : size ≤ visited.length) (h : searchEdges go dst es visited = (some path, visited')) :
    ∃ before e behind rest, path = e :: rest ∧ es = before ++ e :: behind ∧ (∀ e' ∈ before, dst e' ≠ dst e) ∧
      Came edges dst s (dst e) rest visited visited' := by
  induction es generalizing visited with
  | nil => exact nomatch h
  | cons e es ih =>
    rw [searchEdges] at h
    split at h
    · next rest v hv =>
      obtain ⟨hpath, rfl⟩ := Prod.mk.inj h
      cases hpath
      exact ⟨[], e, es, rest, rfl, rfl, nofun, hcomes _ _ _ _ hhead hnd hsize hv⟩
    · next v hv =>
      obtain ⟨hfail, hin, hne⟩ := hfails _ _ _ hhead hnd hsize hv
      obtain ⟨before, e', behind, rest, hpath, hes, hfirst, hcame⟩ := ih (head_of_starts hfail.starts hhead) hfail.nodup
        (le_trans hsize hfail.starts.length_le) h
      refine ⟨e :: before, e', behind, rest, hpath, by rw [hes]; rfl, fun x hx => ?_,
        ⟨hcame.walk, hfail.starts.trans hcame.starts, hcame.nodup, hcame.once, fun y hy => ?_, fun hx => ?_⟩⟩
      · rcases mem_cons.mp hx with rfl | hx
        · -- the node of an edge that failed is visited and is not the start
          intro heq
          exact hne (heq ▸ hcame.back (heq ▸ hin))
        · exact hfirst x hx
      · obtain ⟨hout, hv'⟩ := hcame.fresh y hy
        exact ⟨fun hy' => hout (hfail.starts.subset hy'), hv'⟩
      · exact hcame.back (hfail.starts.subset hx)

theorem search_some (fuel : Nat) (x : N) (visited : List N) (path : List E) (visited' : List N)
    (hhead : visited.head? = some s) (hnd : visited.Nodup) (hsize : Fintype.card N + 1 - fuel ≤ visited.length)
    (h : search edges dst fuel x visited = (some path, visited')) : Came edges dst s x path visited visited' := by
  induction fuel generalizing x visited path visited' with
  | zero => exact nomatch h
  | succ fuel ih =>
    rw [search] at h
    split at h
    · next hx =>
      split at h
      · next hs =>
        obtain ⟨hpath, rfl⟩ := Prod.mk.inj h
        cases hpath
        have hxs : x = s := Option.some.inj (hs.symm.trans hhead)
        subst hxs
        exact ⟨.nil, prefix_rfl, hnd, nodup_nil, nofun, fun _ => rfl⟩
      · exact nomatch h
    · next hx =>
      obtain ⟨before, e, behind, rest, rfl, hes, hfirst, hcame⟩ := searchEdges_some (search_none fuel) ih (edges x)
        (head_of_starts (prefix_append ..) hhead) (nodup_snoc hnd hx) (by
          rw [length_append, length_singleton]
          omega) h
      have hin : x ∈ visited ++ [x] := mem_append_right _ mem_cons_self
      refine ⟨.cons ⟨before, behind, hes, hfirst⟩ hcame.walk, (prefix_append ..).trans hcame.starts, hcame.nodup,
        nodup_cons.mpr ⟨fun hm => (hcame.fresh x hm).1 hin, hcame.once⟩, fun y hy => ?_, fun hc => absurd hc hx⟩
      rcases mem_cons.mp hy with rfl | hy
      · exact ⟨hx, hcame.starts.subset hin⟩
      · obtain ⟨hout, hv⟩ := hcame.fresh y hy
        exact ⟨fun hm => hout (mem_append_left _ hm), hv⟩

/-- A cycle through a node, if there is one, and the nodes visited. -/
def findCycle (edges : N → List E) (dst : E → N) (s : N) : Option (List E) × List N :=
  search edges dst (Fintype.card N + 1) s []

theorem findCycle_eq : findCycle edges dst s =
    searchEdges (search edges dst (Fintype.card N)) dst (edges s) [s] := by
  rw [findCycle, search, if_neg not_mem_nil]
  rfl

/-- **A cycle that is found** leads from the start back to it, leaves no node twice, and takes the first edge from
each node to the next one. -/
theorem findCycle_some (h : findCycle edges dst s = (some path, visited)) :
    path ≠ [] ∧ Walk (First edges dst) dst s path s ∧ (sources dst s path).Nodup := by
  rw [findCycle_eq] at h
  obtain ⟨before, e, behind, rest, rfl, hes, hfirst, hcame⟩ := searchEdges_some (search_none _) (search_some _)
    (edges s)
    rfl (nodup_singleton s) (by rw [length_singleton]; omega) h
  exact ⟨cons_ne_nil _ _, .cons ⟨before, behind, hes, hfirst⟩ hcame.walk,
    nodup_cons.mpr ⟨fun hm => (hcame.fresh s hm).1 mem_cons_self, hcame.once⟩⟩

/-- A search that finds no cycle visits what can be reached. -/
theorem findCycle_closed (h : findCycle edges dst s = (none, visited)) :
    s ∈ visited ∧ ∀ y ∈ visited, ∀ e ∈ edges y, dst e ∈ visited ∧ dst e ≠ s := by
  rw [findCycle_eq] at h
  obtain ⟨hfail, hedges⟩ := searchEdges_none (search_none _) (edges s) rfl (nodup_singleton s)
    (by rw [length_singleton]; omega) h
  refine ⟨hfail.starts.subset mem_cons_self, fun y hy e he => ?_⟩
  by_cases hys : y = s
  · subst hys
    exact hedges e he
  · exact hfail.closed y hy (fun hm => hys (mem_singleton.mp hm)) e he

/-- **A search finds a cycle through the start exactly when there is one.** -/
theorem findCycle_isSome : (findCycle edges dst s).1.isSome ↔ Relation.TransGen (Leads edges dst) s s := by
  generalize hr : findCycle edges dst s = r
  obtain ⟨result, visited⟩ := r
  cases result with
  | some path =>
    obtain ⟨hne, hwalk, -⟩ := findCycle_some hr
    exact ⟨fun _ => walk_iff.mp ⟨path, hne, hwalk.mono fun _ _ hfirst => hfirst.mem⟩, fun _ => rfl⟩
  | none =>
    obtain ⟨hs, hclosed⟩ := findCycle_closed hr
    refine ⟨nofun, fun hcycle => ?_⟩
    have hall {y : N} (h : Relation.TransGen (Leads edges dst) s y) : y ∈ visited ∧ y ≠ s := by
      induction h with
      | single h =>
        obtain ⟨e, he, rfl⟩ := h
        exact hclosed s hs e he
      | tail _ h ih =>
        obtain ⟨e, he, rfl⟩ := h
        exact hclosed _ ih.1 e he
    exact absurd rfl (hall hcycle).2

omit [DecidableEq N] [Fintype N] in
theorem searchEdges_visited
    (hgo : ∀ x visited, ∀ y ∈ (go x visited).2, y ∈ visited ∨ ReflTransGen (Leads edges dst) x y)
    (es : List E) (visited : List N) (hy : y ∈ (searchEdges go dst es visited).2) :
    y ∈ visited ∨ ∃ e ∈ es, ReflTransGen (Leads edges dst) (dst e) y := by
  induction es generalizing visited with
  | nil => exact .inl hy
  | cons e es ih =>
    have hfirst := hgo (dst e) visited
    rw [searchEdges] at hy
    split at hy
    · next path v hv =>
      rw [hv] at hfirst
      exact (hfirst y hy).imp_right fun h => ⟨e, mem_cons_self, h⟩
    · next v hv =>
      rw [hv] at hfirst
      rcases ih v hy with hin | ⟨e', he', h⟩
      · exact (hfirst y hin).imp_right fun h => ⟨e, mem_cons_self, h⟩
      · exact .inr ⟨e', mem_cons_of_mem e he', h⟩

omit [Fintype N] in
theorem search_visited (fuel : Nat) (x : N) (visited : List N) :
    ∀ y ∈ (search edges dst fuel x visited).2, y ∈ visited ∨ ReflTransGen (Leads edges dst) x y := by
  induction fuel generalizing x visited with
  | zero => exact fun y hy => .inl hy
  | succ fuel ih =>
    intro y hy
    rw [search] at hy
    split at hy
    · exact .inl hy
    · rcases searchEdges_visited ih (edges x) _ hy with hin | ⟨e, he, h⟩
      · rcases mem_append.mp hin with hin | hin
        · exact .inl hin
        · rw [mem_singleton.mp hin]
          exact .inr .refl
      · exact .inr (.head ⟨e, he, rfl⟩ h)

/-- The nodes visited are different ones, and can be reached. -/
theorem findCycle_visited (edges : N → List E) (dst : E → N) (s : N) : (findCycle edges dst s).2.Nodup ∧
    ∀ y ∈ (findCycle edges dst s).2, ReflTransGen (Leads edges dst) s y := by
  refine ⟨?_, fun y hy => (search_visited _ s [] y hy).resolve_left not_mem_nil⟩
  have hsize : Fintype.card N + 1 - Fintype.card N ≤ [s].length := by
    rw [length_singleton]
    omega
  rw [findCycle_eq]
  generalize hr : searchEdges (search edges dst (Fintype.card N)) dst (edges s) [s] = r
  obtain ⟨result, visited⟩ := r
  cases result with
  | none => exact (searchEdges_none (search_none _) (edges s) rfl (nodup_singleton s) hsize hr).1.nodup
  | some path =>
    obtain ⟨_, _, _, _, -, -, -, hcame⟩ := searchEdges_some (search_none _) (search_some _) (edges s) rfl
      (nodup_singleton s) hsize hr
    exact hcame.nodup

end

end PgStorage.CycleSearch
