import PgStorage.Predicate.Queues

/-! Conflicts as transactions come and go.

Releasing what belongs to the end of a transaction leaves no element that would keep a read-only transaction waiting for
it, or that would keep it waiting. -/
namespace PgStorage.Predicate
open Places Locks
open Function List

variable {s s' t : State} {place place' : Nat → Place} {e i b : Nat} {l : List Nat}

/-- Fewer elements in use, and else flags. -/
structure Shrinks (s : State) (place : Nat → Place) (s' : State) (place' : Nat → Place) : Prop where
  trims : Trims s s'
  elements : Elements s' place'
  freed : ∀ e, place' e = place e ∨ place' e = .pool

theorem Shrinks.trans {place'' : Nat → Place} (h : Shrinks s place s' place') (h' : Shrinks s' place' t place'') :
    Shrinks s place t place'' := by
  refine ⟨h.trims.trans h'.trims, h'.elements, fun e => ?_⟩
  rcases h'.freed e with heq | heq
  · rw [heq]
    exact h.freed e
  · exact .inr heq

theorem Elements.shrinks (h : Elements s place) : Shrinks s place s place := ⟨.refl s, h, fun _ => .inl rfl⟩

theorem Elements.shrinks_flags (h : Elements s place) (hf : Flags s s') : Shrinks s place s' place :=
  ⟨hf.trims, h.flags hf, fun _ => .inl rfl⟩

theorem Elements.shrinks_loop {f : State → Nat → State} {q : Queue} (h : Elements s place) (hq : q ≠ .pool)
    (hf : ∀ s e, ∃ t, Flags s t ∧ (f s e = releaseRwConflict e t ∨ f s e = t)) :
    ∃ place', Shrinks s place ((s.queue q).foldl f s) place' := by
  obtain ⟨htrims, place', h', hfreed, -⟩ := h.loop False
    (fun s e => by
      obtain ⟨t, ht, hor⟩ := hf s e
      exact ⟨t, ht, hor.imp id fun heq => ⟨id, heq⟩⟩)
    (h.nodup q) fun e he => h.linked hq he
  exact ⟨place', htrims, h', fun e => (hfreed e).imp id fun hx => hx.2⟩

theorem Elements.shrinks_all {f : State → Nat → State} {q : Queue} (h : Elements s place) (hq : q ≠ .pool)
    (hf : ∀ s e, ∃ t, Flags s t ∧ f s e = releaseRwConflict e t) :
    ∃ place', Shrinks s place ((s.queue q).foldl f s) place' ∧ (∀ e ∈ s.queue q, place' e = .pool) ∧
      ∀ e, place' e = place e ∨ e ∈ s.queue q := by
  obtain ⟨htrims, place', h', hfreed, hall⟩ := h.loop True
    (fun s e => by
      obtain ⟨t, ht, heq⟩ := hf s e
      exact ⟨t, ht, .inl heq⟩)
    (h.nodup q) fun e he => h.linked hq he
  exact ⟨place', ⟨htrims, h', fun e => (hfreed e).imp id fun hx => hx.2⟩, hall trivial,
    fun e => (hfreed e).imp id fun hx => hx.1⟩

/-- Behind a full release of a list nothing is on it. -/
theorem Shrinks.empty {q : Queue} (h : Shrinks s place s' place') (hs : Elements s place) (hq : q ≠ .pool)
    (hall : ∀ e ∈ s.queue q, place' e = .pool) (e : Nat) : ¬ (place' e).on q := by
  intro hon
  rcases h.freed e with heq | heq
  · rw [hall e (hs.mem.mpr (heq ▸ hon))] at hon
    exact hq hon
  · rw [heq] at hon
    exact hq hon

/-- What was off a list stays off it. -/
theorem Shrinks.off {q : Queue} (h : Shrinks s place s' place') (hq : q ≠ .pool) (hoff : ∀ e, ¬ (place e).on q) (e : Nat) :
    ¬ (place' e).on q := by
  rcases h.freed e with heq | heq
  · rw [heq]
    exact hoff e
  · rw [heq]
    exact hq

theorem releaseOutConflict_flags (i : Nat) (isCommit : Bool) (s : State) (e : Nat) : ∃ t, Flags s t ∧
    (releaseOutConflict i isCommit s e = releaseRwConflict e t ∨ releaseOutConflict i isCommit s e = t) := by
  refine ⟨_, ?_, ite_eq_or_eq ..⟩
  split
  · exact .set rfl rfl
  · exact .refl s

theorem releaseInConflict_flags (isCommit : Bool) (s : State) (e : Nat) : ∃ t, Flags s t ∧
    (releaseInConflict isCommit s e = releaseRwConflict e t ∨ releaseInConflict isCommit s e = t) :=
  ⟨s, .refl s, ite_eq_or_eq ..⟩

theorem releaseSummarizedOut_flags (summarize : Bool) (s : State) (e : Nat) :
    ∃ t, Flags s t ∧ releaseSummarizedOut summarize s e = releaseRwConflict e t := by
  refine ⟨_, ?_, rfl⟩
  split
  · exact .set rfl rfl
  · exact .refl s

theorem releaseSummarizedIn_flags (summarize : Bool) (s : State) (e : Nat) :
    ∃ t, Flags s t ∧ releaseSummarizedIn summarize s e = releaseRwConflict e t := by
  refine ⟨_, ?_, rfl⟩
  split
  · exact .set rfl rfl
  · exact .refl s

theorem noteOldConflictOut_flags (i : Nat) (isCommit : Bool) (s : State) : Flags s (noteOldConflictOut i isCommit s) := by
  rw [noteOldConflictOut]
  split
  · exact .set rfl rfl
  · exact .refl s

/-! ### Recording -/

theorem Elements.link {p : Place} (h : Elements s place) (hpool : s.pool = e :: s'.pool) (hp : ¬ p.on .pool)
    (hqueue : ∀ q, q ≠ .pool → p.on q ∧ s'.queue q = s.queue q ++ [e] ∨ ¬ p.on q ∧ s'.queue q = s.queue q)
    (hnone : p ≠ .none) (hconflicts : s'.conflicts = s.conflicts) (hother : ∀ e', e' ≠ e → s'.conflict e' = s.conflict e')
    (hconflict : ∀ reader writer, p = .conflict reader writer → s'.conflict e = ⟨reader, writer⟩)
    (hpossible : ∀ activeXact roXact, p = .possibleUnsafe activeXact roXact → s'.conflict e = ⟨activeXact, roXact⟩) :
    Elements s' (update place e p) := by
  have hmem : e ∈ s.queue .pool := by
    rw [State.queue, hpool]
    exact mem_cons_self
  have hnd := h.nodup .pool
  rw [State.queue, hpool] at hnd
  have hoff : ∀ q, q ≠ .pool → e ∉ s.queue q := fun q hq he => by
    have hlinked := h.linked hq he
    rw [Place.on_pool.mp (h.mem.mp hmem)] at hlinked
    exact hlinked
  refine ⟨h.placed.move p (fun q => ?_) fun q => ?_, fun {e'} he' => ?_, fun {e' r w} hp' => ?_, fun {e' a r} hp' => ?_⟩
  · by_cases hq : q = .pool
    · rw [hq, State.queue, State.queue, hpool]
      exact .tail hnd
    · rcases hqueue q hq with ⟨-, heq⟩ | ⟨-, heq⟩
      · rw [heq]
        exact .snoc (h.nodup q) (hoff q hq)
      · rw [heq]
        exact .same (h.nodup q)
  · by_cases hq : q = .pool
    · rw [hq]
      exact iff_of_false (nodup_cons.mp hnd).1 hp
    · rcases hqueue q hq with ⟨hon, heq⟩ | ⟨hon, heq⟩
      · rw [heq]
        exact iff_of_true (mem_append_right _ mem_cons_self) hon
      · rw [heq]
        exact iff_of_false (hoff q hq) hon
  all_goals rcases eq_or_ne e' e with rfl | hne
  · rw [update_self]
    exact hnone
  · rw [update_of_ne hne]
    rw [hconflicts] at he'
    exact h.element he'
  · rw [update_self] at hp'
    exact hconflict r w hp'
  · rw [update_of_ne hne] at hp'
    rw [hother e' hne]
    exact h.conflict hp'
  · rw [update_self] at hp'
    exact hpossible a r hp'
  · rw [update_of_ne hne] at hp'
    rw [hother e' hne]
    exact h.possibleUnsafe hp'

/-- The state with more elements in use. -/
structure Links (s s' : State) : Prop where
  frame : s' = { s with sxact := s'.sxact, pool := s'.pool, conflict := s'.conflict }
  status : ∀ k, (s'.sxact k).status = (s.sxact k).status
  doomed : ∀ k, (s'.sxact k).doomed = (s.sxact k).doomed

theorem Links.refl (s : State) : Links s s := ⟨rfl, fun _ => rfl, fun _ => rfl⟩

theorem Links.trans (h : Links s s') (h' : Links s' t) : Links s t := by
  refine ⟨?_, fun k => (h'.status k).trans (h.status k), fun k => (h'.doomed k).trans (h.doomed k)⟩
  rw [h'.frame, h.frame]

theorem setTwo_sxact {f g : SerializableXact → SerializableXact} {k m : Nat} (hne : i ≠ m) :
    ((s.setSxact i (f (s.sxact i))).setSxact m (g ((s.setSxact i (f (s.sxact i))).sxact m))).sxact k =
      if k = m then g (s.sxact k) else if k = i then f (s.sxact k) else s.sxact k := by
  show update (update s.sxact i _) m (g (update s.sxact i _ m)) k = _
  rw [update_of_ne hne.symm]
  split
  next heq => rw [heq, update_self]
  next hm =>
    rw [update_of_ne hm]
    split
    next heq => rw [heq, update_self]
    next hi => rw [update_of_ne hi]

theorem setRwConflict_spec {reader writer : Nat} (h : Elements s place) (hne : reader ≠ writer)
    (heq : setRwConflict reader writer s = some s') :
    Links s s' ∧ ∃ e, place e = .pool ∧ Elements s' (update place e (.conflict reader writer)) := by
  rw [setRwConflict] at heq
  split at heq
  · cases heq
  next e rest hpool =>
    obtain rfl := Option.some.inj heq
    have hsxact := fun k => setTwo_sxact (s := { s with
      pool := rest, conflict := update s.conflict e ⟨reader, writer⟩ })
      (f := SerializableXact.insertOut e) (g := SerializableXact.insertIn e) (k := k) hne
    have hmem : e ∈ s.queue .pool := by
      rw [State.queue, hpool]
      exact mem_cons_self
    refine ⟨⟨rfl, fun k => ?_, fun k => ?_⟩, e, ?_, h.link hpool (·.elim nofun nofun)
      (fun q hq => ?_) nofun rfl (fun e' he' => update_of_ne he' ..) ?_ nofun⟩
    · rw [hsxact]
      split
      · rfl
      · split <;> rfl
    · rw [hsxact]
      split
      · rfl
      · split <;> rfl
    · exact Place.on_pool.mp (h.mem.mp hmem)
    · cases q with
      | pool => exact absurd rfl hq
      | outConflicts k =>
        rw [State.queue, hsxact]
        by_cases hk : k = reader
        · rw [if_neg (by rwa [hk]), if_pos hk]
          exact .inl ⟨.inl (by rw [hk]), rfl⟩
        · rw [if_neg hk]
          exact .inr ⟨(·.elim (fun heq => hk (by cases heq; rfl)) nofun), by split <;> rfl⟩
      | inConflicts k =>
        rw [State.queue, hsxact]
        by_cases hk : k = writer
        · rw [if_pos hk]
          exact .inl ⟨.inr (by rw [hk]), rfl⟩
        · rw [if_neg hk]
          exact .inr ⟨(·.elim nofun fun heq => hk (by cases heq; rfl)), by split <;> rfl⟩
      | possibleUnsafeConflicts k =>
        rw [State.queue, hsxact]
        refine .inr ⟨(·.elim nofun nofun), ?_⟩
        split
        · rfl
        · split <;> rfl
    · rintro _ _ ⟨⟩
      exact update_self ..

theorem setPossibleUnsafeConflict_spec {roXact activeXact : Nat} (h : Elements s place) (hne : activeXact ≠ roXact)
    (heq : setPossibleUnsafeConflict roXact activeXact s = some s') :
    Links s s' ∧ s'.pool.length + 1 = s.pool.length ∧
      ∃ e, place e = .pool ∧ Elements s' (update place e (.possibleUnsafe activeXact roXact)) := by
  rw [setPossibleUnsafeConflict] at heq
  split at heq
  · cases heq
  next e rest hpool =>
    obtain rfl := Option.some.inj heq
    have hsxact := fun k => setTwo_sxact (s := { s with
      pool := rest, conflict := update s.conflict e ⟨activeXact, roXact⟩ })
      (f := SerializableXact.insertPossibleUnsafe e) (g := SerializableXact.insertPossibleUnsafe e) (k := k) hne
    have hmem : e ∈ s.queue .pool := by
      rw [State.queue, hpool]
      exact mem_cons_self
    have hother : ∀ k (f : SerializableXact → List Nat),
        (∀ x : SerializableXact, f (x.insertPossibleUnsafe e) = f x) →
        f ((_ : State).sxact k) = f (s.sxact k) := fun k f hf => by
      rw [hsxact]
      split
      · exact hf _
      · split
        · exact hf _
        · rfl
    refine ⟨⟨rfl, fun k => ?_, fun k => ?_⟩, by rw [hpool]; rfl, e, ?_, h.link hpool (·.elim nofun nofun)
      (fun q hq => ?_) nofun rfl (fun e' he' => update_of_ne he' ..) nofun ?_⟩
    · rw [hsxact]
      split
      · rfl
      · split <;> rfl
    · rw [hsxact]
      split
      · rfl
      · split <;> rfl
    · exact Place.on_pool.mp (h.mem.mp hmem)
    · cases q with
      | pool => exact absurd rfl hq
      | outConflicts k => exact .inr ⟨(·.elim nofun nofun), hother k (·.outConflicts) fun _ => rfl⟩
      | inConflicts k => exact .inr ⟨(·.elim nofun nofun), hother k (·.inConflicts) fun _ => rfl⟩
      | possibleUnsafeConflicts k =>
        rw [State.queue, hsxact]
        by_cases hr : k = roXact
        · rw [if_pos hr]
          exact .inl ⟨.inr (by rw [hr]), rfl⟩
        · rw [if_neg hr]
          by_cases ha : k = activeXact
          · rw [if_pos ha]
            exact .inl ⟨.inl (by rw [ha]), rfl⟩
          · rw [if_neg ha]
            exact .inr ⟨(·.elim (fun heq => ha (by cases heq; rfl)) fun heq => hr (by cases heq; rfl)), rfl⟩
    · rintro _ _ ⟨⟩
      exact update_self ..

/-- One report frees its element; all that it frees is on the list of the read-only transaction. -/
theorem report_spec {roXact : Nat} (i : Nat) (isCommit myXactDidWrite : Bool) (h : Elements s place)
    (he : place e = .possibleUnsafe i roXact) :
    ∃ place', Shrinks s place (reportPossibleUnsafe i isCommit myXactDidWrite s e) place' ∧ place' e = .pool ∧
      ∀ e', place' e' = place e' ∨ (place e').on (.possibleUnsafeConflicts roXact) := by
  have hon : (place e).on (.possibleUnsafeConflicts roXact) := by
    rw [he]
    exact .inr rfl
  rw [reportPossibleUnsafe, h.possibleUnsafe he]
  split
  · have hflags : Flags s (s.setSxact roXact { s.sxact roXact with roUnsafe := true }) := .set rfl rfl
    have h₁ := h.flags hflags
    obtain ⟨place', hshrinks, hall, hrest⟩ := h₁.shrinks_all (f := fun s e => releaseRwConflict e s)
      (q := .possibleUnsafeConflicts roXact) nofun fun s e => ⟨s, .refl s, rfl⟩
    exact ⟨place', (h.shrinks_flags hflags).trans hshrinks, hall e (h₁.mem.mpr hon),
      fun e' => (hrest e').imp id h₁.mem.mp⟩
  · have hrelease : Shrinks s place (releaseRwConflict e s) (update place e .pool) := by
      refine ⟨.release e s, h.release (by rw [he]; trivial), fun e' => ?_⟩
      rcases eq_or_ne e' e with rfl | hne
      · exact .inr (update_self ..)
      · exact .inl (update_of_ne hne ..)
    refine ⟨update place e .pool, ?_, update_self .., fun e' => ?_⟩
    · show Shrinks s place (if _ then _ else _) _
      split
      · exact hrelease.trans (hrelease.elements.shrinks_flags (.set rfl rfl))
      · exact hrelease
    · rcases eq_or_ne e' e with rfl | hne
      · exact .inr hon
      · exact .inl (update_of_ne hne ..)

/-- **The reports free all elements of the writer.** No two of them are for the same read-only transaction. -/
theorem reports_spec (isCommit myXactDidWrite : Bool) (h : Elements s place) (hl : l.Nodup)
    (hwriter : ∀ e ∈ l, ∃ roXact, roXact ≠ i ∧ place e = .possibleUnsafe i roXact)
    (hunique : ∀ e ∈ l, ∀ e' ∈ l, place e = place e' → e = e') :
    ∃ place', Shrinks s place (l.foldl (reportPossibleUnsafe i isCommit myXactDidWrite) s) place' ∧
      ∀ e ∈ l, place' e = .pool := by
  induction l generalizing s place with
  | nil => exact ⟨place, h.shrinks, fun _ he => absurd he not_mem_nil⟩
  | cons e l ih =>
    have hnd := nodup_cons.mp hl
    obtain ⟨roXact, hne, he⟩ := hwriter e mem_cons_self
    obtain ⟨place₁, h₁, hfree, hrest⟩ := report_spec i isCommit myXactDidWrite h he
    have hkeep : ∀ e' ∈ l, place₁ e' = place e' := fun e' he' => by
      refine (hrest e').resolve_right fun hon => hnd.1 ?_
      obtain ⟨roXact', -, hp'⟩ := hwriter e' (mem_cons_of_mem _ he')
      rw [hp'] at hon
      have hro : roXact' = roXact := by
        rcases hon with heq | heq
        · cases heq
          exact absurd rfl hne
        · cases heq
          rfl
      rw [hro, ← he] at hp'
      rwa [← hunique e' (mem_cons_of_mem _ he') e mem_cons_self hp']
    obtain ⟨place₂, h₂, hall⟩ := ih h₁.elements hnd.2
      (fun e' he' => by
        rw [hkeep e' he']
        exact hwriter e' (mem_cons_of_mem _ he'))
      fun e' he' e'' he'' heq => by
        rw [hkeep e' he', hkeep e'' he''] at heq
        exact hunique e' (mem_cons_of_mem _ he') e'' (mem_cons_of_mem _ he'') heq
    refine ⟨place₂, h₁.trans h₂, fun e' he' => ?_⟩
    rcases mem_cons.mp he' with rfl | he'
    · exact (h₂.freed e').elim (fun heq => heq.trans hfree) id
    · exact hall e' he'

/-- Who a possibly unsafe conflict is between, seen from the transaction that ends. -/
structure Reporting (i : Nat) (readOnly : Bool) (place : Nat → Place) : Prop where
  writer : ∀ {e : Nat}, readOnly = false → (place e).on (.possibleUnsafeConflicts i) →
    ∃ roXact, roXact ≠ i ∧ place e = .possibleUnsafe i roXact
  unique : ∀ {e e' : Nat}, (place e).on (.possibleUnsafeConflicts i) → place e = place e' → readOnly = false → e = e'

theorem releaseConflicts_spec {readOnly : Bool} (isCommit myXactDidWrite : Bool) (h : Elements s place)
    (hr : Reporting i readOnly place) :
    ∃ place', Shrinks s place (releaseConflicts i readOnly isCommit myXactDidWrite s) place' ∧
      ∀ e, ¬ (place' e).on (.possibleUnsafeConflicts i) := by
  obtain ⟨place₁, h₁, hoff₁⟩ : ∃ place₁, Shrinks s place
      (if readOnly then releaseRwConflicts (s.sxact i).possibleUnsafeConflicts s else s) place₁ ∧
      (readOnly = true → ∀ e, ¬ (place₁ e).on (.possibleUnsafeConflicts i)) := by
    cases readOnly with
    | false => exact ⟨place, h.shrinks, nofun⟩
    | true =>
      obtain ⟨place₁, h₁, hall, -⟩ := h.shrinks_all (f := fun s e => releaseRwConflict e s)
        (q := .possibleUnsafeConflicts i) nofun fun s e => ⟨s, .refl s, rfl⟩
      exact ⟨place₁, h₁, fun _ => h₁.empty h nofun hall⟩
  rw [releaseConflicts]
  generalize (if readOnly then releaseRwConflicts (s.sxact i).possibleUnsafeConflicts s else s) = s₁ at h₁
  have h₂ := h₁.trans (h₁.elements.shrinks_flags (noteOldConflictOut_flags i isCommit s₁))
  generalize noteOldConflictOut i isCommit s₁ = s₂ at h₂
  obtain ⟨place₃, h₃⟩ := h₂.elements.shrinks_loop (q := .outConflicts i) nofun (releaseOutConflict_flags i isCommit)
  obtain ⟨place₄, h₄⟩ := h₃.elements.shrinks_loop (q := .inConflicts i) nofun (releaseInConflict_flags isCommit)
  have hto := h₃.trans h₄
  have hall := h₂.trans hto
  cases readOnly with
  | true => exact ⟨place₄, hall, hto.off nofun (hoff₁ rfl)⟩
  | false =>
    have hold : ∀ {e}, (place₄ e).on (.possibleUnsafeConflicts i) → place₄ e = place e := fun {e} hon => by
      refine (hall.freed e).resolve_right fun heq => ?_
      rw [heq] at hon
      cases hon
    have hmem : ∀ e ∈ (_ : State).queue (.possibleUnsafeConflicts i),
        place₄ e = place e ∧ (place e).on (.possibleUnsafeConflicts i) := fun e he => by
      have hon := h₄.elements.mem.mp he
      have heq := hold hon
      rw [heq] at hon
      exact ⟨heq, hon⟩
    obtain ⟨place₅, h₅, hfree⟩ := reports_spec (i := i) isCommit myXactDidWrite h₄.elements
      (h₄.elements.nodup (.possibleUnsafeConflicts i))
      (fun e he => by
        rw [(hmem e he).1]
        exact hr.writer rfl (hmem e he).2)
      fun e he e' he' heq => by
        rw [(hmem e he).1, (hmem e' he').1] at heq
        exact hr.unique (hmem e he).2 heq rfl
    exact ⟨place₅, hall.trans h₅, h₅.empty h₄.elements nofun hfree⟩

theorem releaseOne_conflicts (i : Nat) (keep summarize : Bool) (h : Elements s place) :
    ∃ t place', Shrinks s place t place' ∧
      releaseOneSerializableXact i keep summarize s = (if keep then t else releasePredXact i t) ∧
      (keep = false → ∀ e, ¬ (place' e).on (.outConflicts i) ∧ ¬ (place' e).on (.inConflicts i)) := by
  obtain ⟨place₁, h₁, hoff₁⟩ : ∃ place₁, Shrinks s place
      (if keep then s else (s.sxact i).outConflicts.foldl (releaseSummarizedOut summarize) s) place₁ ∧
      (keep = false → ∀ e, ¬ (place₁ e).on (.outConflicts i)) := by
    cases keep with
    | true => exact ⟨place, h.shrinks, nofun⟩
    | false =>
      obtain ⟨place₁, h₁, hall, -⟩ :=
        h.shrinks_all (q := .outConflicts i) nofun (releaseSummarizedOut_flags summarize)
      exact ⟨place₁, h₁, fun _ => h₁.empty h nofun hall⟩
  obtain ⟨place₂, h₂, hall, -⟩ :=
    h₁.elements.shrinks_all (q := .inConflicts i) nofun (releaseSummarizedIn_flags summarize)
  exact ⟨_, place₂, h₁.trans h₂, rfl, fun hk e => ⟨h₂.off (q := .outConflicts i) nofun (hoff₁ hk) e,
    h₂.empty (q := .inConflicts i) h₁.elements nofun hall e⟩⟩

end PgStorage.Predicate
