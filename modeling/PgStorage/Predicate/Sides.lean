import PgStorage.Predicate.Conflicts
import PgStorage.Predicate.Books

/-! Who the conflicts are between.

A conflict is between two entries of the active list. A possibly unsafe one is between a writer and a read-only
transaction that are both in progress, and there is one at most for the two. -/
namespace PgStorage.Predicate
open Places Locks
open Function List

variable {s s' t : State} {place place' : Nat → Place} {e i b : Nat} {l : List Nat}

structure Waits (s : State) (k : Nat) (readOnly : Bool) : Prop where
  mem : k ∈ s.activeList
  inProgress : inProgress s.sxact k = true
  readOnly : (s.sxact k).readOnly = readOnly

structure Sides (s : State) (place : Nat → Place) : Prop where
  conflict : ∀ {e reader writer : Nat}, place e = .conflict reader writer →
    reader ∈ s.activeList ∧ writer ∈ s.activeList
  possibleUnsafe : ∀ {e activeXact roXact : Nat}, place e = .possibleUnsafe activeXact roXact →
    Waits s activeXact false ∧ Waits s roXact true
  unique : ∀ {e e' activeXact roXact : Nat}, place e = .possibleUnsafe activeXact roXact →
    place e' = .possibleUnsafe activeXact roXact → e = e'

theorem Waits.ne {k k' : Nat} (h : Waits s k false) (h' : Waits s k' true) : k ≠ k' := by
  rintro rfl
  exact absurd (h.readOnly.symm.trans h'.readOnly) nofun

theorem Waits.congr {k : Nat} {ro : Bool} (h : Waits s k ro) (hmem : k ∈ s'.activeList)
    (hs : (s'.sxact k).status = (s.sxact k).status) : Waits s' k ro :=
  ⟨hmem, (inProgress_status hs).trans h.inProgress, (readOnly_status hs).trans h.readOnly⟩

/-- An entry that no element has to do with may change in any way. -/
theorem Sides.shrink (h : Sides s place) (hp : ∀ e, place' e = place e ∨ place' e = .pool)
    (hconflict : ∀ e k, (place' e).on (.outConflicts k) ∨ (place' e).on (.inConflicts k) → k ∈ s.activeList →
      k ∈ s'.activeList)
    (hpossible : ∀ e k, (place' e).on (.possibleUnsafeConflicts k) → k ∈ s.activeList →
      k ∈ s'.activeList ∧ (s'.sxact k).status = (s.sxact k).status) : Sides s' place' := by
  have hold : ∀ {e p}, place' e = p → p ≠ .pool → place e = p := fun {e p} heq hne =>
    ((hp e).resolve_right fun hpool => hne (heq.symm.trans hpool)).symm.trans heq
  refine ⟨fun {e r w} heq => ?_, fun {e a r} heq => ?_, fun heq heq' => ?_⟩
  · have hmem := h.conflict (hold heq nofun)
    refine ⟨hconflict e r (.inl ?_) hmem.1, hconflict e w (.inr ?_) hmem.2⟩
    · rw [heq]
      exact .inl rfl
    · rw [heq]
      exact .inr rfl
  · have hw := h.possibleUnsafe (hold heq nofun)
    have hkeep : ∀ k ro, Waits s k ro → (k = a ∨ k = r) → Waits s' k ro := fun k ro hk hor => by
      obtain ⟨hmem, hs⟩ := hpossible e k (by
        rw [heq]
        rcases hor with rfl | rfl
        · exact .inl rfl
        · exact .inr rfl) hk.mem
      exact hk.congr hmem hs
    exact ⟨hkeep a false hw.1 (.inl rfl), hkeep r true hw.2 (.inr rfl)⟩
  · exact h.unique (hold heq nofun) (hold heq' nofun)

theorem Sides.same (h : Sides s place) (hactive : s'.activeList = s.activeList)
    (hs : ∀ k, (s'.sxact k).status = (s.sxact k).status) : Sides s' place :=
  h.shrink (fun _ => .inl rfl) (fun _ _ _ hk => hactive ▸ hk) fun _ k _ hk => ⟨hactive ▸ hk, hs k⟩

theorem Sides.link {p : Place} (h : Sides s place) (hl : Links s s') (he : place e = .pool)
    (hconflict : ∀ reader writer, p = .conflict reader writer → reader ∈ s.activeList ∧ writer ∈ s.activeList)
    (hpossible : ∀ activeXact roXact, p = .possibleUnsafe activeXact roXact →
      Waits s activeXact false ∧ Waits s roXact true ∧ ∀ e', place e' ≠ .possibleUnsafe activeXact roXact) :
    Sides s' (update place e p) := by
  have hactive : s'.activeList = s.activeList := (congrArg State.activeList hl.frame :)
  have h' : Sides s' place := h.same hactive hl.status
  refine ⟨fun {e' r w} heq => ?_, fun {e' a r} heq => ?_, fun {e₁ e₂ a r} heq₁ heq₂ => ?_⟩
  · rcases eq_or_ne e' e with rfl | hne
    · rw [update_self] at heq
      rw [hactive]
      exact hconflict r w heq
    · rw [update_of_ne hne] at heq
      exact h'.conflict heq
  · rcases eq_or_ne e' e with rfl | hne
    · rw [update_self] at heq
      obtain ⟨ha, hr, -⟩ := hpossible a r heq
      exact ⟨ha.congr (hactive ▸ ha.mem) (hl.status a), hr.congr (hactive ▸ hr.mem) (hl.status r)⟩
    · rw [update_of_ne hne] at heq
      exact h'.possibleUnsafe heq
  · rcases eq_or_ne e₁ e with rfl | hne₁
    · rcases eq_or_ne e₂ e₁ with rfl | hne₂
      · rfl
      · rw [update_self] at heq₁
        rw [update_of_ne hne₂] at heq₂
        exact absurd heq₂ ((hpossible a r heq₁).2.2 e₂)
    · rw [update_of_ne hne₁] at heq₁
      rcases eq_or_ne e₂ e with rfl | hne₂
      · rw [update_self] at heq₂
        exact absurd heq₁ ((hpossible a r heq₂).2.2 e₁)
      · rw [update_of_ne hne₂] at heq₂
        exact h.unique heq₁ heq₂

/-- What a transaction that ends needs to know about the reports that it owes. -/
theorem Sides.reporting (h : Sides s place) (i : Nat) : Reporting i (s.sxact i).readOnly place := by
  have hwriter : ∀ {e}, (s.sxact i).readOnly = false → (place e).on (.possibleUnsafeConflicts i) →
      ∃ roXact, roXact ≠ i ∧ place e = .possibleUnsafe i roXact := fun {e} hro hon => by
    cases hx : place e with
    | possibleUnsafe activeXact roXact =>
      rw [hx] at hon
      obtain ⟨ha, hr⟩ := h.possibleUnsafe hx
      rcases hon with heq | heq
      · cases heq
        exact ⟨roXact, (ha.ne hr).symm, rfl⟩
      · cases heq
        exact absurd (hro.symm.trans hr.readOnly) nofun
    | none =>
      rw [hx] at hon
      exact hon.elim
    | pool =>
      rw [hx] at hon
      cases hon
    | conflict reader writer =>
      rw [hx] at hon
      exact hon.elim nofun nofun
  refine ⟨hwriter, fun {e e'} hon heq hro => ?_⟩
  obtain ⟨roXact, -, hp⟩ := hwriter hro hon
  exact h.unique hp (heq.symm.trans hp)

/-- No element has to do with an entry that is not on the active list. -/
theorem Sides.queues (h : Sides s place) (he : Elements s place) (hi : i ∉ s.activeList) :
    (s.sxact i).queues = ([], [], []) := by
  have hnil : ∀ q, (∀ e, ¬ (place e).on q) → s.queue q = [] := fun q hq =>
    eq_nil_iff_forall_not_mem.mpr fun e hmem => hq e (he.mem.mp hmem)
  have hon : ∀ e, ¬ (place e).on (.outConflicts i) ∧ ¬ (place e).on (.inConflicts i) ∧
      ¬ (place e).on (.possibleUnsafeConflicts i) := fun e => by
    cases hx : place e with
    | conflict reader writer =>
      have hmem := h.conflict hx
      refine ⟨(·.elim (fun heq => hi ?_) nofun), (·.elim nofun fun heq => hi ?_), (·.elim nofun nofun)⟩
      · cases heq
        exact hmem.1
      · cases heq
        exact hmem.2
    | possibleUnsafe activeXact roXact =>
      obtain ⟨ha, hr⟩ := h.possibleUnsafe hx
      refine ⟨(·.elim nofun nofun), (·.elim nofun nofun), (·.elim (fun heq => hi ?_) fun heq => hi ?_)⟩
      · cases heq
        exact ha.mem
      · cases heq
        exact hr.mem
    | none => exact ⟨id, id, id⟩
    | pool => exact ⟨nofun, nofun, nofun⟩
  exact Prod.ext (hnil (.outConflicts i) fun e => (hon e).1) (Prod.ext (hnil (.inConflicts i) fun e => (hon e).2.1)
    (hnil (.possibleUnsafeConflicts i) fun e => (hon e).2.2))

theorem Links.mayMakeUnsafe (h : Links s s') (k : Nat) : (s'.sxact k).mayMakeUnsafe = (s.sxact k).mayMakeUnsafe := by
  rw [SerializableXact.mayMakeUnsafe, SerializableXact.mayMakeUnsafe, h.doomed, readOnly_status (h.status k),
    show (s'.sxact k).committed = (s.sxact k).committed from congrArg (fun x => x.1) (h.status k)]

/-- Doomed before it is rolled back; the dummy is committed. -/
structure Marked (s : State) : Prop where
  doomed : ∀ k, (!(s.sxact k).rolledBack || (s.sxact k).doomed) = true
  dummy : (s.sxact oldCommittedSxact).committed = true

theorem Marked.congr (h : Marked s) (hs : ∀ k, (s'.sxact k).status = (s.sxact k).status) : Marked s' :=
  ⟨fun k => (congrArg (fun x => x.2.2.2.2) (hs k)).trans (h.doomed k), (congrArg (fun x => x.1) (hs _)).trans h.dummy⟩

theorem Marked.waits {k : Nat} (h : Marked s) (hmem : k ∈ s.activeList) (hk : (s.sxact k).mayMakeUnsafe = true) :
    Waits s k false := by
  rw [SerializableXact.mayMakeUnsafe, Bool.and_eq_true, Bool.and_eq_true, Bool.not_eq_true', Bool.not_eq_true',
    Bool.not_eq_true'] at hk
  obtain ⟨⟨hc, hd⟩, hro⟩ := hk
  refine ⟨hmem, ?_, hro⟩
  have hrolled := h.doomed k
  rw [hd, Bool.or_false] at hrolled
  rw [inProgress, hc, hrolled]
  refine decide_eq_true fun heq => ?_
  rw [heq, h.dummy] at hc
  cases hc

/-- **With room in the pool the registration comes to its end.** -/
theorem setPossibleUnsafeConflicts_spec (he : Elements s place) (h : Sides s place) (hm : Marked s)
    (hro : Waits s i true) (hl : l.Nodup) (hsub : ∀ k ∈ l, k ∈ s.activeList)
    (hnew : ∀ e, ∀ k ∈ l, place e ≠ .possibleUnsafe k i)
    (hroom : l.countP (fun k => (s.sxact k).mayMakeUnsafe) ≤ s.pool.length) :
    ∃ t, setPossibleUnsafeConflicts i l s = (t, true) ∧ Links s t ∧ ∃ place', Elements t place' ∧ Sides t place' := by
  induction l generalizing s place with
  | nil => exact ⟨s, rfl, .refl s, place, he, h⟩
  | cons k l ih =>
    have hnd := nodup_cons.mp hl
    rw [setPossibleUnsafeConflicts]
    split
    next hk =>
      rw [countP_cons_of_pos (p := fun k => (s.sxact k).mayMakeUnsafe) hk] at hroom
      have hw := hm.waits (hsub k mem_cons_self) hk
      split
      next hnone =>
        rw [setPossibleUnsafeConflict] at hnone
        split at hnone
        next hpool =>
          rw [hpool] at hroom
          exact absurd hroom (Nat.not_succ_le_zero _)
        · cases hnone
      next t heq =>
        obtain ⟨hlinks, hlen, e, hpool, he'⟩ := setPossibleUnsafeConflict_spec he (hw.ne hro) heq
        have hactive : t.activeList = s.activeList := (congrArg State.activeList hlinks.frame :)
        have h' : Sides t (update place e (.possibleUnsafe k i)) := h.link hlinks hpool (by simp) fun a r hp => by
          cases hp
          exact ⟨hw, hro, fun e' => hnew e' k mem_cons_self⟩
        obtain ⟨u, heq', hlinks', hplace⟩ := ih he' h' (hm.congr hlinks.status)
          (hro.congr (hactive ▸ hro.mem) (hlinks.status i)) hnd.2
          (fun k' hk' => hactive ▸ hsub k' (mem_cons_of_mem _ hk'))
          (fun e' k' hk' => by
            rcases eq_or_ne e' e with rfl | hne
            · rw [update_self]
              rintro ⟨⟩
              exact hnd.1 hk'
            · rw [update_of_ne hne]
              exact hnew e' k' (mem_cons_of_mem _ hk'))
          (by
            rw [countP_congr fun k' _ => by rw [hlinks.mayMakeUnsafe]]
            omega)
        exact ⟨u, heq', hlinks.trans hlinks', hplace⟩
    next hk =>
      rw [countP_cons_of_neg (p := fun k => (s.sxact k).mayMakeUnsafe) hk] at hroom
      exact ih he h hm hro hnd.2 (fun k' hk' => hsub k' (mem_cons_of_mem _ hk'))
        (fun e k' hk' => hnew e k' (mem_cons_of_mem _ hk')) hroom

end PgStorage.Predicate
