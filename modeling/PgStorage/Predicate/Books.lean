import PgStorage.Predicate.Queues

/-! The counts over the active list.

The oldest `xmin` is held with the number of its transactions: a transaction that comes is not older, one that goes
lowers the number, and only behind the last one the list is read again. -/
namespace PgStorage.Predicate
open List

variable {sxact sxact' : Nat → SerializableXact} {l : List Nat} {i xmin n : Nat} {o : Option Nat × Nat} {s s' : State}

/-- The oldest `xmin` of the transactions in progress on a list, and how many have it. -/
def Oldest (sxact : Nat → SerializableXact) (l : List Nat) : Option Nat × Nat → Prop
  | (none, n) => n = 0 ∧ ∀ i ∈ l, inProgress sxact i = false
  | (some xmin, n) => n = l.countP (fun i => inProgress sxact i && (sxact i).xmin = xmin) ∧ 0 < n ∧
      ∀ i ∈ l, inProgress sxact i = true → xmin ≤ (sxact i).xmin

def writable (sxact : Nat → SerializableXact) (l : List Nat) : Nat :=
  l.countP fun i => inProgress sxact i && !(sxact i).readOnly

def State.oldest (s : State) : Option Nat × Nat := (s.sxactGlobalXmin, s.sxactGlobalXminCount)

theorem inProgress_status (h : (sxact' i).status = (sxact i).status) : inProgress sxact' i = inProgress sxact i := by
  have hc : (sxact' i).committed = (sxact i).committed := congrArg (fun x => x.1) h
  have hr : (sxact' i).rolledBack = (sxact i).rolledBack := congrArg (fun x => x.2.1) h
  rw [inProgress, inProgress, hc, hr]

theorem xmin_status (h : (sxact' i).status = (sxact i).status) : (sxact' i).xmin = (sxact i).xmin :=
  congrArg (fun x => x.2.2.2.1) h

theorem readOnly_status (h : (sxact' i).status = (sxact i).status) : (sxact' i).readOnly = (sxact i).readOnly :=
  congrArg (fun x => x.2.2.1) h

/-! ### One more -/

theorem Oldest.congr (h : Oldest sxact l o) (hs : ∀ i ∈ l, (sxact' i).status = (sxact i).status) :
    Oldest sxact' l o := by
  obtain ⟨_ | xmin, n⟩ := o
  · exact ⟨h.1, fun i hi => (inProgress_status (hs i hi)).trans (h.2 i hi)⟩
  · refine ⟨h.1.trans (countP_congr fun i hi => ?_), h.2.1, fun i hi hp => ?_⟩
    · rw [inProgress_status (hs i hi), xmin_status (hs i hi)]
    · rw [xmin_status (hs i hi)]
      exact h.2.2 i hi ((inProgress_status (hs i hi)).symm.trans hp)

theorem writable_congr (hs : ∀ i ∈ l, (sxact' i).status = (sxact i).status) : writable sxact' l = writable sxact l :=
  countP_congr fun i hi => by rw [inProgress_status (hs i hi), readOnly_status (hs i hi)]

theorem Oldest.count (h : Oldest sxact l o) (i : Nat) : Oldest sxact (l ++ [i]) (countOldest sxact o i) := by
  have hmem : ∀ k ∈ l ++ [i], k ∈ l ∨ k = i := fun k hk => (mem_append.mp hk).imp id mem_singleton.mp
  obtain ⟨_ | xmin, n⟩ := o
  all_goals
    rw [countOldest]
    split
  next hp =>
    refine ⟨?_, Nat.one_pos, fun k hk hp' => ?_⟩
    · rw [countP_append, countP_eq_zero.mpr fun k hk => by simp [h.2 k hk]]
      simp [hp]
    · rcases hmem k hk with hk | rfl
      · exact absurd (hp'.symm.trans (h.2 k hk)) nofun
      · exact le_rfl
  next hp =>
    refine ⟨h.1, fun k hk => ?_⟩
    rcases hmem k hk with hk | rfl
    · exact h.2 k hk
    · exact Bool.eq_false_iff.mpr hp
  next hp =>
    show Oldest sxact (l ++ [i]) (if _ then _ else _)
    split
    next hlt =>
      refine ⟨?_, Nat.one_pos, fun k hk hp' => ?_⟩
      · rw [countP_append, countP_eq_zero.mpr fun k hk => ?_]
        · simp [hp]
        · rw [Bool.and_eq_true, decide_eq_true_eq]
          exact fun hx => absurd (h.2.2 k hk hx.1) (by omega)
      · rcases hmem k hk with hk | rfl
        · exact hlt.le.trans (h.2.2 k hk hp')
        · exact le_rfl
    next hlt =>
      split
      next heq =>
        refine ⟨?_, Nat.succ_pos _, fun k hk hp' => ?_⟩
        · rw [countP_append, ← h.1]
          simp [hp, heq]
        · rcases hmem k hk with hk | rfl
          · exact h.2.2 k hk hp'
          · exact not_lt.mp hlt
      next hne =>
        refine ⟨?_, h.2.1, fun k hk hp' => ?_⟩
        · rw [countP_append, ← h.1]
          simp [hne]
        · rcases hmem k hk with hk | rfl
          · exact h.2.2 k hk hp'
          · exact not_lt.mp hlt
  next hp =>
    refine ⟨?_, h.2.1, fun k hk hp' => ?_⟩
    · rw [countP_append, ← h.1]
      simp [hp]
    · rcases hmem k hk with hk | rfl
      · exact h.2.2 k hk hp'
      · exact absurd hp' hp

theorem Oldest.foldl (h : Oldest sxact l o) (m : List Nat) : Oldest sxact (l ++ m) (m.foldl (countOldest sxact) o) := by
  induction m generalizing l o with
  | nil =>
    rw [append_nil]
    exact h
  | cons i m ih =>
    rw [append_cons]
    exact ih (h.count i)

theorem setNewSxactGlobalXmin_oldest (s : State) :
    Oldest s.sxact s.activeList (setNewSxactGlobalXmin s).oldest :=
  Oldest.foldl (l := []) (show Oldest s.sxact [] (none, 0) from ⟨rfl, nofun⟩) s.activeList

/-- A transaction that is not older than the oldest one is counted as if the list were read again. -/
theorem countXmin_oldest (hg : ∀ globalXmin, s.sxactGlobalXmin = some globalXmin → globalXmin ≤ (sxact i).xmin)
    (hp : inProgress sxact i = true) :
    (countXmin (sxact i).xmin s).oldest = countOldest sxact s.oldest i := by
  have hs : s.oldest = (s.sxactGlobalXmin, s.sxactGlobalXminCount) := rfl
  rw [countXmin, countOldest, if_pos hp, hs]
  cases hx : s.sxactGlobalXmin with
  | none => rfl
  | some globalXmin =>
    show State.oldest (if _ then _ else _) = if _ then _ else if _ then _ else _
    rw [if_neg (not_lt.mpr (hg globalXmin hx))]
    split
    · rfl
    · rw [hs, hx]

theorem countP_less {p q : Nat → Bool} (hl : l.Nodup) (hi : i ∈ l) (hp : p i = true) (hq : q i = false)
    (hk : ∀ k ∈ l, k ≠ i → q k = p k) : l.countP p = l.countP q + 1 := by
  have hperm := perm_cons_erase hi
  rw [hperm.countP_eq, hperm.countP_eq q, countP_cons_of_pos hp, countP_cons_of_neg (by rw [hq]; exact nofun)]
  exact congrArg (· + 1) (countP_congr fun k hmem => by
    obtain ⟨hne, hmem⟩ := hl.mem_erase_iff.mp hmem
    rw [hk k hmem hne])

theorem countP_erase_of_not {p : Nat → Bool} (hp : p i = false) : (l.erase i).countP p = l.countP p := by
  rw [countP_erase, if_neg (by simp [hp]), Nat.sub_zero]

theorem Oldest.erase (h : Oldest sxact l o) (hp : inProgress sxact i = false) : Oldest sxact (l.erase i) o := by
  obtain ⟨_ | xmin, n⟩ := o
  · exact ⟨h.1, fun k hk => h.2 k (mem_of_mem_erase hk)⟩
  · refine ⟨h.1.trans (countP_erase_of_not ?_).symm, h.2.1, fun k hk => h.2.2 k (mem_of_mem_erase hk)⟩
    rw [hp, Bool.false_and]

theorem writable_erase (hp : inProgress sxact i = false) : writable sxact (l.erase i) = writable sxact l := by
  refine countP_erase_of_not ?_
  rw [hp, Bool.false_and]

/-- The transaction `i` ends and the others stay as they are. -/
structure Ends (sxact sxact' : Nat → SerializableXact) (l : List Nat) (i : Nat) : Prop where
  nodup : l.Nodup
  mem : i ∈ l
  before : inProgress sxact i = true
  after : inProgress sxact' i = false
  xmin : (sxact' i).xmin = (sxact i).xmin
  others : ∀ k ∈ l, k ≠ i → (sxact' k).status = (sxact k).status

theorem Ends.writable (h : Ends sxact sxact' l i) :
    Predicate.writable sxact l = Predicate.writable sxact' l + if (sxact i).readOnly then 0 else 1 := by
  cases hro : (sxact i).readOnly with
  | false =>
    refine countP_less h.nodup h.mem (by rw [h.before, hro]; rfl) (by rw [h.after]; rfl) fun k hk hne => ?_
    rw [inProgress_status (h.others k hk hne), readOnly_status (h.others k hk hne)]
  | true =>
    refine countP_congr fun k hk => ?_
    rcases eq_or_ne k i with rfl | hne
    · rw [h.after, hro]
      simp
    · rw [inProgress_status (h.others k hk hne), readOnly_status (h.others k hk hne)]

theorem uncountXmin_spec (h : Ends sxact s.sxact s.activeList i) (ho : Oldest sxact s.activeList s.oldest) :
    ∃ globalXmin count, (uncountXmin i s).1 = { s with sxactGlobalXmin := globalXmin, sxactGlobalXminCount := count } ∧
      Oldest s.sxact s.activeList (globalXmin, count) := by
  rw [State.oldest] at ho
  rw [uncountXmin, h.xmin]
  cases hx : s.sxactGlobalXmin with
  | none =>
    rw [hx] at ho
    exact absurd (h.before.symm.trans (ho.2 i h.mem)) nofun
  | some globalXmin =>
    rw [hx] at ho
    have hle : ∀ k ∈ s.activeList, inProgress s.sxact k = true → globalXmin ≤ (s.sxact k).xmin := fun k hk hp => by
      have hne : k ≠ i := fun heq => absurd ((heq ▸ hp).symm.trans h.after) nofun
      rw [xmin_status (h.others k hk hne)]
      exact ho.2.2 k hk ((inProgress_status (h.others k hk hne)).symm.trans hp)
    split
    next heq =>
      have hcount := countP_less (p := fun k => inProgress sxact k && (sxact k).xmin = globalXmin)
        (q := fun k => inProgress s.sxact k && (s.sxact k).xmin = globalXmin) h.nodup h.mem
        (by
          rw [h.before, ← Option.some.inj heq]
          simp)
        (by rw [h.after]; rfl) fun k hk hne => by
          rw [inProgress_status (h.others k hk hne), xmin_status (h.others k hk hne)]
      rw [← ho.1] at hcount
      show ∃ _ _, Prod.fst (if s.sxactGlobalXminCount - 1 = 0 then _ else _) = _ ∧ _
      split
      · exact ⟨_, _, rfl, setNewSxactGlobalXmin_oldest _⟩
      next hne =>
        refine ⟨some globalXmin, s.sxactGlobalXminCount - 1, by rw [← hx], ?_, Nat.pos_of_ne_zero hne, hle⟩
        rw [hcount, Nat.add_sub_cancel]
    next hne =>
      refine ⟨some globalXmin, s.sxactGlobalXminCount, by rw [← hx], ho.1.trans (countP_congr fun k hk => ?_), ho.2.1,
        hle⟩
      rcases eq_or_ne k i with rfl | hki
      · have hxmin : (sxact k).xmin ≠ globalXmin := fun heq => hne (congrArg some heq.symm)
        rw [h.after]
        simp [hxmin]
      · rw [inProgress_status (h.others k hk hki), xmin_status (h.others k hk hki)]

end PgStorage.Predicate
