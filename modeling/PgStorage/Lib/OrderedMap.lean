import Mathlib

/-! An ordered map as the list of its rows.

The keys ascend. A scan from a key on is what is left of the list, and an entry is told by membership. -/
namespace PgStorage
open List

structure OrderedMap (V : Type) where
  rows : List (Nat × V)
  sorted : rows.Pairwise fun a b => a.1 < b.1

namespace OrderedMap
variable {V : Type} {m : OrderedMap V} {l : List (Nat × V)} {r : Nat × V} {k p q : Nat} {v w : V}

/-- The rows from a key on, in order. -/
def scan (m : OrderedMap V) (k : Nat) : List (Nat × V) := m.rows.filter fun r => k ≤ r.1

def last? (m : OrderedMap V) : Option (Nat × V) := m.rows.getLast?

def set (m : OrderedMap V) (p : Nat) (v : V) : OrderedMap V where
  rows := m.rows.filter (fun r => r.1 < p) ++ (p, v) :: m.rows.filter fun r => p < r.1
  sorted := by
    refine List.pairwise_append.mpr ⟨m.sorted.filter _, List.pairwise_cons.mpr ⟨fun r hr => ?_, m.sorted.filter _⟩,
      fun r hr t ht => ?_⟩
    · exact of_decide_eq_true (List.mem_filter.mp hr).2
    · have hrp : r.1 < p := of_decide_eq_true (List.mem_filter.mp hr).2
      rcases List.mem_cons.mp ht with rfl | ht
      · exact hrp
      · exact hrp.trans (of_decide_eq_true (List.mem_filter.mp ht).2)

def erase (m : OrderedMap V) (p : Nat) : OrderedMap V where
  rows := m.rows.filter fun r => r.1 ≠ p
  sorted := m.sorted.filter _

theorem mem_set : (q, w) ∈ (m.set p v).rows ↔ q = p ∧ w = v ∨ q ≠ p ∧ (q, w) ∈ m.rows := by
  rw [set]
  dsimp only
  rw [mem_append, mem_cons, mem_filter, mem_filter, Prod.mk.injEq, decide_eq_true_eq,
    decide_eq_true_eq]
  rcases lt_trichotomy q p with h | h | h
  · simp [h, h.ne, h.asymm]
  · simp [h]
  · simp [h, h.ne', h.asymm]

theorem mem_erase : (q, w) ∈ (m.erase p).rows ↔ q ≠ p ∧ (q, w) ∈ m.rows := by
  rw [erase, mem_filter, decide_eq_true_eq, and_comm]

theorem mem_scan : (q, w) ∈ m.scan k ↔ k ≤ q ∧ (q, w) ∈ m.rows := by
  rw [scan, mem_filter, decide_eq_true_eq, and_comm]

/-- A list of rows has one value for each key. -/
theorem value_unique (hl : l.Pairwise fun a b => a.1 < b.1) (hv : (p, v) ∈ l) (hw : (p, w) ∈ l) : v = w := by
  induction l with
  | nil => exact absurd hv not_mem_nil
  | cons r l ih =>
    obtain ⟨hr, hl⟩ := pairwise_cons.mp hl
    rcases mem_cons.mp hv with rfl | hv'
    · rcases mem_cons.mp hw with hw' | hw'
      · exact (Prod.ext_iff.mp hw').2.symm
      · exact absurd (hr (p, w) hw') (lt_irrefl p)
    · rcases mem_cons.mp hw with rfl | hw'
      · exact absurd (hr (p, v) hv') (lt_irrefl p)
      · exact ih hl hv' hw'

theorem sorted_scan : (m.scan k).Pairwise fun a b => a.1 < b.1 := m.sorted.filter _

theorem scan_scan (h : k ≤ p) : (m.scan k).filter (fun r => p ≤ r.1) = m.scan p := by
  rw [scan, scan, filter_filter]
  refine filter_congr fun r _ => ?_
  rw [← Bool.decide_and]
  exact decide_eq_decide.mpr ⟨And.left, fun hp => ⟨hp, h.trans hp⟩⟩

/-- A scan goes on behind its first row. -/
theorem scan_rest (h : m.scan k = r :: l) : m.scan (r.1 + 1) = l := by
  have hs : (m.scan k).Pairwise fun a b => a.1 < b.1 := sorted_scan
  have hk : k ≤ r.1 := by
    have hr : (r.1, r.2) ∈ m.scan k := h ▸ mem_cons_self
    exact (mem_scan.mp hr).1
  rw [← scan_scan (hk.trans (Nat.le_succ _)), h]
  rw [h] at hs
  rw [filter_cons_of_neg (by simp), filter_eq_self]
  exact fun t ht => decide_eq_true ((pairwise_cons.mp hs).1 t ht)

/-- A scan passes a key that is not there. -/
theorem scan_succ (h : ∀ v, (k, v) ∉ m.rows) : m.scan (k + 1) = m.scan k := by
  rw [← scan_scan (Nat.le_succ k), filter_eq_self]
  intro r hr
  obtain ⟨hk, hr⟩ := mem_scan.mp hr
  have hne : r.1 ≠ k := fun he => h r.2 (he ▸ hr)
  exact decide_eq_true (Nat.lt_of_le_of_ne hk hne.symm)

/-- A scan behind a key does not see what is done to it. -/
theorem scan_set (h : p < k) : (m.set p v).scan k = m.scan k := by
  rw [scan, set, scan, filter_append, filter_cons_of_neg (by simpa using h), filter_filter,
    filter_filter]
  have hbelow : m.rows.filter (fun r => decide (k ≤ r.1) && decide (r.1 < p)) = [] :=
    filter_eq_nil_iff.mpr fun r _ => by
      simp only [Bool.and_eq_true, decide_eq_true_eq, not_and]
      omega
  rw [hbelow, nil_append]
  refine filter_congr fun r _ => ?_
  rw [← Bool.decide_and]
  exact decide_eq_decide.mpr ⟨And.left, fun hk => ⟨hk, h.trans_le hk⟩⟩

theorem mem_foldl_erase : (q, w) ∈ (l.foldl (fun m r => m.erase r.1) m).rows ↔
    (q, w) ∈ m.rows ∧ ∀ r ∈ l, q ≠ r.1 := by
  induction l generalizing m with
  | nil => exact ⟨fun h => ⟨h, nofun⟩, And.left⟩
  | cons r l ih =>
    rw [foldl_cons, ih, mem_erase, forall_mem_cons, and_comm (a := q ≠ r.1), and_assoc]

/-! ### Lookup and counts -/

def empty : OrderedMap V := ⟨[], .nil⟩

def get? (m : OrderedMap V) (p : Nat) : Option V := (m.rows.find? fun r => r.1 = p).map (·.2)

theorem get?_eq_some : m.get? p = some v ↔ (p, v) ∈ m.rows := by
  rw [get?, Option.map_eq_some_iff]
  constructor
  · rintro ⟨⟨k, w⟩, hr, rfl⟩
    have hk : k = p := by simpa using find?_some hr
    exact hk ▸ mem_of_find?_eq_some hr
  · intro h
    have hsome : (m.rows.find? fun r => r.1 = p).isSome := find?_isSome.mpr ⟨_, h, decide_eq_true rfl⟩
    obtain ⟨⟨k, w⟩, hr⟩ := Option.isSome_iff_exists.mp hsome
    obtain rfl : k = p := by simpa using find?_some hr
    exact ⟨_, hr, value_unique m.sorted (mem_of_find?_eq_some hr) h⟩

theorem get?_eq_none : m.get? p = none ↔ ∀ v, (p, v) ∉ m.rows := by
  rw [Option.eq_none_iff_forall_ne_some]
  exact forall_congr' fun v => not_congr get?_eq_some

/-- A map is told by its entries. -/
theorem ext_mem {m' : OrderedMap V} (h : ∀ q w, (q, w) ∈ m.rows ↔ (q, w) ∈ m'.rows) : m = m' := by
  have hirrefl : ∀ {l : List (Nat × V)}, l.Pairwise (fun a b => a.1 < b.1) → l.Nodup := fun hl =>
    hl.imp fun hab he => absurd (congrArg Prod.fst he) hab.ne
  have hperm := (perm_ext_iff_of_nodup (hirrefl m.sorted) (hirrefl m'.sorted)).mpr fun r => h r.1 r.2
  have hrows : m.rows = m'.rows :=
    hperm.eq_of_pairwise (fun a b _ _ hab hba => absurd hba hab.asymm) m.sorted m'.sorted
  obtain ⟨rows, hs⟩ := m
  obtain ⟨rows', hs'⟩ := m'
  dsimp only at hrows
  subst hrows
  rfl

theorem set_self (h : (p, v) ∈ m.rows) : m.set p v = m :=
  ext_mem fun q w => by
    rw [mem_set]
    constructor
    · rintro (⟨rfl, rfl⟩ | ⟨-, hq⟩)
      · exact h
      · exact hq
    · intro hq
      by_cases hqp : q = p
      · subst hqp
        exact .inl ⟨rfl, value_unique m.sorted hq h⟩
      · exact .inr ⟨hqp, hq⟩

theorem erase_of_not_mem (h : ∀ v, (p, v) ∉ m.rows) : m.erase p = m :=
  ext_mem fun q w => by
    rw [mem_erase, and_iff_right_iff_imp]
    exact fun hq hqp => h w (hqp ▸ hq)

/-- How many entries have a value of a kind. -/
def count (m : OrderedMap V) (P : V → Bool) : Nat := m.rows.countP fun r => P r.2

variable {P : V → Bool}

theorem count_set : (m.set p v).count P = (m.erase p).count P + if P v then 1 else 0 := by
  have hsplit : ∀ l : List (Nat × V), (l.filter fun r => r.1 < p).countP (fun r => P r.2) +
      (l.filter fun r => p < r.1).countP (fun r => P r.2) = (l.filter fun r => r.1 ≠ p).countP fun r => P r.2 := by
    intro l
    induction l with
    | nil => rfl
    | cons r l ih =>
      rcases lt_trichotomy r.1 p with h | h | h
      · rw [filter_cons_of_pos (by simpa using h), filter_cons_of_neg (by simpa using h.le),
          filter_cons_of_pos (by simpa using h.ne), countP_cons, countP_cons, ← ih]
        omega
      · rw [filter_cons_of_neg (by simp [h]), filter_cons_of_neg (by simp [h]),
          filter_cons_of_neg (by simp [h]), ih]
      · rw [filter_cons_of_neg (by simpa using h.le), filter_cons_of_pos (by simpa using h),
          filter_cons_of_pos (by simpa using h.ne'), countP_cons, countP_cons, ← ih]
        omega
  rw [count, count, set, erase]
  dsimp only
  rw [countP_append, countP_cons, ← add_assoc, hsplit]

theorem count_erase (h : (p, v) ∈ m.rows) : (m.erase p).count P + (if P v then 1 else 0) = m.count P := by
  rw [← count_set, set_self h]

theorem count_set_of_mem (h : (p, w) ∈ m.rows) :
    (m.set p v).count P + (if P w then 1 else 0) = m.count P + if P v then 1 else 0 := by
  rw [count_set, ← count_erase h]
  omega

theorem count_set_of_not_mem (h : ∀ v, (p, v) ∉ m.rows) :
    (m.set p v).count P = m.count P + if P v then 1 else 0 := by
  rw [count_set, erase_of_not_mem h]

theorem erase_set : (m.set p v).erase p = m.erase p :=
  ext_mem fun q w => by
    rw [mem_erase, mem_erase, mem_set]
    constructor
    · rintro ⟨hne, ⟨rfl, -⟩ | ⟨-, hq⟩⟩
      · exact absurd rfl hne
      · exact ⟨hne, hq⟩
    · exact fun h => ⟨h.1, .inr h⟩

theorem set_set : (m.set p v).set p w = m.set p w :=
  ext_mem fun q u => by
    rw [mem_set, mem_set, mem_set]
    refine or_congr_right (and_congr_right fun hne => ?_)
    exact ⟨fun h => (h.resolve_left fun hq => hne hq.1).2, fun h => .inr ⟨hne, h⟩⟩

end OrderedMap
end PgStorage
