import Mathlib

/-! Write-back caches.

Slots hold blocks of a store, at most one slot a block. A slot that has been written and not
copied to the store is dirty; one that is being changed, with the write still to come, is
pending. `Shows` says that slots and store together show one map of blocks: what was written
last. Each operation of a cache keeps it under the condition that is stated with it. -/
namespace PgStorage.WriteBack

variable {ι κ V : Type}

structure Cache (ι κ V : Type) where
  key : ι → Option κ
  data : ι → V
  dirty : ι → Bool
  pending : ι → Bool
  store : κ → V

/-- The cache shows the map `written`. -/
structure Shows (c : Cache ι κ V) (written : κ → V) : Prop where
  unique : ∀ i j k, c.key i = some k → c.key j = some k → i = j
  current : ∀ i k, c.key i = some k → c.pending i = false → c.data i = written k
  clean : ∀ i k, c.key i = some k → c.dirty i = false → c.pending i = false → c.data i = c.store k
  absent : ∀ k, (∀ i, c.key i ≠ some k) → written k = c.store k

/-- Two caches that differ in slot `i` and in block `k` of the store at most. -/
structure Elsewhere (c c' : Cache ι κ V) (i : ι) (k : κ) : Prop where
  key : ∀ j, j ≠ i → c'.key j = c.key j
  data : ∀ j, j ≠ i → c'.data j = c.data j
  dirty : ∀ j, j ≠ i → c'.dirty j = c.dirty j
  pending : ∀ j, j ≠ i → c'.pending j = c.pending j
  store : ∀ k', k' ≠ k → c'.store k' = c.store k'

variable {c c' : Cache ι κ V} {written written' : κ → V} {i : ι} {k : κ}

/-- A slot goes on holding its block; contents, flags and the copy in the store may change. -/
theorem Shows.touch (h : Shows c written) (he : Elsewhere c c' i k) (hi : c.key i = some k) (hi' : c'.key i = some k)
    (hw : ∀ k', k' ≠ k → written' k' = written k') (hcurrent : c'.pending i = false → c'.data i = written' k)
    (hclean : c'.dirty i = false → c'.pending i = false → c'.data i = c'.store k) : Shows c' written' := by
  have hkey : c'.key = c.key := by
    funext j
    by_cases hji : j = i
    · rw [hji, hi, hi']
    · exact he.key j hji
  have hother {j : ι} {k' : κ} (hj : c.key j = some k') (hji : j ≠ i) : k' ≠ k := by
    rintro rfl
    exact hji (h.unique j i k' hj hi)
  have hself {k' : κ} (hk : c.key i = some k') : k' = k := Option.some.inj (hk.symm.trans hi)
  refine ⟨hkey ▸ h.unique, fun j k' hj hp => ?_, fun j k' hj hd hp => ?_, fun k' hk' => ?_⟩
  · rw [hkey] at hj
    by_cases hji : j = i
    · subst hji
      rw [hself hj]
      exact hcurrent hp
    · rw [he.data j hji, hw k' (hother hj hji)]
      exact h.current j k' hj ((he.pending j hji).symm.trans hp)
  · rw [hkey] at hj
    by_cases hji : j = i
    · subst hji
      rw [hself hj]
      exact hclean hd hp
    · rw [he.data j hji, he.store k' (hother hj hji)]
      exact h.clean j k' hj ((he.dirty j hji).symm.trans hd) ((he.pending j hji).symm.trans hp)
  · have hne : k' ≠ k := by
      rintro rfl
      exact hk' i hi'
    rw [hw k' hne, he.store k' hne]
    exact h.absent k' fun j hj => hk' j (hkey ▸ hj)

/-- A slot given up: what it holds is in the store, or it holds nothing. -/
theorem Shows.drop (h : Shows c written) (he : Elsewhere c c' i k) (hi : c'.key i = none) (hs : c'.store = c.store)
    (hp : ∀ k', c.key i = some k' → c.pending i = false)
    (hd : ∀ k', c.key i = some k' → c.dirty i = true → c.data i = c.store k') : Shows c' written := by
  have hold {j : ι} {k' : κ} (hj : c'.key j = some k') : j ≠ i ∧ c.key j = some k' := by
    have hji : j ≠ i := by rintro rfl; rw [hi] at hj; cases hj
    exact ⟨hji, (he.key j hji).symm.trans hj⟩
  refine ⟨fun a b k' ha hb => h.unique a b k' (hold ha).2 (hold hb).2, fun j k' hj hpj => ?_,
    fun j k' hj hdj hpj => ?_, fun k' hk' => ?_⟩
  · obtain ⟨hji, hj⟩ := hold hj
    rw [he.data j hji]
    exact h.current j k' hj ((he.pending j hji).symm.trans hpj)
  · obtain ⟨hji, hj⟩ := hold hj
    rw [he.data j hji, hs]
    exact h.clean j k' hj ((he.dirty j hji).symm.trans hdj) ((he.pending j hji).symm.trans hpj)
  · rw [hs]
    by_cases hk : c.key i = some k'
    · rw [← h.current i k' hk (hp k' hk)]
      cases hdi : c.dirty i with
      | true => exact hd k' hk hdi
      | false => exact h.clean i k' hk hdi (hp k' hk)
    · refine h.absent k' fun j hj => ?_
      have hji : j ≠ i := fun e => hk (e ▸ hj)
      exact hk' j ((he.key j hji).trans hj)

/-- A block put into an empty slot, with contents that the store has too. -/
theorem Shows.fill (h : Shows c written) (he : Elsewhere c c' i k) (hi : c.key i = none) (hi' : c'.key i = some k)
    (hk : ∀ j, c.key j ≠ some k) (hw : ∀ k', k' ≠ k → written' k' = written k') (hwk : written' k = c'.store k)
    (hv : c'.data i = c'.store k) : Shows c' written' := by
  have hself {j : ι} {k' : κ} (hj : c'.key j = some k') :
      j = i ∧ k' = k ∨ j ≠ i ∧ k' ≠ k ∧ c.key j = some k' := by
    by_cases hji : j = i
    · rw [hji, hi'] at hj
      exact .inl ⟨hji, (Option.some.inj hj).symm⟩
    · rw [he.key j hji] at hj
      exact .inr ⟨hji, fun e => hk j (e ▸ hj), hj⟩
  refine ⟨fun a b k' ha hb => ?_, fun j k' hj hp => ?_, fun j k' hj hd hp => ?_, fun k' hk' => ?_⟩
  · obtain ⟨rfl, rfl⟩ | ⟨-, hne, ha⟩ := hself ha
    · exact ((hself hb).resolve_right fun e => e.2.1 rfl).1.symm
    · obtain ⟨-, rfl⟩ | ⟨-, -, hb⟩ := hself hb
      · exact absurd rfl hne
      · exact h.unique a b k' ha hb
  · obtain ⟨rfl, rfl⟩ | ⟨hji, hne, hj⟩ := hself hj
    · rw [hwk]
      exact hv
    · rw [hw k' hne, he.data j hji]
      exact h.current j k' hj ((he.pending j hji).symm.trans hp)
  · obtain ⟨rfl, rfl⟩ | ⟨hji, hne, hj⟩ := hself hj
    · exact hv
    · rw [he.data j hji, he.store k' hne]
      exact h.clean j k' hj ((he.dirty j hji).symm.trans hd) ((he.pending j hji).symm.trans hp)
  · have hne : k' ≠ k := by
      rintro rfl
      exact hk' i hi'
    rw [hw k' hne, he.store k' hne]
    refine h.absent k' fun j hj => hk' j ?_
    have hji : j ≠ i := by rintro rfl; rw [hi] at hj; cases hj
    exact (he.key j hji).trans hj

end PgStorage.WriteBack
