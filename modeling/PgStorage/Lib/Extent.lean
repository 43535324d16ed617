import Mathlib

/-! Extents that lie apart.

A family of ranges of addresses, of which some are live, lies apart in a range when each live one is inside it and no
two of them overlap. The rules say what is left of that when one extent is put in front of all others, when some are
taken along a renaming, and when those in front of one that is taken out move up. -/
namespace PgStorage.Extent

/-- The live extents are between `low` and `high`, and do not overlap. -/
structure Apart {ι : Type} (live : ι → Prop) (off len : ι → Nat) (low high : Nat) : Prop where
  inside : ∀ i, live i → low ≤ off i ∧ off i + len i ≤ high
  disjoint : ∀ i j, live i → live j → i ≠ j → off i + len i ≤ off j ∨ off j + len j ≤ off i

namespace Apart
variable {ι κ : Type} {live : ι → Prop} {off len : ι → Nat} {low high : Nat} {live' : κ → Prop} {off' len' : κ → Nat}

/-- One extent is put in front of all others, which are those of before under other names. -/
theorem insert (h : Apart live off len low high) (src : κ → ι) (u : κ) (low' : Nat)
    (hold : ∀ j, live' j → j ≠ u → live (src j) ∧ off' j = off (src j) ∧ len' j = len (src j))
    (hinj : ∀ j k, live' j → live' k → j ≠ u → k ≠ u → src j = src k → j = k)
    (hnew : live' u → low' ≤ off' u ∧ off' u + len' u ≤ low) (hlow : low' ≤ low) (hhigh : low ≤ high) :
    Apart live' off' len' low' high := by
  constructor
  · intro j hj
    by_cases hju : j = u
    · subst hju
      have := hnew hj
      omega
    · obtain ⟨hl, ho, hn⟩ := hold j hj hju
      have := h.inside _ hl
      omega
  · intro j k hj hk hjk
    by_cases hju : j = u
    · subst hju
      obtain ⟨hl, ho, hn⟩ := hold k hk (Ne.symm hjk)
      have := hnew hj
      have := h.inside _ hl
      omega
    · obtain ⟨hl, ho, hn⟩ := hold j hj hju
      by_cases hku : k = u
      · subst hku
        have := hnew hk
        have := h.inside _ hl
        omega
      · obtain ⟨kl, ko, kn⟩ := hold k hk hku
        rw [ho, hn, ko, kn]
        exact h.disjoint _ _ hl kl fun e => hjk (hinj j k hj hk hju hku e)

/-- What is aligned ends, with what aligns it, before the next one begins. -/
theorem before (h : Apart live off len low high) (up : Nat → Nat) (hup : ∀ n a, 8 ∣ a → n ≤ a → up n ≤ a) {i t : ι}
    (hi : live i) (ht : live t) (hit : i ≠ t) (hai : 8 ∣ off i) (hat : 8 ∣ off t) :
    off i + up (len i) ≤ off t ∨ off t + up (len t) ≤ off i := by
  rcases h.disjoint i t hi ht hit with hd | hd
  · have := hup (len i) (off t - off i) (by omega) (by omega)
    omega
  · have := hup (len t) (off i - off t) (by omega) (by omega)
    omega

end Apart
end PgStorage.Extent
