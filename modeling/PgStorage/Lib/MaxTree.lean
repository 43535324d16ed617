import Mathlib

/-! Trees of maxima in an array.

The root is at 0 and the children of `x` are at `2 * x + 1` and `2 * x + 2`. There are `h` full levels of inner nodes,
and of the level of leaves only some are present; what is absent counts as 0. An inner node that holds the larger of its
children bounds all leaves below it, and one of them reaches it. -/
namespace PgStorage.MaxTree

/-- Node `j` of level `l`. -/
def node (l j : Nat) : Nat := 2 ^ l - 1 + j

/-- The value of a node, 0 if it is absent. -/
def valueAt (value : Nat → Nat) (total x : Nat) : Nat := if x < total then value x else 0

/-- Each inner node holds the larger one of its children. -/
def IsMaxTree (value : Nat → Nat) (inner total : Nat) : Prop :=
  ∀ x < inner, value x = max (valueAt value total (2 * x + 1)) (valueAt value total (2 * x + 2))

variable {value : Nat → Nat} {h l j t total min x : Nat}

theorem node_lt_inner (hl : l < h) (hj : j < 2 ^ l) : node l j < 2 ^ h - 1 := by
  have hpow : 2 ^ (l + 1) ≤ 2 ^ h := Nat.pow_le_pow_right (by decide) hl
  rw [pow_succ] at hpow
  unfold node
  omega

theorem left_node : 2 * node l j + 1 = node (l + 1) (2 * j) := by
  have := Nat.two_pow_pos l
  unfold node
  rw [pow_succ]
  omega

theorem right_node : 2 * node l j + 2 = node (l + 1) (2 * j + 1) := by
  have := Nat.two_pow_pos l
  unfold node
  rw [pow_succ]
  omega

theorem IsMaxTree.node_eq (hv : IsMaxTree value (2 ^ h - 1) total) (htotal : 2 ^ h - 1 ≤ total) (hl : l < h)
    (hj : j < 2 ^ l) : valueAt value total (node l j) =
      max (valueAt value total (node (l + 1) (2 * j))) (valueAt value total (node (l + 1) (2 * j + 1))) := by
  have hlt := node_lt_inner hl hj
  rw [← left_node, ← right_node, ← hv _ hlt]
  exact if_pos (by omega)

/-- A node bounds the leaves below it. -/
theorem IsMaxTree.leaf_le (hv : IsMaxTree value (2 ^ h - 1) total) (htotal : 2 ^ h - 1 ≤ total) (k : Nat)
    (hk : l + k = h) (hj : j < 2 ^ l) (hlow : j * 2 ^ k ≤ t) (hhigh : t < (j + 1) * 2 ^ k) :
    valueAt value total (node h t) ≤ valueAt value total (node l j) := by
  induction k generalizing l j with
  | zero =>
    rw [pow_zero, mul_one] at hlow hhigh
    have ht : t = j := by omega
    rw [ht, ← hk, add_zero]
  | succ k ih =>
    have hpow : 2 ^ (k + 1) = 2 * 2 ^ k := by rw [pow_succ, mul_comm]
    have hjl : 2 ^ (l + 1) = 2 * 2 ^ l := by rw [pow_succ, mul_comm]
    rw [hv.node_eq htotal (by omega) hj]
    have h1 : j * (2 * 2 ^ k) = 2 * j * 2 ^ k := by rw [← mul_assoc, mul_comm j 2]
    have h2 : (j + 1) * (2 * 2 ^ k) = (2 * j + 1 + 1) * 2 ^ k := by
      rw [← mul_assoc]
      congr 1
      omega
    rw [hpow, h1] at hlow
    rw [hpow, h2] at hhigh
    rcases Nat.lt_or_ge t ((2 * j + 1) * 2 ^ k) with hlt | hge
    · exact le_trans (ih (l := l + 1) (j := 2 * j) (by omega) (by omega) hlow hlt) (le_max_left _ _)
    · exact le_trans (ih (l := l + 1) (j := 2 * j + 1) (by omega) (by omega) hge hhigh) (le_max_right _ _)

end PgStorage.MaxTree
