import Mathlib

/-! Addresses of linear hashing.

A table with the buckets 0, …, `max` doubles one bucket at a time: a hash value is taken modulo
`2^(n+1)`, and modulo `2^n` if that bucket does not exist yet. Adding a bucket moves hash values
from one bucket only. -/
namespace PgStorage.LinearHash
variable {n max h : Nat}

def address (n max h : Nat) : Nat := if max < h % 2 ^ (n + 1) then h % 2 ^ n else h % 2 ^ (n + 1)

theorem address_le (hlow : 2 ^ n ≤ max + 1) : address n max h ≤ max := by
  have hmod : h % 2 ^ n < 2 ^ n := Nat.mod_lt _ (Nat.two_pow_pos n)
  rw [address]
  split_ifs <;> omega

/-- A hash value that does not go to the new bucket stays. -/
theorem address_succ_of_ne (hne : address n (max + 1) h ≠ max + 1) : address n (max + 1) h = address n max h := by
  rw [address] at hne ⊢
  rw [address]
  split_ifs at hne ⊢ <;> omega

/-- One that goes to the new bucket comes from the bucket with the same remainder. -/
theorem address_of_succ_eq (hlow : 2 ^ n ≤ max + 1)
    (hnew : address n (max + 1) h = max + 1) : address n max h = (max + 1) % 2 ^ n := by
  have hmod : h % 2 ^ n < 2 ^ n := Nat.mod_lt _ (Nat.two_pow_pos n)
  rw [address] at hnew
  split_ifs at hnew with hlt
  · omega
  · rw [address, if_pos (by omega), ← hnew, Nat.mod_mod_of_dvd h (Nat.pow_dvd_pow 2 (Nat.le_succ n))]

/-- When all `2^(n+1)` buckets exist, the next doubling begins. -/
theorem address_double : address (n + 1) (2 ^ (n + 1) - 1) h = address n (2 ^ (n + 1) - 1) h := by
  have hmod : h % 2 ^ (n + 1) < 2 ^ (n + 1) := Nat.mod_lt _ (Nat.two_pow_pos _)
  rw [address, address, if_neg (show ¬ 2 ^ (n + 1) - 1 < h % 2 ^ (n + 1) by omega)]
  split_ifs with hlt
  · rfl
  · have hsmall : h % 2 ^ (n + 1 + 1) < 2 ^ (n + 1) := by
      have := Nat.two_pow_pos (n + 1)
      omega
    rw [← Nat.mod_mod_of_dvd h (Nat.pow_dvd_pow 2 (Nat.le_succ (n + 1))), Nat.mod_eq_of_lt hsmall]

end PgStorage.LinearHash
