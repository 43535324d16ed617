import Mathlib

/-! Byte memory.

Blocks of bytes are moved and copied, and 32-bit words are loaded and stored with the low byte
first. Each operation comes with what it leaves at an address, and what is read from a range that
it moves, writes or does not touch. -/
namespace PgStorage.Memory

abbrev Mem := Nat → UInt8

def memmove (m : Mem) (dst src n : Nat) : Mem :=
  fun a => if dst ≤ a ∧ a < dst + n then m (src + (a - dst)) else m a

def memcpy (m : Mem) (dst : Nat) (data : List UInt8) : Mem :=
  fun a => if dst ≤ a ∧ a < dst + data.length then data.getD (a - dst) 0 else m a

def load32 (m : Mem) (a : Nat) : Nat :=
  (m a).toNat + 2 ^ 8 * (m (a + 1)).toNat + 2 ^ 16 * (m (a + 2)).toNat + 2 ^ 24 * (m (a + 3)).toNat

def store32 (m : Mem) (a w : Nat) : Mem :=
  fun b => if a ≤ b ∧ b < a + 4 then UInt8.ofNat (w / 256 ^ (b - a)) else m b

/-- The bytes of a range. -/
def bytes (m : Mem) (a n : Nat) : List UInt8 := (List.range n).map fun k => m (a + k)

variable {m m' : Mem} {a b dst src n w : Nat} {data : List UInt8}

@[simp] theorem length_bytes : (bytes m a n).length = n := by simp [bytes]

@[simp] theorem bytes_zero : bytes m a 0 = [] := rfl

theorem memmove_of_mem (h : dst ≤ a ∧ a < dst + n) : memmove m dst src n a = m (src + (a - dst)) := if_pos h

theorem memmove_of_not_mem (h : a < dst ∨ dst + n ≤ a) : memmove m dst src n a = m a := if_neg (by omega)

theorem memcpy_of_not_mem (h : a < dst ∨ dst + data.length ≤ a) : memcpy m dst data a = m a := if_neg (by omega)

theorem store32_of_not_mem (h : b < a ∨ a + 4 ≤ b) : store32 m a w b = m b := if_neg (by omega)

@[simp] theorem memmove_zero : memmove m dst src 0 = m := by
  funext a
  exact memmove_of_not_mem (by omega)

theorem load32_congr (h : ∀ k < 4, m' (b + k) = m (a + k)) : load32 m' b = load32 m a := by
  have h0 := h 0 (by decide)
  have h1 := h 1 (by decide)
  have h2 := h 2 (by decide)
  have h3 := h 3 (by decide)
  rw [add_zero, add_zero] at h0
  rw [load32, load32, h0, h1, h2, h3]

/-- Words that are equal have the same bytes. -/
theorem bytes_of_load32 (h : load32 m a = load32 m' b) {k : Nat} (hk : k < 4) : m (a + k) = m' (b + k) := by
  have hlt (m : Mem) (a : Nat) : (m a).toNat < 2 ^ 8 := (m a).toNat_lt
  have h0 := hlt m a
  have h1 := hlt m (a + 1)
  have h2 := hlt m (a + 2)
  have h3 := hlt m (a + 3)
  have g0 := hlt m' b
  have g1 := hlt m' (b + 1)
  have g2 := hlt m' (b + 2)
  have g3 := hlt m' (b + 3)
  unfold load32 at h
  refine UInt8.toNat_inj.mp ?_
  match k, hk with
  | 0, _ => exact (by omega : (m a).toNat = (m' b).toNat)
  | 1, _ => omega
  | 2, _ => omega
  | 3, _ => omega

theorem load32_lt : load32 m a < 2 ^ 32 := by
  have h0 := (m a).toNat_lt
  have h1 := (m (a + 1)).toNat_lt
  have h2 := (m (a + 2)).toNat_lt
  have h3 := (m (a + 3)).toNat_lt
  unfold load32
  omega

theorem load32_store32 : load32 (store32 m a w) a = w % 2 ^ 32 := by
  have hb : ∀ k < 4, store32 m a w (a + k) = UInt8.ofNat (w / 256 ^ k) := by
    intro k hk
    rw [store32, if_pos (by omega), Nat.add_sub_cancel_left]
  have h0 := hb 0 (by decide)
  rw [add_zero] at h0
  rw [load32, h0, hb 1 (by decide), hb 2 (by decide), hb 3 (by decide)]
  simp only [UInt8.toNat_ofNat']
  omega

theorem bytes_congr (h : ∀ k < n, m' (b + k) = m (a + k)) : bytes m' b n = bytes m a n := by
  refine List.map_congr_left fun k hk => ?_
  exact h k (List.mem_range.mp hk)

theorem getElem?_bytes {k : Nat} (hk : k < n) : (bytes m a n)[k]? = some (m (a + k)) := by
  rw [bytes, List.getElem?_map, List.getElem?_range hk]
  rfl

theorem bytes_memcpy : bytes (memcpy m dst data) dst data.length = data := by
  refine List.ext_getElem (by simp) fun k hk hk' => ?_
  simp only [bytes, List.getElem_map, List.getElem_range]
  rw [memcpy, if_pos (by omega), Nat.add_sub_cancel_left, List.getD_eq_getElem _ _ hk']

/-- A range that is moved as a part of the block. -/
theorem bytes_memmove {k l : Nat} (hk : k + l ≤ n) :
    bytes (memmove m dst src n) (dst + k) l = bytes m (src + k) l := by
  refine bytes_congr fun i hi => ?_
  rw [memmove_of_mem (by omega)]
  exact congrArg m (by omega)

end PgStorage.Memory
