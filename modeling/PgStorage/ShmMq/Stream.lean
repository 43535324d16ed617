import PgStorage.Lib.Circular
import PgStorage.ShmMq.ShmMq

/-! The bytes of a sequence of messages.

Each message is put into the queue as its length word, its bytes and padding up to the next multiple
of 8. The padding is never written, so the stream leaves it open.

However the bytes of a message are split over a vector, each piece that `shm_mq_sendv` writes is the
part of the message that is due next, and its length is a multiple of 8 unless it ends the message. -/
namespace PgStorage.ShmMq
open Memory Circular List

section Bytes
variable {a k m n : Nat}

theorem le_maxAlign : n ≤ maxAlign n := by unfold maxAlign; omega

theorem maxAlign_lt : maxAlign n < n + 8 := by unfold maxAlign; omega

theorem dvd_maxAlign : 8 ∣ maxAlign n := Nat.dvd_mul_left 8 _

theorem maxAlign_eq (h : 8 ∣ n) : maxAlign n = n := by unfold maxAlign; omega

theorem maxAlign_le (hk : 8 ∣ k) (h : n ≤ k) : maxAlign n ≤ k := by unfold maxAlign; omega

theorem maxAlign_add (h : 8 ∣ a) : maxAlign (a + n) = a + maxAlign n := by unfold maxAlign; omega

@[simp] theorem maxAlign_zero : maxAlign 0 = 0 := rfl

@[simp] theorem maxAlign_eight : maxAlign 8 = 8 := rfl

theorem u64_eq (h : n < 2 ^ 64) : u64 n = n := Nat.mod_eq_of_lt h

@[simp] theorem length_sizeBytes : (sizeBytes n).length = 8 := by simp [sizeBytes]

theorem loadSize_sizeBytes {ring : Mem} (h : bytes ring a 8 = sizeBytes n) (hn : n < 2 ^ 64) :
    loadSize ring a = n := by
  have hb : ∀ k < 8, ring (a + k) = UInt8.ofNat (n / 256 ^ k) := by
    intro k hk
    have hget : (bytes ring a 8)[k]? = (sizeBytes n)[k]? := congrArg (·[k]?) h
    simpa [bytes, sizeBytes, hk] using hget
  have h0 := hb 0 (by decide)
  have h1 := hb 1 (by decide)
  have h2 := hb 2 (by decide)
  have h3 := hb 3 (by decide)
  have h4 := hb 4 (by decide)
  have h5 := hb 5 (by decide)
  have h6 := hb 6 (by decide)
  have h7 := hb 7 (by decide)
  simp only [loadSize, load32, add_assoc, Nat.reduceAdd]
  rw [add_zero] at h0
  rw [h0, h1, h2, h3, h4, h5, h6, h7]
  simp only [UInt8.toNat_ofNat']
  omega

/-- The length word and the bytes of a message. -/
def word (m : Msg) : Msg := sizeBytes m.length ++ m

def enc (m : Msg) : List (Option UInt8) :=
  (word m).map some ++ List.replicate (maxAlign m.length - m.length) none

def stream (l : List Msg) : List (Option UInt8) := l.flatMap enc

@[simp] theorem length_word (m : Msg) : (word m).length = 8 + m.length := by simp [word]

@[simp] theorem length_enc (m : Msg) : (enc m).length = 8 + maxAlign m.length := by
  have := le_maxAlign (n := m.length)
  simp only [enc, length_append, length_map, length_word, length_replicate]
  omega

theorem stream_concat (l : List Msg) (m : Msg) : stream (l ++ [m]) = stream l ++ enc m := by
  simp [stream]

theorem length_stream_concat (l : List Msg) (m : Msg) :
    (stream (l ++ [m])).length = (stream l).length + (8 + maxAlign m.length) := by
  rw [stream_concat, length_append, length_enc]

variable {l l' : List Msg}

theorem prefix_stream (h : l <+: l') : stream l <+: stream l' := by
  obtain ⟨t, rfl⟩ := h
  exact ⟨stream t, by simp [stream]⟩

theorem dvd_length_stream (l : List Msg) : 8 ∣ (stream l).length := by
  induction l using reverseRecOn with
  | nil => exact Nat.dvd_zero 8
  | append_singleton l m ih =>
    have := dvd_maxAlign (n := m.length)
    rw [length_stream_concat]
    omega

/-- What a longer stream has where it already was. -/
theorem stream_getElem_of_lt {x : Nat} (h : l <+: l') (hx : x < (stream l).length) :
    (stream l')[x]? = (stream l)[x]? := by
  obtain ⟨t, ht⟩ := prefix_stream h
  rw [← ht, getElem?_append_left hx]

theorem stream_getElem {m : Msg} {i : Nat} (h : l ++ [m] <+: l') (hi : i < 8 + maxAlign m.length) :
    (stream l')[(stream l).length + i]? = (enc m)[i]? := by
  have hlen := length_stream_concat l m
  rw [stream_getElem_of_lt h (by omega), stream_concat, getElem?_append_right (by omega),
    Nat.add_sub_cancel_left]

/-- The bytes of a message in the stream. -/
theorem stream_eq_some {m : Msg} {i : Nat} {b : UInt8} (h : l ++ [m] <+: l') (hi : i < 8 + maxAlign m.length) :
    (stream l')[(stream l).length + i]? = some (some b) ↔ (word m)[i]? = some b := by
  rw [stream_getElem h hi, enc]
  by_cases hlt : i < (word m).length
  · rw [getElem?_append_left (by simpa using hlt), getElem?_map]
    simp
  · have hnone : (word m)[i]? = none := getElem?_eq_none (by omega)
    have hle : ((word m).map some).length ≤ i := by rw [length_map]; omega
    rw [hnone, getElem?_append_right hle, getElem?_replicate]
    split <;> simp

end Bytes

/-! ### The pieces in which a vector is sent -/

section Pieces
variable {nbytes p offset n : Nat} {rest : List Msg} {m v data tmpbuf : Msg} {part : Part}

/-- `data` is a part of the length word and the bytes of `m`, from byte `p` on. -/
structure Segment (m : Msg) (p : Nat) (data : Msg) : Prop where
  eq : data = ((word m).drop p).take data.length
  le : p + data.length ≤ (word m).length
  start : 8 ∣ p
  fin : 8 ∣ data.length ∨ p + data.length = (word m).length

/-- What is left of the vector, seen from the part of the message at `p` of length `len`. -/
def Part.Continues (m : Msg) (p len : Nat) : Part → Prop
  | .length => False
  | .gathered rest offset => rest.flatten.drop offset = m.drop (p + len)
  | .direct rest offset => rest.flatten.drop offset = m.drop p

theorem word_drop (m : Msg) (p : Nat) : (word m).drop (8 + p) = m.drop p := by
  have h : (sizeBytes m.length ++ m).drop ((sizeBytes m.length).length + p) = m.drop p :=
    drop_length_add_append p
  rwa [length_sizeBytes] at h

theorem drop_flatten_cons : (v :: rest).flatten.drop offset =
    v.drop offset ++ rest.flatten.drop (offset - v.length) := by
  rw [flatten_cons, drop_append]

theorem gather_spec (rest : List Msg) (offset : Nat) (tmpbuf : Msg) (h : tmpbuf.length < 8) :
    (gather rest offset tmpbuf).1 = tmpbuf ++ (rest.flatten.drop offset).take (8 - tmpbuf.length) ∧
    (gather rest offset tmpbuf).2.1.flatten.drop (gather rest offset tmpbuf).2.2 =
      (rest.flatten.drop offset).drop (8 - tmpbuf.length) := by
  induction rest generalizing offset tmpbuf with
  | nil => simp [gather]
  | cons v rest ih =>
    have hgot : ((v.drop offset).take (8 - tmpbuf.length)).length =
        min (8 - tmpbuf.length) (v.length - offset) := by
      rw [length_take, length_drop]
    by_cases hfull : tmpbuf.length + ((v.drop offset).take (8 - tmpbuf.length)).length = 8
    · simp only [gather, if_pos hfull]
      have hlen : ((v.drop offset).take (8 - tmpbuf.length)).length = 8 - tmpbuf.length := by omega
      refine ⟨?_, ?_⟩
      · rw [drop_flatten_cons, take_append_of_le_length (by rw [length_drop]; omega)]
      · rw [hlen, ← drop_drop]
    · simp only [gather, if_neg hfull]
      have hshort : v.length - offset < 8 - tmpbuf.length := by omega
      have hlen : (v.drop offset).length = v.length - offset := length_drop
      have hall : (v.drop offset).take (8 - tmpbuf.length) = v.drop offset :=
        take_of_length_le (by omega)
      have hnil : (v.drop offset).drop (8 - tmpbuf.length) = [] := drop_eq_nil_of_le (by omega)
      have hoff : offset + (v.drop offset).length - v.length = offset - v.length := by omega
      have hnew : (tmpbuf ++ v.drop offset).length = tmpbuf.length + (v.length - offset) := by
        rw [length_append, hlen]
      obtain ⟨h1, h2⟩ := ih (offset - v.length) (tmpbuf ++ v.drop offset) (by omega)
      rw [hall, hoff, h1, h2, drop_flatten_cons, hnew, Nat.sub_add_eq]
      refine ⟨?_, ?_⟩
      · rw [take_append, hall, hlen, append_assoc]
      · rw [drop_append, hnil, nil_append, hlen]

/-- Part of the bytes of a message. -/
theorem segment_of_take (hle : p + n ≤ m.length) (hp : 8 ∣ p) (hfin : 8 ∣ n ∨ p + n = m.length) :
    Segment m (8 + p) ((m.drop p).take n) := by
  have hlen : ((m.drop p).take n).length = n := by
    rw [length_take, length_drop]
    omega
  refine ⟨?_, ?_, by omega, ?_⟩
  · rw [hlen, word_drop]
  · rw [hlen, length_word]
    omega
  · rw [hlen, length_word]
    omega

/-- A piece is the part of the message that is due. -/
theorem chunk_some (h : chunk nbytes p rest offset = some (part, data))
    (hrest : rest.flatten.drop offset = m.drop p)
    (hp : 8 ∣ p ∨ p = m.length) :
    Segment m (8 + p) data ∧ 0 < data.length ∧ part.Continues m p data.length := by
  induction rest generalizing offset with
  | nil => simp [chunk] at h
  | cons v rest ih =>
    by_cases hoff : v.length ≤ offset
    · simp only [chunk, if_pos hoff] at h
      split at h
      · refine ih h ?_
        rwa [drop_flatten_cons, drop_eq_nil_of_le hoff, nil_append] at hrest
      · simp at h
    · have hdrop : m.drop p = v.drop offset ++ rest.flatten := by
        rw [← hrest, drop_flatten_cons, Nat.sub_eq_zero_of_le (by omega), drop_zero]
      have hlen : m.length - p = (v.length - offset) + rest.flatten.length := by
        rw [← length_drop, hdrop, length_append, length_drop]
      have hp8 : 8 ∣ p := by omega
      by_cases hg : rest ≠ [] ∧ v.length < offset + 8
      · obtain ⟨h1, h2⟩ := gather_spec (v :: rest) offset [] (by simp)
        simp only [chunk, if_neg hoff, if_pos hg, Option.some.injEq, Prod.mk.injEq] at h
        obtain ⟨rfl, rfl⟩ := h
        rw [hrest, nil_append, length_nil, Nat.sub_zero] at h1
        rw [hrest, length_nil, Nat.sub_zero, drop_drop] at h2
        have htake : (m.drop p).take 8 = (m.drop p).take (min 8 (m.length - p)) := by
          rw [← length_drop, ← take_take, take_length]
        have hseg := segment_of_take (m := m) (n := min 8 (m.length - p)) (by omega) hp8 (by omega)
        have hl : ((m.drop p).take (min 8 (m.length - p))).length = min 8 (m.length - p) := by
          rw [length_take, length_drop]
          omega
        rw [h1, htake]
        refine ⟨hseg, by omega, ?_⟩
        rw [hl]
        simp only [Part.Continues, h2]
        by_cases h8 : 8 ≤ m.length - p
        · rw [min_eq_left h8]
        · rw [min_eq_right (by omega), drop_eq_nil_of_le (by omega), drop_eq_nil_of_le (by omega)]
      · simp only [chunk, if_neg hoff, if_neg hg, Option.some.injEq, Prod.mk.injEq] at h
        obtain ⟨rfl, rfl⟩ := h
        generalize hn : (if rest ≠ [] then maxAlignDown (v.length - offset) else v.length - offset) = n
        have hn' : 0 < n ∧ n ≤ v.length - offset ∧ (8 ∣ n ∨ p + n = m.length) := by
          by_cases hnil : rest = []
          · rw [if_neg (not_not.mpr hnil)] at hn
            have hflat : rest.flatten.length = 0 := by rw [hnil]; rfl
            omega
          · rw [if_pos hnil] at hn
            have h8 : ¬ v.length < offset + 8 := fun hlt => hg ⟨hnil, hlt⟩
            unfold maxAlignDown at hn
            omega
        obtain ⟨hpos, hnle, hfin⟩ := hn'
        have htake : (v.drop offset).take n = (m.drop p).take n := by
          rw [hdrop, take_append_of_le_length (by rw [length_drop]; omega)]
        have hl : ((m.drop p).take n).length = n := by
          rw [length_take, length_drop]
          omega
        rw [htake]
        exact ⟨segment_of_take (by omega) hp8 hfin, by omega, hrest⟩

/-- The loop ends when all bytes of the message are written. -/
theorem chunk_none (h : chunk nbytes p rest offset = none) (hrest : rest.flatten.drop offset = m.drop p)
    (hn : m.length ≤ nbytes) : m.length ≤ p := by
  induction rest generalizing offset with
  | nil => simpa using hrest.symm
  | cons v rest ih =>
    by_cases hoff : v.length ≤ offset
    · rw [drop_flatten_cons, drop_eq_nil_of_le hoff, nil_append] at hrest
      simp only [chunk, if_pos hoff] at h
      split at h
      · exact ih h hrest
      next hcond =>
        by_cases hnil : rest = []
        · simpa [hnil] using hrest.symm
        · have : ¬ p < nbytes := fun hlt => hcond ⟨hnil, hlt⟩
          omega
    · by_cases hg : rest ≠ [] ∧ v.length < offset + 8
      · simp only [chunk, if_neg hoff, if_pos hg] at h
        simp at h
      · simp only [chunk, if_neg hoff, if_neg hg] at h
        simp at h

end Pieces

end PgStorage.ShmMq
