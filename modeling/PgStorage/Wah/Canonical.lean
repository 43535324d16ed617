import PgStorage.Wah.BooleanProofs

/-! Canonical storage is unique.

Every bitmap that the append routines and the boolean operators build stores its
groups in one way only: maximal runs, and literals that are no run. So bitmaps
with the same bits are the same array of words, which is what comparing or
hashing them word by word needs. -/
namespace PgStorage.Wah
open Bits
open List

/-- A list of words with maximal runs. -/
structure MaximalRuns (ws : List Word) : Prop where
  fills : ∀ w ∈ ws, IsFill w → 1 ≤ fillCount w
  literals : ∀ w ∈ ws, ¬ IsFill w → w ≠ 0 ∧ w ≠ allOnes
  apart : ws.IsChain Apart

variable {w u v : Word} {ws : List Word} {bmp : Bitmap}

theorem MaximalRuns.tail (h : MaximalRuns (w :: ws)) : MaximalRuns ws :=
  ⟨fun v hv => h.fills v (mem_cons_of_mem w hv), fun v hv => h.literals v (mem_cons_of_mem w hv),
    h.apart.tail⟩

/-- The first group of a word. -/
def firstGroup (w : Word) : Word := if IsFill w then fillGroup w else w

theorem expand_cons (h : IsFill w → 1 ≤ fillCount w) : ∃ gs, expand w = firstGroup w :: gs := by
  unfold expand firstGroup
  split
  · rename_i hfill
    obtain ⟨n, hn⟩ : ∃ n, fillCount w = n + 1 := ⟨fillCount w - 1, by have := h hfill; omega⟩
    rw [hn, replicate_succ]
    exact ⟨_, rfl⟩
  · exact ⟨[], rfl⟩

theorem head_flatMap_expand (h : MaximalRuns (w :: ws)) :
    ((w :: ws).flatMap expand).head? = some (firstGroup w) := by
  obtain ⟨gs, hgs⟩ := expand_cons (h.fills w (mem_cons_self ..))
  rw [flatMap_cons, hgs]
  rfl

theorem fillGroup_uniform (w : Word) : fillGroup w = 0 ∨ fillGroup w = allOnes := by
  unfold fillGroup
  split
  · exact .inr rfl
  · exact .inl rfl

/-- Runs of one group have one header. -/
theorem head_of_fillGroup (hu : IsFill u) (hv : IsFill v) (h : fillGroup u = fillGroup v) :
    u >>> 30 = v >>> 30 := by
  have hne : (0 : Word) ≠ allOnes := by decide
  unfold fillGroup at h
  rcases isFill_head hu with hu | hu <;> rcases isFill_head hv with hv | hv <;> rw [hu, hv] at h ⊢
  · exact absurd h hne
  · exact absurd h.symm hne

/-- A literal is told from a run by its first group. -/
theorem firstGroup_ne (hu : IsFill u) (hv : ¬ IsFill v) (hmixed : v ≠ 0 ∧ v ≠ allOnes) :
    firstGroup u ≠ firstGroup v := by
  rw [firstGroup, if_pos hu, firstGroup, if_neg hv]
  rcases fillGroup_uniform u with h | h <;> rw [h]
  · exact hmixed.1.symm
  · exact hmixed.2.symm

/-- A maximal run is not followed by its own group. -/
theorem run_ends (h : MaximalRuns (w :: ws)) (hfill : IsFill w) :
    (ws.flatMap expand).head? ≠ some (fillGroup w) := by
  cases ws with
  | nil => simp
  | cons u us =>
    rw [head_flatMap_expand h.tail]
    intro heq
    have hgroup : firstGroup w = firstGroup u := by
      rw [Option.some.inj heq, firstGroup, if_pos hfill]
    by_cases hu : IsFill u
    · rw [firstGroup, if_pos hfill, firstGroup, if_pos hu] at hgroup
      exact (isChain_cons_cons.mp h.apart).1 hfill hu (head_of_fillGroup hfill hu hgroup)
    · exact firstGroup_ne hfill hu (h.literals u (by simp) hu) hgroup

theorem replicate_split {α : Type} {g : α} {m n : Nat} {as bs : List α} (hmn : m < n)
    (h : replicate m g ++ as = replicate n g ++ bs) : as.head? = some g := by
  obtain ⟨k, rfl⟩ : ∃ k, n = m + (k + 1) := ⟨n - m - 1, by omega⟩
  rw [← replicate_append_replicate, append_assoc, append_cancel_left_eq] at h
  rw [h, replicate_succ]
  rfl

theorem eq_of_fill (hhead : u >>> 30 = v >>> 30) (hcount : fillCount u = fillCount v) : u = v := by
  have hdiv := congrArg BitVec.toNat hhead
  rw [toNat_head, toNat_head] at hdiv
  rw [fillCount_eq, fillCount_eq] at hcount
  apply BitVec.eq_of_toNat_eq
  omega

/-- Two maximal runs at the front of the same groups are the same word. -/
theorem fill_unique {vs : List Word} (hw : MaximalRuns (w :: ws)) (hv : MaximalRuns (v :: vs))
    (hfw : IsFill w) (hfv : IsFill v) (h : (w :: ws).flatMap expand = (v :: vs).flatMap expand) : w = v := by
  have hgroup : fillGroup w = fillGroup v := by
    have hhead := congrArg head? h
    rw [head_flatMap_expand hw, head_flatMap_expand hv, firstGroup, if_pos hfw, firstGroup, if_pos hfv] at hhead
    exact Option.some.inj hhead
  apply eq_of_fill (head_of_fillGroup hfw hfv hgroup)
  rw [flatMap_cons, flatMap_cons, expand, if_pos hfw, expand, if_pos hfv, hgroup] at h
  rcases lt_trichotomy (fillCount w) (fillCount v) with hlt | heq | hgt
  · exact absurd (replicate_split hlt h) (hgroup ▸ run_ends hw hfw)
  · exact heq
  · exact absurd (replicate_split hgt h.symm) (run_ends hv hfv)

/-- **Maximal runs are determined by the groups they expand to.** -/
theorem expand_unique {vs : List Word} (hw : MaximalRuns ws) (hv : MaximalRuns vs)
    (h : ws.flatMap expand = vs.flatMap expand) : ws = vs := by
  induction ws generalizing vs with
  | nil =>
    cases vs with
    | nil => rfl
    | cons v vs =>
      have hhead := head_flatMap_expand hv
      rw [← h] at hhead
      simp at hhead
  | cons w ws ih =>
    cases vs with
    | nil =>
      have hhead := head_flatMap_expand hw
      rw [h] at hhead
      simp at hhead
    | cons v vs =>
      have hhead := congrArg head? h
      rw [head_flatMap_expand hw, head_flatMap_expand hv] at hhead
      have hfirst := Option.some.inj hhead
      have hwv : w = v := by
        by_cases hfw : IsFill w <;> by_cases hfv : IsFill v
        · exact fill_unique hw hv hfw hfv h
        · exact absurd hfirst (firstGroup_ne hfw hfv (hv.literals v (by simp) hfv))
        · exact absurd hfirst.symm (firstGroup_ne hfv hfw (hw.literals w (by simp) hfw))
        · rwa [firstGroup, if_neg hfw, firstGroup, if_neg hfv] at hfirst
      rw [hwv, flatMap_cons, flatMap_cons, append_cancel_left_eq] at h
      rw [hwv, ih hw.tail hv.tail h]

/-! ### Bitmaps -/

/-- The bitmaps that appends and the boolean operators build, with the bits asked for. -/
inductive Built : Bitmap → List Bool → Prop where
  | make : Built makeBitmap []
  | append {bmp : Bitmap} {bits : List Bool} (op : Append) : Built bmp bits → op.Valid →
      bits.length + op.piece.length < 2 ^ 32 → Built (op.apply bmp) (bits ++ op.piece)
  | and {a b r : Bitmap} {xs ys : List Bool} {fuel : Nat} : Built a xs → Built b ys → xs.length = ys.length →
      c2And fuel a b = some r → Built r (List.zipWith (· && ·) xs ys)
  | or {a b r : Bitmap} {xs ys : List Bool} {fuel : Nat} : Built a xs → Built b ys → xs.length = ys.length →
      c2Or fuel a b = some r → Built r (List.zipWith (· || ·) xs ys)

/-- Whatever the number of passes allowed, a result is the one that enough passes give. -/
theorem c2Op_result {op : BoolOp} {f : Bool → Bool → Bool} (hop : op.Lawful f) {a b r : Bitmap} {fuel : Nat}
    (ha : WellFormed a) (hb : WellFormed b) (hlen : (decode a).length = (decode b).length)
    (hr : c2Op op fuel a b = some r) :
    WellFormed r ∧ decode r = zipWith f (decode a) (decode b) ∧ Tidy r := by
  obtain ⟨r', hr', hspec⟩ := c2Op_spec hop ha hb hlen (fuel + (a.mSize.toNat + b.mSize.toNat + 1))
    (by omega)
  obtain ⟨s, hs, rfl⟩ := Option.map_eq_some_iff.mp hr
  have hmore := Loop.iterate_mono (fuel + (a.mSize.toNat + b.mSize.toNat + 1)) (by omega) hs
  rw [c2Op, hmore, Option.map_some] at hr'
  rwa [Option.some.inj hr']

theorem Built.spec {bits : List Bool} (h : Built bmp bits) :
    WellFormed bmp ∧ decode bmp = bits ∧ Tidy bmp := by
  induction h with
  | make => exact ⟨makeBitmap_wellFormed, rfl, makeBitmap_tidy⟩
  | append op _ hv hlen ih =>
    obtain ⟨hwf, rfl, htidy⟩ := ih
    have happ := Append.apply_spec hwf hv hlen
    exact ⟨happ.wellFormed, happ.bits, happ.keeps.tidy htidy⟩
  | and _ _ hlen hr iha ihb =>
    obtain ⟨ha, rfl, -⟩ := iha
    obtain ⟨hb, rfl, -⟩ := ihb
    exact c2Op_result and_lawful ha hb hlen hr
  | or _ _ hlen hr iha ihb =>
    obtain ⟨ha, rfl, -⟩ := iha
    obtain ⟨hb, rfl, -⟩ := ihb
    exact c2Op_result or_lawful ha hb hlen hr

theorem Tidy.vec_eq (h : Tidy bmp) : vec bmp = bmp.mVec := by
  rw [vec, ← h.exact, take_length]

/-- Canonical bitmaps with the same bits agree in every field but the flag. -/
theorem tidy_unique {a b : Bitmap} (ha : WellFormed a) (hb : WellFormed b) (hta : Tidy a) (htb : Tidy b)
    (h : decode a = decode b) :
    a.mSize = b.mSize ∧ a.mVec = b.mVec ∧ a.nbits = b.nbits ∧ a.active = b.active := by
  obtain ⟨hlen, hnbits⟩ := lengths_split ha hb (congrArg length h)
  rw [decode_eq, decode_eq] at h
  obtain ⟨hbits, hactive⟩ := append_inj h (by rw [groupBits_length, groupBits_length, hlen])
  have hgroups := groupBits_inj (fun g => groups_lt) (fun g => groups_lt) hbits
  have hvec : a.mVec = b.mVec := by
    rw [← hta.vec_eq, ← htb.vec_eq]
    exact expand_unique ⟨ha.fills, hta.literals, hta.apart⟩ ⟨hb.fills, htb.literals, htb.apart⟩ hgroups
  refine ⟨BitVec.eq_of_toNat_eq ?_, hvec, BitVec.eq_of_toNat_eq ?_, ?_⟩
  · rw [← hta.exact, ← htb.exact, hvec]
  · rw [ha.count, hb.count, hgroups]
  · have hval : a.active.val = b.active.val := by
      have hb' := hb.activeVal
      rw [← hnbits] at hactive hb'
      exact BitVec.eq_of_toNat_eq (msb_inj ha.activeVal hb' hactive)
    generalize a.active = x at hval hnbits
    generalize b.active = y at hval hnbits
    obtain ⟨xv, xn⟩ := x
    obtain ⟨yv, yn⟩ := y
    dsimp only at hval hnbits
    rw [hval, hnbits]

/-- No count that keeps the bitmap below 2^32 bits reaches the header of a run. -/
theorem header_kept (hw : w ∈ vec bmp) (hfill : IsFill w)
    (cnt : Word) (hcnt : (decode bmp).length + 31 * cnt.toNat < 2 ^ 32) :
    (w + cnt) >>> 30 = w >>> 30 ∧ fillCount (w + cnt) = fillCount w + cnt.toNat := by
  have hle := fillCount_le hw hfill
  rw [decode_length] at hcnt
  rw [fillCount_eq] at hle
  have hlt := w.isLt
  have hsum : (w + cnt).toNat = w.toNat + cnt.toNat := by
    rw [BitVec.toNat_add]
    exact Nat.mod_eq_of_lt (by omega)
  refine ⟨BitVec.eq_of_toNat_eq ?_, ?_⟩
  · rw [toNat_head, toNat_head]
    omega
  · rw [fillCount_eq, fillCount_eq]
    omega

/-- **Whatever is built is in canonical form: no literal that is a run, no
neighbouring runs of one bit, no count that reaches its header; and what is built
with the same bits is stored alike.** -/
theorem built_canonical {bmp : Bitmap} {bits : List Bool} (h : Built bmp bits) :
    decode bmp = bits ∧ (∀ w ∈ vec bmp, ¬ IsFill w → w ≠ 0 ∧ w ≠ 0x7FFFFFFF) ∧
      (vec bmp).IsChain (fun u v => ¬ (IsFill u ∧ IsFill v ∧ u >>> 30 = v >>> 30)) ∧
      (∀ w ∈ vec bmp, IsFill w → 1 ≤ fillCount w ∧ 31 * fillCount w ≤ bits.length ∧
        ∀ cnt : Word, bits.length + 31 * cnt.toNat < 2 ^ 32 →
          (w + cnt) >>> 30 = w >>> 30 ∧ fillCount (w + cnt) = fillCount w + cnt.toNat) ∧
      ∀ bmp' bits', Built bmp' bits' → decode bmp' = decode bmp →
        bmp'.mSize = bmp.mSize ∧ bmp'.mVec = bmp.mVec ∧ bmp'.nbits = bmp.nbits ∧ bmp'.active = bmp.active := by
  obtain ⟨hwf, rfl, htidy⟩ := h.spec
  refine ⟨rfl, htidy.literals, ?_, fun w hw hfill => ⟨hwf.fills w hw hfill, ?_, header_kept hw hfill⟩,
    fun bmp' bits' h' hdecode => ?_⟩
  · exact htidy.apart.imp fun u v hapart ⟨hu, hv, heq⟩ => hapart hu hv heq
  · have := fillCount_le hw hfill
    rw [decode_length]
    omega
  · obtain ⟨hwf', -, htidy'⟩ := h'.spec
    exact tidy_unique hwf' hwf htidy' htidy hdecode

/-- A run appended at once and the same run merged bit by bit. -/
theorem built_canonical_run :
    (Append.run makeBitmap [.word 0xC0000002, .bits 1 3]).mVec = (Append.run makeBitmap [.bits 1 65]).mVec :=
  have hone : Built (Append.run makeBitmap [.bits 1 65]) (replicate 65 true) :=
    .append (.bits 1 65) .make (.inr rfl) (by decide +kernel)
  have htwo : Built (Append.run makeBitmap [.word 0xC0000002, .bits 1 3])
      (wordBits 0xC0000002 ++ replicate 3 true) :=
    .append (.bits 1 3) (.append (.word 0xC0000002) .make (by decide) (by decide +kernel)) (.inr rfl)
      (by decide +kernel)
  ((built_canonical hone).2.2.2.2 _ _ htwo (by decide +kernel)).2.1

end PgStorage.Wah
