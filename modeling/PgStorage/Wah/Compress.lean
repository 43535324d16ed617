import PgStorage.Wah.Canonical
import PgStorage.Wah.Resize

/-! Compression, and the boolean operations on uncompressed bitmaps.

`c0_and` and `c0_or` combine uncompressed words and compress as they append;
`c00_and` and `c00_or` are meant to leave the result uncompressed. `compress` and
`decompress` convert in place. -/
namespace PgStorage.Wah
open Bits
open List
open BitVec (ofNat)

/-- The head and the word that `compress` stores for a word. -/
def compressWord (w : Word) : Word × Word :=
  if w = 0 then (2, header0F ||| 1)
  else if w = allOnes then (3, header1F ||| 1)
  else (w >>> 30, w)

/-- One word of `compress`: the words written so far and the head of the last one. -/
def compressStep (s : List Word × Word) (w : Word) : List Word × Word :=
  let headi := (compressWord w).1
  let w := (compressWord w).2
  let tmp := s.1
  let headj := s.2
  let j := tmp.length
  if j = 0 then (tmp ++ [w], headi)
  else if headi = headj ∧ 1 < headj then (tmp.set (j - 1) (tmp.getD (j - 1) 0 + (w &&& ~~~header1F)), headi)
  else (tmp ++ [w], headi)

/-- The new array has the old size; only the words in use are modelled. -/
def compress (bmp : Bitmap) : Bitmap :=
  let tmp := ((bmp.mVec.take bmp.mSize.toNat).foldl compressStep ([], 0)).1
  {bmp with mVec := tmp, mSize := ofNat 32 tmp.length}

/-- The words `decompress` writes for a word. -/
def decompressWord (w : Word) : List Word :=
  let head := w >>> 30
  let cnt := w &&& ~~~header1F
  if 1 < head then
    if head = 2 then List.replicate cnt.toNat 0 else List.replicate cnt.toNat allOnes
  else [w]

def decompress (bmp : Bitmap) : Bitmap :=
  let tmp := (bmp.mVec.take bmp.mSize.toNat).flatMap decompressWord
  {bmp with mVec := tmp, mSize := ofNat 32 tmp.length}

/-- `m_size` and `nbits` keep the values of an empty bitmap, and the active word is
combined with itself. -/
def c00Op (op : BoolOp) (bmp1 bmp2 : Bitmap) : Bitmap :=
  {makeBitmap with
    mVec := (List.range bmp1.mSize.toNat).map fun i => op.word (bmp1.mVec.getD i 0) (bmp2.mVec.getD i 0)
    active := ⟨op.word bmp1.active.val bmp1.active.val, bmp1.active.nbits⟩}

def c00And : Bitmap → Bitmap → Bitmap := c00Op .and
def c00Or : Bitmap → Bitmap → Bitmap := c00Op .or

def c0Op (op : BoolOp) (bmpa bmpb : Bitmap) : Bitmap :=
  c2Finish op bmpa bmpb ((List.range bmpa.mSize.toNat).foldl
    (fun result i => appendWord result (op.word (bmpa.mVec.getD i 0) (bmpb.mVec.getD i 0))) makeBitmap)

def c0And : Bitmap → Bitmap → Bitmap := c0Op .and
def c0Or : Bitmap → Bitmap → Bitmap := c0Op .or

/-! ### What conversion does -/

variable {w : Word} {ws : List Word} {s : List Word × Word} {bmp : Bitmap}

theorem compressWord_spec (h : IsFill w → 1 ≤ fillCount w) :
    (compressWord w).2 >>> 30 = (compressWord w).1 ∧ expand (compressWord w).2 = expand w ∧
      (IsFill (compressWord w).2 → 1 ≤ fillCount (compressWord w).2) := by
  unfold compressWord
  split
  · rename_i h0
    rw [h0]
    exact ⟨by decide, by decide, by decide⟩
  · split
    · rename_i h1
      rw [h1]
      exact ⟨by decide, by decide, by decide⟩
    · exact ⟨rfl, rfl, h⟩

/-- The words written for `ws`: they expand to the same groups, and the head
remembered is that of the last one. -/
structure Compressed (ws : List Word) (s : List Word × Word) : Prop where
  groups : s.1.flatMap expand = ws.flatMap expand
  fills : ∀ w ∈ s.1, IsFill w → 1 ≤ fillCount w
  last : ∀ (init : List Word) (t : Word), s.1 = init ++ [t] → t >>> 30 = s.2

theorem compressed_push (h : Compressed ws s) (hw : IsFill w → 1 ≤ fillCount w) :
    Compressed (ws ++ [w]) (s.1 ++ [(compressWord w).2], (compressWord w).1) := by
  obtain ⟨hhead, hexpand, hfill⟩ := compressWord_spec hw
  refine ⟨?_, fun v hv => ?_, fun init t ht => ?_⟩
  · simp only [flatMap_append, flatMap_singleton, h.groups, hexpand]
  · rcases mem_append.mp hv with hv | hv
    · exact h.fills v hv
    · rw [mem_singleton.mp hv]
      exact hfill
  · obtain ⟨-, ht⟩ := append_inj' ht rfl
    rw [← singleton_inj.mp ht]
    exact hhead

/-- Two runs of one bit, added. -/
theorem expand_merge {t : Word} (hw : IsFill w) (hhead : t >>> 30 = w >>> 30)
    (hlen : fillCount t + fillCount w < 2 ^ 30) :
    (t + (w &&& ~~~header1F)) >>> 30 = t >>> 30 ∧ expand (t + (w &&& ~~~header1F)) = expand t ++ expand w ∧
      fillCount (t + (w &&& ~~~header1F)) = fillCount t + fillCount w := by
  obtain ⟨val, hv, hval⟩ : ∃ val : Word, (val = 0 ∨ val = 1) ∧ w >>> 30 = 2 + val := by
    rcases isFill_head hw with h | h
    · exact ⟨0, .inl rfl, h⟩
    · exact ⟨1, .inr rfl, h⟩
  have hgroup : fillGroup w = bitGroup val := by
    rw [fillGroup, hval]
    rcases hv with rfl | rfl <;> rfl
  obtain ⟨hsum, hexpand⟩ := expand_add (w &&& ~~~header1F) hv (hhead.trans hval) hlen
  have hinc : (w &&& ~~~header1F).toNat = fillCount w := rfl
  rw [hinc] at hsum hexpand
  refine ⟨BitVec.eq_of_toNat_eq ?_, ?_, ?_⟩
  · rw [fillCount_eq t] at hlen
    rw [toNat_head, toNat_head]
    omega
  · rw [hexpand, expand.eq_def w, if_pos hw, hgroup]
  · rw [fillCount_eq t] at hlen ⊢
    rw [fillCount_eq (t + _)]
    omega

/-- Either the word is written, and then the last one is no run that it continues, or the last run is extended. -/
theorem compressStep_cases (h : Compressed ws s)
    (hw : IsFill w → 1 ≤ fillCount w) (hlen : ((ws ++ [w]).flatMap expand).length < 2 ^ 30) :
    (compressStep s w = (s.1 ++ [(compressWord w).2], (compressWord w).1) ∧
        ∀ init t, s.1 = init ++ [t] → IsFill t → t >>> 30 ≠ (compressWord w).1) ∨
      ∃ (init : List Word) (t t' : Word), s.1 = init ++ [t] ∧ IsFill t ∧ t' >>> 30 = t >>> 30 ∧ expand t' = expand t ++ expand w ∧
        1 ≤ fillCount t' ∧ compressStep s w = (init ++ [t'], t >>> 30) := by
  simp only [compressStep]
  split
  · rename_i hempty
    refine .inl ⟨rfl, fun init t ht => ?_⟩
    rw [eq_nil_of_length_eq_zero hempty] at ht
    simp at ht
  · rename_i hne
    split
    · -- a run that continues the last word: the counts add up below the header
      rename_i hsame
      obtain ⟨hhead, hexpand, hfill⟩ := compressWord_spec hw
      generalize compressWord w = c at hhead hexpand hfill hsame ⊢
      obtain ⟨headi, w'⟩ := c
      dsimp only at hhead hexpand hfill hsame ⊢
      obtain ⟨init, t, hsplit⟩ : ∃ init t, s.1 = init ++ [t] :=
        ⟨_, _, (dropLast_append_getLast (by rintro heq; rw [heq] at hne; exact hne rfl)).symm⟩
      have hlast : s.1.length - 1 = init.length := by rw [hsplit]; simp
      have ht : t >>> 30 = s.2 := h.last init t hsplit
      have hfillt : IsFill t := by rw [IsFill, ht]; exact hsame.2
      have hfillw : IsFill w' := by rw [IsFill, hhead, hsame.1]; exact hsame.2
      have hgroups := h.groups
      rw [hsplit, flatMap_append, flatMap_singleton] at hgroups
      have hcount : fillCount t + fillCount w' < 2 ^ 30 := by
        rw [flatMap_append, ← hgroups, flatMap_singleton, ← hexpand] at hlen
        simp only [length_append] at hlen
        rw [expand.eq_def t, if_pos hfillt, expand.eq_def w', if_pos hfillw, length_replicate,
          length_replicate] at hlen
        omega
      obtain ⟨hkeep, hmerge, hsum⟩ := expand_merge hfillw (by rw [ht, hhead, hsame.1]) hcount
      have hset : s.1.set (s.1.length - 1) (s.1.getD (s.1.length - 1) 0 + (w' &&& ~~~header1F)) =
          init ++ [t + (w' &&& ~~~header1F)] := by
        rw [hlast, hsplit]
        simp
      have hmore := hfill hfillw
      refine .inr ⟨init, t, _, hsplit, hfillt, hkeep, by rw [hmerge, hexpand], by omega, ?_⟩
      rw [hset, ht, hsame.1]
    · rename_i hnot
      refine .inl ⟨rfl, fun init t ht hfill heq => hnot ?_⟩
      rw [← h.last init t ht]
      exact ⟨heq.symm, hfill⟩

theorem compressed_step (h : Compressed ws s)
    (hw : IsFill w → 1 ≤ fillCount w) (hlen : ((ws ++ [w]).flatMap expand).length < 2 ^ 30) :
    Compressed (ws ++ [w]) (compressStep s w) := by
  rcases compressStep_cases h hw hlen with ⟨heq, -⟩ | ⟨init, t, t', hsplit, -, hkeep, hexpand, hcount, heq⟩
  · rw [heq]
    exact compressed_push h hw
  · rw [heq]
    have hgroups := h.groups
    rw [hsplit, flatMap_append, flatMap_singleton] at hgroups
    refine ⟨?_, fun v hv => ?_, fun init' u hu => ?_⟩
    · rw [flatMap_append, flatMap_singleton, hexpand, ← append_assoc, hgroups, flatMap_append,
        flatMap_singleton]
    · rcases mem_append.mp hv with hv | hv
      · exact h.fills v (by rw [hsplit]; exact mem_append_left _ hv)
      · rw [mem_singleton.mp hv]
        exact fun _ => hcount
    · obtain ⟨-, hu⟩ := append_inj' hu rfl
      rw [← singleton_inj.mp hu, hkeep]

theorem compressed_fold (ws done : List Word) (h : Compressed done s)
    (hw : ∀ w ∈ ws, IsFill w → 1 ≤ fillCount w) (hlen : ((done ++ ws).flatMap expand).length < 2 ^ 30) :
    Compressed (done ++ ws) (ws.foldl compressStep s) := by
  induction ws generalizing done s with
  | nil => simpa using h
  | cons w ws ih =>
    rw [append_cons] at hlen ⊢
    refine ih (done ++ [w]) (compressed_step h (hw w (mem_cons_self ..)) ?_)
      (fun v hv => hw v (mem_cons_of_mem w hv)) hlen
    rw [flatMap_append, length_append] at hlen
    omega

/-- Replacing the array by words for the same groups changes no bit. -/
theorem wellFormed_of_words (h : WellFormed bmp)
    (hgroups : ws.flatMap expand = groups bmp) (hfills : ∀ w ∈ ws, IsFill w → 1 ≤ fillCount w) :
    WellFormed {bmp with mVec := ws, mSize := ofNat 32 ws.length} ∧
      decode {bmp with mVec := ws, mSize := ofNat 32 ws.length} = decode bmp ∧
      vec {bmp with mVec := ws, mSize := ofNat 32 ws.length} = ws := by
  have hlen : ws.length < 2 ^ 32 := by
    have hle := length_le_flatMap_expand hfills
    have hlt := bmp.nbits.isLt
    rw [hgroups] at hle
    rw [h.count] at hlt
    omega
  have hsize : (ofNat 32 ws.length).toNat = ws.length := by
    rw [BitVec.toNat_ofNat, Nat.mod_eq_of_lt hlen]
  have hvec : vec {bmp with mVec := ws, mSize := ofNat 32 ws.length} = ws := by
    simp only [vec, hsize, take_length]
  have hgroups' : groups {bmp with mVec := ws, mSize := ofNat 32 ws.length} = groups bmp := by
    rw [groups, hvec, hgroups]
  have hdecode : decode {bmp with mVec := ws, mSize := ofNat 32 ws.length} = decode bmp := by
    rw [decode_eq, decode_eq, hgroups']
  refine ⟨⟨⟨le_of_eq hsize, by rw [hvec]; exact hfills, by rw [hgroups']; exact h.count⟩, h.activeBits,
    h.activeVal, by rw [hdecode]; exact h.length⟩, hdecode, hvec⟩

/-- Compression keeps the bits. -/
theorem compress_spec (h : WellFormed bmp) :
    WellFormed (compress bmp) ∧ decode (compress bmp) = decode bmp := by
  have hlen : (groups bmp).length < 2 ^ 30 := by
    have := h.count
    have := bmp.nbits.isLt
    omega
  have hc := compressed_fold (vec bmp) [] (s := ([], 0)) ⟨rfl, by simp, by simp⟩ h.fills hlen
  obtain ⟨hwf, hdecode, -⟩ := wellFormed_of_words h hc.groups hc.fills
  exact ⟨hwf, hdecode⟩

theorem decompressWord_eq (w : Word) : decompressWord w = expand w := by
  simp only [decompressWord]
  by_cases hfill : IsFill w
  · obtain ⟨-, -, hgt, -⟩ := fill_split hfill
    rw [if_pos hgt, expand, if_pos hfill, fillGroup]
    rcases isFill_head hfill with hh | hh <;> rw [hh] <;> rfl
  · have hgt : ¬ (1 : Word) < w >>> 30 := hfill
    rw [if_neg hgt, expand, if_neg hfill]

/-- Every stored word is a literal. -/
def Uncompressed (bmp : Bitmap) : Prop := ∀ w ∈ vec bmp, w.toNat < 2 ^ 31

/-- Decompression keeps the bits and leaves literals only. -/
theorem decompress_spec (h : WellFormed bmp) :
    WellFormed (decompress bmp) ∧ decode (decompress bmp) = decode bmp ∧ Uncompressed (decompress bmp) := by
  have hwords : (bmp.mVec.take bmp.mSize.toNat).flatMap decompressWord = groups bmp :=
    flatMap_congr fun w _ => decompressWord_eq w
  have hlit (g : Word) (hg : g ∈ groups bmp) : ¬ IsFill g := by
    have := groups_lt hg
    rw [isFill_iff]
    omega
  have hself : (groups bmp).flatMap expand = groups bmp := by
    rw [flatMap_congr (g := fun g => [g]) fun g hg => expand_literal (groups_lt hg)]
    exact flatMap_singleton' _
  obtain ⟨hwf, hdecode, hvec⟩ := wellFormed_of_words h hself fun g hg hfill => absurd hfill (hlit g hg)
  simp only [decompress, hwords]
  refine ⟨hwf, hdecode, fun w hw => ?_⟩
  rw [hvec] at hw
  exact groups_lt hw

theorem groups_uncompressed (h : Uncompressed bmp) : groups bmp = vec bmp := by
  rw [groups, flatMap_congr (g := fun g => [g]) fun g hg => expand_literal (h g hg)]
  exact flatMap_singleton' _

theorem Emits.trans {a b c : Bitmap} {gs hs : List Word} (hab : Emits a b gs) (hbc : Emits b c hs) :
    Emits a c (gs ++ hs) :=
  ⟨hbc.stored, hbc.active, by rw [hbc.groups, hab.groups, append_assoc], fun h => hbc.tidy (hab.tidy h)⟩

/-- Appending literals one after the other. -/
theorem appendWords_emits {r : Bitmap} (h : Stored r) (ha : r.active = ⟨0, 0⟩) {α : Type} (word : α → Word)
    (xs : List α) (hw : ∀ x ∈ xs, (word x).toNat < 2 ^ 31)
    (hlen : 31 * ((groups r).length + xs.length) < 2 ^ 32) :
    Emits r (xs.foldl (fun result x => appendWord result (word x)) r) (xs.map word) := by
  induction xs generalizing r with
  | nil => exact ⟨h, ha, (append_nil _).symm, id⟩
  | cons x xs ih =>
    rw [length_cons] at hlen
    have hstep := appendWord_emits h ha (hw x (mem_cons_self ..)) (by omega)
    refine hstep.trans (ih hstep.stored hstep.active (fun y hy => hw y (mem_cons_of_mem x hy)) ?_)
    rw [hstep.groups, length_append, length_singleton]
    omega

theorem range_words {a b : Bitmap} (ha : Stored a) (hb : Stored b) (hsize : a.mSize = b.mSize) (f : Word → Word → Word) :
    (range a.mSize.toNat).map (fun i => f (a.mVec.getD i 0) (b.mVec.getD i 0)) =
      zipWith f (vec a) (vec b) := by
  have halloc := ha.allocated
  have hballoc := hb.allocated
  rw [← hsize] at hballoc
  apply ext_getElem
  · rw [length_map, length_range, length_zipWith, vec_length ha, vec_length hb, hsize, min_self]
  · intro i hi hi'
    rw [length_map, length_range] at hi
    simp only [getElem_map, getElem_range, getElem_zipWith, vec, getElem_take]
    rw [getD_eq_getElem _ _ (by omega), getD_eq_getElem _ _ (by omega)]

section
variable {op : BoolOp} {f : Bool → Bool → Bool} {a b : Bitmap}

theorem sizes_uncompressed (ha : WellFormed a) (hb : WellFormed b) (hua : Uncompressed a) (hub : Uncompressed b)
    (hlen : (decode a).length = (decode b).length) : a.mSize = b.mSize := by
  have hgroups := (lengths_split ha hb hlen).1
  rw [groups_uncompressed hua, groups_uncompressed hub, vec_length ha.toStored, vec_length hb.toStored] at hgroups
  exact BitVec.eq_of_toNat_eq hgroups

/-- Compressing on the fly is the pointwise operation, in canonical form. -/
theorem c0Op_spec (hop : op.Lawful f) (ha : WellFormed a) (hb : WellFormed b) (hua : Uncompressed a)
    (hub : Uncompressed b) (hlen : (decode a).length = (decode b).length) :
    WellFormed (c0Op op a b) ∧ decode (c0Op op a b) = zipWith f (decode a) (decode b) ∧ Tidy (c0Op op a b) := by
  have hsize := sizes_uncompressed ha hb hua hub hlen
  apply c2Finish_spec hop ha hb hlen
  rw [groups_uncompressed hua, groups_uncompressed hub, ← range_words ha.toStored hb.toStored hsize]
  apply appendWords_emits makeBitmap_wellFormed.toStored rfl
  · intro i hi
    have hi := mem_range.mp hi
    have hmem {c : Bitmap} (hc : Stored c) (hi : i < c.mSize.toNat) : c.mVec.getD i 0 ∈ vec c := by
      have := hc.allocated
      rw [getD_eq_getElem _ _ (by omega), vec, mem_take_iff_getElem]
      exact ⟨i, by omega, rfl⟩
    exact hop.lt 31 _ _ (hua _ (hmem ha.toStored hi)) (hub _ (hmem hb.toStored (hsize ▸ hi)))
  · have hcount := ha.count
    have hlt := a.nbits.isLt
    rw [groups_uncompressed hua, vec_length ha.toStored] at hcount
    show 31 * (0 + (range a.mSize.toNat).length) < _
    rw [length_range]
    omega

/-- The words, the sizes and the active word. -/
def SameWords (a b : Bitmap) : Prop :=
  a.mSize = b.mSize ∧ a.mVec = b.mVec ∧ a.nbits = b.nbits ∧ a.active = b.active

/-- Compressing first and compressing on the fly give the same words. -/
theorem c0Op_eq_c2Op (hop : op.Lawful f) (ha : WellFormed a) (hb : WellFormed b) (hua : Uncompressed a)
    (hub : Uncompressed b) (hlen : (decode a).length = (decode b).length) {fuel : Nat}
    (hfuel : a.mSize.toNat + b.mSize.toNat < fuel) :
    ∃ r, c2Op op fuel (compress a) (compress b) = some r ∧ SameWords (c0Op op a b) r ∧
      decode r = zipWith f (decode a) (decode b) ∧ decode (c0Op op a b) = zipWith f (decode a) (decode b) := by
  obtain ⟨hca, hda⟩ := compress_spec ha
  obtain ⟨hcb, hdb⟩ := compress_spec hb
  have hsize {c : Bitmap} (hc : WellFormed c) (hu : Uncompressed c) : (compress c).mSize.toNat ≤ c.mSize.toNat := by
    obtain ⟨hcc, hdc⟩ := compress_spec hc
    have hle := hcc.toStored.size_le
    have hgroups := congrArg length (groups_uncompressed hu)
    rw [vec_length hc.toStored] at hgroups
    have := (lengths_split hcc hc (congrArg length hdc)).1
    omega
  obtain ⟨r, hr, hwf, hdecode, htidy⟩ := c2Op_spec hop hca hcb (by rw [hda, hdb]; exact hlen) fuel
    (by have := hsize ha hua; have := hsize hb hub; omega)
  rw [hda, hdb] at hdecode
  obtain ⟨hwf0, hdecode0, htidy0⟩ := c0Op_spec hop ha hb hua hub hlen
  exact ⟨r, hr, tidy_unique hwf0 hwf htidy0 htidy (hdecode0.trans hdecode.symm), hdecode, hdecode0⟩

end

/-- The three paths of an operation agree on the bits, and the two that compress on
the words. -/
def OpPaths (op : BoolOp) (fuel : Nat) (a b : Bitmap) : Prop :=
  ∃ r, c2Op op fuel (compress a) (compress b) = some r ∧ SameWords (c0Op op a b) r ∧
    decode (c0Op op a b) = decode r ∧ decode (c00Op op a b) = decode r

/-- For AND: `c00_and`, `c0_and` and `c2_and`; for OR: `c00_or`, `c0_or` and `c2_or`. -/
def PathsAgree (fuel : Nat) (a b : Bitmap) : Prop := OpPaths .and fuel a b ∧ OpPaths .or fuel a b

/-- The uncompressed result stands for the left operand's active word alone. -/
theorem decode_c00Op {op : BoolOp} (hself : ∀ w, op.word w w = w) (a b : Bitmap) :
    decode (c00Op op a b) = msb a.active.nbits.toNat a.active.val.toNat := by
  rw [decode, c00Op, hself]
  rfl

theorem opPaths_iff {op : BoolOp} {f : Bool → Bool → Bool} (hop : op.Lawful f) (hself : ∀ w, op.word w w = w)
    {a b : Bitmap} (ha : WellFormed a) (hb : WellFormed b) (hua : Uncompressed a) (hub : Uncompressed b)
    (hlen : (decode a).length = (decode b).length) {fuel : Nat} (hfuel : a.mSize.toNat + b.mSize.toNat < fuel) :
    OpPaths op fuel a b ↔ (decode a).length < 31 ∧ zipWith f (decode a) (decode b) = decode a := by
  obtain ⟨r, hr, hsame, hdecode, hdecode0⟩ := c0Op_eq_c2Op hop ha hb hua hub hlen hfuel
  have hc00 := decode_c00Op hself a b
  have hsplit := decode_eq a
  have hbits := ha.activeBits
  have hsize := decode_length a
  constructor
  · rintro ⟨r', hr', -, -, h⟩
    rw [hr] at hr'
    rw [← Option.some.inj hr', hc00, hdecode] at h
    have hshort := congrArg length h
    rw [msb_length, length_zipWith, ← hlen, min_self] at hshort
    refine ⟨by omega, ?_⟩
    have hnil : groups a = [] := eq_nil_of_length_eq_zero (by omega)
    rw [← h, hsplit, hnil]
    rfl
  · rintro ⟨hshort, heq⟩
    have hnil : groups a = [] := eq_nil_of_length_eq_zero (by omega)
    refine ⟨r, hr, hsame, hdecode0.trans hdecode.symm, ?_⟩
    rw [hc00, hdecode, heq, hsplit, hnil]
    rfl

/-- AND and OR both leave the left operand alone only when the operands agree. -/
theorem both_left_iff {xs ys : List Bool} (h : xs.length = ys.length) :
    (zipWith (· && ·) xs ys = xs ∧ zipWith (· || ·) xs ys = xs) ↔ xs = ys := by
  constructor
  · rintro ⟨hand, hor⟩
    exact (and_eq_or_iff h).mp (hand.trans hor.symm)
  · rintro rfl
    simp [zipWith_self]

end PgStorage.Wah
