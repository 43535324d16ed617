import PgStorage.Wah.Compress

/-! Compressing and decompressing in place.

Compression leaves maximal runs, whatever mix of literals and runs it finds, and maximal runs are determined by the
bits. So compressing twice, or behind a decompression, gives the words that compressing once gives. -/
namespace PgStorage.Wah
open Bits
open List

variable {bmp : Bitmap} {ws : List Word} {s : List Word × Word} {w : Word}

theorem compressWord_mixed (w : Word) (h : ¬ IsFill (compressWord w).2) :
    (compressWord w).2 ≠ 0 ∧ (compressWord w).2 ≠ allOnes := by
  unfold compressWord at h ⊢
  split
  · rename_i h0
    rw [if_pos h0] at h
    exact absurd (by decide) h
  · rename_i h0
    rw [if_neg h0] at h
    split
    · rename_i h1
      rw [if_pos h1] at h
      exact absurd (by decide) h
    · rename_i h1
      exact ⟨h0, h1⟩

/-- A word keeps the runs maximal if it is none that the last word's run continues. -/
theorem MaximalRuns.snoc (h : MaximalRuns ws) (hfill : IsFill w → 1 ≤ fillCount w)
    (hlit : ¬ IsFill w → w ≠ 0 ∧ w ≠ allOnes) (hapart : ∀ init t, ws = init ++ [t] → Apart t w) :
    MaximalRuns (ws ++ [w]) := by
  refine ⟨fun v hv => ?_, fun v hv => ?_, isChain_append.mpr ⟨h.apart, isChain_singleton _, ?_⟩⟩
  · rcases mem_append.mp hv with hv | hv
    · exact h.fills v hv
    · rw [mem_singleton.mp hv]
      exact hfill
  · rcases mem_append.mp hv with hv | hv
    · exact h.literals v hv
    · rw [mem_singleton.mp hv]
      exact hlit
  · intro t ht v hv
    obtain ⟨init, hinit⟩ := getLast?_eq_some_iff.mp ht
    rw [← Option.some.inj hv]
    exact hapart init t hinit

theorem MaximalRuns.init {init : List Word} {t : Word} (h : MaximalRuns (init ++ [t])) :
    MaximalRuns init ∧ ∀ init' u, init = init' ++ [u] → Apart u t := by
  obtain ⟨hchain, -, hlast⟩ := isChain_append.mp h.apart
  refine ⟨⟨fun v hv => h.fills v (mem_append_left _ hv), fun v hv => h.literals v (mem_append_left _ hv),
    hchain⟩, fun init' u hu => hlast u ?_ t rfl⟩
  rw [hu]
  exact getLast?_concat

/-- One word of `compress` keeps the runs maximal. -/
theorem maximalRuns_step (hc : Compressed ws s) (h : MaximalRuns s.1) (hw : IsFill w → 1 ≤ fillCount w)
    (hlen : ((ws ++ [w]).flatMap expand).length < 2 ^ 30) : MaximalRuns (compressStep s w).1 := by
  rcases compressStep_cases hc hw hlen with ⟨heq, hnot⟩ | ⟨init, t, t', hsplit, hfill, hkeep, -, hcount, heq⟩
  · obtain ⟨hhead, -, hfill⟩ := compressWord_spec hw
    rw [heq]
    refine h.snoc hfill (compressWord_mixed w) fun init t ht hfillt _ => ?_
    rw [hhead]
    exact hnot init t ht hfillt
  · rw [heq]
    rw [hsplit] at h
    have hfill' : IsFill t' := by rw [IsFill, hkeep]; exact hfill
    refine h.init.1.snoc (fun _ => hcount) (fun hlit => absurd hfill' hlit) fun init' u hu hfillu _ => ?_
    rw [hkeep]
    exact h.init.2 init' u hu hfillu hfill

theorem maximalRuns_fold (ws done : List Word) {s : List Word × Word} (hc : Compressed done s) (h : MaximalRuns s.1)
    (hw : ∀ w ∈ ws, IsFill w → 1 ≤ fillCount w) (hlen : ((done ++ ws).flatMap expand).length < 2 ^ 30) :
    MaximalRuns (ws.foldl compressStep s).1 := by
  induction ws generalizing done s with
  | nil => exact h
  | cons w ws ih =>
    have hw' := hw w (mem_cons_self ..)
    rw [append_cons] at hlen
    have hlen' : ((done ++ [w]).flatMap expand).length < 2 ^ 30 := by
      rw [flatMap_append, length_append] at hlen
      omega
    exact ih (done ++ [w]) (compressed_step hc hw' hlen') (maximalRuns_step hc h hw' hlen')
      (fun v hv => hw v (mem_cons_of_mem w hv)) hlen

theorem compress_tidy (h : WellFormed bmp) : Tidy (compress bmp) := by
  have hlen : (groups bmp).length < 2 ^ 30 := by
    have := h.count
    have := bmp.nbits.isLt
    omega
  have hstart : Compressed [] ([], 0) := ⟨rfl, by simp, by simp⟩
  have hc := compressed_fold (vec bmp) [] hstart h.fills hlen
  have hruns := maximalRuns_fold (vec bmp) [] hstart ⟨by simp, by simp, .nil⟩ h.fills hlen
  obtain ⟨hwf, -, hvec⟩ := wellFormed_of_words h hc.groups hc.fills
  have hwords : vec (compress bmp) = ((vec bmp).foldl compressStep ([], 0)).1 := hvec
  refine ⟨?_, ?_, ?_⟩
  · show ((vec bmp).foldl compressStep ([], 0)).1.length = _
    rw [← hwords]
    exact vec_length hwf.toStored
  · rw [hwords]
    exact hruns.literals
  · rw [hwords]
    exact hruns.apart

/-- Bitmaps with the same bits compress to the same words. -/
theorem compress_congr {bmp' : Bitmap} (h : WellFormed bmp) (h' : WellFormed bmp') (hdecode : decode bmp' = decode bmp) :
    (compress bmp').mVec = (compress bmp).mVec ∧ (compress bmp').mSize = (compress bmp).mSize := by
  obtain ⟨hwf, hbits⟩ := compress_spec h
  obtain ⟨hwf', hbits'⟩ := compress_spec h'
  obtain ⟨hsize, hvec, -⟩ := tidy_unique hwf' hwf (compress_tidy h') (compress_tidy h) (by rw [hbits, hbits', hdecode])
  exact ⟨hvec, hsize⟩

theorem decompress_mVec (bmp : Bitmap) : (decompress bmp).mVec = groups bmp :=
  flatMap_congr fun w _ => decompressWord_eq w

theorem groups_compress (h : WellFormed bmp) : groups (compress bmp) = groups bmp := by
  obtain ⟨hwf, hbits⟩ := compress_spec h
  obtain ⟨hlen, -⟩ := lengths_split hwf h (congrArg length hbits)
  rw [decode_eq, decode_eq] at hbits
  obtain ⟨hbits, -⟩ := append_inj hbits (by rw [groupBits_length, groupBits_length, hlen])
  exact groupBits_inj (fun g => groups_lt) (fun g => groups_lt) hbits

end PgStorage.Wah
