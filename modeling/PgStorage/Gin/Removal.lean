import PgStorage.Gin.RoundTrip

/-! Posting lists get no longer when items are removed.

Two distances become their sum, which takes no more bytes than both. So what fits into a page fits without some of its
items, also where the last bytes of the page decide. -/
namespace PgStorage.Gin
open List

variable {a b c : ItemPointer} {ipd ipd' : List ItemPointer} {maxbytes used used' : Nat} {s : Packing}

/-- The items behind `a` fit, with `used` bytes taken when `a` is packed. -/
def Fits (maxbytes : Nat) : Nat → ItemPointer → List ItemPointer → Prop
  | _, _, [] => True
  | used, a, b :: ipd =>
    used + min 6 (encodeVarbyte (gap a b)).length ≤ maxbytes ∧
      Fits maxbytes (used + (encodeVarbyte (gap a b)).length) b ipd

theorem Fits.mono (h : Fits maxbytes used a ipd) (hle : used' ≤ used) : Fits maxbytes used' a ipd := by
  induction ipd generalizing used used' a with
  | nil => trivial
  | cons b ipd ih => exact ⟨by have := h.1; omega, ih h.2 (Nat.add_le_add_right hle _)⟩

/-- The loop packs all items exactly where they fit. -/
theorem packItems_complete (maxbytes : Nat) (a : ItemPointer) (ipd : List ItemPointer) (s : Packing) :
    (packItems maxbytes (itemptrToUint64 a) ipd s).totalpacked = s.totalpacked + ipd.length ↔
      Fits maxbytes s.bytes.length a ipd := by
  induction ipd generalizing a s with
  | nil => exact ⟨fun _ => trivial, fun _ => rfl⟩
  | cons b ipd ih =>
    rw [packItems_cons, Fits, length_cons, add_comm ipd.length, ← add_assoc]
    split
    next hroom =>
      have hrest := ih b (s.append (encodeVarbyte (gap a b)))
      rw [Packing.append_length] at hrest
      exact hrest.trans ⟨fun h => ⟨by omega, h⟩, And.right⟩
    next hsmall =>
      split
      next hfull =>
        refine ⟨fun h => ?_, fun h => absurd h.1 (by omega)⟩
        change s.totalpacked = _ at h
        omega
      next hfits =>
        have hrest := ih b ((s.buffer (encodeVarbyte (gap a b))).append (encodeVarbyte (gap a b)))
        rw [Packing.append_length] at hrest
        exact hrest.trans ⟨fun h => ⟨by omega, h⟩, And.right⟩

theorem packItems_bytes (h : Fits maxbytes s.bytes.length a ipd) :
    (packItems maxbytes (itemptrToUint64 a) ipd s).bytes = s.bytes ++ gapBytes a ipd := by
  induction ipd generalizing a s with
  | nil => exact (append_nil _).symm
  | cons b ipd ih =>
    obtain ⟨hroom, hrest⟩ := h
    rw [packItems_cons, gapBytes, ← append_assoc]
    split
    · exact ih (s := s.append (encodeVarbyte (gap a b))) (by rw [Packing.append_length]; exact hrest)
    next hsmall =>
      rw [if_neg (by omega)]
      exact ih (s := (s.buffer (encodeVarbyte (gap a b))).append (encodeVarbyte (gap a b)))
        (by rw [Packing.append_length]; exact hrest)

theorem encodeVarbyte_bound (d : BitVec 64) : d.toNat < 2 ^ (7 * (encodeVarbyte d).length) := by
  obtain ⟨hpos, hle⟩ := encodeVarbyte_length d ((encodeVarbyte d).length - 1)
  rw [Nat.sub_add_cancel hpos] at hle
  exact hle.mp le_rfl

/-- The sum of two distances is no longer than both. -/
theorem encodeVarbyte_add {d e f : BitVec 64} (h : f.toNat = d.toNat + e.toNat) :
    (encodeVarbyte f).length ≤ (encodeVarbyte d).length + (encodeVarbyte e).length := by
  have hd := encodeVarbyte_bound d
  have he := encodeVarbyte_bound e
  have hdpos := (encodeVarbyte_length d 0).1
  have hepos := (encodeVarbyte_length e 0).1
  set m := (encodeVarbyte d).length
  set n := (encodeVarbyte e).length
  have htwo {k : Nat} (hk : 0 < k) : 2 ≤ 2 ^ (7 * k) := Nat.le_self_pow (by omega) 2
  have hsum : 2 ^ (7 * m) + 2 ^ (7 * n) ≤ 2 ^ (7 * (m + n)) := by
    rw [mul_add, Nat.pow_add]
    exact Nat.add_le_mul (htwo hdpos) (htwo hepos)
  have hlength := (encodeVarbyte_length f (m + n - 1)).2
  rw [Nat.sub_add_cancel (by omega)] at hlength
  exact hlength.mpr (by omega)

theorem Follow.sublist (h : Follow a ipd) (hsub : ipd'.Sublist ipd) : Follow a ipd' :=
  ⟨fun iptr hi => h.1 iptr ((hsub.cons_cons a).subset hi), h.2.sublist (hsub.cons_cons a)⟩

/-- The distances to a further item add up. -/
theorem Follow.gap_add (h : Follow a (b :: ipd)) (hc : Follow b (c :: ipd')) :
    (encodeVarbyte (Gin.gap a c)).length ≤
      (encodeVarbyte (Gin.gap a b)).length + (encodeVarbyte (Gin.gap b c)).length := by
  obtain ⟨hlt, hab⟩ := h.gap
  obtain ⟨hlt', hbc⟩ := hc.gap
  have hac : Gin.gap a c = Gin.gap a b + Gin.gap b c := by
    rw [Gin.gap, ← hbc, ← hab, BitVec.add_assoc, BitVec.add_comm, BitVec.add_sub_cancel]
  refine encodeVarbyte_add ?_
  rw [hac, BitVec.toNat_add]
  exact Nat.mod_eq_of_lt (by omega)

/-- The item behind `a` is left out. -/
theorem Fits.skip (hb : Follow a (b :: ipd)) (hrest : Follow b ipd')
    (h : Fits maxbytes (used + (encodeVarbyte (gap a b)).length) b ipd') :
    Fits maxbytes used a ipd' ∧
      (gapBytes a ipd').length ≤ (encodeVarbyte (gap a b)).length + (gapBytes b ipd').length := by
  cases ipd' with
  | nil => exact ⟨trivial, Nat.zero_le _⟩
  | cons c ipd' =>
    have hle := hb.gap_add hrest
    obtain ⟨hroom, hfits⟩ := h
    refine ⟨⟨by omega, hfits.mono (by omega)⟩, ?_⟩
    rw [gapBytes, gapBytes, length_append, length_append]
    omega

theorem Fits.sublist (h : Fits maxbytes used a ipd) (hfollow : Follow a ipd) (hsub : ipd'.Sublist ipd) :
    Fits maxbytes used a ipd' ∧ (gapBytes a ipd').length ≤ (gapBytes a ipd).length := by
  induction hsub generalizing used a with
  | slnil => exact ⟨trivial, le_rfl⟩
  | @cons ipd' ipd b hsub ih =>
    obtain ⟨hfits, hle⟩ := ih h.2 hfollow.tail
    obtain ⟨hskip, hle'⟩ := hfits.skip hfollow (hfollow.tail.sublist hsub)
    refine ⟨hskip, ?_⟩
    rw [gapBytes, length_append]
    omega
  | cons_cons b hsub ih =>
    obtain ⟨hfits, hle⟩ := ih h.2 hfollow.tail
    refine ⟨⟨h.1, hfits⟩, ?_⟩
    rw [gapBytes, gapBytes, length_append, length_append]
    omega

/-- All items are written, and the byte count of the segment is what they take. -/
structure Input.Complete (x : Input) : Prop where
  nwritten : x.compressed.nwritten = (x.first :: x.ipd).length
  nbytes : x.compressed.segment.nbytes.toNat = (gapBytes x.first x.ipd).length

instance (x : Input) : Decidable x.Complete :=
  decidable_of_iff (x.compressed.nwritten = (x.first :: x.ipd).length ∧
      x.compressed.segment.nbytes.toNat = (gapBytes x.first x.ipd).length)
    ⟨fun ⟨hnwritten, hnbytes⟩ => ⟨hnwritten, hnbytes⟩, fun ⟨hnwritten, hnbytes⟩ => ⟨hnwritten, hnbytes⟩⟩

theorem Input.complete_iff (x : Input) :
    x.Complete ↔ Fits (segmentRoom x.maxsize) 0 x.first x.ipd ∧ (gapBytes x.first x.ipd).length < 2 ^ 16 := by
  have hpacked := packItems_complete (segmentRoom x.maxsize) x.first x.ipd ⟨[], 1, 0⟩
  have hnwritten : x.compressed.nwritten = (x.first :: x.ipd).length ↔
      Fits (segmentRoom x.maxsize) 0 x.first x.ipd := by
    rw [length_cons, add_comm]
    exact hpacked
  have hnbytes (h : Fits (segmentRoom x.maxsize) 0 x.first x.ipd) :
      x.compressed.segment.nbytes = BitVec.ofNat 16 (gapBytes x.first x.ipd).length := by
    have hbytes := packItems_bytes (s := ⟨[], 1, 0⟩) h
    rw [Input.compressed, ginCompressPostingList]
    dsimp only
    rw [hbytes, nil_append]
  constructor
  · intro h
    refine ⟨hnwritten.mp h.nwritten, ?_⟩
    rw [← h.nbytes]
    exact BitVec.isLt _
  · rintro ⟨hfits, hlt⟩
    refine ⟨hnwritten.mpr hfits, ?_⟩
    rw [hnbytes hfits, BitVec.toNat_ofNat]
    exact Nat.mod_eq_of_lt hlt

theorem shortalign_mono {m n : Nat} (h : m ≤ n) : shortalign m ≤ shortalign n :=
  Nat.mul_le_mul_right 2 (Nat.div_le_div_right (Nat.add_le_add_right h 1))

/-- **Removing items never enlarges a posting list.** -/
theorem removal_never_enlarges (first first' : ItemPointer) (ipd ipd' : List ItemPointer) (maxsize : Nat)
    (hvalid : ∀ iptr ∈ first :: ipd, iptr.Valid) (hincreasing : (first :: ipd).Pairwise Precedes)
    (hcomplete : Input.Complete ⟨first, ipd, maxsize⟩) (hsub : (first' :: ipd').Sublist (first :: ipd)) :
    Input.Complete ⟨first', ipd', maxsize⟩ ∧
      sizeOfGinPostingList (ginCompressPostingList first' ipd' maxsize).segment.nbytes ≤
        sizeOfGinPostingList (ginCompressPostingList first ipd maxsize).segment.nbytes := by
  obtain ⟨hfits, hlt⟩ := (Input.complete_iff _).mp hcomplete
  have hfollow : Follow first ipd := ⟨hvalid, hincreasing⟩
  have hkept : Fits (segmentRoom maxsize) 0 first' ipd' ∧
      (gapBytes first' ipd').length ≤ (gapBytes first ipd).length := by
    cases hsub with
    | cons_cons _ hsub => exact hfits.sublist hfollow hsub
    | cons _ hsub =>
      -- the first item is gone, and the distance to the new one
      obtain ⟨⟨-, hfits'⟩, hle⟩ := hfits.sublist hfollow hsub
      rw [gapBytes, length_append] at hle
      exact ⟨hfits'.mono (Nat.zero_le _), (Nat.le_add_left ..).trans hle⟩
  have hcomplete' : Input.Complete ⟨first', ipd', maxsize⟩ :=
    (Input.complete_iff _).mpr ⟨hkept.1, lt_of_le_of_lt hkept.2 hlt⟩
  refine ⟨hcomplete', Nat.add_le_add_left (shortalign_mono ?_) _⟩
  have hle := hkept.2
  rwa [← hcomplete.nbytes, ← hcomplete'.nbytes] at hle

/-- The third item takes the last six bytes; without the second it takes them too. -/
theorem removal_never_enlarges_middle :
    Input.Complete ⟨⟨0, 1⟩, [⟨0x40000000, 1⟩], 16⟩ ∧
      sizeOfGinPostingList (ginCompressPostingList ⟨0, 1⟩ [⟨0x40000000, 1⟩] 16).segment.nbytes ≤
        sizeOfGinPostingList (ginCompressPostingList ⟨0, 1⟩ [⟨0, 200⟩, ⟨0x40000000, 1⟩] 16).segment.nbytes :=
  removal_never_enlarges ⟨0, 1⟩ ⟨0, 1⟩ [⟨0, 200⟩, ⟨0x40000000, 1⟩] [⟨0x40000000, 1⟩] 16 (by decide) (by decide)
    (by decide +kernel) (by decide)

end PgStorage.Gin
