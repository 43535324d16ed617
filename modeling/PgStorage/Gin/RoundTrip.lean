import PgStorage.Gin.Segments
import PgStorage.Lib.Bits

/-! Segments one behind the other, read back. -/
namespace PgStorage.Gin
open List

variable {a : ItemPointer} {ipd : List ItemPointer} {tail : List Byte} {r : Decoded}

theorem readHeader_memory (segment : GinPostingList) (tail : List Byte) :
    readHeader (segment.memory ++ tail) = some (segment.first, segment.nbytes, segment.bytes ++ tail) := by
  have hword : ∀ x : BitVec 16, uint16At (x.setWidth 8) ((x >>> 8).setWidth 8) = x := fun x =>
    Bits.halves_append (m := 8) (n := 8) x
  have hblock : (segment.first.block >>> 16).setWidth 16 ++ segment.first.block.setWidth 16 = segment.first.block :=
    Bits.halves_append (m := 16) (n := 16) segment.first.block
  show some (_, _) = _
  rw [hword, hword, hword, hword, hblock]
  rfl

theorem memory_length (segment : GinPostingList) : segment.memory.length = headerSize + segment.bytes.length := by
  simp only [GinPostingList.memory, length_append, uint16Bytes, length_cons, length_nil, headerSize]

/-- The array has room for what is in it. -/
structure Decoded.Fits (r : Decoded) : Prop where
  positive : 0 < r.nallocated
  within : r.items.length ≤ r.nallocated

theorem Decoded.Fits.push (h : r.Fits) (item : ItemPointer) : (r.push item).Fits := by
  have hpos := h.positive
  have hwithin := h.within
  rw [Decoded.push]
  refine ⟨?_, ?_⟩
  · dsimp only
    split <;> omega
  · dsimp only
    rw [length_append, length_singleton]
    split <;> omega

/-- The result of adding items. -/
def Adds (r r' : Decoded) (items : List ItemPointer) : Prop := r'.items = r.items ++ items ∧ r'.Fits

theorem decodeItems_gapBytes (n : Nat) (h : Follow a ipd) (hr : r.Fits) (hn : (gapBytes a ipd).length < n) :
    ∃ r', decodeItems n tail.length (itemptrToUint64 a) (gapBytes a ipd ++ tail) r = some r' ∧ Adds r r' ipd := by
  induction ipd generalizing a r n with
  | nil =>
    obtain ⟨n, rfl⟩ : ∃ m, n = m + 1 := ⟨n - 1, by omega⟩
    refine ⟨r, ?_, (append_nil _).symm, hr⟩
    rw [decodeItems, if_neg (by rw [gapBytes, nil_append]; omega)]
  | cons b ipd ih =>
    obtain ⟨n, rfl⟩ : ∃ m, n = m + 1 := ⟨n - 1, by omega⟩
    obtain ⟨hlt, hsum⟩ := h.gap
    have hpos := h.length.1
    have hb := uint64ToItemptr_itemptr (h.1 b (by simp))
    rw [gapBytes, length_append] at hn
    obtain ⟨r', heq, hitems, hfits⟩ := ih n h.tail (hr.push b) (by omega)
    refine ⟨r', ?_, ?_, hfits⟩
    · rw [gapBytes, append_assoc, decodeItems, if_pos (by simp only [length_append]; omega),
        decodeVarbyte_encodeVarbyte (lt_of_lt_of_le hlt (by decide))]
      dsimp only
      rw [hsum, hb]
      exact heq
    · rw [hitems, Decoded.push, append_assoc]
      rfl

/-- A segment that holds the items behind its first, and padding. -/
structure Holds (segment : GinPostingList) (ipd : List ItemPointer) : Prop where
  follow : Follow segment.first ipd
  bytes : ∃ padding, segment.bytes = gapBytes segment.first ipd ++ padding ∧ ∀ c ∈ padding, c = 0
  nbytes : segment.nbytes.toNat = (gapBytes segment.first ipd).length
  size : segment.bytes.length = shortalign segment.nbytes.toNat

theorem decodeSegments_holds (n : Nat) (l : List (GinPostingList × List ItemPointer)) (h : ∀ x ∈ l, Holds x.1 x.2)
    (hr : r.Fits) (hn : (l.flatMap fun x => x.1.memory).length < n) :
    ∃ r', decodeSegments n (l.flatMap fun x => x.1.memory) r = some r' ∧
      Adds r r' (l.flatMap fun x => x.1.first :: x.2) := by
  induction l generalizing n r with
  | nil =>
    obtain ⟨n, rfl⟩ : ∃ m, n = m + 1 := ⟨n - 1, by omega⟩
    exact ⟨r, by rw [decodeSegments, flatMap_nil, if_pos rfl], (append_nil _).symm, hr⟩
  | cons x l ih =>
    obtain ⟨n, rfl⟩ : ∃ m, n = m + 1 := ⟨n - 1, by omega⟩
    obtain ⟨segment, ipd⟩ := x
    have hx : Holds segment ipd := h _ (mem_cons_self ..)
    obtain ⟨padding, hbytes, -⟩ := hx.bytes
    have hlen := memory_length segment
    have hsize : sizeOfGinPostingList segment.nbytes = segment.memory.length := by
      rw [hlen, hx.size, sizeOfGinPostingList]
    have hpos : 0 < segment.memory.length := by
      rw [hlen, headerSize]
      omega
    rw [flatMap_cons, length_append] at hn
    change segment.memory.length + _ < _ at hn
    obtain ⟨r₁, hitems, hadds, hfits⟩ := @decodeItems_gapBytes _ _ (padding ++ l.flatMap fun x => x.1.memory) _
      (segment.nbytes.toNat + 1) hx.follow (hr.push segment.first) (by rw [hx.nbytes]; omega)
    obtain ⟨r₂, hsegments, hadds', hfits'⟩ := ih n (fun y hy => h y (mem_cons_of_mem _ hy)) hfits (by omega)
    refine ⟨r₂, ?_, ?_, hfits'⟩
    · have hne : segment.memory ++ l.flatMap (fun x => x.1.memory) ≠ [] := fun heq => by
        rw [(append_eq_nil_iff.mp heq).1] at hpos
        exact absurd hpos (by decide)
      rw [flatMap_cons, decodeSegments, if_neg hne, readHeader_memory]
      dsimp only
      have hstop : (segment.bytes ++ l.flatMap fun x => x.1.memory).length - segment.nbytes.toNat =
          (padding ++ l.flatMap fun x => x.1.memory).length := by
        rw [hbytes, hx.nbytes, append_assoc, length_append, Nat.add_sub_cancel_left]
      rw [hstop, hbytes, append_assoc, hitems, hsize, drop_left]
      exact hsegments
    · rw [hadds', hadds, Decoded.push, flatMap_cons, append_assoc, append_assoc]
      rfl

/-! ### Calls -/

/-- What `ginCompressPostingList` is called with. -/
structure Input where
  first : ItemPointer
  ipd : List ItemPointer
  maxsize : Nat

structure Input.Valid (x : Input) : Prop where
  items : ∀ iptr ∈ x.first :: x.ipd, iptr.Valid
  increasing : (x.first :: x.ipd).Pairwise Precedes
  room : headerSize < shortalignDown x.maxsize ∧ shortalignDown x.maxsize ≤ 65535

def Input.compressed (x : Input) : Compressed := ginCompressPostingList x.first x.ipd x.maxsize

/-- The items it reports as written. -/
def Input.written (x : Input) : List ItemPointer := (x.first :: x.ipd).take x.compressed.nwritten

/-- No item `2 ^ 31` blocks behind its predecessor is reached with fewer than seven bytes left. -/
def Input.wideGapsFit (x : Input) : Bool := Gin.wideGapsFit (segmentRoom x.maxsize) 0 x.first x.ipd

/-- What one call owes: it writes inside of its allocation and its buffer, encodes some items, returns a segment of
at most `maxsize` bytes with zeros as padding, and stops early only where the next item does not fit. -/
structure Input.Packs (x : Input) : Prop where
  allocation : headerSize + x.compressed.segment.bytes.length ≤ shortalignDown x.maxsize
  buffer : x.compressed.scratch ≤ 6
  nwritten : 1 ≤ x.compressed.nwritten ∧ x.compressed.nwritten ≤ (x.first :: x.ipd).length
  size : sizeOfGinPostingList x.compressed.segment.nbytes ≤ x.maxsize
  padding : x.compressed.segment.bytes.length = shortalign x.compressed.segment.nbytes.toNat ∧
    ∀ c ∈ x.compressed.segment.bytes.drop x.compressed.segment.nbytes.toNat, c = 0
  full : x.compressed.nwritten < (x.first :: x.ipd).length →
    segmentRoom x.maxsize < (gapBytes x.first (x.ipd.take x.compressed.nwritten)).length

theorem Input.Valid.follow {x : Input} (h : x.Valid) : Follow x.first x.ipd := ⟨h.items, h.increasing⟩

theorem Follow.take (h : Follow a ipd) (k : Nat) : Follow a (ipd.take k) :=
  ⟨fun iptr hi => h.1 iptr (cons_subset_cons a (take_subset k ipd) hi),
    h.2.sublist ((take_sublist k ipd).cons_cons a)⟩

/-- The segment is what the loop wrote, padded to an even length. -/
theorem Input.Valid.segment {x : Input} (h : x.Valid) {s : Packing}
    (hs : packItems (segmentRoom x.maxsize) (itemptrToUint64 x.first) x.ipd ⟨[], 1, 0⟩ = s)
    (hroom : s.bytes.length ≤ segmentRoom x.maxsize) :
    x.compressed.segment.nbytes.toNat = s.bytes.length ∧
      headerSize + x.compressed.segment.bytes.length ≤ shortalignDown x.maxsize ∧
      x.compressed.segment.bytes.length = shortalign x.compressed.segment.nbytes.toNat ∧
      ∃ padding, x.compressed.segment.bytes = s.bytes ++ padding ∧ ∀ c ∈ padding, c = 0 := by
  have hbound := h.room
  have hnbytes : (BitVec.ofNat 16 s.bytes.length).toNat = s.bytes.length := by
    rw [BitVec.toNat_ofNat]
    refine Nat.mod_eq_of_lt ?_
    rw [segmentRoom, headerSize] at hroom
    omega
  have heq : x.compressed.segment =
      ⟨x.first, BitVec.ofNat 16 s.bytes.length,
        if s.bytes.length ≠ shortalign s.bytes.length then s.bytes ++ [0] else s.bytes⟩ := by
    rw [Input.compressed, ginCompressPostingList, hs]
    dsimp only
    rw [hnbytes]
  rw [heq]
  dsimp only
  rw [hnbytes]
  rw [segmentRoom, headerSize] at hroom
  rw [headerSize] at hbound ⊢
  unfold shortalign shortalignDown at *
  refine ⟨rfl, ?_, ?_, ?_⟩
  · split
    · rw [length_append, length_singleton]
      omega
    · omega
  · split
    · rw [length_append, length_singleton]
      omega
    next heven => exact not_not.mp heven
  · split
    · exact ⟨[0], rfl, fun c hc => mem_singleton.mp hc⟩
    · exact ⟨[], (append_nil _).symm, nofun⟩

theorem Input.Valid.packs {x : Input} (h : x.Valid) (hfit : x.wideGapsFit = true) :
    x.Packs ∧ ∃ k, Holds x.compressed.segment (x.ipd.take k) ∧ x.written = x.first :: x.ipd.take k := by
  obtain ⟨k, hk⟩ := packItems_spec (s := ⟨[], 1, 0⟩) h.follow (Nat.zero_le _) hfit
  obtain ⟨hnbytes, halloc, hsize, padding, hbytes, hzero⟩ := h.segment rfl hk.room
  have hpacked := hk.bytes
  rw [nil_append] at hpacked
  have htotal : x.compressed.nwritten = k + 1 := hk.totalpacked.trans (add_comm 1 k)
  have hle := hk.le
  have hlen : (x.first :: x.ipd).length = x.ipd.length + 1 := rfl
  refine ⟨⟨halloc, hk.scratch.trans (by decide), by omega, ?_, ⟨hsize, ?_⟩, fun hlt => ?_⟩, k,
    ⟨h.follow.take k, ⟨padding, by rw [hbytes, hpacked]; rfl, hzero⟩, by rw [hnbytes, hpacked]; rfl, hsize⟩, ?_⟩
  · rw [sizeOfGinPostingList, ← hsize]
    exact halloc.trans (Nat.div_mul_le_self ..)
  · rw [hnbytes, hbytes, drop_left]
    exact hzero
  · have hfull := hk.full (by omega)
    rw [htotal]
    rwa [length_nil, zero_add] at hfull
  · rw [Input.written, htotal]
    rfl

theorem Input.Valid.not_packs {x : Input} (h : x.Valid) (hfit : x.wideGapsFit = false) : ¬ x.Packs := by
  intro hp
  have hgrown : (packItems (segmentRoom x.maxsize) (itemptrToUint64 x.first) x.ipd ⟨[], 1, 0⟩).bytes.length ≤
      x.compressed.segment.bytes.length := by
    rw [Input.compressed, ginCompressPostingList]
    dsimp only
    split
    · exact length_append ▸ Nat.le_add_right ..
    · exact le_rfl
  have halloc := hp.allocation
  have hroom : x.compressed.segment.bytes.length ≤ segmentRoom x.maxsize := by
    rw [segmentRoom]
    omega
  rcases packItems_overrun (s := ⟨[], 1, 0⟩) h.follow (Nat.zero_le _) hfit with hlt | hlt
  · omega
  · exact absurd hp.buffer (Nat.not_le.mpr hlt)

/-- **Posting lists are compressed within bounds and come back exactly where wide gaps fit.** -/
theorem posting_lists_roundtrip (l : List Input) (h : ∀ x ∈ l, x.Valid) :
    ((∀ x ∈ l, x.Packs) ∧ ∃ r, ginPostingListDecodeAllSegments (l.flatMap fun x => x.compressed.segment.memory) = some r ∧
        r.items = l.flatMap Input.written ∧ r.items.length ≤ r.nallocated) ↔
      ∀ x ∈ l, x.wideGapsFit = true := by
  refine ⟨fun ⟨hpacks, _⟩ x hx => ?_, fun hfit => ⟨fun x hx => ((h x hx).packs (hfit x hx)).1, ?_⟩⟩
  · by_contra hnot
    exact (h x hx).not_packs (Bool.not_eq_true _ ▸ hnot) (hpacks x hx)
  · set segments := l.map fun x => (x.compressed.segment, x.written.tail) with hsegments
    have hholds : ∀ y ∈ segments, Holds y.1 y.2 := fun y hy => by
      obtain ⟨x, hx, rfl⟩ := mem_map.mp hy
      obtain ⟨-, k, hk, hwritten⟩ := (h x hx).packs (hfit x hx)
      show Holds _ x.written.tail
      rw [hwritten]
      exact hk
    have hmemory : (l.flatMap fun x => x.compressed.segment.memory) = segments.flatMap fun y => y.1.memory := by
      rw [hsegments, flatMap_map]
    have hwritten : l.flatMap Input.written = segments.flatMap fun y => y.1.first :: y.2 := by
      rw [hsegments, flatMap_map]
      exact flatMap_congr fun x hx => by
        obtain ⟨-, k, -, hwritten⟩ := (h x hx).packs (hfit x hx)
        rw [hwritten]
        rfl
    have hguess : Decoded.Fits ⟨[], ((readHeader (segments.flatMap fun y => y.1.memory)).map
        fun header => header.2.1.toNat * 2 + 1).getD 1⟩ := by
      refine ⟨?_, Nat.zero_le _⟩
      cases readHeader (segments.flatMap fun y => y.1.memory) with
      | none => exact Nat.one_pos
      | some header => exact Nat.succ_pos _
    obtain ⟨r, hr, hitems, hfits⟩ := decodeSegments_holds _ segments hholds hguess (Nat.lt_succ_self _)
    rw [hmemory, hwritten]
    exact ⟨r, hr, hitems, hfits.within⟩

/-- A wide gap with room for it, and a second segment. -/
def twoInputs : List Input :=
  [⟨⟨0, 1⟩, [⟨0x80000000, 1⟩, ⟨0x80000000, 9⟩], 20⟩, ⟨⟨0x80000001, 2⟩, [], 10⟩]

theorem posting_lists_roundtrip_two :
    ∃ r, ginPostingListDecodeAllSegments (twoInputs.flatMap fun x => x.compressed.segment.memory) = some r ∧
      r.items = [⟨0, 1⟩, ⟨0x80000000, 1⟩, ⟨0x80000000, 9⟩, ⟨0x80000001, 2⟩] := by
  have h : ∀ x ∈ twoInputs, x.Valid := fun x hx => by
    rcases mem_pair.mp hx with rfl | rfl
    · exact ⟨by decide, by decide, by decide⟩
    · exact ⟨by decide, by decide, by decide⟩
  obtain ⟨-, r, hr, hitems, -⟩ := (posting_lists_roundtrip twoInputs h).mpr (by decide +kernel)
  exact ⟨r, hr, hitems.trans (by decide +kernel)⟩

/-- Six bytes are left for a distance of seven. -/
theorem posting_lists_roundtrip_fails :
    ∃ x : Input, x.Valid ∧ x.maxsize = 14 ∧ headerSize + x.compressed.segment.bytes.length = 16 ∧ ¬ x.Packs := by
  refine ⟨⟨⟨0, 1⟩, [⟨0x80000000, 1⟩], 14⟩, ⟨by decide, by decide, by decide⟩, rfl, by decide +kernel, fun h => ?_⟩
  exact absurd h.allocation (by decide +kernel)

end PgStorage.Gin
