import PgStorage.LargeObject.Pages

/-! The descriptor stands for a byte array and a position in it.

The bytes are those of the rows, with zeros between them, and the length is where the last row ends. Seeks and
reads are those of the array. -/
namespace PgStorage.LargeObject
open OrderedMap
open List

structure Refines (obj : LargeObjectDesc) (a : Plain) : Prop where
  short : Short obj.pages.rows
  size : size obj.pages.rows = a.bytes.length
  bytes : ∀ i, a.bytes.getD i 0 = byteAt obj.pages.rows i
  offset : obj.offset = a.pos

/-- A call replies what the array's call replies, or is rejected with it and leaves the object as it was. -/
def Follows (r : Except Fault Reply × LargeObjectDesc) (obj : LargeObjectDesc) : Option (Plain × Reply) → Prop
  | none => (∃ errmsg, r.1 = .error (.ereport errmsg)) ∧ r.2 = obj
  | some (b, reply) => r.1 = .ok reply ∧ Refines r.2 b

section
variable {obj : LargeObjectDesc} {a : Plain} {m : OrderedMap Bytes} {r : Row} {i n : Nat}

theorem Refines.row_le (h : Refines obj a) (hr : r ∈ obj.pages.rows) :
    r.1 * loblksize + r.2.length ≤ maxLargeObjectSize :=
  ((size_le obj.pages.sorted h.short).mp le_rfl r hr).trans (h.size ▸ a.length_le)

/-- Page numbers fit. -/
theorem pageno_lt (h : n ≤ maxLargeObjectSize) : n / loblksize < 2147483648 := by
  rw [maxLargeObjectSize] at h
  exact Nat.lt_succ_of_le (Nat.div_le_of_le_mul (mul_comm loblksize _ ▸ h))

theorem Refines.getElem? (h : Refines obj a) (hi : i < a.bytes.length) :
    a.bytes[i]? = some (byteAt obj.pages.rows i) := by
  rw [← h.bytes, getElem?_eq_getElem hi, getD_eq_getElem?_getD, getElem?_eq_getElem hi]
  rfl

/-- A scan from the page of a place on holds what is held from that place on. -/
theorem scan_byteAt (h : n ≤ i) : byteAt (m.scan (n / loblksize)) i = byteAt m.rows i :=
  byteAt_congr sorted_scan m.sorted fun _ => mem_scan.trans (and_iff_right (Nat.div_le_div_right h))

theorem scan_short (h : Short m.rows) : Short (m.scan n) := fun _ hr => h _ (mem_scan.mp hr).2

theorem scan_size (h : Short m.rows) : max (size (m.scan (n / loblksize))) n = max (size m.rows) n := by
  refine eq_of_forall_ge_iff fun x => ?_
  rw [max_le_iff, max_le_iff, size_le sorted_scan (scan_short h), size_le m.sorted h]
  refine and_congr_left fun hn => ⟨fun hx r hr => ?_, fun hx r hr => hx r (mem_scan.mp hr).2⟩
  by_cases hk : n / loblksize ≤ r.1
  · exact hx r (mem_scan.mpr ⟨hk, hr⟩)
  · have hlen := h r hr
    have hpage := page_lt (Nat.lt_of_not_le hk)
    have hsplit := page_split n
    omega

theorem Refines.getsize (h : Refines obj a) : invGetsize obj = .ok a.bytes.length := by
  have hs := h.size
  rw [LargeObject.size] at hs
  rw [invGetsize, last?]
  cases hlast : obj.pages.rows.getLast? with
  | none =>
    rw [hlast] at hs
    exact congrArg Except.ok hs
  | some r =>
    rw [hlast, Option.elim_some] at hs
    have hr : r ∈ obj.pages.rows := mem_of_getLast? hlast
    have hlen := h.short r hr
    have hle := h.row_le hr
    have hmax := maxLargeObjectSize_eq
    have hdata : getdatafield obj.id r = .ok r.2 := if_neg (Nat.not_lt.mpr hlen)
    have hu : uint64 a.bytes.length = .ok a.bytes.length := if_pos (by omega)
    simp only [hdata, bind, Except.bind, hs]
    exact hu

/-- A sum that does not fit is negative. -/
theorem bmod_sum {x : Int} (h : -2 ^ 63 ≤ x) (h' : x < 2 ^ 63 + 2 ^ 62) :
    x.bmod (2 ^ 64) = x ∨ 2 ^ 63 ≤ x ∧ x.bmod (2 ^ 64) < 0 := by
  rw [Int.bmod]
  split <;> omega

theorem Refines.seek_to (h : Refines obj a) {offset : Int64} {whence : Int32} (base : Nat) (x : Int)
    (hnew : newoffset obj offset whence = .ok x)
    (hx : x = base + offset.toInt ∨ 2 ^ 63 ≤ base + offset.toInt ∧ x < 0) :
    Follows ((invSeek obj offset whence).map (·.map .position) id) obj
      (if h : 0 ≤ base + offset.toInt ∧ base + offset.toInt ≤ maxLargeObjectSize then
        some ({a with pos := (base + offset.toInt).toNat, pos_le := by omega}, .position (base + offset.toInt))
      else none) := by
  have hmax := maxLargeObjectSize_eq
  rw [invSeek, hnew]
  dsimp only
  by_cases hin : 0 ≤ base + offset.toInt ∧ base + offset.toInt ≤ maxLargeObjectSize
  · obtain rfl : x = base + offset.toInt := by omega
    rw [dif_pos hin, if_neg (by omega)]
    exact ⟨rfl, h.short, h.size, h.bytes, rfl⟩
  · rw [dif_neg hin, if_pos (by omega)]
    exact ⟨⟨_, rfl⟩, rfl⟩

theorem seek_follows (h : Refines obj a) (offset : Int64) (whence : Int32) :
    Follows (call obj (.seek offset whence)) obj (a.call (.seek offset whence)) := by
  have hlo := offset.le_toInt
  have hhi := offset.toInt_lt
  have hmax := maxLargeObjectSize_eq
  have hlen := a.length_le
  have hpos := a.pos_le
  rw [call, Plain.call, Plain.seek]
  by_cases h0 : whence = 0
  · rw [if_pos h0]
    exact h.seek_to 0 offset.toInt (if_pos h0) (.inl (Int.zero_add _).symm)
  rw [if_neg h0]
  by_cases h1 : whence = 1
  · rw [if_pos h1]
    refine h.seek_to a.pos _ ((if_neg h0).trans (if_pos h1)) ?_
    rw [h.offset]
    exact bmod_sum (by omega) (by omega)
  rw [if_neg h1]
  by_cases h2 : whence = 2
  · rw [if_pos h2]
    refine h.seek_to a.bytes.length ((a.bytes.length + offset.toInt).bmod (2 ^ 64)) ?_
      (bmod_sum (by omega) (by omega))
    rw [newoffset, if_neg h0, if_neg h1, if_pos h2, h.getsize]
    rfl
  · have hnew : newoffset obj offset whence = .error (.ereport ("invalid whence setting: " ++ toString whence)) := by
      rw [newoffset, if_neg h0, if_neg h1, if_neg h2]
    rw [if_neg h2, invSeek, hnew]
    exact ⟨⟨_, rfl⟩, rfl⟩

theorem take_drop_eq (h : Refines obj a) (k : Nat) : (a.bytes.drop a.pos).take k =
    bytesFrom obj.pages.rows a.pos (min k (a.bytes.length - a.pos)) := by
  refine ext_getElem? fun i => ?_
  rw [bytesFrom, getElem?_map, getElem?_take, getElem?_drop]
  by_cases hi : i < min k (a.bytes.length - a.pos)
  · rw [if_pos (by omega), h.getElem? (by omega), getElem?_range' hi, one_mul]
    rfl
  · have hend : (range' a.pos (min k (a.bytes.length - a.pos))).length ≤ i := by
      rw [length_range']
      exact Nat.le_of_not_lt hi
    rw [getElem?_eq_none hend]
    split
    · exact getElem?_eq_none (by omega)
    · rfl

theorem int32_nonpos {k : Int32} (h : k ≤ 0) : k.toInt.toNat = 0 :=
  Int.toNat_eq_zero.mpr (Int32.le_iff_toInt_le.mp h)

/-- What a scan from the position reads is what the array holds there. -/
theorem Refines.read (h : Refines obj a) (nbytes : Int32) :
    invRead obj nbytes = (.ok ((a.bytes.drop a.pos).take nbytes.toInt.toNat),
      {obj with offset := obj.offset + ((a.bytes.drop a.pos).take nbytes.toInt.toNat).length}) := by
  have hpos := a.pos_le
  have hlen := a.length_le
  have hmax := maxLargeObjectSize_eq
  have ho := h.offset
  rw [take_drop_eq h, length_bytesFrom, invRead]
  by_cases h0 : nbytes ≤ 0
  · rw [if_pos h0, int32_nonpos h0, Nat.zero_min]
    rfl
  · have hhi := nbytes.toInt_lt
    have hpage : int32 (obj.offset / loblksize) = .ok (obj.offset / loblksize) := if_pos (pageno_lt (ho ▸ hpos))
    have hread : Reading ⟨obj.offset, []⟩ nbytes.toInt.toNat := by
      refine ⟨Nat.zero_le _, ?_, ?_⟩
      · omega
      · dsimp only [length_nil]
        omega
    have hkeys : ∀ r ∈ obj.pages.scan (obj.offset / loblksize), r.1 * loblksize < 2 ^ 64 := by
      intro r hr
      have hrow : r.1 * loblksize + r.2.length ≤ maxLargeObjectSize := h.row_le (mem_scan.mp hr).2
      omega
    have hin : ∀ r ∈ obj.pages.scan (obj.offset / loblksize), obj.offset < r.1 * loblksize + loblksize := by
      intro r hr
      have hr' := Nat.mul_le_mul_right loblksize (mem_scan.mp hr).1
      have hsplit := page_split obj.offset
      have hmod := Nat.mod_lt obj.offset loblksize_pos
      omega
    have hsize : max (LargeObject.size (obj.pages.scan (obj.offset / loblksize))) obj.offset =
        max (LargeObject.size obj.pages.rows) obj.offset := scan_size h.short
    have hbytes : bytesFrom (obj.pages.scan (obj.offset / loblksize)) obj.offset
        (min nbytes.toInt.toNat (a.bytes.length - a.pos)) =
          bytesFrom obj.pages.rows a.pos (min nbytes.toInt.toNat (a.bytes.length - a.pos)) := by
      rw [← ho]
      exact bytesFrom_congr fun k hk _ => scan_byteAt hk
    have hend : LargeObject.size (obj.pages.scan (obj.offset / loblksize)) - obj.offset =
        a.bytes.length - a.pos := by
      rw [h.size] at hsize
      omega
    rw [if_neg h0]
    simp only [hpage, readPages_eq sorted_scan (scan_short h.short) hkeys hin hread, bind, Except.bind, ReadState.upTo]
    rw [length_nil, Nat.sub_zero, nil_append, hend, hbytes]

theorem read_follows (h : Refines obj a) (nbytes : Int32) :
    Follows (call obj (.read nbytes)) obj (a.call (.read nbytes)) := by
  rw [call, h.read]
  exact ⟨rfl, h.short, h.size, h.bytes, congrArg (· + _) h.offset⟩

end
end PgStorage.LargeObject
