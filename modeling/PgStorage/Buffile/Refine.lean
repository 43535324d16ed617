import PgStorage.Buffile.Files

/-! A buffered temporary file is an array of bytes with a cursor.

`Plain` is what a user of the file is to see. A `BufFile` shows it through its buffer and its files
(`Refines`), and every call answers what the array answers, until the file is as long as the array of
its segments allows. -/
namespace PgStorage.Buffile
open Memory Splice BufFile Nat List

/-- Bytes with a cursor that is not beyond their end. -/
@[ext] structure Plain where
  bytes : List UInt8
  cursor : Nat
  le : cursor ≤ bytes.length

namespace Plain

def create : Plain := ⟨[], 0, Nat.le_refl 0⟩

def write (a : Plain) (data : List UInt8) : Plain where
  bytes := splice a.bytes a.cursor data
  cursor := a.cursor + data.length
  le := by rw [length_splice a.le]; exact Nat.le_max_right _ _

def skip (a : Plain) (n : Nat) : Plain where
  bytes := a.bytes
  cursor := min (a.cursor + n) a.bytes.length
  le := Nat.min_le_right _ _

def read (a : Plain) (size : Nat) : List UInt8 := (a.bytes.drop a.cursor).take size

theorem skip_skip (a : Plain) (n m : Nat) : (a.skip n).skip m = a.skip (n + m) := by
  have := a.le
  ext1
  · rfl
  · simp only [skip]
    omega

theorem skip_zero (a : Plain) : a.skip 0 = a := by
  ext1
  · rfl
  · exact min_eq_left a.le

theorem read_add (a : Plain) (n m : Nat) (h : a.cursor + n ≤ a.bytes.length) :
    a.read (n + m) = a.read n ++ (a.skip n).read m := by
  rw [read, take_add, drop_drop, read, read, skip]
  dsimp only
  rw [min_eq_left h]

theorem write_nil (a : Plain) : a.write [] = a := by
  ext1
  · exact splice_nil
  · rfl

theorem write_append (a : Plain) (data rest : List UInt8) :
    (a.write data).write rest = a.write (data ++ rest) := by
  ext1
  · exact splice_splice a.le
  · simp only [write, length_append, Nat.add_assoc]

def InRange (a : Plain) (target : Int) : Prop := 0 ≤ target ∧ target.toNat ≤ a.bytes.length

instance (a : Plain) (target : Int) : Decidable (a.InRange target) := instDecidableAnd

def seek (a : Plain) (target : Int) : Plain × Bool :=
  if h : a.InRange target then (⟨a.bytes, target.toNat, h.2⟩, true) else (a, false)

end Plain

/-- The file is longer than its segments may get. -/
def TooLong (a : Plain) : Prop := maxFiles * maxPhysicalFilesize < a.bytes.length

/-- What a `BufFile` shows. -/
structure Refines (f : BufFile) (a : Plain) : Prop where
  formed : Formed f
  pos : f.pos ≤ f.nbytes
  nbytes : f.nbytes ≤ blcksz
  clean : f.dirty = false → f.curOffset + f.nbytes ≤ f.thisfile.bytes.length ∧
    ∀ j, j < f.nbytes → f.thisfile.bytes[f.curOffset + j]? = some (f.buffer j)
  bytes : ∀ i, a.bytes[i]? = f.pending 0 i
  cursor : a.cursor = f.base + f.pos

section Refine
variable {f g : BufFile} {a b : Plain} {i n size target : Nat} {data d : List UInt8} (io : Nat → Nat)

theorem pending_empty (h : f.nbytes = 0) : f.pending 0 i = f.phys i := by
  rw [pending, if_neg (by omega)]

section
variable (h : Refines f a)
include h

theorem Refines.phys (hd : f.dirty = false) (i : Nat) : a.bytes[i]? = f.phys i := by
  rw [h.bytes, pending]
  split
  next hi =>
    obtain ⟨j, rfl⟩ : ∃ j, i = f.base + j := ⟨i - f.base, by omega⟩
    obtain ⟨hle, hbuf⟩ := h.clean hd
    rw [h.formed.phys_base (by omega), hbuf j (by omega), Nat.zero_add, Nat.add_sub_cancel_left]
  next => rfl

/-- The bytes of the buffer. -/
theorem Refines.buffer {j : Nat} (hj : j < f.nbytes) : a.bytes[f.base + j]? = some (f.buffer j) := by
  rw [h.bytes, pending, if_pos (by omega), Nat.zero_add, Nat.add_sub_cancel_left]

theorem Refines.length_le (hd : f.dirty = false) :
    a.bytes.length ≤ f.files.length * maxPhysicalFilesize := by
  by_contra hlt
  have hget := getElem?_eq_getElem (Nat.lt_of_not_le hlt)
  rw [h.phys hd] at hget
  exact absurd (lt_of_phys hget) (lt_irrefl _)

theorem tooLong_of_pending (hi : maxFiles * maxPhysicalFilesize ≤ i) (hp : f.pending 0 i ≠ none) :
    TooLong a := by
  rw [← h.bytes, ne_eq, getElem?_eq_none_iff, not_le] at hp
  exact lt_of_le_of_lt hi hp

/-- The buffer is empty, and stands at the position it had. -/
theorem Refines.empty (hg : Formed g) (hbase : g.base = f.base + f.pos)
    (hphys : ∀ i, g.phys i = f.pending 0 i) (hpos : g.pos = 0) (hn : g.nbytes = 0) :
    Refines g a := by
  refine ⟨hg, by omega, by omega, fun _ => ⟨?_, fun j hj => absurd hj (by omega)⟩, fun i => ?_, ?_⟩
  · rw [hn]
    exact hg.offset
  · rw [pending_empty hn, hphys, h.bytes]
  · rw [h.cursor, hbase, hpos, Nat.add_zero]

theorem dumpBuffer_refines :
    (f.bufFileDumpBuffer io = none ∧ TooLong a) ∨
    ∃ g, f.bufFileDumpBuffer io = some g ∧ Refines g a ∧ g.dirty = false ∧ g.pos = 0 ∧ g.nbytes = 0 := by
  rcases dumpLoop_spec io f.nbytes h.formed (zero_le _) (by omega) with
    ⟨hnone, i, hi, hp⟩ | ⟨y, hy, hform, hbase, hphys, hfields⟩
  · exact .inl ⟨by rw [bufFileDumpBuffer, hnone]; rfl, tooLong_of_pending h hi hp⟩
  · have hyn : y.nbytes = f.nbytes ∧ y.pos = f.pos := by
      rw [hfields]
      exact ⟨rfl, rfl⟩
    have hle := h.pos
    have hmax := h.nbytes
    have hblock := blcksz_le
    rw [base] at hbase
    have hcur : y.curFile ≠ 0 ∨ f.nbytes ≤ y.curOffset := by
      rcases Nat.eq_zero_or_pos y.curFile with h0 | hpos
      · rw [h0, Nat.zero_mul] at hbase
        exact .inr (by omega)
      · exact .inl (ne_of_gt hpos)
    refine .inr ⟨_, by rw [bufFileDumpBuffer, hy]; rfl, ?_⟩
    dsimp only
    split
    next hback =>
      refine ⟨h.empty ?_ ?_ hphys rfl rfl, rfl, rfl, rfl⟩
      · refine hform.move rfl rfl rfl (lt_of_le_of_lt (sub_le _ _) hform.cur) fun t ht => ?_
        have := hform.cur
        rw [hform.full (y.curFile - 1) t ht (by omega)]
        dsimp only
        omega
      · rw [base]
        dsimp only
        have hpred : y.curFile * maxPhysicalFilesize = (y.curFile - 1) * maxPhysicalFilesize + maxPhysicalFilesize := by
          rw [← Nat.succ_mul, Nat.succ_eq_add_one, Nat.sub_add_cancel (by omega)]
        omega
    next hback =>
      refine ⟨h.empty ?_ ?_ hphys rfl rfl, rfl, rfl, rfl⟩
      · exact {hform with offset := le_trans (sub_le _ _) hform.offset}
      · rw [base]
        dsimp only
        omega

theorem flush_refines :
    (f.bufFileFlush io = none ∧ TooLong a) ∨
    ∃ g, f.bufFileFlush io = some (g, true) ∧ Refines g a ∧ g.dirty = false ∧
      (f.dirty = false ∧ g = f ∨ g.pos = 0 ∧ g.nbytes = 0) := by
  rw [bufFileFlush]
  split
  next =>
    rcases dumpBuffer_refines io h with ⟨hnone, hlong⟩ | ⟨g, hg, hr, hclean, hpos, hn⟩
    · exact .inl ⟨by rw [hnone]; rfl, hlong⟩
    · refine .inr ⟨g, ?_, hr, hclean, .inr ⟨hpos, hn⟩⟩
      rw [hg, Option.map_some, hclean]
      rfl
  next hd =>
    have hclean : f.dirty = false := by rwa [Bool.not_eq_true] at hd
    exact .inr ⟨f, rfl, h, hclean, .inl ⟨hclean, rfl⟩⟩

theorem restart_refines (hd : f.dirty = false) :
    Refines f.restart a := by
  have hp := h.pos
  refine h.empty ?_ (Nat.add_assoc ..).symm (fun i => ?_) rfl rfl
  · refine h.formed.move rfl rfl rfl h.formed.cur fun t ht => ?_
    have hle := (h.clean hd).1
    rw [show f.restart.curFile = f.curFile from rfl, h.formed.thisfile] at ht
    rw [← Option.some_inj.mp ht]
    exact Nat.le_trans (Nat.add_le_add_left hp _) hle
  · rw [← h.bytes, h.phys hd]
    rfl

end

/-! ### Reading -/

theorem fileRead_spec (l : List UInt8) (o limit : Nat) {amount : Nat} (hpos : 0 < amount) :
    ∃ d, d <+: (l.drop o).take amount ∧ (d = [] → l.length ≤ o) ∧
      (⟨l, o⟩ : TempFile).fileRead amount limit = (⟨l, o + d.length⟩, d) := by
  refine ⟨((l.drop o).take amount).take (max 1 limit), take_prefix .., fun hnil => ?_, rfl⟩
  have hlen := congrArg length hnil
  rw [length_take, length_take, length_drop, length_nil] at hlen
  omega

/-- The place to load from: in the next file, where there is one and this one is at its end. -/
theorem advanceFile_refines (h : Refines f a) (hpos : f.pos = 0) (hn : f.nbytes = 0) :
    Refines f.advanceFile a ∧ f.advanceFile.pos = 0 ∧ f.advanceFile.dirty = f.dirty ∧
      (f.advanceFile.curOffset = maxPhysicalFilesize → f.advanceFile.files.length ≤ f.advanceFile.curFile + 1) := by
  rw [advanceFile]
  split
  next hnext =>
    have hoff : f.curOffset = maxPhysicalFilesize := Nat.le_antisymm h.formed.offset_le hnext.1
    refine ⟨h.empty (h.formed.move rfl rfl rfl hnext.2 fun _ _ => Nat.zero_le _) ?_ (fun i => ?_) hpos hn, hpos, rfl,
      fun h0 => absurd h0 (Nat.ne_of_lt maxPhysicalFilesize_pos)⟩
    · rw [base, base, hoff, hpos]
      dsimp only
      rw [succ_mul]
    · rw [pending_empty hn]
      rfl
  next hlast =>
    refine ⟨h, hpos, rfl, fun heq => ?_⟩
    by_contra hlt
    exact hlast ⟨Nat.le_of_eq heq.symm, Nat.lt_of_not_le hlt⟩

/-- Nothing is read at the end of the file only. -/
theorem readHere_refines (h : Refines f a) (hd : f.dirty = false) (hpos : f.pos = 0)
    (hlast : f.curOffset = maxPhysicalFilesize → f.files.length ≤ f.curFile + 1) :
    Refines (f.readHere io) a ∧ (f.readHere io).dirty = false ∧ (f.readHere io).pos = 0 ∧
      ((f.readHere io).nbytes = 0 → a.cursor = a.bytes.length) := by
  obtain ⟨d, hpre, hnil, hread⟩ := fileRead_spec f.thisfile.bytes f.curOffset (io f.transfers)
    (show 0 < blcksz by decide)
  obtain ⟨hmove, hthis⟩ := reposition_transfer h.formed ⟨f.thisfile.bytes, f.curOffset + d.length⟩ d.length
  rw [readHere, hthis, hread]
  dsimp only
  rw [hmove]
  generalize hg : BufFile.mk _ _ _ _ _ _ _ _ _ _ = g
  have hlen := hpre.length_le
  rw [length_take, length_drop] at hlen
  have hoff := h.formed.offset
  have hbuf : ∀ j, j < d.length → f.thisfile.bytes[f.curOffset + j]? = some (memcpy f.buffer 0 d j) := by
    intro j hj
    have hget := prefix_iff_getElem?.mp hpre j hj
    rw [getElem?_take_of_lt (by omega), getElem?_drop] at hget
    rw [hget, memcpy, if_pos (by omega), Nat.sub_zero, getD_eq_getElem?_getD, getElem?_eq_getElem hj]
    rfl
  have hphys : ∀ i, g.phys i = f.phys i := by
    intro i
    rw [← hg]
    refine (phys_transfer (n := d.length) h.formed i).trans ?_
    split
    next hi => rw [BufFile.phys, hi, h.formed.thisfile]; rfl
    next => rfl
  have hthis : g.thisfile.bytes = f.thisfile.bytes := by
    rw [← hg, BufFile.thisfile, getD_eq_getElem?_getD, BufFile.transfer, getElem?_set_self h.formed.cur]
    rfl
  obtain ⟨hgo, hgn, hgb, hgbase, hgpos⟩ : g.curOffset = f.curOffset ∧ g.nbytes = d.length ∧
      g.buffer = memcpy f.buffer 0 d ∧ g.base = f.base ∧ g.pos = f.pos := by
    rw [← hg]
    exact ⟨rfl, rfl, rfl, rfl, rfl⟩
  have hsize := h.formed.size _ _ h.formed.thisfile
  have hform : Formed g := by
    refine h.formed.transfer (t := ⟨f.thisfile.bytes, f.curOffset + d.length⟩) (n := d.length) rfl hsize
      (le_refl _) (hgo ▸ hoff) ?_
    rw [← hg]
  refine ⟨⟨hform, by omega, by omega, fun _ => ⟨?_, fun j hj => ?_⟩, fun i => ?_, ?_⟩, hd, hpos, fun h0 => ?_⟩
  · rw [hthis, hgo, hgn]
    omega
  · rw [hthis, hgo, hgb]
    exact hbuf j (hgn ▸ hj)
  · rw [h.phys hd, pending, hphys, hgbase, hgn, hgb]
    split
    next hi =>
      obtain ⟨j, rfl⟩ : ∃ j, i = f.base + j := ⟨i - f.base, by omega⟩
      rw [h.formed.phys_base (by omega), hbuf j (by omega), Nat.zero_add, Nat.add_sub_cancel_left]
    next => rfl
  · rw [h.cursor, hgbase, hgpos]
  · have hend := hnil (eq_nil_of_length_eq_zero h0)
    have hcur : a.cursor = f.base := by rw [h.cursor, hpos, Nat.add_zero]
    refine Nat.le_antisymm a.le ?_
    rcases lt_or_eq_of_le h.formed.offset_le with hlt | heq
    · have hnone : f.phys f.base = none := by
        rw [base, phys_segment f hlt, h.formed.thisfile]
        exact getElem?_eq_none hend
      rw [← h.phys hd, getElem?_eq_none_iff] at hnone
      omega
    · have hfiles := mul_le_mul_right maxPhysicalFilesize (hlast heq)
      have := h.length_le hd
      rw [succ_mul] at hfiles
      rw [hcur, base, heq]
      omega

theorem loadBuffer_refines (h : Refines f a) (hd : f.dirty = false) (hpos : f.pos = 0) (hn : f.nbytes = 0) :
    Refines (f.bufFileLoadBuffer io) a ∧ (f.bufFileLoadBuffer io).dirty = false ∧
      (f.bufFileLoadBuffer io).pos = 0 ∧ ((f.bufFileLoadBuffer io).nbytes = 0 → a.cursor = a.bytes.length) := by
  obtain ⟨hg, hgpos, hgd, hlast⟩ := advanceFile_refines h hpos hn
  exact readHere_refines io hg (hgd.trans hd) hgpos hlast

/-- The cursor moves in the buffer. -/
theorem Refines.move (h : Refines f a) {p : Nat} (hp : p ≤ f.nbytes) (hbytes : b.bytes = a.bytes)
    (hcursor : b.cursor = f.base + p) : Refines {f with pos := p} b :=
  ⟨{h.formed with}, hp, h.nbytes, h.clean, fun i => by rw [hbytes]; exact h.bytes i, hcursor⟩

theorem bytes_buffer (h : Refines f a) (hn : f.pos + n ≤ f.nbytes) :
    bytes f.buffer f.pos n = a.read n ∧ a.cursor + n ≤ a.bytes.length := by
  have hget : ∀ j, j < n → a.bytes[a.cursor + j]? = some (f.buffer (f.pos + j)) := by
    intro j hj
    rw [h.cursor, Nat.add_assoc, h.buffer (by omega)]
  have hle : a.cursor + n ≤ a.bytes.length := by
    rcases Nat.eq_zero_or_pos n with rfl | hpos
    · exact a.le
    · obtain ⟨hlt, -⟩ := List.getElem?_eq_some_iff.mp (hget (n - 1) (by omega))
      omega
  refine ⟨?_, hle⟩
  apply ext_getElem?
  intro j
  rw [Plain.read]
  by_cases hj : j < n
  · rw [getElem?_bytes hj, getElem?_take_of_lt hj, getElem?_drop, hget j hj]
  · rw [getElem?_eq_none (by rw [length_bytes]; omega), getElem?_eq_none]
    rw [length_take]
    omega

theorem readLoop_refines (fuel : Nat) (h : Refines f a) (hd : f.dirty = false) (hfuel : size ≤ fuel) :
    Refines (readLoop io fuel f size).1 (a.skip size) ∧ (readLoop io fuel f size).2 = a.read size := by
  induction fuel generalizing f a size with
  | zero =>
    obtain rfl : size = 0 := by omega
    rw [a.skip_zero]
    exact ⟨h, rfl⟩
  | succ fuel ih =>
    rw [readLoop]
    split
    next hsize =>
      have hmore : ∃ g, g = (if f.pos ≥ f.nbytes then f.restart.bufFileLoadBuffer io else f) ∧ Refines g a ∧
          g.dirty = false ∧ (g.nbytes ≤ g.pos → a.cursor = a.bytes.length) := by
        refine ⟨_, rfl, ?_⟩
        split
        next =>
          obtain ⟨hr, hrd, hrp, hrn⟩ := loadBuffer_refines io (restart_refines h hd) hd rfl rfl
          exact ⟨hr, hrd, fun h0 => hrn (by omega)⟩
        next hlt => exact ⟨h, hd, fun hle => absurd hle hlt⟩
      obtain ⟨g, hg, hr, hgd, hend⟩ := hmore
      rw [← hg]
      dsimp only
      split
      next hle =>
        have hcur := hend hle
        refine ⟨?_, ?_⟩
        · have : a.skip size = a := by
            ext1
            · rfl
            · rw [Plain.skip]
              dsimp only
              omega
          rwa [this]
        · rw [Plain.read, drop_of_length_le (le_of_eq hcur.symm), take_nil]
      next hlt =>
        have hn : g.pos + min (g.nbytes - g.pos) size ≤ g.nbytes := by omega
        obtain ⟨hbytes, hle⟩ := bytes_buffer hr hn
        have hmove : Refines {g with pos := g.pos + min (g.nbytes - g.pos) size}
            (a.skip (min (g.nbytes - g.pos) size)) := by
          refine hr.move hn rfl ?_
          rw [← Nat.add_assoc, ← hr.cursor]
          exact Nat.min_eq_left hle
        obtain ⟨h1, h2⟩ := ih hmove hgd (show size - min (g.nbytes - g.pos) size ≤ fuel by omega)
        rw [Plain.skip_skip] at h1
        have hsum : min (g.nbytes - g.pos) size + (size - min (g.nbytes - g.pos) size) = size := by omega
        rw [hsum] at h1
        exact ⟨h1, by rw [h2, hbytes, ← a.read_add _ _ hle, hsum]⟩
    next hsize =>
      obtain rfl : size = 0 := by omega
      rw [a.skip_zero]
      exact ⟨h, rfl⟩

theorem read_refines (h : Refines f a) :
    (f.bufFileRead io size = none ∧ TooLong a) ∨
    ∃ g, f.bufFileRead io size = some (g, a.read size) ∧ Refines g (a.skip size) := by
  rcases flush_refines io h with ⟨hnone, hlong⟩ | ⟨g, hg, hr, hd, -⟩
  · exact .inl ⟨by rw [bufFileRead, hnone]; rfl, hlong⟩
  · obtain ⟨h1, h2⟩ := readLoop_refines io size hr hd (le_refl size)
    refine .inr ⟨(readLoop io size g size).1, ?_, h1⟩
    rw [bufFileRead, hg, ← h2]
    rfl

theorem fill_refines (h : Refines f a) (hfit : f.pos + data.length ≤ blcksz) :
    Refines (f.fill data) (a.write data) := by
  have hp := h.pos
  have hn := h.nbytes
  refine ⟨{h.formed with}, Nat.le_max_right _ _, Nat.max_le.mpr ⟨hn, hfit⟩, nofun, fun i => ?_, ?_⟩
  · have hfill : (f.fill data).pending 0 i = if f.base ≤ i ∧ i < f.base + max f.nbytes (f.pos + data.length) then
        some (memcpy f.buffer f.pos data (i - f.base)) else f.phys i := by
      rw [pending, Nat.zero_add]
      rfl
    rw [Plain.write, hfill]
    dsimp only
    rw [getElem?_splice a.le, h.cursor, h.bytes, pending, memcpy, Nat.zero_add]
    by_cases hin : f.base + f.pos ≤ i ∧ i < f.base + f.pos + data.length
    · rw [if_pos hin, if_pos (by omega), if_pos (by omega), getD_eq_getElem?_getD, Nat.sub_sub,
        getElem?_eq_getElem (by omega)]
      rfl
    · rw [if_neg hin]
      by_cases hbuf : f.base ≤ i ∧ i < f.base + (f.nbytes - 0)
      · rw [if_pos hbuf, if_pos (by omega), if_neg (by omega)]
      · rw [if_neg hbuf, if_neg (by omega)]
  · rw [Plain.write]
    dsimp only
    rw [h.cursor, Nat.add_assoc]
    rfl

theorem TooLong.write (h : TooLong a) : TooLong (a.write data) := by
  rw [TooLong, Plain.write, length_splice a.le]
  exact lt_of_lt_of_le h (le_max_left _ _)

theorem makeRoom_refines (h : Refines f a) :
    (f.makeRoom io = none ∧ TooLong a) ∨
    ∃ g, f.makeRoom io = some (g, true) ∧ Refines g a ∧ g.pos < blcksz := by
  rw [makeRoom]
  split
  next hfull =>
    split
    next hd =>
      rcases dumpBuffer_refines io h with ⟨hnone, hlong⟩ | ⟨g, hg, hr, hclean, hpos, -⟩
      · exact .inl ⟨by rw [hnone]; rfl, hlong⟩
      · refine .inr ⟨g, by rw [hg, Option.map_some, hclean]; rfl, hr, ?_⟩
        rw [hpos]
        decide
    next hd => exact .inr ⟨_, rfl, restart_refines h (Bool.not_eq_true _ ▸ hd), (by decide : 0 < blcksz)⟩
  next hlt => exact .inr ⟨f, rfl, h, Nat.lt_of_not_le hlt⟩

theorem Refines.write_empty (h : Refines f a) (h0 : data.length = 0) : Refines f (a.write data) := by
  obtain rfl := eq_nil_of_length_eq_zero h0
  rwa [Plain.write_nil]

theorem writeLoop_refines (fuel : Nat) (h : Refines f a) (hfuel : data.length ≤ fuel) :
    (writeLoop io fuel f data = none ∧ TooLong (a.write data)) ∨
    ∃ g, writeLoop io fuel f data = some (g, data.length) ∧ Refines g (a.write data) := by
  induction fuel generalizing f a data with
  | zero =>
    have h0 : data.length = 0 := by omega
    exact .inr ⟨f, by rw [writeLoop, h0], h.write_empty h0⟩
  | succ fuel ih =>
    rw [writeLoop]
    split
    next hmore =>
      rcases makeRoom_refines io h with ⟨hnone, hlong⟩ | ⟨g, hg, hr, hpos⟩
      · exact .inl ⟨by rw [hnone]; rfl, hlong.write⟩
      · rw [hg, Option.bind_some]
        dsimp only
        have hlen : (data.take (min (blcksz - g.pos) data.length)).length = min (blcksz - g.pos) data.length :=
          length_take_of_le (min_le_right _ _)
        have hfit : g.pos + (data.take (min (blcksz - g.pos) data.length)).length ≤ blcksz := by omega
        have hfill := fill_refines hr hfit
        have hrest := ih hfill (show (data.drop (min (blcksz - g.pos) data.length)).length ≤ fuel by
          rw [length_drop]
          omega)
        rw [Plain.write_append, take_append_drop] at hrest
        rcases hrest with ⟨hnone, hlong⟩ | ⟨x, hx, hrx⟩
        · exact .inl ⟨by rw [hnone]; rfl, hlong⟩
        · refine .inr ⟨x, ?_, hrx⟩
          rw [hx, Option.map_some, length_drop, Nat.add_sub_cancel' (Nat.min_le_right _ _)]
    next hnone =>
      have h0 : data.length = 0 := by omega
      exact .inr ⟨f, by rw [h0], h.write_empty h0⟩

/-! ### Seeking -/

theorem borrow_spec (k : Nat) (o : Int) :
    match borrow k o with
    | none => (k * maxPhysicalFilesize : Nat) + o < 0
    | some (k', o') => ((k' * maxPhysicalFilesize + o' : Nat) : Int) = (k * maxPhysicalFilesize : Nat) + o := by
  induction k generalizing o with
  | zero =>
    rw [borrow]
    split_ifs with hneg
    · simpa using hneg
    · dsimp only
      omega
  | succ k ih =>
    rw [borrow]
    split_ifs with hneg
    · have := ih (o + maxPhysicalFilesize)
      revert this
      rw [succ_mul]
      cases borrow k (o + maxPhysicalFilesize) with
      | none | some p => intro this; dsimp only at this ⊢; omega
    · dsimp only
      omega

theorem carry_spec (left k o N : Nat) (hleft : left = N - k) :
    match carry left k o with
    | none => N * maxPhysicalFilesize < k * maxPhysicalFilesize + o
    | some (k', o') => k' * maxPhysicalFilesize + o' = k * maxPhysicalFilesize + o ∧ o' ≤ maxPhysicalFilesize ∧
      (k < N → k' < N) := by
  induction left generalizing k o with
  | zero =>
    rw [carry]
    split_ifs with hgt
    · have := mul_le_mul_right maxPhysicalFilesize (show N ≤ k by omega)
      have := maxPhysicalFilesize_pos
      dsimp only
      omega
    · exact ⟨rfl, Nat.le_of_not_lt hgt, id⟩
  | succ left ih =>
    rw [carry]
    split_ifs with hgt h0
    · have := mul_le_mul_right maxPhysicalFilesize (show N ≤ k + 1 by omega)
      rw [succ_mul] at this
      dsimp only
      omega
    · have := ih (k + 1) (o - maxPhysicalFilesize) (by omega)
      revert this
      rw [succ_mul]
      cases carry left (k + 1) (o - maxPhysicalFilesize) with
      | none | some p => intro this; dsimp only at this ⊢; omega
    · exact ⟨rfl, Nat.le_of_not_lt hgt, id⟩

/-- The cursor is put to a place in the files. -/
theorem Refines.place (h : Refines f a) (hd : f.dirty = false) {k o : Nat} (hk : k < f.files.length)
    (ho : o ≤ maxPhysicalFilesize) (hb : b.bytes = a.bytes) (hcur : b.cursor = k * maxPhysicalFilesize + o) :
    Refines {f with curFile := k, curOffset := o, pos := 0, nbytes := 0} b := by
  have hform : Formed {f with curFile := k, curOffset := o, pos := 0, nbytes := 0} := by
    refine h.formed.move rfl rfl rfl hk fun t ht => ?_
    dsimp only at ht ⊢
    by_cases hlast : k + 1 < f.files.length
    · rw [h.formed.full k t ht hlast]
      exact ho
    · rcases Nat.eq_zero_or_pos o with rfl | hpos
      · exact zero_le _
      · -- the byte before the cursor is in this file
        have hle := b.le
        rw [hcur, hb] at hle
        have hget := List.getElem?_eq_getElem (show k * maxPhysicalFilesize + (o - 1) < a.bytes.length by omega)
        rw [h.phys hd, phys_segment f (by omega), ht] at hget
        obtain ⟨hlt, -⟩ := List.getElem?_eq_some_iff.mp hget
        omega
  refine ⟨hform, Nat.le_refl 0, Nat.zero_le _, fun _ => ⟨hform.offset, fun j hj => absurd hj (Nat.not_lt_zero j)⟩,
    fun i => ?_, hcur.trans (Nat.add_zero _).symm⟩
  rw [hb, h.phys hd, pending_empty rfl]
  rfl

theorem seekFlushed_false {k o : Nat} (hs : (f.seekFlushed k o).2 = false) : (f.seekFlushed k o).1 = f := by
  rw [seekFlushed] at hs ⊢
  dsimp only at hs ⊢
  split at hs
  next => rfl
  next =>
    split at hs
    next hge => rw [if_pos hge]
    next => exact absurd hs nofun

theorem seekFlushed_refines (h : Refines f a) (hd : f.dirty = false) {k o : Nat}
    (hin : k * maxPhysicalFilesize + o ≤ a.bytes.length) :
    ∃ g, f.seekFlushed k o = (g, true) ∧ Refines g ⟨a.bytes, k * maxPhysicalFilesize + o, hin⟩ := by
  have hN := h.length_le hd
  have hcur := h.formed.cur
  obtain ⟨k', o', hsel, hsum, hlt⟩ : ∃ k' o', (if k = f.numFiles ∧ o = 0 then (k - 1, maxPhysicalFilesize) else (k, o)) =
      (k', o') ∧ k' * maxPhysicalFilesize + o' = k * maxPhysicalFilesize + o ∧ k' < f.files.length := by
    rw [numFiles]
    by_cases hend : k = f.files.length ∧ o = 0
    · refine ⟨k - 1, maxPhysicalFilesize, if_pos hend, ?_, by omega⟩
      rw [← Nat.succ_mul, Nat.succ_eq_add_one, Nat.sub_add_cancel (by omega), hend.2, Nat.add_zero]
    · refine ⟨k, o, if_neg hend, rfl, ?_⟩
      by_contra hge
      have := Nat.mul_le_mul_right maxPhysicalFilesize (Nat.le_of_not_lt hge)
      have hk : f.files.length < k ∨ o ≠ 0 := by omega
      rcases hk with hk | hk
      · have := mul_le_mul_right maxPhysicalFilesize hk
        rw [succ_mul] at this
        have := maxPhysicalFilesize_pos
        omega
      · omega
  have hcarry := carry_spec (f.numFiles - k') k' o' f.files.length rfl
  rw [seekFlushed, if_pos h.formed.temp, hsel]
  dsimp only
  split
  next hnone =>
    rw [hnone] at hcarry
    dsimp only at hcarry
    omega
  next k2 o2 hsome =>
    rw [hsome] at hcarry
    obtain ⟨hsum', ho, hk⟩ := hcarry
    exact ⟨_, if_neg (not_le.mpr (hk hlt)), h.place hd (hk hlt) ho rfl (hsum.symm.trans hsum'.symm)⟩

/-- Where a seek goes to, from the cursor; a negative file number leads nowhere. -/
def seekTarget (cursor : Nat) (fileno offset : Int) : Whence → Option Int
  | .set => if fileno < 0 then none else some (fileno * maxPhysicalFilesize + offset)
  | .cur => some (cursor + offset)

theorem seekStart_spec (h : Refines f a) (fileno offset : Int) (whence : Whence) :
    match f.seekStart fileno offset whence with
    | none => ∀ t, seekTarget a.cursor fileno offset whence = some t → t < 0
    | some (k, o) => seekTarget a.cursor fileno offset whence =
      some ((k * maxPhysicalFilesize + o : Nat) : Int) := by
  cases whence with
  | set =>
    rw [seekStart, seekTarget]
    split_ifs with hneg
    · rintro _ ⟨⟩
    · have hspec := borrow_spec fileno.toNat offset
      have hnat : ((fileno.toNat * maxPhysicalFilesize : Nat) : Int) = fileno * maxPhysicalFilesize := by
        rw [Int.natCast_mul, Int.toNat_of_nonneg (Int.not_lt.mp hneg)]
      rw [hnat] at hspec
      revert hspec
      cases borrow fileno.toNat offset with
      | none => exact fun hspec t ht => Option.some_inj.mp ht ▸ hspec
      | some p => exact fun hspec => congrArg some hspec.symm
  | cur =>
    have hspec := borrow_spec f.curFile ((f.curOffset + f.pos : Nat) + offset)
    have hnat : ((f.curFile * maxPhysicalFilesize : Nat) : Int) + ((f.curOffset + f.pos : Nat) + offset) =
        a.cursor + offset := by
      rw [h.cursor, base]
      omega
    rw [hnat] at hspec
    rw [seekStart, seekTarget]
    revert hspec
    cases borrow f.curFile ((f.curOffset + f.pos : Nat) + offset) with
    | none => exact fun hspec t ht => Option.some_inj.mp ht ▸ hspec
    | some p => exact fun hspec => congrArg some hspec.symm

/-- What a seek does: it is an end of file, or in range. -/
theorem seek_refines (h : Refines f a) (fileno offset : Int) (whence : Whence) :
    (f.bufFileSeek io fileno offset whence = none ∧ TooLong a) ∨
    ∃ g ok, f.bufFileSeek io fileno offset whence = some (g, ok) ∧ (ok = false → Refines g a) ∧
      ∀ t, seekTarget a.cursor fileno offset whence = some t → ∀ h : a.InRange t,
        ok = true ∧ Refines g ⟨a.bytes, t.toNat, h.2⟩ := by
  have hstart := seekStart_spec h fileno offset whence
  rw [bufFileSeek]
  revert hstart
  cases f.seekStart fileno offset whence with
  | none => exact fun hneg => .inr ⟨f, false, rfl, fun _ => h, fun t ht hin => absurd (hneg t ht) (Int.not_lt.mpr hin.1)⟩
  | some p =>
    obtain ⟨k, o⟩ := p
    intro htarget
    dsimp only at htarget ⊢
    rw [htarget]
    split
    next hbuf =>
      refine .inr ⟨_, true, rfl, nofun, ?_⟩
      rintro t ⟨⟩ hin
      refine ⟨rfl, h.move (by omega) rfl ?_⟩
      rw [base]
      dsimp only
      rw [Int.toNat_natCast, hbuf.1]
      omega
    next =>
      rcases flush_refines io h with ⟨hnone, hlong⟩ | ⟨g, hg, hr, hd, -⟩
      · exact .inl ⟨by rw [hnone]; rfl, hlong⟩
      · rw [hg]
        refine .inr ⟨(g.seekFlushed k o).1, (g.seekFlushed k o).2, rfl, fun hf => ?_, ?_⟩
        · rw [seekFlushed_false hf]
          exact hr
        · rintro t ⟨⟩ hin
          obtain ⟨x, hx, hrx⟩ := seekFlushed_refines hr hd (k := k) (o := o) hin.2
          rw [hx]
          exact ⟨rfl, hrx⟩

end Refine
end PgStorage.Buffile
