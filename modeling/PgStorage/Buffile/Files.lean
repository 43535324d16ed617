import PgStorage.Buffile.Buffile
import PgStorage.Lib.Splice

/-! The row of files of a `BufFile` as one physical file.

All files but the last one are full, so a position has one place. A transfer at the current place
changes the bytes there, and the loop that dumps the buffer moves the pending bytes of the buffer into
the files: what a reader of both would see stays the same. -/
namespace PgStorage.Buffile
open Memory Splice
open Option List Nat

namespace BufFile

/-- The position of the start of the buffer. -/
def base (f : BufFile) : Nat := f.curFile * maxPhysicalFilesize + f.curOffset

/-- The byte at a position of the files. -/
def phys (f : BufFile) (i : Nat) : Option UInt8 :=
  f.files[i / maxPhysicalFilesize]?.bind fun t : TempFile => t.bytes[i % maxPhysicalFilesize]?

/-- The byte at a position, where the buffer from `wpos` on is still to be written. -/
def pending (f : BufFile) (wpos i : Nat) : Option UInt8 :=
  if f.base ≤ i ∧ i < f.base + (f.nbytes - wpos) then some (f.buffer (wpos + (i - f.base))) else f.phys i

/-- The current file after a transfer of `n` bytes. -/
def transfer (f : BufFile) (t : TempFile) (n : Nat) : BufFile :=
  {f with
    files := f.files.set f.curFile t
    offsets := f.offsets.set f.curFile (f.curOffset + n)
    transfers := f.transfers + 1}

end BufFile

open BufFile

/-- The most files that the array of offsets has room for. -/
def maxFiles : Nat := maxAllocSize / 8

structure Formed (f : BufFile) : Prop where
  temp : f.isTemp = true
  few : f.files.length ≤ maxFiles
  offsets : f.offsets = f.files.map TempFile.seekPos
  cur : f.curFile < f.files.length
  full : ∀ (i : Nat) (t : TempFile), f.files[i]? = some t → i + 1 < f.files.length → t.bytes.length = maxPhysicalFilesize
  size : ∀ (i : Nat) (t : TempFile), f.files[i]? = some t → t.bytes.length ≤ maxPhysicalFilesize
  offset : f.curOffset ≤ f.thisfile.bytes.length

section Files
variable {f g : BufFile} {t : TempFile} {i k n r wpos : Nat} (io : Nat → Nat)

theorem maxPhysicalFilesize_pos : 0 < maxPhysicalFilesize := by decide

theorem blcksz_le : blcksz ≤ maxPhysicalFilesize := by decide

theorem div_mod_segment (hr : r < maxPhysicalFilesize) :
    (k * maxPhysicalFilesize + r) / maxPhysicalFilesize = k ∧
      (k * maxPhysicalFilesize + r) % maxPhysicalFilesize = r := by
  rw [Nat.mul_comm]
  exact ⟨by rw [Nat.mul_add_div maxPhysicalFilesize_pos, Nat.div_eq_of_lt hr, Nat.add_zero],
    by rw [mul_add_mod, mod_eq_of_lt hr]⟩

theorem exists_segment (i : Nat) : ∃ k r, i = k * maxPhysicalFilesize + r ∧ r < maxPhysicalFilesize :=
  ⟨i / maxPhysicalFilesize, i % maxPhysicalFilesize, by rw [Nat.mul_comm]; exact (Nat.div_add_mod ..).symm,
    Nat.mod_lt _ maxPhysicalFilesize_pos⟩

theorem phys_segment (f : BufFile) (hr : r < maxPhysicalFilesize) :
    f.phys (k * maxPhysicalFilesize + r) = f.files[k]?.bind fun t : TempFile => t.bytes[r]? := by
  obtain ⟨hdiv, hmod⟩ := div_mod_segment (k := k) hr
  rw [phys, hdiv, hmod]

theorem Formed.thisfile (h : Formed f) : f.files[f.curFile]? = some f.thisfile := by
  rw [BufFile.thisfile, getD_eq_getElem?_getD, getElem?_eq_getElem h.cur, getD_some]

theorem Formed.offset_le (h : Formed f) : f.curOffset ≤ maxPhysicalFilesize :=
  le_trans h.offset (h.size _ _ h.thisfile)

/-- The bytes of the current file. -/
theorem Formed.phys_base (h : Formed f) (hi : f.curOffset + i < f.thisfile.bytes.length) :
    f.phys (f.base + i) = f.thisfile.bytes[f.curOffset + i]? := by
  have hlt : f.curOffset + i < maxPhysicalFilesize := Nat.lt_of_lt_of_le hi (h.size _ _ h.thisfile)
  rw [base, Nat.add_assoc, phys_segment f hlt, h.thisfile]
  rfl

/-- Behind the last file there is nothing. -/
theorem lt_of_phys {b : UInt8} (hb : f.phys i = some b) :
    i < f.files.length * maxPhysicalFilesize := by
  obtain ⟨t, ht, -⟩ := bind_eq_some_iff.mp hb
  obtain ⟨hlt, -⟩ := List.getElem?_eq_some_iff.mp ht
  exact (div_lt_iff_lt_mul maxPhysicalFilesize_pos).mp hlt

theorem Formed.move (h : Formed f) (hfiles : g.files = f.files) (hoffsets : g.offsets = f.offsets)
    (htemp : g.isTemp = f.isTemp) (hcur : g.curFile < f.files.length)
    (hoff : ∀ t : TempFile, f.files[g.curFile]? = some t → g.curOffset ≤ t.bytes.length) : Formed g := by
  have hlen : g.curFile < g.files.length := by rw [hfiles]; exact hcur
  refine ⟨htemp.trans h.temp, hfiles ▸ h.few, by rw [hoffsets, hfiles]; exact h.offsets, hlen, hfiles ▸ h.full,
    hfiles ▸ h.size, hoff _ ?_⟩
  rw [BufFile.thisfile, getD_eq_getElem?_getD, hfiles, getElem?_eq_getElem hcur, getD_some]

theorem reposition_transfer (h : Formed f) (t : TempFile) (n : Nat) :
    (f.reposition.setThisfile t).advance n = f.transfer t n ∧
      f.reposition.thisfile = ⟨f.thisfile.bytes, f.curOffset⟩ := by
  have hlen : f.curFile < f.offsets.length := by rw [h.offsets, length_map]; exact h.cur
  have hseek : f.offsets.getD f.curFile 0 = f.thisfile.seekPos := by
    rw [h.offsets, getD_eq_getElem?_getD, getElem?_map, h.thisfile]
    rfl
  rw [reposition]
  split
  next hne =>
    simp only [setThisfile, advance, transfer, TempFile.fileSeek, set_set, getD_eq_getElem?_getD,
      getElem?_set_self hlen, getD_some, BufFile.thisfile, getElem?_set_self h.cur, and_self]
  next heq =>
    have heq : f.curOffset = f.thisfile.seekPos := by
      rw [hseek] at heq
      exact not_not.mp heq
    refine ⟨?_, ?_⟩
    · simp only [setThisfile, advance, transfer, hseek, heq]
    · rw [heq]

theorem Formed.transfer (h : Formed f) (hs : t.seekPos = f.curOffset + n)
    (hsize : t.bytes.length ≤ maxPhysicalFilesize) (hgrow : f.thisfile.bytes.length ≤ t.bytes.length)
    (hoff : g.curOffset ≤ t.bytes.length) (hg : g = {f.transfer t n with
      curOffset := g.curOffset, dirty := g.dirty, pos := g.pos, nbytes := g.nbytes, buffer := g.buffer}) :
    Formed g := by
  have hfiles : g.files = f.files.set f.curFile t := by rw [hg]; rfl
  have hcur : g.curFile = f.curFile := by rw [hg]; rfl
  have hget : ∀ i, g.files[i]? = if i = f.curFile then some t else f.files[i]? := by
    intro i
    rw [hfiles]
    by_cases hi : i = f.curFile
    · rw [if_pos hi, hi, getElem?_set_self h.cur]
    · rw [if_neg hi, getElem?_set_ne (Ne.symm hi)]
  have hlen : g.files.length = f.files.length := by rw [hfiles, length_set]
  refine ⟨by rw [hg]; exact h.temp, by rw [hlen]; exact h.few, ?_, by rw [hcur, hlen]; exact h.cur, fun i u hu hi => ?_, fun i u hu => ?_, ?_⟩
  · rw [hfiles, map_set, hs, ← h.offsets, hg]
    rfl
  · rw [hget] at hu
    rw [hlen] at hi
    split at hu
    next he =>
      obtain rfl := some_inj.mp hu
      have := h.full _ _ h.thisfile (he ▸ hi)
      omega
    · exact h.full i u hu hi
  · rw [hget] at hu
    split at hu
    · exact some_inj.mp hu ▸ hsize
    · exact h.size i u hu
  · have hthis : g.thisfile = t := by
      rw [BufFile.thisfile, getD_eq_getElem?_getD, hget, hcur, if_pos rfl, getD_some]
    rw [hthis]
    exact hoff

theorem phys_transfer (h : Formed f) (i : Nat) :
    (f.transfer t n).phys i = if i / maxPhysicalFilesize = f.curFile then t.bytes[i % maxPhysicalFilesize]?
      else f.phys i := by
  rw [phys, BufFile.transfer]
  dsimp only
  split
  next hi => rw [hi, getElem?_set_self h.cur]; rfl
  next hi => rw [getElem?_set_ne (Ne.symm hi)]; rfl

theorem reposition_fields (f : BufFile) :
    f.reposition.buffer = f.buffer ∧ f.reposition.curOffset = f.curOffset ∧ f.reposition.nbytes = f.nbytes ∧
      f.reposition.isTemp = f.isTemp := by
  rw [reposition]
  split
  · exact ⟨rfl, rfl, rfl, rfl⟩
  · exact ⟨rfl, rfl, rfl, rfl⟩

/-! ### Writing -/

theorem fileWrite_spec {l : List UInt8} {o : Nat} (data : List UInt8) (limit : Nat) (ho : o ≤ l.length) (hd : 0 < data.length) :
    ∃ d, 0 < d.length ∧ d <+: data ∧
      (⟨l, o⟩ : TempFile).fileWrite data limit = (⟨splice l o d, o + d.length⟩, d.length) := by
  refine ⟨data.take (max 1 limit), ?_, take_prefix .., ?_⟩
  · rw [length_take]
    omega
  · rw [TempFile.fileWrite, Nat.sub_eq_zero_of_le ho, replicate_zero, append_nil, splice]

/-- What is written at the current place. -/
theorem phys_write {d : List UInt8} (h : Formed f) (hfit : f.curOffset + d.length ≤ maxPhysicalFilesize) (i : Nat) :
    (f.transfer ⟨splice f.thisfile.bytes f.curOffset d, f.curOffset + d.length⟩ n).phys i =
      if f.base ≤ i ∧ i < f.base + d.length then d[i - f.base]? else f.phys i := by
  obtain ⟨k, r, rfl, hr⟩ := exists_segment i
  obtain ⟨hdiv, hmod⟩ := div_mod_segment (k := k) hr
  rw [phys_transfer h, hdiv, hmod, base]
  by_cases hk : k = f.curFile
  · subst hk
    rw [if_pos rfl, getElem?_splice h.offset, phys_segment f hr, h.thisfile]
    by_cases hi : f.curOffset ≤ r ∧ r < f.curOffset + d.length
    · rw [if_pos hi, if_pos (by omega), show f.curFile * maxPhysicalFilesize + r -
        (f.curFile * maxPhysicalFilesize + f.curOffset) = r - f.curOffset by omega]
    · rw [if_neg hi, if_neg (by omega)]
      rfl
  · rw [if_neg hk, if_neg]
    rintro ⟨h1, h2⟩
    rcases lt_or_gt_of_ne hk with hlt | hlt
    · have := mul_le_mul_right maxPhysicalFilesize hlt
      rw [succ_mul] at this
      omega
    · have := mul_le_mul_right maxPhysicalFilesize hlt
      rw [succ_mul] at this
      omega

theorem allocated_iff (n : Nat) : (n + 1) * 8 ≤ maxAllocSize ↔ n < maxFiles := by
  rw [maxFiles, lt_iff_add_one_le, le_div_iff_mul_le (by decide)]

/-- One empty file more, after the last one is full. -/
theorem Formed.extend (h : Formed f) (hfew : f.files.length < maxFiles) (hlast : f.curFile + 1 = f.files.length)
    (hfull : f.thisfile.bytes.length = maxPhysicalFilesize) :
    Formed {f with
      files := f.files ++ [⟨[], 0⟩], offsets := f.offsets ++ [0], curFile := f.curFile + 1, curOffset := 0} := by
  have hget : ∀ {i : Nat} {t : TempFile}, (f.files ++ [⟨[], 0⟩])[i]? = some t →
      (i < f.files.length ∧ f.files[i]? = some t) ∨ t = ⟨[], 0⟩ := by
    intro i t ht
    rcases lt_or_ge i f.files.length with hi | hi
    · rw [getElem?_append_left hi] at ht
      exact .inl ⟨hi, ht⟩
    · rw [getElem?_append_right hi] at ht
      exact .inr (mem_singleton.mp (mem_of_getElem? ht))
  refine ⟨h.temp, by rw [length_append]; exact hfew, by rw [h.offsets, map_append]; rfl, ?_, fun i t ht hi => ?_, fun i t ht => ?_, zero_le _⟩
  · rw [length_append, length_singleton]
    dsimp only
    omega
  · rw [length_append, length_singleton] at hi
    dsimp only at ht
    rw [getElem?_append_left (by omega)] at ht
    by_cases hi' : i + 1 < f.files.length
    · exact h.full i t ht hi'
    · obtain rfl : i = f.curFile := by omega
      rw [h.thisfile] at ht
      exact some_inj.mp ht ▸ hfull
  · rcases hget ht with ⟨-, ht⟩ | rfl
    · exact h.size i t ht
    · exact zero_le _

theorem phys_extend (i : Nat) (n m : Nat) :
    BufFile.phys {f with
      files := f.files ++ [⟨[], 0⟩], offsets := f.offsets ++ [0], curFile := n, curOffset := m} i = f.phys i := by
  rw [phys, phys]
  dsimp only
  rcases lt_or_ge (i / maxPhysicalFilesize) f.files.length with hi | hi
  · rw [getElem?_append_left hi]
  · rw [getElem?_append_right hi, getElem?_eq_none hi]
    cases i / maxPhysicalFilesize - f.files.length with
    | zero => rfl
    | succ _ => rfl

/-- Where the current file is full, the next one is the place to go on: the same position. -/
theorem nextFile_spec (h : Formed f) :
    (f.nextFile = none ∧ maxFiles * maxPhysicalFilesize ≤ f.base) ∨
    ∃ g, f.nextFile = some g ∧ Formed g ∧ g.base = f.base ∧ (∀ i, g.phys i = f.phys i) ∧
      g.curOffset < maxPhysicalFilesize ∧
      g = {f with files := g.files, offsets := g.offsets, curFile := g.curFile, curOffset := g.curOffset} := by
  rw [nextFile]
  split
  next hge =>
    have hoff : f.curOffset = maxPhysicalFilesize := le_antisymm h.offset_le hge.1
    have hfull : f.thisfile.bytes.length = maxPhysicalFilesize :=
      Nat.le_antisymm (h.size _ _ h.thisfile) (hoff ▸ h.offset)
    have hbase : f.base = (f.curFile + 1) * maxPhysicalFilesize + 0 := by
      rw [base, hoff, Nat.succ_mul, Nat.add_zero]
    by_cases hmore : f.curFile + 1 < f.files.length
    · refine .inr ⟨{f with curFile := f.curFile + 1, curOffset := 0}, ?_,
        h.move rfl rfl rfl hmore fun _ _ => Nat.zero_le _, hbase.symm, fun _ => rfl,
        maxPhysicalFilesize_pos, rfl⟩
      rw [numFiles, Nat.sub_eq_zero_of_le (by omega)]
      rfl
    · have hlast : f.curFile + 1 = f.files.length := by
        have := h.cur
        omega
      rw [numFiles, show f.curFile + 2 - f.files.length = 1 by omega, extendFiles]
      rw [extendBufFile, numFiles]
      by_cases hfew : (f.files.length + 1) * 8 ≤ maxAllocSize
      · rw [if_pos hfew]
        exact .inr ⟨_, rfl, h.extend ((allocated_iff _).mp hfew) hlast hfull, hbase.symm, fun i => phys_extend i _ _,
          maxPhysicalFilesize_pos, rfl⟩
      · refine .inl ⟨by rw [if_neg hfew]; rfl, ?_⟩
        rw [hbase, hlast, Nat.add_zero]
        exact Nat.mul_le_mul_right _ (Nat.le_of_not_lt fun hlt => hfew ((allocated_iff _).mpr hlt))
  next hlt =>
    refine .inr ⟨f, rfl, h, rfl, fun _ => rfl, ?_, rfl⟩
    by_contra hge
    exact hlt ⟨Nat.le_of_not_lt hge, h.temp⟩

/-- The current file and place after bytes of the buffer are written. -/
def written (f : BufFile) (d : List UInt8) : BufFile :=
  {f.transfer ⟨splice f.thisfile.bytes f.curOffset d, f.curOffset + d.length⟩ d.length with
    curOffset := f.curOffset + d.length}

/-- What was pending is now in the file. -/
theorem written_spec {d : List UInt8} (h : Formed f) (hn : wpos + d.length ≤ f.nbytes)
    (hfit : f.curOffset + d.length ≤ maxPhysicalFilesize)
    (hd : ∀ j, j < d.length → d[j]? = some (f.buffer (wpos + j))) :
    Formed (written f d) ∧ (written f d).base = f.base + d.length ∧
      ∀ i, (written f d).pending (wpos + d.length) i = f.pending wpos i := by
  have hbase : (written f d).base = f.base + d.length := (Nat.add_assoc ..).symm
  refine ⟨h.transfer (n := d.length) rfl ?_ ?_ ?_ rfl, hbase, fun i => ?_⟩
  · rw [length_splice h.offset]
    have := h.size _ _ h.thisfile
    omega
  · rw [length_splice h.offset]
    exact le_max_left _ _
  · rw [length_splice h.offset]
    exact le_max_right _ _
  · have hphys : (written f d).phys i = _ := phys_write (n := d.length) h hfit i
    have hnb : (written f d).nbytes = f.nbytes := rfl
    have hbuf : (written f d).buffer = f.buffer := rfl
    rw [pending, pending, hphys, hbase, hnb, hbuf]
    by_cases hin : f.base ≤ i ∧ i < f.base + (f.nbytes - wpos)
    · rw [if_pos hin]
      by_cases hlt : i < f.base + d.length
      · rw [if_neg (by omega), if_pos ⟨hin.1, hlt⟩, hd _ (by omega)]
      · rw [if_pos (by omega), show wpos + d.length + (i - (f.base + d.length)) = wpos + (i - f.base) by omega]
    · rw [if_neg hin, if_neg (by omega), if_neg (by omega)]

/-- The bytes from `wpos` on are still pending, and what is to be seen stays the same. -/
theorem dumpLoop_spec (fuel : Nat) (h : Formed f) (hle : wpos ≤ f.nbytes) (hfuel : f.nbytes ≤ wpos + fuel) :
    (dumpLoop io fuel f wpos = none ∧ ∃ i, maxFiles * maxPhysicalFilesize ≤ i ∧ f.pending wpos i ≠ none) ∨
    ∃ g, dumpLoop io fuel f wpos = some (g, true) ∧ Formed g ∧ g.base = f.base + (f.nbytes - wpos) ∧
      (∀ i, g.phys i = f.pending wpos i) ∧
      g = {f with
        files := g.files, offsets := g.offsets, curFile := g.curFile, curOffset := g.curOffset
        transfers := g.transfers} := by
  induction fuel generalizing f wpos with
  | zero =>
    refine .inr ⟨f, ?_, h, by omega, fun i => ?_, rfl⟩
    · rw [dumpLoop, decide_eq_true (by omega)]
    · rw [pending, if_neg (by omega)]
  | succ fuel ih =>
    by_cases hlt : wpos < f.nbytes
    · rcases nextFile_spec h with ⟨hnone, hbig⟩ | ⟨g, hsome, hg, hbase, hphys, hoff, hfields⟩
      · refine .inl ⟨by rw [dumpLoop, if_pos hlt, hnone]; rfl, f.base, hbig, ?_⟩
        rw [pending, if_pos (by omega)]
        exact nofun
      · have hbuf : g.buffer = f.buffer ∧ g.nbytes = f.nbytes ∧ g.isTemp = true := by
          rw [hfields]
          exact ⟨rfl, rfl, h.temp⟩
        obtain ⟨d, hpos, hpre, hwrite⟩ := fileWrite_spec (bytes g.buffer wpos
          (min (g.nbytes - wpos) (maxPhysicalFilesize - g.curOffset))) (io g.reposition.transfers) hg.offset
          (by rw [length_bytes]; omega)
        have hd : d.length ≤ min (g.nbytes - wpos) (maxPhysicalFilesize - g.curOffset) := by
          have := hpre.length_le
          rwa [length_bytes] at this
        have hbytes : ∀ j, j < d.length → d[j]? = some (g.buffer (wpos + j)) := by
          intro j hj
          rw [getElem?_eq_getElem hj, ← prefix_iff_getElem?.mp hpre j hj, getElem?_bytes (by omega)]
        obtain ⟨hx, hxbase, hxp⟩ := written_spec hg (by omega) (by omega) hbytes
        obtain ⟨hmove, hthis⟩ := reposition_transfer hg ⟨splice g.thisfile.bytes g.curOffset d, g.curOffset + d.length⟩
          d.length
        obtain ⟨hrb, hro, hrn, hrt⟩ := reposition_fields g
        have hloop : dumpLoop io (fuel + 1) f wpos = dumpLoop io fuel (written g d) (wpos + d.length) := by
          rw [dumpLoop, if_pos hlt, hsome, bind_some]
          simp only [hbuf.2.2, if_true, hthis, hrb, hwrite, if_neg (ne_of_gt hpos), hmove, hro]
          rfl
        have hsame : ∀ i, (written g d).pending (wpos + d.length) i = f.pending wpos i := by
          intro i
          rw [hxp, pending, pending, hbase, hphys, hbuf.1, hbuf.2.1]
        have hn : (written g d).nbytes = f.nbytes := hbuf.2.1
        rw [hloop]
        rcases ih hx (show wpos + d.length ≤ (written g d).nbytes by omega) (by omega) with ⟨hnone, i, hi, hp⟩ | ⟨y, hy, hfy, hby, hpy, hfields'⟩
        · exact .inl ⟨hnone, i, hi, by rwa [← hsame]⟩
        · refine .inr ⟨y, hy, hfy, by omega, fun i => (hpy i).trans (hsame i), ?_⟩
          rw [hfields', written, BufFile.transfer, hfields]
    · refine .inr ⟨f, by rw [dumpLoop, if_neg hlt], h, by omega, fun i => ?_, rfl⟩
      rw [pending, if_neg (by omega)]

end Files
end PgStorage.Buffile
