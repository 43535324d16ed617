import PgStorage.Buffile.Refine
import PgStorage.Lib.Trace

/-! Calls on a buffered temporary file.

Any run of writes, reads, seeks and tells answers like the array of bytes. A seek is to a place within
the bytes that are written, or it fails. -/
namespace PgStorage.Buffile
open BufFile
open Option Nat

inductive Op
  | write (data : List UInt8)
  | read (size : Nat)
  | seek (fileno offset : Int) (whence : Whence)
  | seekBlock (blknum : Int)
  | tell

/-- What a call returns; a position is told by its file and offset. -/
inductive Ans
  | count (n : Nat)
  | bytes (data : List UInt8)
  | seek (ok : Bool)
  | position (n : Nat)
  deriving DecidableEq

namespace BufFile

/-- The position that is told. -/
def position (f : BufFile) : Nat := f.bufFileTell.1 * maxPhysicalFilesize + f.bufFileTell.2

def call (io : Nat → Nat) (f : BufFile) : Op → Option (BufFile × Ans)
  | .write data => (f.bufFileWrite io data).map fun r => (r.1, .count r.2)
  | .read size => (f.bufFileRead io size).map fun r => (r.1, .bytes r.2)
  | .seek fileno offset whence => (f.bufFileSeek io fileno offset whence).map fun r => (r.1, .seek r.2)
  | .seekBlock blknum => (f.bufFileSeekBlock io blknum).map fun r => (r.1, .seek r.2)
  | .tell => some (f, .position f.position)

end BufFile

namespace Plain

theorem InRange.le {a : Plain} {t : Int} (h : a.InRange t) : t.toNat ≤ a.bytes.length := h.2

def seekTo (a : Plain) (target : Option Int) : Plain × Bool :=
  match target with
  | none => (a, false)
  | some t => if h : a.InRange t then (⟨a.bytes, t.toNat, h.le⟩, true) else (a, false)

def call (a : Plain) : Op → Plain × Ans
  | .write data => (a.write data, .count data.length)
  | .read size => (a.skip size, .bytes (a.read size))
  | .seek fileno offset whence =>
    let r := a.seekTo (seekTarget a.cursor fileno offset whence)
    (r.1, .seek r.2)
  | .seekBlock blknum =>
    let r := a.seekTo (some (blknum * blcksz))
    (r.1, .seek r.2)
  | .tell => (a, .position a.cursor)

end Plain

/-- There is a target, and it is within the bytes that are written. -/
def Plain.Within (a : Plain) : Option Int → Prop
  | none => False
  | some t => a.InRange t

instance (a : Plain) (target : Option Int) : Decidable (a.Within target) :=
  match target with
  | none => instDecidableFalse
  | some _ => instDecidableAnd

def Op.Within (a : Plain) : Op → Prop
  | .seek fileno offset whence => a.Within (seekTarget a.cursor fileno offset whence)
  | .seekBlock blknum => a.Within (some (blknum * blcksz))
  | _ => True

instance (a : Plain) (op : Op) : Decidable (op.Within a) :=
  match op with
  | .seek fileno offset whence => inferInstanceAs (Decidable (a.Within (seekTarget a.cursor fileno offset whence)))
  | .seekBlock blknum => inferInstanceAs (Decidable (a.Within (some (blknum * blcksz))))
  | .write _ => instDecidableTrue
  | .read _ => instDecidableTrue
  | .tell => instDecidableTrue

/-- A call, on the file and on the array. -/
def step (io : Nat → Nat) (s : BufFile × Plain) (op : Op) : Option (BufFile × Plain) :=
  (s.1.call io op).map fun r => (r.1, (s.2.call op).1)

/-- A seek is within the bytes, or it fails. -/
def Proper (io : Nat → Nat) (s : BufFile × Plain) (op : Op) : Prop :=
  op.Within s.2 ∨ (s.1.call io op).map Prod.snd = some (.seek false)

instance (io : Nat → Nat) (s : BufFile × Plain) (op : Op) : Decidable (Proper io s op) := instDecidableOr

/-- A run of calls. -/
def Run (io : Nat → Nat) (f₀ : BufFile) (a₀ : Plain) (f : BufFile) (a : Plain) : Prop :=
  Trace.Reaches (step io) (Proper io) (f₀, a₀) (f, a)

section Calls
variable {f f₀ g : BufFile} {a a₀ b : Plain} {op : Op} {ans : Ans} (io : Nat → Nat)

theorem Refines.position (h : Refines f a) : f.position = a.cursor := by
  rw [BufFile.position, bufFileTell, h.cursor, base, Nat.add_assoc]

theorem Refines.length_bound (h : Refines f a) : a.bytes.length ≤ f.files.length * maxPhysicalFilesize + blcksz := by
  by_contra hlt
  have hget := List.getElem?_eq_getElem (Nat.lt_of_not_le hlt)
  have hbase : f.base ≤ f.files.length * maxPhysicalFilesize := by
    have hcur := mul_le_mul_right maxPhysicalFilesize h.formed.cur
    have hoff := h.formed.offset_le
    rw [succ_mul] at hcur
    rw [base]
    omega
  have hn := h.nbytes
  rw [h.bytes, pending, if_neg (by omega)] at hget
  have := lt_of_phys hget
  omega

theorem seekBlock_target (h : Refines f a) {blknum : Int} (hin : a.InRange (blknum * blcksz)) :
    seekTarget a.cursor ((blknum.tdiv buffileSegSize).bmod (2 ^ 32)) (blknum.tmod buffileSegSize * blcksz) .set =
      some (blknum * blcksz) := by
  have hblk : blcksz = 8192 := rfl
  have hseg : buffileSegSize = 131072 := by decide
  have hmax : maxPhysicalFilesize = 1073741824 := rfl
  have hfiles : maxFiles = 134217727 := by decide
  have hlen := h.length_bound
  have hfew := h.formed.few
  obtain ⟨h0, hle⟩ := hin
  rw [hblk] at h0
  obtain ⟨n, rfl⟩ := Int.eq_ofNat_of_zero_le (show 0 ≤ blknum by omega)
  rw [show ((n : Int) * blcksz).toNat = n * blcksz from Int.toNat_natCast _] at hle
  rw [hmax, hblk] at hlen
  rw [hblk] at hle
  have hbmod : (((n / 131072 : Nat) : Int)).bmod (2 ^ 32) = (n / 131072 : Nat) :=
    Int.bmod_eq_of_le_mul_two (by omega) (by omega)
  rw [hseg, ← Int.ofNat_tdiv, ← Int.ofNat_tmod, hbmod, seekTarget, if_neg (by omega), hmax, hblk]
  refine congrArg some ?_
  have := div_add_mod n 131072
  omega

/-! ### One call -/

theorem tooLong_call (h : TooLong a) (op : Op) : TooLong (a.call op).1 := by
  have hseek : ∀ t, TooLong (a.seekTo t).1 := by
    intro t
    cases t with
    | none => exact h
    | some t =>
      rw [Plain.seekTo]
      split
      · exact h
      · exact h
  cases op with
  | write data => exact h.write
  | read size => exact h
  | seek fileno offset whence | seekBlock blknum => exact hseek _
  | tell => exact h

theorem seekTo_within {t : Int} (h : a.InRange t) : a.seekTo (some t) = (⟨a.bytes, t.toNat, h.2⟩, true) := dif_pos h

/-- A seek within the bytes succeeds, and a seek that fails leaves everything as it is. -/
theorem seek_answers {target : Option Int} {r : Option (BufFile × Bool)}
    (hr : (r = none ∧ TooLong a) ∨ ∃ g ok, r = some (g, ok) ∧ (ok = false → Refines g a) ∧
      ∀ t, target = some t → ∀ h : a.InRange t, ok = true ∧ Refines g ⟨a.bytes, t.toNat, h.2⟩)
    (hin : a.Within target ∨ ∃ g, r = some (g, false)) :
    (r = none ∧ TooLong a) ∨ ∃ g, r = some (g, (a.seekTo target).2) ∧ Refines g (a.seekTo target).1 := by
  rcases hr with hnone | ⟨g, ok, hg, hfalse, htrue⟩
  · exact .inl hnone
  · refine .inr ⟨g, ?_⟩
    by_cases hwithin : ∃ t, target = some t ∧ a.InRange t
    · obtain ⟨t, rfl, ht⟩ := hwithin
      obtain ⟨rfl, hr⟩ := htrue t rfl ht
      rw [seekTo_within ht]
      exact ⟨hg, hr⟩
    · have hrefuse : a.seekTo target = (a, false) := by
        cases target with
        | none => rfl
        | some t => exact dif_neg fun ht => hwithin ⟨t, rfl, ht⟩
      obtain ⟨x, hx⟩ := hin.resolve_left fun ht => by
        cases target with
        | none => exact ht
        | some t => exact hwithin ⟨t, rfl, ht⟩
      rw [hg, some_inj] at hx
      obtain ⟨rfl, rfl⟩ := Prod.mk.inj hx
      rw [hrefuse]
      exact ⟨hg, hfalse rfl⟩

/-- What a seek that is mapped to an answer did. -/
theorem seek_of_map {r : Option (BufFile × Bool)}
    (h : ∃ g, (r.map fun r => (r.1, Ans.seek r.2)) = some (g, .seek false)) : ∃ g, r = some (g, false) := by
  obtain ⟨g, hg⟩ := h
  obtain ⟨⟨x, ok⟩, rfl, hx⟩ := map_eq_some_iff.mp hg
  obtain ⟨-, hok⟩ := Prod.mk.inj hx
  exact ⟨x, congrArg (fun b => some (x, b)) (Ans.seek.inj hok)⟩

/-- **One call.** It answers like the array, or the file would be too long. -/
theorem call_refines (h : Refines f a) (hin : op.Within a ∨ ∃ g, f.call io op = some (g, .seek false)) :
    (f.call io op = none ∧ TooLong (a.call op).1) ∨
    ∃ g, f.call io op = some (g, (a.call op).2) ∧ Refines g (a.call op).1 := by
  cases op with
  | write data =>
    rcases writeLoop_refines io data.length h (le_refl _) with ⟨hnone, hlong⟩ | ⟨g, hg, hr⟩
    · exact .inl ⟨by rw [call, bufFileWrite, hnone]; rfl, hlong⟩
    · exact .inr ⟨g, by rw [call, bufFileWrite, hg]; rfl, hr⟩
  | read size =>
    rcases read_refines io h with ⟨hnone, hlong⟩ | ⟨g, hg, hr⟩
    · exact .inl ⟨by rw [call, hnone]; rfl, hlong⟩
    · exact .inr ⟨g, by rw [call, hg]; rfl, hr⟩
  | seek fileno offset whence =>
    rcases seek_answers (seek_refines io h fileno offset whence) (hin.imp id seek_of_map) with
      ⟨hnone, hlong⟩ | ⟨g, hg, hr⟩
    · exact .inl ⟨by rw [call, hnone]; rfl, tooLong_call hlong _⟩
    · exact .inr ⟨g, by rw [call, hg]; rfl, hr⟩
  | seekBlock blknum =>
    have hseek := seek_refines io h ((blknum.tdiv buffileSegSize).bmod (2 ^ 32)) (blknum.tmod buffileSegSize * blcksz) .set
    have hblock : (f.bufFileSeekBlock io blknum = none ∧ TooLong a) ∨
        ∃ g ok, f.bufFileSeekBlock io blknum = some (g, ok) ∧ (ok = false → Refines g a) ∧
          ∀ t, some (blknum * blcksz) = some t → ∀ h : a.InRange t, ok = true ∧ Refines g ⟨a.bytes, t.toNat, h.2⟩ := by
      rcases hseek with hnone | ⟨g, ok, hg, hfalse, htrue⟩
      · exact .inl hnone
      · refine .inr ⟨g, ok, hg, hfalse, ?_⟩
        rintro t ⟨⟩ ht
        exact htrue _ (seekBlock_target h ht) ht
    rcases seek_answers hblock (hin.imp id seek_of_map) with ⟨hnone, hlong⟩ | ⟨g, hg, hr⟩
    · exact .inl ⟨by rw [call, hnone]; rfl, tooLong_call hlong _⟩
    · exact .inr ⟨g, by rw [call, hg]; rfl, hr⟩
  | tell => exact .inr ⟨f, by rw [call, h.position]; rfl, h⟩

theorem create_refines (buffer : Memory.Mem) : Refines (bufFileCreateTemp buffer) Plain.create := by
  have hget : ∀ {i : Nat} {t : TempFile}, [(⟨[], 0⟩ : TempFile)][i]? = some t → t = ⟨[], 0⟩ :=
    fun ht => List.mem_singleton.mp (List.mem_of_getElem? ht)
  refine ⟨⟨rfl, (by decide : 1 ≤ maxFiles), rfl, Nat.one_pos, fun i t _ hi => ?_, fun i t ht => ?_, Nat.le_refl 0⟩, Nat.le_refl 0,
    Nat.zero_le _, fun _ => ⟨Nat.le_refl 0, fun j hj => absurd hj (Nat.not_lt_zero j)⟩, fun i => ?_, ?_⟩
  · exact absurd hi (Nat.not_lt_of_le (Nat.succ_le_succ (Nat.zero_le i)))
  · rw [hget ht]
    exact zero_le _
  · rw [pending_empty rfl, phys, Plain.create, List.getElem?_nil]
    cases hi : (bufFileCreateTemp buffer).files[i / maxPhysicalFilesize]? with
    | none => rfl
    | some t => rw [hget hi]; rfl
  · simp only [bufFileCreateTemp, base, Plain.create, Nat.zero_mul]

theorem step_refines {s t : BufFile × Plain} (hin : Proper io s op) (hs : step io s op = some t)
    (h : Refines s.1 s.2) : Refines t.1 t.2 := by
  obtain ⟨⟨g, ans⟩, hcall, rfl⟩ := map_eq_some_iff.mp hs
  have heof : (s.1.call io op).map Prod.snd = some (.seek false) → ∃ g, s.1.call io op = some (g, .seek false) := by
    intro he
    rw [hcall] at he
    exact ⟨g, by rw [hcall, ← some_inj.mp he]⟩
  rcases call_refines io h (hin.imp id heof) with ⟨hnone, -⟩ | ⟨x, hx, hr⟩
  · rw [hnone] at hcall
    exact absurd hcall nofun
  · rw [hx, some_inj] at hcall
    exact (Prod.mk.inj hcall).1 ▸ hr

theorem Run.refines (hrun : Run io f₀ a₀ f a) (h : Refines f₀ a₀) : Refines f a :=
  hrun.keeps (P := fun s => Refines s.1 s.2) h fun _ _ _ hin hs => step_refines io hin hs

theorem length_call (a : Plain) (op : Op) : a.bytes.length ≤ (a.call op).1.bytes.length := by
  have hseek : ∀ t, a.bytes.length ≤ (a.seekTo t).1.bytes.length := by
    intro t
    cases t with
    | none => exact le_refl _
    | some t =>
      rw [Plain.seekTo]
      split
      · exact le_refl _
      · exact le_refl _
  cases op with
  | write data =>
    rw [Plain.call, Plain.write, Splice.length_splice a.le]
    exact le_max_left _ _
  | read size | tell => exact le_refl _
  | seek fileno offset whence | seekBlock blknum => exact hseek _

theorem Run.length_le (hrun : Run io f₀ a₀ f a) : a₀.bytes.length ≤ a.bytes.length := by
  refine hrun.keeps (P := fun s => a₀.bytes.length ≤ s.2.bytes.length) (le_refl _) fun s op t _ hs hle => ?_
  obtain ⟨_, -, rfl⟩ := map_eq_some_iff.mp hs
  exact le_trans hle (length_call _ _)

/-- A seek that fails. -/
theorem eof_refines (h : Refines f a) (hg : f.call io op = some (g, .seek false)) : Refines g a := by
  have hseek : ∀ fileno offset whence, (∃ x, f.bufFileSeek io fileno offset whence = some (x, false) ∧ x = g) →
      Refines g a := by
    rintro fileno offset whence ⟨x, hx, rfl⟩
    rcases seek_refines io h fileno offset whence with ⟨hnone, -⟩ | ⟨y, ok, hy, hfalse, -⟩
    · rw [hnone] at hx
      exact absurd hx nofun
    · rw [hy, some_inj] at hx
      obtain ⟨rfl, rfl⟩ := Prod.mk.inj hx
      exact hfalse rfl
  have hmap : ∀ {r : Option (BufFile × Bool)}, (r.map fun r => (r.1, Ans.seek r.2)) = some (g, .seek false) →
      ∃ x, r = some (x, false) ∧ x = g := by
    intro r hr
    obtain ⟨⟨x, ok⟩, rfl, hx⟩ := map_eq_some_iff.mp hr
    obtain ⟨hxg, hok⟩ := Prod.mk.inj hx
    exact ⟨x, congrArg (fun b => some (x, b)) (Ans.seek.inj hok), hxg⟩
  cases op with
  | write data | read size =>
    obtain ⟨_, -, hx⟩ := map_eq_some_iff.mp hg
    exact absurd (Prod.mk.inj hx).2 nofun
  | seek fileno offset whence | seekBlock blknum => exact hseek _ _ _ (hmap hg)
  | tell => exact absurd (Prod.mk.inj (some_inj.mp hg)).2 nofun

/-- What was told is a target later on. -/
theorem tell_target (h : Refines f a) (cursor : Nat) :
    seekTarget cursor f.bufFileTell.1 f.bufFileTell.2 .set = some (a.cursor : Int) := by
  rw [seekTarget, if_neg (Int.not_lt.mpr (Int.natCast_nonneg _)), ← h.position, position, Int.natCast_add,
    Int.natCast_mul]

/-- **A buffered temporary file is a byte array with a cursor.** Along every run, however short the
transfers are: a call answers like the array, unless the file would need more segments than can be
allocated; a seek that fails keeps the position and the contents; and a seek to what was told leads back
to that position at any later time. -/
theorem bufFile_plain (buffer : Memory.Mem) (f : BufFile) (a : Plain)
    (hrun : Run io (bufFileCreateTemp buffer) Plain.create f a) :
    (∀ op : Op, op.Within a → (∃ g, f.call io op = some (g, (a.call op).2)) ∨
      (f.call io op = none ∧ maxFiles * maxPhysicalFilesize < (a.call op).1.bytes.length)) ∧
    (∀ op g, f.call io op = some (g, .seek false) → g.position = f.position ∧ Refines g a) ∧
    (∀ g b, Run io f a g b →
      (∃ x, g.bufFileSeek io f.bufFileTell.1 f.bufFileTell.2 .set = some (x, true) ∧ x.position = f.position) ∨
      (g.bufFileSeek io f.bufFileTell.1 f.bufFileTell.2 .set = none ∧
        maxFiles * maxPhysicalFilesize < b.bytes.length)) := by
  have h := hrun.refines io (create_refines buffer)
  refine ⟨fun op hin => ?_, fun op g hg => ?_, fun g b hlater => ?_⟩
  · rcases call_refines io h (.inl hin) with hlong | ⟨g, hg, -⟩
    · exact .inr hlong
    · exact .inl ⟨g, hg⟩
  · exact ⟨(eof_refines io h hg).position.trans h.position.symm, eof_refines io h hg⟩
  · have hin : b.InRange (a.cursor : Int) := ⟨Int.natCast_nonneg _, le_trans a.le (hlater.length_le io)⟩
    rcases seek_refines io (hlater.refines io h) f.bufFileTell.1 f.bufFileTell.2 .set with
      hlong | ⟨x, ok, hx, -, htrue⟩
    · exact .inr hlong
    · obtain ⟨rfl, hr⟩ := htrue _ (tell_target h b.cursor) hin
      exact .inl ⟨x, hx, hr.position.trans h.position.symm⟩

/-- Nine bytes are written, three of them read back, and two overwritten. -/
def writeSeekRead : List Op :=
  [.write [1, 2, 3, 4, 5, 6, 7, 8, 9], .seek 0 (-4) .cur, .read 3, .seekBlock 0, .write [10, 11], .seek 0 1 .set]

/-- With transfers of five bytes. -/
theorem bufFile_plain_read :
    ∃ (f g : BufFile) (a : Plain), Run (fun _ => 5) (bufFileCreateTemp fun _ => 0) Plain.create f a ∧
      f.call (fun _ => 5) (.read 3) = some (g, .bytes [11, 3, 4]) := by
  have hrun : ((Trace.follow (step fun _ => 5) (Proper fun _ => 5) (bufFileCreateTemp fun _ => 0, Plain.create)
      writeSeekRead).map fun s => ((s.2.call (.read 3)).2, decide (s.2.bytes.length < 10))) =
      some (.bytes [11, 3, 4], true) := by decide +kernel
  obtain ⟨⟨f, a⟩, hs, he⟩ := map_eq_some_iff.mp hrun
  obtain ⟨hans, hlen⟩ := Prod.mk.inj he
  have hreach : Run (fun _ => 5) (bufFileCreateTemp fun _ => 0) Plain.create f a := Trace.Reaches.start.of_follow hs
  rcases (bufFile_plain (fun _ => 5) (fun _ => 0) f a hreach).1 (.read 3) trivial with ⟨g, hg⟩ | ⟨-, hlong⟩
  · exact ⟨f, g, a, hreach, by rw [hg]; exact congrArg (fun x => some (g, x)) hans⟩
  · have hshort : a.bytes.length < 10 := of_decide_eq_true hlen
    have hbig : 10 ≤ maxFiles * maxPhysicalFilesize := by decide
    exact absurd (show maxFiles * maxPhysicalFilesize < a.bytes.length from hlong) (by omega)

end Calls
end PgStorage.Buffile
