import PgStorage.Lib.Blocks
import PgStorage.Md.Md

/-! Relations as lists of blocks.

Over files that are always open and system calls that succeed, a relation is the list of the
blocks that have been extended, cut into segments. The chain of a relation has all its segments
as long as the relation has been opened with less than a full one: `FileSeek` returns an `int`,
so the end of a full segment is negative, and a full segment that is opened counts as empty. -/
namespace PgStorage.Md
open Fd PgStorage.Blocks Trace
open Function Option List Nat

/-- Files that are always open, those that exist, and the next virtual file. -/
structure Disk (P B : Type) where
  files : Files P B
  present : P → Bool
  next : Nat

section Layer
variable {P B : Type} [DecidableEq P] [Zero B]

/-- All system calls succeed. -/
def okEnv : Env P := ⟨0, true, some blcksz, fun _ => true⟩

def diskOpen (d : Disk P B) (path : P) (create : Bool) : Option (Disk P B × Option Nat) :=
  if d.present path = true ∨ create = true then
    some (⟨{d.files with
      pos := Function.update d.files.pos d.next 0
      fileName := Function.update d.files.fileName d.next path},
        Function.update d.present path true, d.next + 1⟩, some d.next)
  else some (d, none)

def diskLayer : FileLayer (Disk P B) P B where
  call d f op := some ({d with files := (d.files.call okEnv f op).1}, (d.files.call okEnv f op).2)
  «open» := diskOpen
  close d _ := some d

/-- The files that are open keep their names; others may have been opened. -/
structure Disk.Keeps (d e : Disk P B) : Prop where
  next : d.next ≤ e.next
  fileName : ∀ f, f < d.next → e.files.fileName f = d.files.fileName f

/-- Contents are the same too. -/
structure Disk.Grows (d e : Disk P B) : Prop extends d.Keeps e where
  contents : e.files.contents = d.files.contents

omit [DecidableEq P] [Zero B] in
theorem Disk.Keeps.trans {d e g : Disk P B} (h : d.Keeps e) (h' : e.Keeps g) : d.Keeps g :=
  ⟨le_trans h.next h'.next, fun f hf =>
    (h'.fileName f (lt_of_lt_of_le hf h.next)).trans (h.fileName f hf)⟩

omit [DecidableEq P] [Zero B] in
theorem Disk.Grows.trans {d e g : Disk P B} (h : d.Grows e) (h' : e.Grows g) : d.Grows g :=
  ⟨h.toKeeps.trans h'.toKeeps, h'.contents.trans h.contents⟩

/-- A file is moved. -/
def Disk.move (d : Disk P B) (f pos : Nat) : Disk P B :=
  {d with files := {d.files with pos := Function.update d.files.pos f pos}}

omit [DecidableEq P] [Zero B] in
theorem Disk.grows_move (d : Disk P B) (f pos : Nat) : d.Grows (d.move f pos) :=
  ⟨⟨le_refl _, fun _ _ => rfl⟩, rfl⟩

theorem diskLayer_seek (d : Disk P B) (f : Nat) (offset : Int) (whence : Whence) {n : Nat}
    (hn : seekTarget (d.files.pos f) (d.files.contents (d.files.fileName f)).length offset whence = n) :
    diskLayer.call d f (.seek offset whence) = some (d.move f n, cint n, []) := by
  simp only [diskLayer, Files.call, lseek, hn]
  rw [if_neg (by omega), Int.toNat_natCast]
  rfl

end Layer

/-! ### Segments -/

section Segments
variable {N B : Type} [DecidableEq N] [Zero B] {d e : Disk (N × Nat) B} {name : N} {n i k : Nat} {chain : List MdfdVec}
  {v w : MdfdVec} {blocks : List (List B)}

/-- The blocks of a segment. -/
def segment (blocks : List (List B)) (segno : Nat) : List (List B) := (blocks.drop (segno * relsegSize)).take relsegSize

/-- An entry of a chain: its count says whether the segment is full. -/
structure SegOk (d : Disk (N × Nat) B) (name : N) (n i : Nat) (v : MdfdVec) : Prop where
  old : v.vfd < d.next
  fileName : d.files.fileName v.vfd = (name, i)
  count : v.lstbcnt = relsegSize ↔ (i + 1) * relsegSize ≤ n

/-- A chain from segment `i` on, of a relation with `n` blocks: only the last segment may have room. -/
def ChainFrom (d : Disk (N × Nat) B) (name : N) (n : Nat) : Nat → List MdfdVec → Prop
  | _, [] => False
  | i, [v] => SegOk d name n i v ∧ n ≤ (i + 1) * relsegSize
  | i, v :: w :: chain => SegOk d name n i v ∧ (i + 1) * relsegSize ≤ n ∧ ChainFrom d name n (i + 1) (w :: chain)

omit [DecidableEq N] [Zero B] in
theorem SegOk.keeps (h : SegOk d name n i v) (hg : d.Keeps e) : SegOk e name n i v :=
  ⟨lt_of_lt_of_le h.old hg.next, (hg.fileName _ h.old).trans h.fileName, h.count⟩

omit [DecidableEq N] [Zero B] in
theorem ChainFrom.keeps (h : ChainFrom d name n i chain) (hg : d.Keeps e) : ChainFrom e name n i chain := by
  induction chain generalizing i with
  | nil => exact h
  | cons v chain ih =>
    cases chain with
    | nil => exact ⟨h.1.keeps hg, h.2⟩
    | cons w chain => exact ⟨h.1.keeps hg, h.2.1, ih h.2.2⟩

variable {b : Nat}

omit [DecidableEq N] [Zero B] in
/-- The segment of a block that the chain has room for. -/
theorem ChainFrom.entry (h : ChainFrom d name n i chain) (hi : i * relsegSize ≤ b)
    (hlt : b < (i + chain.length) * relsegSize) :
    ∃ v, chain[b / relsegSize - i]? = some v ∧ SegOk d name n (b / relsegSize) v := by
  induction chain generalizing i with
  | nil => exact h.elim
  | cons v chain ih =>
    by_cases hhere : b < (i + 1) * relsegSize
    · have hb' : b / relsegSize = i := by
        simp only [relsegSize] at hi hhere ⊢
        omega
      rw [hb', Nat.sub_self]
      cases chain with
      | nil | cons w chain => exact ⟨v, rfl, h.1⟩
    · cases chain with
      | nil => exact absurd hlt hhere
      | cons w chain =>
        have hnext : (i + 1) * relsegSize ≤ b := Nat.le_of_not_lt hhere
        have hlt' : b < (i + 1 + (w :: chain).length) * relsegSize := by
          rw [show i + 1 + (w :: chain).length = i + (v :: w :: chain).length by simp only [length_cons]; omega]
          exact hlt
        obtain ⟨u, hu, hok⟩ := ih h.2.2 hnext hlt'
        have hk : b / relsegSize - i = (b / relsegSize - (i + 1)) + 1 := by
          simp only [relsegSize] at hnext ⊢
          omega
        refine ⟨u, ?_, hok⟩
        rw [hk, getElem?_cons_succ]
        exact hu

omit [DecidableEq N] [Zero B] in
/-- A chain has room for all blocks. -/
theorem ChainFrom.le (h : ChainFrom d name n i chain) : n ≤ (i + chain.length) * relsegSize := by
  induction chain generalizing i with
  | nil => exact h.elim
  | cons v chain ih =>
    cases chain with
    | nil => exact h.2
    | cons w chain =>
      have := ih h.2.2
      rwa [show i + 1 + (w :: chain).length = i + (v :: w :: chain).length by
        simp only [length_cons]; omega] at this

omit [DecidableEq N] [Zero B] in
/-- An entry is replaced by another one for the same segment. -/
theorem ChainFrom.set (h : ChainFrom d name n i chain) (hv : SegOk d name n (i + k) v) :
    ChainFrom d name n i (chain.set k v) := by
  induction chain generalizing i k with
  | nil => exact h.elim
  | cons u chain ih =>
    cases k with
    | zero =>
      cases chain with
      | nil | cons w chain => exact ⟨hv, h.2⟩
    | succ k =>
      rw [set_cons_succ]
      cases chain with
      | nil => exact h
      | cons w chain =>
        have hrest := ih h.2.2 (by rw [show i + 1 + k = i + (k + 1) by omega]; exact hv)
        cases k with
        | zero | succ k => exact ⟨h.1, h.2.1, hrest⟩

omit [DecidableEq N] [Zero B] in
/-- A block is added to the last segment. -/
theorem ChainFrom.extend (h : ChainFrom d name n i chain) (hi : i * relsegSize ≤ n)
    (hlt : n < (i + chain.length) * relsegSize) (hv : SegOk d name (n + 1) (n / relsegSize) v) :
    ChainFrom d name (n + 1) i (chain.set (n / relsegSize - i) v) := by
  induction chain generalizing i with
  | nil => exact h.elim
  | cons u chain ih =>
    cases chain with
    | nil =>
      have hn : n / relsegSize = i := by
        simp only [relsegSize, length_cons, length_nil] at hi hlt ⊢
        omega
      rw [hn, Nat.sub_self]
      exact ⟨by rw [← hn]; exact hv, hlt⟩
    | cons w chain =>
      have hnext : (i + 1) * relsegSize ≤ n := h.2.1
      have hk : n / relsegSize - i = (n / relsegSize - (i + 1)) + 1 := by
        simp only [relsegSize] at hnext ⊢
        omega
      have hrest := ih h.2.2 hnext (by
        rw [show i + 1 + (w :: chain).length = i + (u :: w :: chain).length by simp only [length_cons]; omega]
        exact hlt)
      have hu : SegOk d name (n + 1) i u :=
        ⟨h.1.old, h.1.fileName, iff_of_true (h.1.count.mpr hnext) (le_succ_of_le hnext)⟩
      rw [hk, set_cons_succ]
      cases hj : n / relsegSize - (i + 1) with
      | zero | succ j =>
        rw [hj] at hrest
        exact ⟨hu, le_succ_of_le hnext, hrest⟩

omit [DecidableEq N] [Zero B] in
/-- The segments that the walk passes are open. -/
theorem mdfdGetseg_open {S : Type} (L : FileLayer S (N × Nat) B) (s : S) (create : Bool) (hk : k < chain.length) :
    mdfdGetseg L name create k s i chain = some (s, chain) := by
  induction k generalizing i chain with
  | zero =>
    cases chain with
    | nil => cases hk
    | cons v chain => cases chain <;> rfl
  | succ k ih =>
    cases chain with
    | nil => cases hk
    | cons v chain =>
      cases chain with
      | nil => simp at hk
      | cons w chain =>
        rw [mdfdGetseg, ih (by simpa using hk)]
        rfl

/-! ### Counting blocks -/

/-- The files of a relation hold its blocks, segment by segment. -/
structure Laid (d : Disk (N × Nat) B) (name : N) (blocks : List (List B)) : Prop where
  pages : ∀ p ∈ blocks, p.length = blcksz
  contents : ∀ segno, d.files.contents (name, segno) = (segment blocks segno).flatten

omit [DecidableEq N] [Zero B] in
theorem Laid.grows (h : Laid d name blocks) (hg : d.Grows e) : Laid e name blocks :=
  ⟨h.pages, fun segno => by rw [hg.contents]; exact h.contents segno⟩

omit [DecidableEq N] [Zero B] in
theorem Laid.segment_pages (h : Laid d name blocks) (segno : Nat) : ∀ p ∈ segment blocks segno, p.length = blcksz :=
  fun p hp => h.pages p (drop_subset _ _ (take_subset _ _ hp))

omit [Zero B] in
theorem length_segment (blocks : List (List B)) (segno : Nat) :
    (segment blocks segno).length = min relsegSize (blocks.length - segno * relsegSize) := by
  rw [segment, length_take, length_drop]

omit [DecidableEq N] [Zero B] in
theorem Laid.length (h : Laid d name blocks) (segno : Nat) : (d.files.contents (name, segno)).length =
    blcksz * min relsegSize (blocks.length - segno * relsegSize) := by
  rw [h.contents, length_flatten (h.segment_pages segno), length_segment]

/-- A segment with room is counted right. -/
theorem countSegment_room (h : Laid d name blocks) {f : Nat} (hf : d.files.fileName f = (name, i))
    (hroom : blocks.length < (i + 1) * relsegSize) :
    countSegment diskLayer d f =
      some (d.move f (blcksz * (blocks.length - i * relsegSize)), ((blocks.length - i * relsegSize : Nat) : Int)) := by
  have hlen : (d.files.contents (d.files.fileName f)).length = blcksz * (blocks.length - i * relsegSize) := by
    rw [hf, h.length, Nat.min_eq_right (by simp only [relsegSize] at hroom ⊢; omega)]
  have htarget : seekTarget (d.files.pos f) (d.files.contents (d.files.fileName f)).length 0 .end =
      ((blcksz * (blocks.length - i * relsegSize) : Nat) : Int) := by
    rw [seekTarget, hlen, Int.add_zero]
  rw [countSegment, diskLayer_seek d f 0 .end htarget, map_some, some.injEq, Prod.mk.injEq]
  refine ⟨rfl, ?_⟩
  rw [cint_eq (by omega) (by simp only [blcksz, relsegSize] at hroom ⊢; omega)]
  simp only [blcksz]
  split_ifs with hneg <;> omega

/-- A segment that is not full is opened. -/
theorem openNext_room (h : Laid d name blocks) (hroom : blocks.length < (i + 1) * relsegSize) :
    ∃ e v, openNext diskLayer d name i true = some (e, v) ∧ d.Grows e ∧ SegOk e name blocks.length i v := by
  have hopen : diskLayer.open d (name, i) true = diskOpen d (name, i) true := rfl
  rw [openNext, mdfdOpenseg, hopen, diskOpen, if_pos (.inr rfl), bind_some]
  dsimp only
  generalize he : (⟨{d.files with
      pos := update d.files.pos d.next 0
      fileName := update d.files.fileName d.next (name, i)},
        update d.present (name, i) true, d.next + 1⟩ : Disk (N × Nat) B) = e
  have hg : d.Grows e := by
    subst he
    exact ⟨⟨Nat.le_succ _, fun f hf => update_of_ne (Nat.ne_of_lt hf) ..⟩, rfl⟩
  have hf : e.files.fileName d.next = (name, i) := by
    subst he
    exact update_self ..
  have hnext : e.next = d.next + 1 := by rw [← he]
  rw [countSegment_room (h.grows hg) hf hroom]
  refine ⟨_, _, rfl, hg.trans (e.grows_move _ _), ?_, hf, ?_⟩
  · show d.next < e.next
    omega
  · simp only [relsegSize] at hroom ⊢
    omega

theorem segmentFull_room (h : Laid d name blocks) (hv : SegOk d name blocks.length i v)
    (hroom : blocks.length < (i + 1) * relsegSize) : ∃ e,
    segmentFull diskLayer d v = some (e, some ((blocks.length - i * relsegSize : Nat) : Int)) ∧ d.Grows e := by
  have hcount : v.lstbcnt ≠ relsegSize := fun hc => absurd (hv.count.mp hc) (by omega)
  rw [segmentFull, if_neg hcount, countSegment_room h hv.fileName hroom, map_some]
  dsimp only
  rw [if_neg (by simp only [relsegSize] at hroom ⊢; omega)]
  exact ⟨_, rfl, d.grows_move _ _⟩

theorem segmentFull_full (hv : SegOk d name n i v) (hfull : (i + 1) * relsegSize ≤ n) :
    segmentFull diskLayer d v = some (d, none) := by
  rw [segmentFull, if_pos (hv.count.mpr hfull)]

theorem countChain_room (h : Laid d name blocks) (hv : SegOk d name blocks.length i v)
    (hroom : blocks.length < (i + 1) * relsegSize) (hi : i * relsegSize ≤ blocks.length) (hn : blocks.length < 2 ^ 31)
    (fuel : Nat) : ∃ e, countChain diskLayer name (fuel + 1) d i [v] = some (e, [v], (blocks.length : Int)) ∧
      d.Grows e := by
  obtain ⟨e, hfull, hg⟩ := segmentFull_room h hv hroom
  refine ⟨e, ?_, hg⟩
  have hsum : ((i : Int) * relsegSize + ((blocks.length - i * relsegSize : Nat) : Int)) = blocks.length := by
    simp only [relsegSize] at hi ⊢
    omega
  rw [countChain, hfull, bind_some]
  dsimp only
  rw [hsum, cint_eq (by omega) (by omega)]

/-- `mdnblocks` counts the blocks and leaves a chain with room for one more. -/
theorem countChain_eq (h : Laid d name blocks) (hc : ChainFrom d name blocks.length i chain)
    (hi : i * relsegSize ≤ blocks.length) (hn : blocks.length < 2 ^ 31) {fuel : Nat} (hfuel : chain.length + 1 ≤ fuel) :
    ∃ e chain', countChain diskLayer name fuel d i chain = some (e, chain', (blocks.length : Int)) ∧ d.Grows e ∧
      ChainFrom e name blocks.length i chain' ∧ blocks.length < (i + chain'.length) * relsegSize := by
  induction chain generalizing i d fuel with
  | nil => exact hc.elim
  | cons v chain ih =>
    obtain ⟨fuel, rfl⟩ : ∃ k, fuel = k + 1 := ⟨fuel - 1, by omega⟩
    rw [length_cons] at hfuel
    cases chain with
    | nil =>
      by_cases hroom : blocks.length < (i + 1) * relsegSize
      · obtain ⟨e, he, hg⟩ := countChain_room h hc.1 hroom hi hn fuel
        exact ⟨e, [v], he, hg, ⟨hc.1.keeps hg.toKeeps, hc.2⟩, hroom⟩
      · -- the chain ends with a full segment: the next one is opened, and it is empty
        have hfull : (i + 1) * relsegSize ≤ blocks.length := by omega
        have hroom' : blocks.length < (i + 1 + 1) * relsegSize := by
          have := hc.2
          simp only [relsegSize] at this hfull ⊢
          omega
        obtain ⟨e, w, ho, hg, hw⟩ := openNext_room h hroom'
        obtain ⟨fuel, rfl⟩ : ∃ k, fuel = k + 1 := ⟨fuel - 1, by omega⟩
        obtain ⟨g, hcount, hg'⟩ := countChain_room (h.grows hg) hw hroom' hfull hn fuel
        refine ⟨g, [{v with lstbcnt := relsegSize}, w], ?_, hg.trans hg', ?_, ?_⟩
        · rw [countChain, segmentFull_full hc.1 hfull, bind_some]
          dsimp only
          rw [ho, bind_some]
          dsimp only
          rw [hcount]
          rfl
        · have hv : SegOk g name blocks.length i {v with lstbcnt := relsegSize} :=
            ⟨(hc.1.keeps (hg.trans hg').toKeeps).old, (hc.1.keeps (hg.trans hg').toKeeps).fileName, iff_of_true rfl hfull⟩
          exact ⟨hv, hfull, hw.keeps hg'.toKeeps, le_of_lt hroom'⟩
        · exact hroom'
    | cons w chain =>
      have hfull : (i + 1) * relsegSize ≤ blocks.length := hc.2.1
      obtain ⟨e, chain', hcount, hg, hc', hlt⟩ := ih h hc.2.2 hfull (by omega : (w :: chain).length + 1 ≤ fuel)
      refine ⟨e, {v with lstbcnt := relsegSize} :: chain', ?_, hg, ?_, ?_⟩
      · rw [countChain, segmentFull_full hc.1 hfull, bind_some]
        dsimp only
        rw [hcount]
        rfl
      · have hv : SegOk e name blocks.length i {v with lstbcnt := relsegSize} :=
          ⟨(hc.1.keeps hg.toKeeps).old, (hc.1.keeps hg.toKeeps).fileName, iff_of_true rfl hfull⟩
        cases chain' with
        | nil => exact hc'.elim
        | cons u chain' => exact ⟨hv, hfull, hc'⟩
      · rw [length_cons, show i + (chain'.length + 1) = i + 1 + chain'.length by omega]
        exact hlt

omit [Zero B] in
theorem getElem?_segment (blocks : List (List B)) (segno x : Nat) :
    (segment blocks segno)[x]? = if x < relsegSize then blocks[segno * relsegSize + x]? else none := by
  rw [segment, getElem?_take]
  split_ifs
  · rw [getElem?_drop]
  · rfl

omit [Zero B] in
theorem le_length_segment (hb : b ≤ blocks.length) :
    b % relsegSize ≤ (segment blocks (b / relsegSize)).length := by
  rw [length_segment]
  simp only [relsegSize]
  omega

omit [Zero B] in
/-- A block is in the segment of its number. -/
theorem segment_put (hb : b ≤ blocks.length) (page : List B) (segno : Nat) :
    segment (put blocks b page) segno = if segno = b / relsegSize then put (segment blocks segno) (b % relsegSize) page
      else segment blocks segno := by
  refine ext_getElem? fun x => ?_
  rw [getElem?_segment, getElem?_put hb]
  by_cases hseg : segno = b / relsegSize
  · have hle : b % relsegSize ≤ (segment blocks segno).length := by
      rw [hseg]
      exact le_length_segment hb
    rw [if_pos hseg, getElem?_put hle, getElem?_segment]
    by_cases hx : x < relsegSize
    · have hiff : segno * relsegSize + x = b ↔ x = b % relsegSize := by
        simp only [relsegSize] at hx hseg ⊢
        omega
      rw [if_pos hx, if_pos hx]
      simp only [hiff]
    · rw [if_neg hx, if_neg hx, if_neg]
      simp only [relsegSize] at hx ⊢
      omega
  · rw [if_neg hseg, getElem?_segment]
    split_ifs with hx
    · rename_i hbx
      simp only [relsegSize] at hx hseg hbx
      omega
    · rfl
    · rfl

/-- The disk after a page has been written to a file. -/
def Disk.wrote (d : Disk (N × Nat) B) (f : Nat) (page : List B) : Disk (N × Nat) B :=
  {d with files := {d.files with
    pos := Function.update d.files.pos f (d.files.pos f + page.length)
    contents := Function.update d.files.contents (d.files.fileName f)
      (writeAt (d.files.contents (d.files.fileName f)) (d.files.pos f) page)}}

theorem diskLayer_write (d : Disk (N × Nat) B) (f : Nat) {page : List B} (hp : page.length = blcksz) :
    diskLayer.call d f (.write page) = some (d.wrote f page, (blcksz : Int), []) := by
  simp only [diskLayer, Files.call, okEnv]
  rw [take_of_length_le (by omega), hp]
  simp only [Disk.wrote, hp]

/-- A page that is written at a block's place becomes that block. -/
theorem Laid.wrote (h : Laid d name blocks) {f : Nat} {page : List B} (hp : page.length = blcksz)
    (hb : b ≤ blocks.length) (hf : d.files.fileName f = (name, b / relsegSize))
    (hpos : d.files.pos f = blcksz * (b % relsegSize)) : Laid (d.wrote f page) name (put blocks b page) := by
  refine ⟨fun p hm => ?_, fun segno => ?_⟩
  · rw [put, mem_append, mem_cons] at hm
    rcases hm with hm | rfl | hm
    · exact h.pages p (take_subset _ _ hm)
    · exact hp
    · exact h.pages p (drop_subset _ _ hm)
  · rw [segment_put hb]
    simp only [Disk.wrote, hf, hpos]
    by_cases hseg : segno = b / relsegSize
    · rw [if_pos hseg, hseg, update_self, h.contents, writeAt, if_neg]
      · have hle : blcksz * (b % relsegSize) ≤ (segment blocks (b / relsegSize)).flatten.length := by
          rw [length_flatten (h.segment_pages _)]
          exact Nat.mul_le_mul_left _ (le_length_segment hb)
        rw [Nat.sub_eq_zero_of_le hle, replicate_zero, append_nil]
        exact write_block (h.segment_pages _) page hp
      · intro hnil
        rw [hnil] at hp
        cases hp
    · rw [if_neg hseg, update_of_ne fun e => hseg (Prod.mk.inj e).2]
      exact h.contents segno

/-! ### The routines -/

theorem segnoOf_eq (hb : b < 2 ^ 31) : segnoOf b = b / relsegSize := by
  rw [segnoOf, cint_eq (by omega) (by omega), ← Int.ofNat_tdiv, Int.toNat_natCast]

variable {fdvec : List (List MdfdVec)} {fd : Nat}

theorem mdnblocks_eq (h : Laid d name blocks) (hfd : fdvec[fd]? = some chain)
    (hc : ChainFrom d name blocks.length 0 chain) (hn : blocks.length < 2 ^ 31) :
    ∃ e chain', mdnblocks diskLayer ⟨d, fdvec⟩ name fd = some (⟨e, fdvec.set fd chain'⟩, (blocks.length : Int)) ∧
      d.Grows e ∧ ChainFrom e name blocks.length 0 chain' ∧ blocks.length < chain'.length * relsegSize := by
  obtain ⟨e, chain', hcount, hg, hc', hlt⟩ :=
    countChain_eq h hc (by omega) hn (Nat.le_succ _ : chain.length + 1 ≤ chain.length + 2)
  refine ⟨e, chain', ?_, hg, hc', by rwa [Nat.zero_add] at hlt⟩
  rw [mdnblocks, hfd, bind_some, hcount]
  rfl

/-- The end of the last segment, where the next block goes. -/
theorem seek_end (h : Laid d name blocks) {f : Nat}
    (hf : d.files.fileName f = (name, blocks.length / relsegSize)) :
    diskLayer.call d f (.seek 0 .end) = some (d.move f (blcksz * (blocks.length % relsegSize)),
      ((blcksz * (blocks.length % relsegSize) : Nat) : Int), []) := by
  have hlen : (d.files.contents (d.files.fileName f)).length = blcksz * (blocks.length % relsegSize) := by
    rw [hf, h.length]
    simp only [relsegSize]
    congr 1
    omega
  rw [diskLayer_seek d f 0 .end (n := blcksz * (blocks.length % relsegSize)), cint_eq]
  · omega
  · simp only [blcksz, relsegSize]
    omega
  · rw [seekTarget, hlen, Int.add_zero]

/-- The count that `mdextend` keeps says whether the segment is full now. -/
theorem lstbcnt_extended (hn : n + 1 < 2 ^ 31) :
    (if (cint ((n : Int) + 1)).tmod relsegSize = 0 then (relsegSize : Int) else (cint ((n : Int) + 1)).tmod relsegSize) =
      relsegSize ↔ (n / relsegSize + 1) * relsegSize ≤ n + 1 := by
  have hmod : (cint ((n : Int) + 1)).tmod relsegSize = (((n + 1) % relsegSize : Nat) : Int) := by
    rw [cint_eq (by omega) (by omega), ← Int.natCast_succ, ← Int.ofNat_tmod]
  rw [hmod]
  simp only [relsegSize]
  split_ifs <;> omega

/-- `mdextend` adds a block. -/
theorem mdextend_eq (h : Laid d name blocks) (hfd : fdvec[fd]? = some chain)
    (hc : ChainFrom d name blocks.length 0 chain) (hn : blocks.length + 1 < 2 ^ 31) {page : List B}
    (hp : page.length = blcksz) :
    ∃ e chain', mdextend diskLayer ⟨d, fdvec⟩ name fd page = some (⟨e, fdvec.set fd chain'⟩, true) ∧ d.Keeps e ∧
      (∀ p : N × Nat, p.1 ≠ name → e.files.contents p = d.files.contents p) ∧ Laid e name (blocks ++ [page]) ∧
      ChainFrom e name (blocks ++ [page]).length 0 chain' := by
  obtain ⟨e, chain1, hcount, hg, hc1, hlt⟩ := mdnblocks_eq h hfd hc (by omega)
  have hfdlt : fd < fdvec.length := (List.getElem?_eq_some_iff.mp hfd).1
  obtain ⟨v, hv, hok⟩ := hc1.entry (b := blocks.length) (by omega) (by rw [Nat.zero_add]; exact hlt)
  rw [Nat.sub_zero] at hv
  have hk : blocks.length / relsegSize < chain1.length := (List.getElem?_eq_some_iff.mp hv).1
  have hseg := segnoOf_eq (b := blocks.length) (by omega)
  have hl := h.grows hg
  generalize hpos : blcksz * (blocks.length % relsegSize) = pos at *
  have hmoved : d.Grows (e.move v.vfd pos) := hg.trans (e.grows_move v.vfd pos)
  have hlaid := (h.grows hmoved).wrote (f := v.vfd) hp (le_refl _) hok.fileName (by
    rw [hpos]
    exact update_self ..)
  rw [put_length] at hlaid
  have hn' : (blocks ++ [page]).length = blocks.length + 1 := length_append
  generalize hlst : (if (cint ((blocks.length : Int) + 1)).tmod relsegSize = 0 then (relsegSize : Int)
    else (cint ((blocks.length : Int) + 1)).tmod relsegSize) = lst
  have hlast := lstbcnt_extended hn
  rw [hlst] at hlast
  refine ⟨(e.move v.vfd pos).wrote v.vfd page,
    chain1.set (blocks.length / relsegSize) {v with dirty := true, lstbcnt := lst}, ?_, ?_, fun p hp' => ?_, hlaid, ?_⟩
  · have hget : (fdvec.set fd chain1)[fd]? = some chain1 := by rw [getElem?_set_self hfdlt]
    rw [mdextend, hcount, bind_some]
    dsimp only
    rw [hget, bind_some, hseg, mdfdGetseg_open _ _ _ hk, bind_some]
    dsimp only
    rw [hv, bind_some, seek_end hl hok.fileName, bind_some, hpos]
    dsimp only
    rw [if_neg (by omega), diskLayer_write _ _ hp, map_some]
    dsimp only
    rw [if_neg (by simp), hlst, set_set]
  · exact ⟨hmoved.next, hmoved.fileName⟩
  · have hne : p ≠ (name, blocks.length / relsegSize) := fun he => hp' (by rw [he])
    show update e.files.contents (e.files.fileName v.vfd) _ p = _
    rw [hok.fileName, update_of_ne hne, hg.contents]
  · have hext : ChainFrom e name (blocks.length + 1) 0
        (chain1.set (blocks.length / relsegSize - 0) {v with dirty := true, lstbcnt := lst}) :=
      hc1.extend (by omega) (by rw [Nat.zero_add]; exact hlt) ⟨hok.old, hok.fileName, hlast⟩
    rw [hn']
    exact hext.keeps ⟨le_refl _, fun _ _ => rfl⟩

theorem mdseek_eq (hfd : fdvec[fd]? = some chain) (hc : ChainFrom d name n 0 chain) (hn : n < 2 ^ 31)
    (hb : b < n) : ∃ v, mdseek diskLayer ⟨d, fdvec⟩ name fd b =
      some (d.move v.vfd (blcksz * (b % relsegSize)), chain, v, true) ∧ SegOk d name n (b / relsegSize) v := by
  have hle := hc.le
  obtain ⟨v, hv, hok⟩ := hc.entry (b := b) (by omega) (by omega)
  rw [Nat.sub_zero] at hv
  have hk : b / relsegSize < chain.length := (List.getElem?_eq_some_iff.mp hv).1
  refine ⟨v, ?_, hok⟩
  rw [mdseek, hfd, bind_some, segnoOf_eq (by omega), mdfdGetseg_open _ _ _ hk, bind_some]
  dsimp only
  rw [hv, bind_some, diskLayer_seek d v.vfd _ .set (n := blcksz * (b % relsegSize)) rfl, map_some]
  dsimp only
  rw [cint_eq (by omega) (by simp only [blcksz, relsegSize]; omega), decide_eq_true rfl]

/-- `mdread` gives the block. -/
theorem mdread_eq (h : Laid d name blocks) (hfd : fdvec[fd]? = some chain)
    (hc : ChainFrom d name blocks.length 0 chain) (hn : blocks.length < 2 ^ 31) {page : List B}
    (hb : blocks[b]? = some page) : ∃ e, mdread diskLayer ⟨d, fdvec⟩ name fd b =
      some (⟨e, fdvec.set fd chain⟩, true, page) ∧ d.Grows e := by
  have hlt : b < blocks.length := (List.getElem?_eq_some_iff.mp hb).1
  obtain ⟨v, hseek, hok⟩ := mdseek_eq hfd hc hn hlt
  generalize hpos : blcksz * (b % relsegSize) = pos at hseek
  have hpage : ((d.files.contents (d.files.fileName v.vfd)).drop pos).take blcksz = page := by
    rw [hok.fileName, h.contents, ← hpos]
    refine read_block (h.segment_pages _) ?_
    rw [getElem?_segment, if_pos (Nat.mod_lt _ (by decide)), Nat.mul_comm, Nat.div_add_mod]
    exact hb
  have hlen : page.length = blcksz := h.pages page (mem_of_getElem? hb)
  have hread : diskLayer.call (d.move v.vfd pos) v.vfd (.read blcksz) =
      some ((d.move v.vfd pos).move v.vfd (pos + blcksz), (blcksz : Int), page) := by
    have hp : update d.files.pos v.vfd pos v.vfd = pos := update_self ..
    simp only [diskLayer, Files.call, Disk.move, hp, hpage, hlen]
  refine ⟨(d.move v.vfd pos).move v.vfd (pos + blcksz), ?_, (d.grows_move _ _).trans (Disk.grows_move _ _ _)⟩
  rw [mdread, hseek, bind_some]
  dsimp only
  rw [if_neg (by simp), hread, map_some]
  dsimp only
  rw [if_pos rfl]

/-- `mdwrite` replaces a block. -/
theorem mdwrite_eq (h : Laid d name blocks) (hfd : fdvec[fd]? = some chain)
    (hc : ChainFrom d name blocks.length 0 chain) (hn : blocks.length < 2 ^ 31) {page : List B}
    (hb : b < blocks.length) (hp : page.length = blcksz) :
    ∃ e chain', mdwrite diskLayer ⟨d, fdvec⟩ name fd b page = some (⟨e, fdvec.set fd chain'⟩, true) ∧ d.Keeps e ∧
      (∀ p : N × Nat, p.1 ≠ name → e.files.contents p = d.files.contents p) ∧ Laid e name (blocks.set b page) ∧
      ChainFrom e name (blocks.set b page).length 0 chain' := by
  obtain ⟨v, hseek, hok⟩ := mdseek_eq hfd hc hn hb
  have hmoved : d.Grows (d.move v.vfd (blcksz * (b % relsegSize))) := d.grows_move _ _
  have hlaid := (h.grows hmoved).wrote (f := v.vfd) hp (le_of_lt hb) hok.fileName (update_self ..)
  rw [put_eq_set hb] at hlaid
  refine ⟨_, chain.set (b / relsegSize) {v with dirty := true}, ?_, ?_, fun p hp' => ?_, hlaid, ?_⟩
  · rw [mdwrite, hseek, bind_some]
    dsimp only
    rw [if_neg (by simp), diskLayer_write _ _ hp, map_some]
    dsimp only
    rw [segnoOf_eq (by omega), decide_eq_true rfl]
  · exact ⟨hmoved.next, hmoved.fileName⟩
  · have hne : p ≠ (name, b / relsegSize) := fun he => hp' (by rw [he])
    show update d.files.contents (d.files.fileName v.vfd) _ p = _
    rw [hok.fileName, update_of_ne hne]
  · rw [length_set]
    have hset : ChainFrom d name blocks.length 0 (chain.set (b / relsegSize) {v with dirty := true}) :=
      hc.set (by rw [Nat.zero_add]; exact ⟨hok.old, hok.fileName, hok.count⟩)
    exact hset.keeps ⟨Nat.le_refl _, fun _ _ => rfl⟩

/-- A relation with less than a full segment is opened. -/
theorem mdopen_eq (h : Laid d name blocks) (hroom : blocks.length < relsegSize) (fdvec : List (List MdfdVec)) : ∃ e v,
    mdopen diskLayer ⟨d, fdvec⟩ name = some (⟨e, fdvec ++ [[v]]⟩, fdvec.length) ∧ d.Grows e ∧
      ChainFrom e name blocks.length 0 [v] := by
  obtain ⟨e, v, ho, hg, hok⟩ := openNext_room (i := 0) h (by omega)
  refine ⟨e, v, ?_, hg, hok, by omega⟩
  rw [mdopen, ho]
  rfl

theorem closeChain_eq (chain : List MdfdVec) (d : Disk (N × Nat) B) : ∃ chain', closeChain diskLayer d chain =
    some (d, chain') := by
  induction chain with
  | nil => exact ⟨[], rfl⟩
  | cons v chain ih =>
    obtain ⟨chain', ih⟩ := ih
    refine ⟨{v with dirty := false} :: chain', ?_⟩
    have hsync : diskLayer.call d v.vfd .sync = some (d, 0, []) := rfl
    have hclose : diskLayer.close d v.vfd = some d := rfl
    rw [closeChain, hsync, bind_some]
    dsimp only
    rw [hclose, bind_some, ih]
    rfl

end Segments

/-- The storage manager, the slots of the relations that are open, and the blocks that have been
extended and written. -/
structure Store (N B : Type) where
  md : MdState (Disk (N × Nat) B)
  rdFd : N → Option Nat
  blocks : N → List (List B)

inductive StoreAct (N B : Type) where
  | «open» (name : N)
  | close (name : N)
  | extend (name : N) (page : List B)
  | write (name : N) (b : Nat) (page : List B)
  | read (name : N) (b : Nat)

section Runs
variable {N B : Type} [DecidableEq N] [Zero B]

/-- A call of `md.c` on a relation that is open; existing blocks are read and written. -/
def storeStep (s : Store N B) : StoreAct N B → Option (Store N B)
  | .open name =>
    if s.rdFd name = none then
      (mdopen diskLayer s.md name).map fun (m, fd) => {s with md := m, rdFd := Function.update s.rdFd name (some fd)}
    else none
  | .close name =>
    (s.rdFd name).bind fun fd =>
      (mdclose diskLayer s.md fd).map fun m => {s with md := m, rdFd := Function.update s.rdFd name none}
  | .extend name page =>
    if page.length = blcksz then
      (s.rdFd name).bind fun fd =>
        (mdextend diskLayer s.md name fd page).map fun (m, ok) => {s with
          md := m
          blocks := if ok then Function.update s.blocks name (s.blocks name ++ [page]) else s.blocks}
    else none
  | .write name b page =>
    if page.length = blcksz ∧ b < (s.blocks name).length then
      (s.rdFd name).bind fun fd =>
        (mdwrite diskLayer s.md name fd b page).map fun (m, ok) => {s with
          md := m
          blocks := if ok then Function.update s.blocks name ((s.blocks name).set b page) else s.blocks}
    else none
  | .read name b =>
    if b < (s.blocks name).length then
      (s.rdFd name).bind fun fd => (mdread diskLayer s.md name fd b).map fun (m, _) => {s with md := m}
    else none

/-- An empty disk. -/
def Store.start (noName : N) : Store N B where
  md := ⟨⟨⟨fun _ => 0, fun _ => (noName, 0), fun _ => []⟩, fun _ => false, 0⟩, []⟩
  rdFd _ := none
  blocks _ := []

/-- Relations are extended below a limit. -/
def StoreWithin (limit : Nat) (s : Store N B) : StoreAct N B → Prop
  | .extend name _ => (s.blocks name).length + 1 < limit
  | _ => True

/-- A relation is opened with less than a full segment, and extended below the limit of an `int`. -/
def StoreOk (s : Store N B) : StoreAct N B → Prop
  | .open name => (s.blocks name).length < relsegSize
  | a => StoreWithin (2 ^ 31) s a

/-- A relation that is open is the list of its blocks, and its files hold them segment by segment. -/
structure Stored (limit : Nat) (s : Store N B) (name : N) (fd : Nat) : Prop where
  laid : Laid s.md.files name (s.blocks name)
  count : ∃ m, mdnblocks diskLayer s.md name fd = some (m, ((s.blocks name).length : Int))
  read : ∀ b page, (s.blocks name)[b]? = some page → ∃ m, mdread diskLayer s.md name fd b = some (m, true, page)
  write : ∀ b page, b < (s.blocks name).length → page.length = blcksz →
    ∃ m, mdwrite diskLayer s.md name fd b page = some (m, true)
  extend : ∀ page, (s.blocks name).length + 1 < limit → page.length = blcksz →
    ∃ m, mdextend diskLayer s.md name fd page = some (m, true)

structure StoreInv (s : Store N B) : Prop where
  laid : ∀ name, Laid s.md.files name (s.blocks name)
  bound : ∀ name, (s.blocks name).length < 2 ^ 31
  chain : ∀ name fd, s.rdFd name = some fd →
    ∃ chain, s.md.fdvec[fd]? = some chain ∧ ChainFrom s.md.files name (s.blocks name).length 0 chain
  slots : ∀ name other fd, s.rdFd name = some fd → s.rdFd other = some fd → name = other

variable {s : Store N B}

theorem StoreInv.stored (h : StoreInv s) {name : N} {fd : Nat} (hfd : s.rdFd name = some fd) :
    Stored (2 ^ 31) s name fd := by
  obtain ⟨chain, hslot, hc⟩ := h.chain name fd hfd
  refine ⟨h.laid name, ?_, fun b page hb => ?_, fun b page hb hp => ?_, fun page hn hp => ?_⟩
  · obtain ⟨e, chain', hcount, -⟩ := mdnblocks_eq (h.laid name) hslot hc (h.bound name)
    exact ⟨_, hcount⟩
  · obtain ⟨e, hread, -⟩ := mdread_eq (h.laid name) hslot hc (h.bound name) hb
    exact ⟨_, hread⟩
  · obtain ⟨e, chain', hwrite, -⟩ := mdwrite_eq (h.laid name) hslot hc (h.bound name) hb hp
    exact ⟨_, hwrite⟩
  · obtain ⟨e, chain', hextend, -⟩ := mdextend_eq (h.laid name) hslot hc hn hp
    exact ⟨_, hextend⟩

omit [DecidableEq N] [Zero B] in
theorem StoreInv.slot_lt (h : StoreInv s) {name : N} {fd : Nat} (hfd : s.rdFd name = some fd) :
    fd < s.md.fdvec.length := by
  obtain ⟨chain, hslot, -⟩ := h.chain name fd hfd
  exact (List.getElem?_eq_some_iff.mp hslot).1

omit [Zero B] in
/-- One relation is changed: its slot, its files and its blocks. -/
theorem StoreInv.changed (h : StoreInv s) {name : N} {fd : Nat} (hfd : s.rdFd name = some fd)
    {e : Disk (N × Nat) B} {chain' : List MdfdVec} {blocks' : List (List B)} (hk : s.md.files.Keeps e)
    (hother : ∀ p : N × Nat, p.1 ≠ name → e.files.contents p = s.md.files.files.contents p)
    (hl : Laid e name blocks') (hc : ChainFrom e name blocks'.length 0 chain') (hn : blocks'.length < 2 ^ 31) :
    StoreInv ⟨⟨e, s.md.fdvec.set fd chain'⟩, s.rdFd, update s.blocks name blocks'⟩ := by
  have hfdlt := h.slot_lt hfd
  refine ⟨fun other => ?_, fun other => ?_, fun other fd' hfd' => ?_, h.slots⟩
  · by_cases ho : other = name
    · rw [ho]
      simp only [update_self]
      exact hl
    · simp only [update_of_ne ho]
      exact ⟨(h.laid other).pages, fun segno => by rw [hother _ ho]; exact (h.laid other).contents segno⟩
  · by_cases ho : other = name
    · rw [ho]
      simp only [update_self]
      exact hn
    · simp only [update_of_ne ho]
      exact h.bound other
  · by_cases ho : other = name
    · subst ho
      obtain rfl : fd = fd' := some.inj (hfd.symm.trans hfd')
      simp only [update_self]
      exact ⟨chain', getElem?_set_self hfdlt, hc⟩
    · have hne : fd ≠ fd' := fun he => ho (h.slots other name fd' hfd' (he ▸ hfd))
      obtain ⟨c, hslot', hc'⟩ := h.chain other fd' hfd'
      simp only [update_of_ne ho]
      exact ⟨c, by rw [getElem?_set_ne hne]; exact hslot', hc'.keeps hk⟩

omit [Zero B] in
/-- The disk grows, and the other relations with it. -/
theorem StoreInv.grown (h : StoreInv s) {name : N} {fd : Nat} (hfd : s.rdFd name = some fd)
    {e : Disk (N × Nat) B} {chain' : List MdfdVec} (hg : s.md.files.Grows e)
    (hc : ChainFrom e name (s.blocks name).length 0 chain') :
    StoreInv ⟨⟨e, s.md.fdvec.set fd chain'⟩, s.rdFd, s.blocks⟩ := by
  have hchanged := h.changed hfd hg.toKeeps (fun p _ => by rw [hg.contents]) ((h.laid name).grows hg) hc (h.bound name)
  rwa [update_eq_self] at hchanged

/-- One call keeps every relation. -/
theorem storeInv_step {t : Store N B} {a : StoreAct N B} (h : StoreInv s) (hok : StoreOk s a)
    (hs : storeStep s a = some t) : StoreInv t := by
  cases a with
  | «open» name =>
    simp only [storeStep] at hs
    split_ifs at hs with hnone
    obtain ⟨e, v, ho, hg, hc⟩ := mdopen_eq (h.laid name) hok s.md.fdvec
    rw [ho, map_some] at hs
    cases hs
    refine ⟨fun other => (h.laid other).grows hg, h.bound, fun other fd hfd => ?_, fun other third fd hfd hfd' => ?_⟩
    · by_cases ho : other = name
      · subst ho
        simp only [update_self, some.injEq] at hfd
        subst hfd
        exact ⟨[v], getElem?_concat_length, hc⟩
      · simp only [update_of_ne ho] at hfd
        obtain ⟨c, hslot, hc'⟩ := h.chain other fd hfd
        have hlt : fd < s.md.fdvec.length := (List.getElem?_eq_some_iff.mp hslot).1
        exact ⟨c, by rw [List.getElem?_append_left hlt]; exact hslot, hc'.keeps hg.toKeeps⟩
    · by_cases ho : other = name <;> by_cases h3 : third = name
      · rw [ho, h3]
      · -- the new slot is behind those of the other relations
        subst ho
        simp only [update_self, some.injEq] at hfd
        simp only [update_of_ne h3] at hfd'
        have hlt := h.slot_lt hfd'
        omega
      · subst h3
        simp only [update_self, some.injEq] at hfd'
        simp only [update_of_ne ho] at hfd
        have hlt := h.slot_lt hfd
        omega
      · simp only [update_of_ne ho] at hfd
        simp only [update_of_ne h3] at hfd'
        exact h.slots other third fd hfd hfd'
  | close name =>
    obtain ⟨fd, hfd, hs⟩ := bind_eq_some_iff.mp hs
    obtain ⟨chain, hslot, -⟩ := h.chain name fd hfd
    obtain ⟨chain', hclose⟩ := closeChain_eq chain s.md.files
    rw [mdclose, hslot, bind_some, hclose, map_some, map_some] at hs
    cases hs
    have hne {other : N} {fd' : Nat} (ho : update s.rdFd name none other = some fd') :
        other ≠ name ∧ s.rdFd other = some fd' := by
      by_cases he : other = name
      · rw [he, update_self] at ho
        cases ho
      · rw [update_of_ne he] at ho
        exact ⟨he, ho⟩
    refine ⟨h.laid, h.bound, fun other fd' ho => ?_, fun other third fd' ho h3 => h.slots _ _ fd' (hne ho).2 (hne h3).2⟩
    obtain ⟨c, hslot', hc⟩ := h.chain other fd' (hne ho).2
    have hdiff : fd ≠ fd' := fun he => (hne ho).1 (h.slots other name fd' (hne ho).2 (he ▸ hfd))
    exact ⟨c, by rw [getElem?_set_ne hdiff]; exact hslot', hc⟩
  | extend name page =>
    simp only [storeStep] at hs
    split_ifs at hs with hp
    obtain ⟨fd, hfd, hs⟩ := bind_eq_some_iff.mp hs
    obtain ⟨chain, hslot, hc⟩ := h.chain name fd hfd
    obtain ⟨e, chain', he, hk, hother, hl, hc'⟩ := mdextend_eq (h.laid name) hslot hc hok hp
    rw [he, map_some] at hs
    cases hs
    exact h.changed hfd hk hother hl hc' (by rw [length_append]; exact hok)
  | write name b page =>
    simp only [storeStep] at hs
    split_ifs at hs with hp
    obtain ⟨fd, hfd, hs⟩ := bind_eq_some_iff.mp hs
    obtain ⟨chain, hslot, hc⟩ := h.chain name fd hfd
    obtain ⟨e, chain', he, hk, hother, hl, hc'⟩ := mdwrite_eq (h.laid name) hslot hc (h.bound name) hp.2 hp.1
    rw [he, map_some] at hs
    cases hs
    exact h.changed hfd hk hother hl hc' (by rw [length_set]; exact h.bound name)
  | read name b =>
    simp only [storeStep] at hs
    split_ifs at hs with hb
    obtain ⟨fd, hfd, hs⟩ := bind_eq_some_iff.mp hs
    obtain ⟨chain, hslot, hc⟩ := h.chain name fd hfd
    obtain ⟨e, he, hg⟩ := mdread_eq (h.laid name) hslot hc (h.bound name) (getElem?_eq_getElem hb)
    rw [he, map_some] at hs
    cases hs
    exact h.grown hfd hg (hc.keeps hg.toKeeps)

omit [DecidableEq N] [Zero B] in
theorem StoreInv.start (noName : N) : StoreInv (Store.start noName : Store N B) := by
  refine ⟨fun name => ⟨nofun, fun segno => ?_⟩, fun name => (by decide : 0 < 2 ^ 31), nofun, nofun⟩
  simp [Store.start, segment]

/-- **In every run in which relations are opened with less than a full segment and stay below
2^31 blocks, a relation is the list of the blocks it has been extended by, stored segment by
segment.** -/
theorem relation_is_block_list (noName : N) {s : Store N B}
    (h : Reaches storeStep StoreOk (.start noName) s) {name : N} {fd : Nat} (hfd : s.rdFd name = some fd) :
    Stored (2 ^ 31) s name fd := by
  have hinv : StoreInv s := h.keeps (.start noName) fun _ _ _ hok hs ht => storeInv_step ht hok hs
  exact hinv.stored hfd

/-- A relation can be extended up to the limit. -/
theorem exists_extended (name : N) {page : List B} (hp : page.length = blcksz) {n : Nat} (hn : n < 2 ^ 31) :
    ∃ s : Store N B, Reaches storeStep StoreOk (.start name) s ∧ StoreInv s ∧ (∃ fd, s.rdFd name = some fd) ∧
      s.blocks name = replicate n page := by
  induction n with
  | zero =>
    have hok : StoreOk (Store.start name : Store N B) (.open name) := (by decide : 0 < relsegSize)
    obtain ⟨t, ht, hfd, hb⟩ : ∃ t : Store N B, storeStep (.start name) (.open name) = some t ∧
        (∃ fd, t.rdFd name = some fd) ∧ t.blocks name = [] := by
      obtain ⟨e, v, ho, -⟩ := mdopen_eq ((StoreInv.start (B := B) name).laid name) hok []
      refine ⟨{Store.start name with md := ⟨e, [[v]]⟩, rdFd := update (fun _ => none) name (some 0)}, ?_,
        ⟨0, by simp⟩, rfl⟩
      have ho' : mdopen diskLayer (Store.start name : Store N B).md name = some (⟨e, [[v]]⟩, 0) := ho
      have hnone : (Store.start name : Store N B).rdFd name = none := rfl
      simp only [storeStep]
      rw [if_pos hnone, ho']
      rfl
    exact ⟨t, Reaches.start.snoc hok ht, storeInv_step (.start name) hok ht, hfd, hb⟩
  | succ n ih =>
    obtain ⟨s, hr, hinv, ⟨fd, hfd⟩, hb⟩ := ih (by omega)
    have hlen : (s.blocks name).length = n := by rw [hb, length_replicate]
    have hok : StoreOk s (.extend name page) := by
      show (s.blocks name).length + 1 < 2 ^ 31
      omega
    obtain ⟨m, hm⟩ := (hinv.stored hfd).extend page hok hp
    have ht : storeStep s (.extend name page) =
        some {s with md := m, blocks := update s.blocks name (s.blocks name ++ [page])} := by
      simp only [storeStep]
      rw [if_pos hp, hfd, bind_some, hm]
      rfl
    refine ⟨_, hr.snoc hok ht, storeInv_step hinv hok ht, ⟨fd, hfd⟩, ?_⟩
    dsimp only
    rw [update_self, hb, replicate_succ']

/-- A relation of two segments, the first one full. -/
theorem relation_is_block_list_two_segments : ∃ (s : Store Unit Nat) (fd : Nat),
    Reaches storeStep StoreOk (.start ()) s ∧ (s.blocks ()).length = relsegSize + 1 ∧ s.rdFd () = some fd ∧
      Stored (2 ^ 31) s () fd := by
  obtain ⟨s, hr, -, ⟨fd, hfd⟩, hb⟩ :=
    exists_extended () (length_replicate : (replicate blcksz 0).length = blcksz) (by decide : relsegSize + 1 < 2 ^ 31)
  exact ⟨s, fd, hr, by rw [hb, length_replicate], hfd, relation_is_block_list () hr hfd⟩

omit [DecidableEq N] in
/-- The end of a full segment is negative as an `int`, so the segment counts as empty. -/
theorem countSegment_full {d : Disk (N × Nat) B} [DecidableEq N] {name : N} {blocks : List (List B)} {i f : Nat}
    (h : Laid d name blocks) (hf : d.files.fileName f = (name, i)) (hfull : (i + 1) * relsegSize ≤ blocks.length) :
    countSegment diskLayer d f = some (d.move f (2 ^ 31), 0) := by
  have hlen : (d.files.contents (d.files.fileName f)).length = 2 ^ 31 := by
    rw [hf, h.length, min_eq_left (by simp only [relsegSize] at hfull ⊢; omega)]
    decide
  rw [countSegment, diskLayer_seek d f 0 .end (n := 2 ^ 31) (by rw [seekTarget, hlen]; rfl), map_some]
  rfl

/-- A relation with a full segment that is closed and opened again counts as empty. -/
theorem reopened_counts_zero (h : StoreInv s) {name : N} {fd : Nat} (hfd : s.rdFd name = some fd)
    (hfull : relsegSize ≤ (s.blocks name).length) : ∃ u t fd', storeStep s (.close name) = some u ∧
      storeStep u (.open name) = some t ∧ t.rdFd name = some fd' ∧ t.blocks = s.blocks ∧
      ∃ m, mdnblocks diskLayer t.md name fd' = some (m, 0) := by
  obtain ⟨chain, hslot, -⟩ := h.chain name fd hfd
  obtain ⟨chain', hclose⟩ := closeChain_eq chain s.md.files
  have hclose' : storeStep s (.close name) =
      some {s with md := ⟨s.md.files, s.md.fdvec.set fd chain'⟩, rdFd := update s.rdFd name none} := by
    simp only [storeStep]
    rw [hfd, bind_some, mdclose, hslot, bind_some, hclose]
    rfl
  generalize s.md.fdvec.set fd chain' = fdvec at hclose'
  obtain ⟨e, hopen, hg, hname⟩ : ∃ e, diskLayer.open s.md.files (name, 0) true = some (e, some s.md.files.next) ∧
      s.md.files.Grows e ∧ e.files.fileName s.md.files.next = (name, 0) := by
    refine ⟨_, if_pos (.inr rfl), ⟨⟨Nat.le_succ _, fun f hf => update_of_ne (Nat.ne_of_lt hf) ..⟩, rfl⟩, ?_⟩
    exact update_self ..
  have hlaid := (h.laid name).grows hg
  have hcount := countSegment_full hlaid hname (by omega)
  have hcount' := countSegment_full (hlaid.grows (e.grows_move s.md.files.next (2 ^ 31))) hname (by omega)
  refine ⟨_, {s with
    md := ⟨e.move s.md.files.next (2 ^ 31), fdvec ++ [[⟨s.md.files.next, false, 0⟩]]⟩
    rdFd := update (update s.rdFd name none) name (some fdvec.length)},
    fdvec.length, hclose', ?_, update_self .., rfl, ?_⟩
  · simp only [storeStep, update_self, if_true]
    rw [mdopen, openNext, mdfdOpenseg, hopen, bind_some]
    dsimp only
    rw [hcount]
    rfl
  · rw [mdnblocks]
    dsimp only
    rw [getElem?_concat_length, bind_some, countChain, segmentFull, if_neg (by simp [relsegSize])]
    dsimp only
    rw [hcount']
    exact ⟨_, rfl⟩

/-- A relation with one full segment counts as empty after it has been closed and opened. -/
theorem full_segment_lost : ¬ ∀ s : Store Unit Nat, Reaches storeStep (StoreWithin (2 ^ 32)) (.start ()) s →
    ∀ fd, s.rdFd () = some fd → Stored (2 ^ 32) s () fd := by
  intro h
  obtain ⟨s, hr, hinv, ⟨fd, hfd⟩, hb⟩ :=
    exists_extended () (length_replicate : (replicate blcksz 0).length = blcksz) (by decide : relsegSize < 2 ^ 31)
  have hlen : (s.blocks ()).length = relsegSize := by rw [hb, length_replicate]
  obtain ⟨u, t, fd', hclose, hopen, hfd', hblocks, m, hzero⟩ := reopened_counts_zero hinv hfd (by omega)
  have hr' : Reaches storeStep (StoreWithin (2 ^ 32)) (.start ()) s := by
    refine hr.mono fun s a hok => ?_
    cases a with
    | extend name page => exact lt_of_lt_of_le hok (by decide)
    | _ => trivial
  have hu : Reaches storeStep (StoreWithin (2 ^ 32)) (.start ()) u := hr'.snoc (a := .close ()) trivial hclose
  have ht : Reaches storeStep (StoreWithin (2 ^ 32)) (.start ()) t := hu.snoc (a := .open ()) trivial hopen
  obtain ⟨m', hcount⟩ := (h t ht fd' hfd').count
  rw [hzero, hblocks, hlen] at hcount
  cases hcount

end Runs

end PgStorage.Md
