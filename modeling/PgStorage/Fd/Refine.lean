import PgStorage.Fd.Session

/-! Virtual files against files that are always open.

In the abstract model every file in use has a kernel descriptor of its own that is never
closed. A call on a virtual file returns what the same call returns there, and leaves the same
contents, as long as the operating system opens what it is asked to. The exception is a
`FileSeek` on a file whose descriptor is closed: it stores the position it is given, also a
negative one or one that does not fit into the `int` that is returned for an open file. -/
namespace PgStorage.Fd
open Trace
open Function Option Vfds

/-- Files whose descriptors are never closed. -/
structure Files (P B : Type) where
  pos : Nat → Nat
  fileName : Nat → P
  contents : P → List B

section Abstract
variable {P B : Type} [DecidableEq P] [Zero B]

/-- A call on a file that is open: its effect, what it returns, and the bytes of a read. -/
def Files.call (env : Env P) (m : Files P B) (f : Nat) : FileOp B → Files P B × Int × List B
  | .read amount =>
    let bytes := ((m.contents (m.fileName f)).drop (m.pos f)).take amount
    ({m with pos := Function.update m.pos f (m.pos f + bytes.length)}, bytes.length, bytes)
  | .write buffer =>
    match env.writes with
    | some n =>
      let bytes := buffer.take n
      ({m with
        pos := Function.update m.pos f (m.pos f + bytes.length)
        contents := Function.update m.contents (m.fileName f)
          (writeAt (m.contents (m.fileName f)) (m.pos f) bytes)}, bytes.length, [])
    | none => (m, -1, [])
  | .seek offset whence =>
    let (result, pos) := lseek (m.pos f) (m.contents (m.fileName f)).length offset whence
    ({m with pos := Function.update m.pos f pos}, cint result, [])
  | .truncate offset =>
    if offset < 0 then (m, -1, [])
    else
      ({m with
        contents := Function.update m.contents (m.fileName f)
          (resize (m.contents (m.fileName f)) offset.toNat)}, 0, [])
  | .sync => (m, if env.syncs (m.fileName f) then 0 else -1, [])
  | .invalidate => (m, 0, [])

/-- A backend opens, uses and closes files, with the abstract files beside them. -/
def mirrorStep (nofile : Int) (noName : P) (p : Session P B × Files P B) :
    Env P × FdAct P B → Option (Session P B × Files P B)
  | (env, .open path) =>
    (fileNameOpenFile env nofile noName p.1.vfds path).map fun
      | (t, some f) => (⟨t, Function.update p.1.inUse f true⟩,
        {p.2 with pos := Function.update p.2.pos f 0, fileName := Function.update p.2.fileName f path})
      | (t, none) => (⟨t, p.1.inUse⟩, p.2)
  | (env, .file f op) =>
    if p.1.inUse f = true then
      (fileCall env nofile p.1.vfds f op).map fun (t, _) => (⟨t, p.1.inUse⟩, (p.2.call env f op).1)
    else none
  | (env, .close f) =>
    if p.1.inUse f = true then
      (fileClose env p.1.vfds f).map fun t => (⟨t, Function.update p.1.inUse f false⟩, p.2)
    else none
  | (_, .unlink _) | (_, .allocateFile) | (_, .freeFile) => none

def mirrorStart (noName : P) (contents : P → List B) : Session P B × Files P B :=
  (.start noName contents, ⟨fun _ => 0, fun _ => noName, contents⟩)

end Abstract

/-! ### What the calls need -/

section Conditions
variable {P B : Type}

/-- The operating system opens the file, after it has refused the null device at most once for
every descriptor that is still open. -/
def Vfds.Reopens (nofile : Int) (s : Vfds P B) (env : Env P) : Prop :=
  env.opens = true ∧
    env.refusals ≤ (if s.freeFd ≤ 0 ∨ nofile ≤ s.nfile then s.nfile - 1 else s.nfile).toNat

/-- All system calls that a call on a file makes succeed. -/
def Vfds.Served (nofile : Int) (s : Vfds P B) (env : Env P) (f : Nat) : Prop :=
  (∀ p, env.syncs p = true) ∧ (s.fd f = none → s.Reopens nofile env)

/-- On a file whose descriptor is closed, `FileSeek` is given a position of type `int`, and the
position that is kept is not -1 as an `int` when the file is opened again. -/
def Vfds.Seeks (s : Vfds P B) (f : Nat) (op : FileOp B) : Prop :=
  s.fd f = none →
    match op with
    | .seek offset .set => 0 ≤ offset ∧ offset < 2 ^ 31
    | .seek offset .cur => 0 ≤ s.seekPos f + offset ∧ s.seekPos f + offset < 2 ^ 31
    | .sync | .invalidate => True
    | _ => cint (s.seekPos f) ≠ -1

instance servedDecidable [Fintype P] (nofile : Int) (s : Vfds P B) (env : Env P) (f : Nat) :
    Decidable (s.Served nofile env f) :=
  inferInstanceAs (Decidable ((∀ p, env.syncs p = true) ∧ (s.fd f = none → env.opens = true ∧ env.refusals ≤ _)))

instance seeksDecidable (s : Vfds P B) (f : Nat) (op : FileOp B) : Decidable (s.Seeks f op) :=
  match op with
  | .seek offset .set => inferInstanceAs (Decidable (s.fd f = none → 0 ≤ offset ∧ offset < 2 ^ 31))
  | .seek offset .cur =>
    inferInstanceAs (Decidable (s.fd f = none → 0 ≤ s.seekPos f + offset ∧ s.seekPos f + offset < 2 ^ 31))
  | .sync | .invalidate => isTrue fun _ => trivial
  | .seek _ .end | .read _ | .write _ | .truncate _ =>
    inferInstanceAs (Decidable (s.fd f = none → cint (s.seekPos f) ≠ -1))

end Conditions

section Room
variable {P B : Type} {s t : Vfds P B} {inUse : Nat → Bool} {drift : Int} {ring free : List Nat} {f : Nat}
  {env : Env P} {nofile : Int}

/-- When no descriptor is open, a file in use has left one. -/
def Vfds.Spare (s : Vfds P B) (inUse : Nat → Bool) : Prop :=
  0 ≤ s.freeFd ∧ ((∃ f, inUse f = true) → (∀ f, s.fd f = none) → 0 < s.freeFd)

variable [DecidableEq P]

theorem Vfds.Spare.lruDelete (h : 0 ≤ s.freeFd) (hs : lruDelete env s f = some t) : t.Spare inUse := by
  obtain ⟨pos, -, -, -, rfl⟩ := lruDelete_eq hs
  have hfree : ((s.delete f).close f).freeFd = s.freeFd + 1 := rfl
  refine ⟨?_, fun _ _ => ?_⟩
  · show 0 ≤ ((s.delete f).close f).freeFd
    omega
  · show 0 < ((s.delete f).close f).freeFd
    omega

theorem Vfds.Spare.assertLruRoom (h : s.Spare inUse) (hs : assertLruRoom env nofile s = some t) : t.Spare inUse := by
  rw [Fd.assertLruRoom] at hs
  split_ifs at hs
  · exact .lruDelete h.1 hs
  · cases hs
    exact h

theorem Vfds.Spare.refuse {n : Nat} (h : s.Spare inUse) (hs : refuse env nofile n s = some t) : t.Spare inUse := by
  induction n generalizing s with
  | zero =>
    cases hs
    exact h
  | succ n ih =>
    obtain ⟨u, hu, ht⟩ := bind_eq_some_iff.mp hs
    rw [Fd.assertLruRoom, if_pos (.inl (Int.le_refl 0))] at hu
    exact ih (.lruDelete (s := {s with freeFd := 0}) (Int.le_refl 0) hu) ht

omit [DecidableEq P] in
theorem Vfds.Spare.congr (h : s.Spare inUse) (hsame : SameShape s t) : t.Spare inUse := by
  rw [Vfds.Spare, hsame.freeFd]
  refine ⟨h.1, fun hu hnone => h.2 hu fun f => ?_⟩
  have hf := hsame.opened f
  rw [hnone f] at hf
  exact isSome_eq_false_iff.mp hf.symm |> isNone_iff_eq_none.mp

omit [DecidableEq P] in
theorem Vfds.Spare.of_open {pos : Nat} (hfree : 0 ≤ t.freeFd) (hf : t.fd f = some pos) : t.Spare inUse := by
  refine ⟨hfree, fun _ hnone => ?_⟩
  rw [hnone f] at hf
  cases hf

theorem Vfds.Spare.fileAccess {ok : Bool} (h : s.Spare inUse) (hs : fileAccess env nofile s f = some (t, ok)) :
    t.Spare inUse := by
  rw [Fd.fileAccess] at hs
  cases hf : s.fd f with
  | some pos =>
    rw [hf] at hs
    cases hs
    exact ⟨h.1, h.2⟩
  | none =>
    rw [hf] at hs
    obtain ⟨u, hu, ht⟩ := bind_eq_some_iff.mp hs
    have hclosed := (evicts_assertLruRoom hu).closed f hf
    rw [lruInsert, hclosed] at ht
    obtain ⟨w, hw, ht⟩ := bind_eq_some_iff.mp ht
    have hspare := (h.assertLruRoom hu).refuse hw
    split_ifs at ht with hopen hseek hfree
    · cases ht
      exact hspare
    · cases ht
      have hf : update w.fd f (some (w.seekPos f).toNat) f = some (w.seekPos f).toNat := update_self ..
      refine .of_open ?_ hf
      show 0 ≤ w.freeFd - 1
      omega
    · cases ht
      have hf : update w.fd f (some (w.seekPos f).toNat) f = some (w.seekPos f).toNat := update_self ..
      exact .of_open hspare.1 hf

/-- With a descriptor open, the least recently used one can be closed. -/
theorem lruDelete_total (h : VfdInv s inUse drift ring free) (hsync : ∀ p, env.syncs p = true)
    (hne : 0 < ring.length) : ∃ t ring', lruDelete env s (s.lruMoreRecently 0) = some t ∧
      VfdInv t inUse drift ring' free ∧ ring'.length + 1 = ring.length := by
  obtain ⟨f, rest, rfl⟩ := List.exists_cons_of_length_pos hne
  have hfirst : s.lruMoreRecently 0 = f := h.linked.2.1
  obtain ⟨pos, hpos⟩ := isSome_iff_exists.mp ((h.opened f).mp List.mem_cons_self)
  have hf0 : f ≠ 0 := fun e => (List.nodup_cons.mp h.linked.1).1 (e ▸ List.mem_cons_self)
  obtain ⟨t, ht⟩ : ∃ t, lruDelete env s f = some t := by
    rw [lruDelete, hpos]
    dsimp only
    rw [if_pos ⟨hf0, fun _ => hsync _⟩]
    exact ⟨_, rfl⟩
  refine ⟨t, rest, by rw [hfirst]; exact ht, ?_, rfl⟩
  have hinv := h.lruDelete ht
  rwa [List.erase_cons_head] at hinv

theorem refuse_total {n : Nat} (h : VfdInv s inUse drift ring free) (hsync : ∀ p, env.syncs p = true)
    (hn : n ≤ ring.length) : ∃ t, Fd.refuse env nofile n s = some t := by
  induction n generalizing s ring with
  | zero => exact ⟨s, rfl⟩
  | succ n ih =>
    have h0 : VfdInv {s with freeFd := 0} inUse drift ring free := h.congr rfl rfl rfl rfl rfl rfl fun _ => rfl
    obtain ⟨u, ring', hu, hinv, hlen⟩ := lruDelete_total h0 hsync (by omega)
    obtain ⟨t, ht⟩ := ih hinv (by omega : n ≤ ring'.length)
    refine ⟨t, bind_eq_some_iff.mpr ⟨u, ?_, ht⟩⟩
    rw [Fd.assertLruRoom, if_pos (.inl (Int.le_refl 0))]
    exact hu

/-- A file in use can be accessed. -/
theorem fileAccess_total (h : VfdInv s inUse drift ring free) (hcount : s.nfile = ring.length)
    (hspare : s.Spare inUse) (hn : 0 < nofile) (hu : inUse f = true) (hserved : s.Served nofile env f) (hpos : 0 ≤ s.position f)
    (hseek : s.fd f = none → cint (s.seekPos f) ≠ -1) : ∃ t, fileAccess env nofile s f = some (t, true) := by
  rw [fileAccess]
  cases hf : s.fd f with
  | some pos => exact ⟨_, rfl⟩
  | none =>
    obtain ⟨hsync, hreopen⟩ := hserved
    obtain ⟨hopens, hrefusals⟩ := hreopen hf
    rw [hcount] at hrefusals
    obtain ⟨u, ring', hroom, hinv, hleft⟩ : ∃ u ring', assertLruRoom env nofile s = some u ∧
        VfdInv u inUse drift ring' free ∧ env.refusals ≤ ring'.length := by
      by_cases hfull : s.freeFd ≤ 0 ∨ nofile ≤ s.nfile
      · have hne : 0 < ring.length := by
          by_contra hempty
          have hring : ring = [] := List.length_eq_zero_iff.mp (by omega)
          have hnone (g : Nat) : s.fd g = none := h.closed_of_notMem (by rw [hring]; exact List.not_mem_nil)
          have hfree := hspare.2 ⟨f, hu⟩ hnone
          rw [hring] at hcount
          have hzero : s.nfile = 0 := hcount
          omega
        obtain ⟨u, ring', hdel, hinv, hlen⟩ := lruDelete_total h hsync hne
        rw [hcount] at hfull
        rw [if_pos hfull] at hrefusals
        refine ⟨u, ring', ?_, hinv, by omega⟩
        rw [assertLruRoom, hcount, if_pos hfull]
        exact hdel
      · have hroom : assertLruRoom env nofile s = some s := by rw [assertLruRoom, if_neg hfull]
        rw [hcount] at hfull
        rw [if_neg hfull] at hrefusals
        exact ⟨s, ring, hroom, h, by omega⟩
    obtain ⟨w, hw⟩ : ∃ w, refuse env nofile env.refusals u = some w := refuse_total hinv hsync hleft
    have hev := (evicts_assertLruRoom hroom).trans (evicts_refuse hw)
    have hclosed := hev.closed f hf
    have hkept : w.seekPos f = s.seekPos f := by
      have := hev.position f
      rwa [position, position, hf, hclosed] at this
    have hge : 0 ≤ s.seekPos f := by rwa [position, hf] at hpos
    have hlseek : (lseek 0 0 (w.seekPos f) .set).1 = s.seekPos f := by
      rw [hkept, lseek, seekTarget, if_neg (by omega)]
    obtain ⟨t, ht⟩ : ∃ t, lruInsert env nofile u f = some (t, true) := by
      rw [lruInsert, (evicts_assertLruRoom hroom).closed f hf]
      dsimp only
      rw [hw, bind_some, if_neg (by rw [hopens]; simp), hlseek, if_neg (hseek hf)]
      exact ⟨_, rfl⟩
    exact ⟨t, bind_eq_some_iff.mpr ⟨u, hroom, ht⟩⟩

end Room

/-! ### The simulation -/

/-- A virtual file is at the position of its abstract file, open or not. All descriptors are
those of virtual files. -/
structure Mirrors {P B : Type} (s : Vfds P B) (inUse : Nat → Bool) (m : Files P B) : Prop where
  pos : ∀ f, inUse f = true → s.position f = m.pos f
  fileName : ∀ f, inUse f = true → s.fileName f = m.fileName f
  contents : s.contents = m.contents
  allocatedFiles : s.allocatedFiles = 0

section Simulation
variable {P B : Type} {s t : Vfds P B} {inUse : Nat → Bool} {drift : Int} {ring free : List Nat} {f : Nat}
  {env : Env P} {nofile : Int} {m : Files P B}

theorem position_eq (hf : s.fd f = none) : s.position f = s.seekPos f := by rw [position, hf]

theorem position_open {pos : Nat} (hf : s.fd f = some pos) : s.position f = pos := by rw [position, hf]

theorem position_congr (hfd : t.fd f = s.fd f) (hseek : t.seekPos f = s.seekPos f) : t.position f = s.position f := by
  rw [position, position, hfd, hseek]

theorem Evicts.mirrors (h : Evicts s t) (hm : Mirrors s inUse m) : Mirrors t inUse m :=
  ⟨fun f hf => (h.position f).trans (hm.pos f hf), fun f hf => by rw [h.fileName]; exact hm.fileName f hf,
    h.contents.trans hm.contents, h.allocatedFiles.trans hm.allocatedFiles⟩

/-- An access opens the file at its position. -/
theorem Accessed.mirrors (h : Accessed s t f true) (hu : inUse f = true) (hm : Mirrors s inUse m) :
    Mirrors t inUse m ∧ t.fd f = some (m.pos f) := by
  obtain ⟨hfd, u, hev, hrest, hseek, -, -, hcon, hname, hall, -⟩ := h
  have hm' := hev.mirrors hm
  rw [if_pos rfl, hm.pos f hu, Int.toNat_natCast] at hfd
  refine ⟨⟨fun g hg => ?_, fun g hg => by rw [hname]; exact hm'.fileName g hg, hcon.trans hm'.contents,
    hall.trans hm'.allocatedFiles⟩, hfd.1⟩
  by_cases hgf : g = f
  · rw [hgf]
    exact position_open hfd.1
  · exact (position_congr (hrest g hgf) (hseek g)).trans (hm'.pos g hg)

/-- An open file is moved and contents are changed. -/
theorem Mirrors.moved (hm : Mirrors s inUse m) (pos : Nat) (q : Int) (dirty : Nat → Bool) (contents : P → List B)
    (written : P → Nat) : Mirrors {s with
      fd := update s.fd f (some pos)
      seekPos := update s.seekPos f q
      dirty := dirty
      contents := contents
      written := written} inUse {m with pos := update m.pos f pos, contents := contents} := by
  refine ⟨fun g hg => ?_, hm.fileName, rfl, hm.allocatedFiles⟩
  simp only [position]
  by_cases hgf : g = f
  · rw [hgf, update_self, update_self, update_self]
  · rw [update_of_ne hgf, update_of_ne hgf, update_of_ne hgf]
    exact hm.pos g hg

/-- A closed file is moved. -/
theorem Mirrors.stored (hm : Mirrors s inUse m) (hf : s.fd f = none) {pos : Nat} {q : Int} (hq : q = pos) :
    Mirrors {s with seekPos := update s.seekPos f q} inUse {m with pos := update m.pos f pos} := by
  refine ⟨fun g hg => ?_, hm.fileName, hm.contents, hm.allocatedFiles⟩
  by_cases hgf : g = f
  · rw [hgf]
    simp only [position, hf, update_self]
    exact hq
  · have hpos := hm.pos g hg
    simp only [position, update_of_ne hgf]
    exact hpos

theorem cint_eq {n : Int} (h0 : 0 ≤ n) (h1 : n < 2 ^ 31) : cint n = n := by
  rw [cint, BitVec.toInt_ofInt]
  exact Int.bmod_eq_of_le (by omega) (by omega)

/-- `FileSeek` on a closed file stores the position that `lseek` would give. -/
theorem lseek_stored {pos len : Nat} {offset : Int} {whence : Whence} {n : Int}
    (hn : seekTarget pos len offset whence = n) (h0 : 0 ≤ n) (h1 : n < 2 ^ 31) :
    cint (lseek pos len offset whence).1 = n ∧ n = (lseek pos len offset whence).2 := by
  rw [lseek, hn, if_neg (by omega)]
  exact ⟨cint_eq h0 h1, (Int.toNat_of_nonneg h0).symm⟩

theorem Mirrors.seek (hm : Mirrors s inUse m) (hu : inUse f = true) (hf : s.fd f = some (m.pos f)) (offset : Int)
    (whence : Whence) :
    (s.seek f offset whence).2 = cint (lseek (m.pos f) (m.contents (m.fileName f)).length offset whence).1 ∧
      Mirrors (s.seek f offset whence).1 inUse {m with
        pos := update m.pos f (lseek (m.pos f) (m.contents (m.fileName f)).length offset whence).2} := by
  rw [Vfds.seek, hf]
  dsimp only
  rw [hm.contents, hm.fileName f hu]
  exact ⟨rfl, hm.moved _ _ s.dirty m.contents s.written⟩

variable [DecidableEq P] [Zero B]

/-- What a call has to return, and the abstract files after it. -/
def Follows (s : Vfds P B) (inUse : Nat → Bool) (m : Files P B) (env : Env P) (nofile : Int) (f : Nat)
    (op : FileOp B) : Prop :=
  ∃ t, fileCall env nofile s f op = some (t, (m.call env f op).2) ∧ Mirrors t inUse (m.call env f op).1

theorem follows_read (hm : Mirrors s inUse m) (hu : inUse f = true) {u : Vfds P B}
    (ha : fileAccess env nofile s f = some (u, true)) (hacc : Accessed s u f true) (amount : Nat) :
    Follows s inUse m env nofile f (.read amount) := by
  obtain ⟨hm', hfd⟩ := hacc.mirrors hu hm
  rw [Follows, fileCall, fileRead, ha, map_some]
  dsimp only
  rw [hfd]
  dsimp only
  rw [hm'.contents, hm'.fileName f hu]
  exact ⟨_, rfl, hm'.moved _ _ u.dirty m.contents u.written⟩

theorem follows_write (hm : Mirrors s inUse m) (hu : inUse f = true) {u : Vfds P B}
    (ha : fileAccess env nofile s f = some (u, true)) (hacc : Accessed s u f true) (buffer : List B) :
    Follows s inUse m env nofile f (.write buffer) := by
  obtain ⟨hm', hfd⟩ := hacc.mirrors hu hm
  rw [Follows, fileCall, fileWrite, ha, map_some, Files.call]
  dsimp only
  rw [hfd]
  cases hw : env.writes with
  | none => exact ⟨_, rfl, hm'.pos, hm'.fileName, hm'.contents, hm'.allocatedFiles⟩
  | some n =>
    dsimp only
    rw [hm'.contents, hm'.fileName f hu]
    exact ⟨_, rfl, hm'.moved _ _ _ _ _⟩

omit [DecidableEq P] [Zero B] in
theorem Mirrors.resized (hm : Mirrors s inUse m) (contents : P → List B) :
    Mirrors {s with contents := contents} inUse {m with contents := contents} :=
  ⟨hm.pos, hm.fileName, rfl, hm.allocatedFiles⟩

omit [Zero B] in
theorem Mirrors.fileSync (hm : Mirrors s inUse m) : Mirrors (fileSync env s f).1 inUse m := by
  rw [Fd.fileSync]
  split
  · exact ⟨hm.pos, hm.fileName, hm.contents, hm.allocatedFiles⟩
  · exact hm

theorem follows_truncate (hm : Mirrors s inUse m) (hu : inUse f = true) {u : Vfds P B}
    (ha : fileAccess env nofile (fileSync env s f).1 f = some (u, true))
    (hacc : Accessed (fileSync env s f).1 u f true) (offset : Int) :
    Follows s inUse m env nofile f (.truncate offset) := by
  obtain ⟨hm', hfd⟩ := hacc.mirrors hu hm.fileSync
  rw [Follows, fileCall, fileTruncate, ha, map_some, Files.call]
  dsimp only
  rw [hfd]
  dsimp only
  split_ifs with hneg
  · exact ⟨u, rfl, hm'⟩
  · rw [hm'.contents, hm'.fileName f hu]
    exact ⟨_, rfl, hm'.resized _⟩

theorem follows_sync (hm : Mirrors s inUse m) (hsync : ∀ p, env.syncs p = true) :
    Follows s inUse m env nofile f .sync := by
  rw [Follows, fileCall, Files.call, hsync]
  refine ⟨(fileSync env s f).1, ?_, hm.fileSync⟩
  have hzero : (fileSync env s f).2 = 0 := by
    rw [fileSync]
    split
    · rw [hsync]
      rfl
    · rfl
  rw [hzero]
  rfl

theorem follows_invalidate (hm : Mirrors s inUse m) (hu : 0 < f) (hsync : ∀ p, env.syncs p = true) :
    Follows s inUse m env nofile f .invalidate := by
  rw [Follows, fileCall, Files.call, fileInvalidate]
  cases hf : s.fd f with
  | none => exact ⟨s, rfl, hm⟩
  | some pos =>
    obtain ⟨t, ht⟩ : ∃ t, lruDelete env s f = some t := by
      rw [lruDelete, hf]
      dsimp only
      rw [if_pos ⟨by omega, fun _ => hsync _⟩]
      exact ⟨_, rfl⟩
    dsimp only
    rw [ht]
    exact ⟨t, rfl, (evicts_lruDelete ht).mirrors hm⟩

theorem follows_seek_open (hm : Mirrors s inUse m) (hu : inUse f = true) (hf : (s.fd f).isSome = true) (offset : Int)
    (whence : Whence) : Follows s inUse m env nofile f (.seek offset whence) := by
  obtain ⟨pos, hpos⟩ := isSome_iff_exists.mp hf
  have hpos' : s.fd f = some (m.pos f) := by
    have h := hm.pos f hu
    rw [position_open hpos] at h
    rw [hpos, Int.natCast_inj.mp h]
  obtain ⟨hr, hm'⟩ := hm.seek hu hpos' offset whence
  rw [Follows, fileCall, Files.call]
  have hcall : fileSeek env nofile s f offset whence = some (s.seek f offset whence) := by
    unfold fileSeek
    rw [hpos]
  rw [hcall, map_some]
  exact ⟨_, congrArg (fun r => some ((s.seek f offset whence).1, r, [])) hr, hm'⟩

theorem follows_seek_end (hm : Mirrors s inUse m) (hu : inUse f = true) (hf : s.fd f = none) {u : Vfds P B}
    (ha : fileAccess env nofile s f = some (u, true)) (hacc : Accessed s u f true) (offset : Int) :
    Follows s inUse m env nofile f (.seek offset .end) := by
  obtain ⟨hm', hfd⟩ := hacc.mirrors hu hm
  obtain ⟨hr, hm''⟩ := hm'.seek hu hfd offset .end
  rw [Follows, fileCall, Files.call]
  have hcall : fileSeek env nofile s f offset .end = some (u.seek f offset .end) := by
    unfold fileSeek
    rw [hf]
    dsimp only
    rw [ha]
    rfl
  rw [hcall, map_some]
  exact ⟨_, congrArg (fun r => some ((u.seek f offset .end).1, r, [])) hr, hm''⟩

theorem follows_seek_stored (hm : Mirrors s inUse m) (hf : s.fd f = none) {offset n : Int}
    {whence : Whence} (hcall : fileSeek env nofile s f offset whence =
      some ({s with seekPos := update s.seekPos f n}, n))
    (hn : seekTarget (m.pos f) (m.contents (m.fileName f)).length offset whence = n) (h0 : 0 ≤ n) (h1 : n < 2 ^ 31) :
    Follows s inUse m env nofile f (.seek offset whence) := by
  obtain ⟨hr, hp⟩ := lseek_stored hn h0 h1
  rw [Follows, fileCall, Files.call, hcall, map_some]
  exact ⟨_, congrArg (fun r => some (_, r, [])) hr.symm, hm.stored hf hp⟩

omit [Zero B] in
/-- A file in use can be accessed. -/
theorem Mirrors.access (hm : Mirrors s inUse m) (h : VfdInv s inUse 0 ring free) (hspare : s.Spare inUse)
    (hn : 0 < nofile) (hu : inUse f = true) (hserved : s.Served nofile env f)
    (hseek : s.fd f = none → cint (s.seekPos f) ≠ -1) :
    ∃ u, fileAccess env nofile s f = some (u, true) ∧ Accessed s u f true := by
  have hcount : s.nfile = ring.length := by
    have := h.count
    rw [hm.allocatedFiles] at this
    omega
  obtain ⟨u, hu'⟩ := fileAccess_total h hcount hspare hn hu hserved (by rw [hm.pos f hu]; omega) hseek
  exact ⟨u, hu', (fileAccess_spec h hu hu').2⟩

/-- Every call on a file does what it does on the abstract file. -/
theorem Mirrors.follows (hm : Mirrors s inUse m) (h : VfdInv s inUse 0 ring free) (hspare : s.Spare inUse)
    (hn : 0 < nofile) (hu : inUse f = true) {op : FileOp B} (hserved : s.Served nofile env f) (hseeks : s.Seeks f op) :
    Follows s inUse m env nofile f op := by
  cases op with
  | read amount =>
    obtain ⟨u, ha, hacc⟩ := hm.access h hspare hn hu hserved hseeks
    exact follows_read hm hu ha hacc amount
  | write buffer =>
    obtain ⟨u, ha, hacc⟩ := hm.access h hspare hn hu hserved hseeks
    exact follows_write hm hu ha hacc buffer
  | truncate offset =>
    have hsame : SameShape s (Fd.fileSync env s f).1 := sameShape_fileSync
    have hkept : (Fd.fileSync env s f).1.fd = s.fd ∧ (Fd.fileSync env s f).1.seekPos = s.seekPos := by
      rw [Fd.fileSync]
      split <;> exact ⟨rfl, rfl⟩
    have hserved' : (Fd.fileSync env s f).1.Served nofile env f := by
      rw [Vfds.Served, Vfds.Reopens, hkept.1, hsame.freeFd, hsame.nfile]
      exact hserved
    obtain ⟨u, ha, hacc⟩ := hm.fileSync.access (hsame.inv h) (hspare.congr hsame) hn hu hserved'
      (by rw [hkept.1, hkept.2]; exact hseeks)
    exact follows_truncate hm hu ha hacc offset
  | sync => exact follows_sync hm hserved.1
  | invalidate => exact follows_invalidate hm (h.used f hu).1 hserved.1
  | seek offset whence =>
    cases hf : s.fd f with
    | some pos => exact follows_seek_open hm hu (by rw [hf]; rfl) offset whence
    | none =>
      have hok := hseeks hf
      cases whence with
      | set =>
        refine follows_seek_stored hm hf (n := offset) ?_ rfl hok.1 hok.2
        unfold fileSeek
        rw [hf]
      | cur =>
        have hpos := hm.pos f hu
        rw [position_eq hf] at hpos
        refine follows_seek_stored hm hf ?_ (by rw [seekTarget, ← hpos]) hok.1 hok.2
        unfold fileSeek
        rw [hf]
      | «end» =>
        obtain ⟨u, ha, hacc⟩ := hm.access h hspare hn hu hserved hseeks
        exact follows_seek_end hm hu hf ha hacc offset

theorem Vfds.Spare.fileCall (h : s.Spare inUse) {op : FileOp B} {r : Int × List B}
    (hs : fileCall env nofile s f op = some (t, r)) : t.Spare inUse := by
  obtain ⟨u, htouch, hsame⟩ := fileCall_touches hs
  cases htouch with
  | same => exact h.congr hsame
  | closed hdel => exact (Vfds.Spare.lruDelete h.1 hdel).congr hsame
  | accessed hv ha => exact ((h.congr hv).fileAccess ha).congr hsame

omit [DecidableEq P] [Zero B] in
theorem Mirrors.allocateVfd (hm : Mirrors s inUse m) (h : VfdInv s inUse drift ring free) (noName : P) :
    Mirrors (allocateVfd noName s).1 inUse m := by
  obtain ⟨hcon, hall, -⟩ := allocateVfd_fields (s := s) noName
  refine ⟨fun f hu => ?_, fun f hu => ?_, hcon.trans hm.contents, hall.trans hm.allocatedFiles⟩
  · obtain ⟨hfd, hseek, -, -⟩ := allocateVfd_kept h hu noName
    exact (position_congr hfd hseek).trans (hm.pos f hu)
  · obtain ⟨-, -, hname, -⟩ := allocateVfd_kept h hu noName
    exact hname.trans (hm.fileName f hu)

omit [DecidableEq P] [Zero B] in
theorem Vfds.Spare.allocateVfd (hspare : s.Spare inUse) (h : VfdInv s inUse drift ring free) (noName : P) :
    (allocateVfd noName s).1.Spare inUse := by
  obtain ⟨⟨free', ha⟩, -⟩ := allocateVfd_spec h noName
  obtain ⟨-, -, hfree, -⟩ := allocateVfd_fields (s := s) noName
  rw [Vfds.Spare, hfree]
  refine ⟨hspare.1, fun hu hnone => hspare.2 hu fun f => h.closed_of_notMem fun hm => ?_⟩
  have := (ha.opened f).mp hm
  rw [hnone f] at this
  cases this

omit [Zero B] in
/-- A file that is opened starts at position 0, and no other file is moved. -/
theorem Mirrors.fileNameOpenFile (hm : Mirrors s inUse m) (h : VfdInv s inUse 0 ring free) (hspare : s.Spare inUse)
    {noName path : P} {r : Option Nat} (hs : fileNameOpenFile env nofile noName s path = some (t, r)) :
    match r with
    | some f => t.Spare (update inUse f true) ∧ Mirrors t (update inUse f true)
        {m with pos := update m.pos f 0, fileName := update m.fileName f path}
    | none => t.Spare inUse ∧ Mirrors t inUse m := by
  obtain ⟨u, v, hroom, hrefuse, hcases⟩ := fileNameOpenFile_cases hs
  have hm1 := hm.allocateVfd h noName
  have hspare1 := hspare.allocateVfd h noName
  obtain ⟨-, hout⟩ := allocateVfd_spec h noName
  have hclosed1 := allocateVfd_closed h noName
  generalize Fd.allocateVfd noName s = e at *
  obtain ⟨s1, file⟩ := e
  dsimp only at hm1 hspare1 hout hclosed1 hroom hcases
  obtain ⟨hev, hspare2⟩ : Evicts s1 u ∧ u.Spare inUse := by
    rcases hroom with hroom | rfl
    · exact ⟨evicts_assertLruRoom hroom, hspare1.assertLruRoom hroom⟩
    · exact ⟨.refl _, hspare1⟩
  have hran : Evicts u {u with osRanOut := u.osRanOut || decide (0 < env.refusals)} :=
    ⟨fun _ => id, fun _ => rfl, rfl, rfl, rfl, rfl, fun _ => .inl rfl, fun _ ho hd => .inl ⟨ho, hd⟩⟩
  have hspare2' : Vfds.Spare {u with osRanOut := u.osRanOut || decide (0 < env.refusals)} inUse := hspare2
  have hev3 := (hev.trans hran).trans (evicts_refuse hrefuse)
  have hm3 := hev3.mirrors hm1
  have hspare3 := hspare2'.refuse hrefuse
  have hclosed := hev3.closed file hclosed1
  have hne {g : Nat} (hg : inUse g = true) : g ≠ file := by
    rintro rfl
    rw [hg] at hout
    cases hout
  rcases hcases with ⟨rfl, rfl⟩ | ⟨rfl, rfl⟩
  · have hsame : update v.fd file none = v.fd := by rw [← hclosed, update_eq_self]
    refine ⟨?_, fun g hg => ?_, hm3.fileName, hm3.contents, hm3.allocatedFiles⟩
    · simp only [Vfds.Spare, freeVfd, hsame]
      exact hspare3
    · have hpos := hm3.pos g hg
      simp only [position, freeVfd, update_of_ne (hne hg)]
      exact hpos
  · have hopen : update v.fd file (some 0) file = some 0 := update_self ..
    refine ⟨.of_open hspare3.1 hopen, fun g hg => ?_, fun g hg => ?_, hm3.contents, hm3.allocatedFiles⟩
    · by_cases hgf : g = file
      · simp [hgf, Vfds.position, Vfds.insert]
      · rw [update_of_ne hgf] at hg
        have hpos := hm3.pos g hg
        simp only [Vfds.position, Vfds.insert, update_of_ne hgf]
        exact hpos
    · by_cases hgf : g = file
      · simp [hgf]
      · rw [update_of_ne hgf] at hg
        simp only [update_of_ne hgf]
        exact hm3.fileName g hg

omit [Zero B] in
theorem Mirrors.fileClose (hm : Mirrors s inUse m) (hspare : s.Spare inUse) (hs : fileClose env s f = some t) :
    t.Spare (update inUse f false) ∧ Mirrors t (update inUse f false) m := by
  have hne {g : Nat} (hg : update inUse f false g = true) : g ≠ f ∧ inUse g = true := by
    have hgf : g ≠ f := by
      rintro rfl
      rw [update_self] at hg
      cases hg
    rw [update_of_ne hgf] at hg
    exact ⟨hgf, hg⟩
  rw [Fd.fileClose] at hs
  cases hf : s.fd f with
  | none =>
    rw [hf] at hs
    cases hs
    exact ⟨⟨hspare.1, fun hu hnone => hspare.2 (hu.imp fun g hg => (hne hg).2) hnone⟩, fun g hg => hm.pos g (hne hg).2,
      fun g hg => hm.fileName g (hne hg).2, hm.contents, hm.allocatedFiles⟩
  | some pos =>
    rw [hf] at hs
    dsimp only at hs
    split_ifs at hs
    cases hs
    obtain ⟨-, -, -, -, hall, hcon, hname, hseek, -⟩ := settle_fields (s := s.delete f) (f := f)
    have hfree : (freeVfd ((s.delete f).close f) f).freeFd = s.freeFd + 1 := rfl
    have hnonneg := hspare.1
    refine ⟨⟨by omega, fun _ _ => by omega⟩, fun g hg => ?_, fun g hg => ?_, hcon.trans hm.contents,
      hall.trans hm.allocatedFiles⟩
    · obtain ⟨hgf, hg⟩ := hne hg
      refine Eq.trans (position_congr ?_ ?_) (hm.pos g hg)
      · exact update_of_ne hgf ..
      · exact congrFun hseek g
    · exact (congrFun hname g).trans (hm.fileName g (hne hg).2)

/-- The invariant of a backend with its abstract files. -/
def MirrorInv (p : Session P B × Files P B) : Prop :=
  (∃ ring free, VfdInv p.1.vfds p.1.inUse 0 ring free) ∧ p.1.vfds.Spare p.1.inUse ∧ Mirrors p.1.vfds p.1.inUse p.2

/-- The condition on a call on a file; other calls need none. -/
def MirrorOk (nofile : Int) (p : Session P B × Files P B) : Env P × FdAct P B → Prop
  | (env, .file f op) => p.1.vfds.Served nofile env f ∧ p.1.vfds.Seeks f op
  | _ => True

instance mirrorOkDecidable [Fintype P] (nofile : Int) (p : Session P B × Files P B) (a : Env P × FdAct P B) :
    Decidable (MirrorOk nofile p a) :=
  match a with
  | (env, .file f op) => inferInstanceAs (Decidable (p.1.vfds.Served nofile env f ∧ p.1.vfds.Seeks f op))
  | (_, .open _) | (_, .close _) | (_, .unlink _) | (_, .allocateFile) | (_, .freeFile) => isTrue trivial

theorem mirrorInv_step (hn : 0 < nofile) {noName : P} {p q : Session P B × Files P B} {a : Env P × FdAct P B}
    (h : MirrorInv p) (hok : MirrorOk nofile p a) (hs : mirrorStep nofile noName p a = some q) : MirrorInv q := by
  obtain ⟨⟨ring, free, hinv⟩, hspare, hm⟩ := h
  obtain ⟨env, act⟩ := a
  cases act with
  | «open» path =>
    obtain ⟨⟨t, r⟩, ho, hq⟩ := map_eq_some_iff.mp hs
    have hinv' := hinv.fileNameOpenFile ho
    have hm' := hm.fileNameOpenFile hinv hspare ho
    cases r with
    | none | some f =>
      cases hq
      exact ⟨hinv', hm'⟩
  | file f op =>
    simp only [mirrorStep] at hs
    split_ifs at hs with hu
    obtain ⟨⟨t, r⟩, hc, hq⟩ := map_eq_some_iff.mp hs
    cases hq
    obtain ⟨t', hc', hm'⟩ := hm.follows hinv hspare hn hu hok.1 hok.2
    obtain ⟨ring', hinv'⟩ := hinv.fileCall hu hc
    obtain ⟨rfl, -⟩ := Prod.mk.inj (some.inj (hc.symm.trans hc'))
    exact ⟨⟨ring', free, hinv'⟩, hspare.fileCall hc, hm'⟩
  | close f =>
    simp only [mirrorStep] at hs
    split_ifs at hs with hu
    obtain ⟨t, hc, hq⟩ := map_eq_some_iff.mp hs
    cases hq
    exact ⟨hinv.fileClose hu hc, hm.fileClose hspare hc⟩
  | unlink f => cases hs
  | allocateFile => cases hs
  | freeFile => cases hs

/-- A call that returns what it returns on the abstract file, with the same contents after it. -/
def Agrees (nofile : Int) (p : Session P B × Files P B) (env : Env P) (f : Nat) (op : FileOp B) : Prop :=
  ∃ t, fileCall env nofile p.1.vfds f op = some (t, (p.2.call env f op).2) ∧
    t.contents = (p.2.call env f op).1.contents

/-- **In every run in which no `FileSeek` on a closed descriptor leaves the range of an `int`,
virtual files are files that are always open.** -/
theorem virtual_files_always_open {nofile : Int} (hn : 0 < nofile) (noName : P) (contents : P → List B)
    {p : Session P B × Files P B}
    (h : Reaches (mirrorStep nofile noName) (MirrorOk nofile) (mirrorStart noName contents) p) :
    p.1.vfds.contents = p.2.contents ∧ (∀ f, p.1.inUse f = true → p.1.vfds.position f = p.2.pos f) ∧
      ∀ env f op, p.1.inUse f = true → p.1.vfds.Served nofile env f → p.1.vfds.Seeks f op →
        Agrees nofile p env f op := by
  have hinv : MirrorInv p := by
    refine h.keeps (P := MirrorInv) ⟨⟨[], [], .start noName contents⟩, ⟨Int.le_refl 0, fun hu => ?_⟩, nofun, nofun, rfl,
      rfl⟩ fun _ _ _ hok hs ht => mirrorInv_step hn ht hok hs
    obtain ⟨f, hf⟩ := hu
    cases hf
  obtain ⟨⟨ring, free, hinv⟩, hspare, hm⟩ := hinv
  refine ⟨hm.contents, hm.pos, fun env f op hu hserved hseeks => ?_⟩
  obtain ⟨t, ht, hm'⟩ := hm.follows hinv hspare hn hu hserved hseeks
  exact ⟨t, ht, hm'.contents⟩

/-- Two files take turns with one kernel descriptor; the second keeps its position while it is closed. -/
theorem virtual_files_always_open_turns : ∃ p : Session Bool Nat × Files Bool Nat,
    Reaches (mirrorStep 10 false) (MirrorOk 10) (mirrorStart false fun _ => []) p ∧ p.1.vfds.fd 2 = none ∧
      p.1.vfds.position 2 = 3 ∧ p.2.contents true = [5, 6, 7] ∧ p.1.vfds.contents = p.2.contents := by
  have heval : (follow (mirrorStep 10 false) (MirrorOk 10) (mirrorStart false fun _ => ([] : List Nat))
      [(⟨0, true, none, fun _ => true⟩, .open false), (⟨1, true, none, fun _ => true⟩, .open true),
        (⟨0, true, some 3, fun _ => true⟩, .file 2 (.write [5, 6, 7])),
        (⟨1, true, some 1, fun _ => true⟩, .file 1 (.write [4]))]).map
      (fun p => (p.1.vfds.fd 2, p.1.vfds.position 2, p.2.contents true)) = some (none, 3, [5, 6, 7]) := by
    decide +kernel
  obtain ⟨p, hs, hvals⟩ := map_eq_some_iff.mp heval
  simp only [Prod.mk.injEq] at hvals
  have hr := Reaches.start.of_follow hs
  exact ⟨p, hr, hvals.1, hvals.2.1, hvals.2.2, (virtual_files_always_open (by decide) false (fun _ => []) hr).1⟩

/-- All system calls that the calls on files make succeed. -/
def MirrorServed (nofile : Int) (p : Session P B × Files P B) : Env P × FdAct P B → Prop
  | (env, .file f _) => p.1.vfds.Served nofile env f
  | _ => True

instance mirrorServedDecidable [Fintype P] (nofile : Int) (p : Session P B × Files P B) (a : Env P × FdAct P B) :
    Decidable (MirrorServed nofile p a) :=
  match a with
  | (env, .file f _) => inferInstanceAs (Decidable (p.1.vfds.Served nofile env f))
  | (_, .open _) | (_, .close _) | (_, .unlink _) | (_, .allocateFile) | (_, .freeFile) => isTrue trivial

/-- A file whose descriptor is closed is moved to position -5. -/
theorem closed_file_seeks_below_zero : ¬ ∀ p : Session Bool Nat × Files Bool Nat,
    Reaches (mirrorStep 10 false) (MirrorServed 10) (mirrorStart false fun _ => []) p →
      ∀ env f op, p.1.inUse f = true → p.1.vfds.Served 10 env f → Agrees 10 p env f op := by
  intro h
  have heval : (follow (mirrorStep 10 false) (MirrorServed 10) (mirrorStart false fun _ => ([] : List Nat))
      [(⟨0, true, none, fun _ => true⟩, .open true), (⟨0, true, none, fun _ => true⟩, .file 1 .invalidate)]).map
      (fun p => (p.1.inUse 1, decide (p.1.vfds.Served 10 ⟨0, true, none, fun _ => true⟩ 1),
        (fileCall ⟨0, true, none, fun _ => true⟩ 10 p.1.vfds 1 (.seek (-5) .set)).map (fun t => t.2.1),
        (p.2.call ⟨0, true, none, fun _ => true⟩ 1 (.seek (-5) .set)).2.1)) = some (true, true, some (-5), -1) := by
    decide +kernel
  obtain ⟨p, hs, hvals⟩ := map_eq_some_iff.mp heval
  simp only [Prod.mk.injEq, decide_eq_true_eq] at hvals
  obtain ⟨hu, hserved, hcode, hfiles⟩ := hvals
  obtain ⟨t, ht, -⟩ := h p (Reaches.start.of_follow hs) _ 1 (.seek (-5) .set) hu hserved
  rw [ht, map_some, hfiles] at hcode
  cases hcode

end Simulation

end PgStorage.Fd
