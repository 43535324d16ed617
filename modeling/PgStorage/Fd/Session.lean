import PgStorage.Fd.VfdProofs

/-! Runs of a backend on its virtual files.

A backend uses the files that `fileNameOpenFile` gave it and has not closed. In every run the
ring and the free list are what they should be, whatever the operating system refuses. `nfile`
is right only as long as nobody calls `AllocateFile`, which does not count its descriptor;
`FreeFile` then counts it upwards. -/
namespace PgStorage.Fd
open PgStorage.Ring Trace
open Function Option

/-- A call on a virtual file. -/
inductive FileOp (B : Type) where
  | read (amount : Nat)
  | write (buffer : List B)
  | seek (offset : Int) (whence : Whence)
  | truncate (offset : Int)
  | sync
  | invalidate

/-- A call to `fd.c`. -/
inductive FdAct (P B : Type) where
  | «open» (path : P)
  | file (f : Nat) (op : FileOp B)
  | close (f : Nat)
  | unlink (f : Nat)
  | allocateFile
  | freeFile

/-- `fd.c` and the files the backend uses. -/
structure Session (P B : Type) where
  vfds : Vfds P B
  inUse : Nat → Bool

section Calls
variable {P B : Type} [DecidableEq P] [Zero B]

/-- A call on a file: what it returns, and the bytes of a read. -/
def fileCall (env : Env P) (nofile : Int) (s : Vfds P B) (f : Nat) : FileOp B → Option (Vfds P B × Int × List B)
  | .read amount => fileRead env nofile s f amount
  | .write buffer => (fileWrite env nofile s f buffer).map fun (t, r) => (t, r, [])
  | .seek offset whence => (fileSeek env nofile s f offset whence).map fun (t, r) => (t, r, [])
  | .truncate offset => (fileTruncate env nofile s f offset).map fun (t, r) => (t, r, [])
  | .sync => some ((fileSync env s f).1, (fileSync env s f).2, [])
  | .invalidate => (fileInvalidate env s f).map fun t => (t, 0, [])

/-- A call of the backend; calls on files that it does not use are not made, and a call that
fails an assertion does not return. -/
def fdStep (nofile : Int) (noName : P) (s : Session P B) : Env P × FdAct P B → Option (Session P B)
  | (env, .open path) =>
    (fileNameOpenFile env nofile noName s.vfds path).map fun
      | (t, some f) => ⟨t, Function.update s.inUse f true⟩
      | (t, none) => ⟨t, s.inUse⟩
  | (env, .file f op) =>
    if s.inUse f = true then (fileCall env nofile s.vfds f op).map fun (t, _) => ⟨t, s.inUse⟩ else none
  | (env, .close f) =>
    if s.inUse f = true then (fileClose env s.vfds f).map fun t => ⟨t, Function.update s.inUse f false⟩ else none
  | (env, .unlink f) =>
    if s.inUse f = true then (fileUnlink env s.vfds f).map fun t => ⟨t, Function.update s.inUse f false⟩ else none
  | (env, .allocateFile) => (allocateFile env nofile s.vfds).map fun t => ⟨t, s.inUse⟩
  | (_, .freeFile) => (freeFile s.vfds).map fun t => ⟨t, s.inUse⟩

def Session.start (noName : P) (contents : P → List B) : Session P B := ⟨.start noName contents, fun _ => false⟩

end Calls

section Invariant
variable {P B : Type} {s t : Vfds P B} {inUse : Nat → Bool} {drift : Int} {ring free : List Nat} {f : Nat}
  {env : Env P} {nofile : Int}

/-- The ring has the open entries and the free list the unused ones; `nfile` counts the open
entries and the allocated files. -/
structure Session.Consistent (s : Session P B) (ring free : List Nat) : Prop where
  linked : Anchored s.vfds.lruMoreRecently s.vfds.lruLessRecently 0 ring
  opened : ∀ f, f ∈ ring ↔ (s.vfds.fd f).isSome = true
  listed : FreeChain s.vfds.nextFree 0 free
  free_nodup : free.Nodup
  unused : ∀ f, f ∈ free ↔ 0 < f ∧ f < s.vfds.sizeVfdCache ∧ s.inUse f = false
  disjoint : ∀ f ∈ ring, f ∉ free
  count : s.vfds.nfile = ring.length + s.vfds.allocatedFiles

theorem VfdInv.consistent {s : Session P B} (h : VfdInv s.vfds s.inUse 0 ring free) : s.Consistent ring free := by
  refine ⟨h.linked, h.opened, h.listed, h.free_nodup, h.unused, fun f hf hfree => ?_, h.count.trans (Int.add_zero _)⟩
  have hu := h.opened_used f hf
  rw [((h.unused f).mp hfree).2.2] at hu
  cases hu

/-- The same links, counts and open descriptors. -/
structure SameShape (s t : Vfds P B) : Prop where
  more : t.lruMoreRecently = s.lruMoreRecently
  less : t.lruLessRecently = s.lruLessRecently
  next : t.nextFree = s.nextFree
  size : t.sizeVfdCache = s.sizeVfdCache
  nfile : t.nfile = s.nfile
  freeFd : t.freeFd = s.freeFd
  allocatedFiles : t.allocatedFiles = s.allocatedFiles
  opened : ∀ f, (t.fd f).isSome = (s.fd f).isSome

theorem SameShape.refl (s : Vfds P B) : SameShape s s := ⟨rfl, rfl, rfl, rfl, rfl, rfl, rfl, fun _ => rfl⟩

theorem SameShape.inv (h : SameShape s t) (hs : VfdInv s inUse drift ring free) : VfdInv t inUse drift ring free :=
  hs.congr h.more h.less h.next h.size h.nfile h.allocatedFiles h.opened

/-- Positions, flags, contents and marks are changed; a descriptor that gets a position was open. -/
theorem SameShape.moved {pos : Nat} {dirty : Nat → Bool} {seekPos : Nat → Int} {contents : P → List B}
    {written synced : P → Nat} (hf : (s.fd f).isSome = true) :
    SameShape s {s with
      fd := update s.fd f (some pos)
      dirty := dirty
      seekPos := seekPos
      contents := contents
      written := written
      synced := synced} := by
  refine ⟨rfl, rfl, rfl, rfl, rfl, rfl, rfl, fun g => ?_⟩
  by_cases hg : g = f
  · rw [hg, hf]
    show (update s.fd f (some pos) f).isSome = true
    rw [update_self]
    rfl
  · show (update s.fd f (some pos) g).isSome = (s.fd g).isSome
    rw [update_of_ne hg]

theorem sameShape_seek (offset : Int) (whence : Whence) : SameShape s (s.seek f offset whence).1 := by
  rw [Vfds.seek]
  cases hf : s.fd f with
  | none => exact ⟨rfl, rfl, rfl, rfl, rfl, rfl, rfl, fun _ => rfl⟩
  | some pos => exact .moved (by rw [hf]; rfl)

variable [DecidableEq P]

theorem sameShape_fileSync : SameShape s (fileSync env s f).1 := by
  rw [fileSync]
  split
  · exact ⟨rfl, rfl, rfl, rfl, rfl, rfl, rfl, fun _ => rfl⟩
  · exact .refl s

/-- What a call on a file can do to the cache: nothing, close the file's descriptor, or access
the file. -/
inductive Touches (env : Env P) (nofile : Int) (s : Vfds P B) (f : Nat) : Vfds P B → Prop
  | same : Touches env nofile s f s
  | closed {u : Vfds P B} : lruDelete env s f = some u → Touches env nofile s f u
  | accessed {u v : Vfds P B} {ok : Bool} : SameShape s v → fileAccess env nofile v f = some (u, ok) →
      Touches env nofile s f u

theorem fileRead_touches {amount : Nat} {r : Int × List B} (hs : fileRead env nofile s f amount = some (t, r)) :
    ∃ u, Touches env nofile s f u ∧ SameShape u t := by
  obtain ⟨⟨u, ok⟩, ha, ht⟩ := map_eq_some_iff.mp hs
  refine ⟨u, .accessed (.refl s) ha, ?_⟩
  dsimp only at ht
  split at ht
  · cases ht
    exact .refl _
  · rename_i hf
    cases ht
    exact .moved (by rw [hf]; rfl)

theorem fileSeek_touches {offset r : Int} {whence : Whence}
    (hs : fileSeek env nofile s f offset whence = some (t, r)) : ∃ u, Touches env nofile s f u ∧ SameShape u t := by
  unfold fileSeek at hs
  split at hs
  · cases hs
    exact ⟨s, .same, rfl, rfl, rfl, rfl, rfl, rfl, rfl, fun _ => rfl⟩
  · cases hs
    exact ⟨s, .same, rfl, rfl, rfl, rfl, rfl, rfl, rfl, fun _ => rfl⟩
  · obtain ⟨⟨u, ok⟩, ha, ht⟩ := map_eq_some_iff.mp hs
    have hseek := sameShape_seek (s := u) (f := f) offset .end
    dsimp only at ht
    rw [ht] at hseek
    exact ⟨u, .accessed (.refl s) ha, hseek⟩
  · rename_i w _ _ _ _
    have hseek := sameShape_seek (s := s) (f := f) offset w
    rw [some.inj hs] at hseek
    exact ⟨s, .same, hseek⟩

variable [Zero B]

theorem fileWrite_touches {buffer : List B} {r : Int} (hs : fileWrite env nofile s f buffer = some (t, r)) :
    ∃ u, Touches env nofile s f u ∧ SameShape u t := by
  obtain ⟨⟨u, ok⟩, ha, ht⟩ := map_eq_some_iff.mp hs
  refine ⟨u, .accessed (.refl s) ha, ?_⟩
  dsimp only at ht
  split at ht
  · rename_i hf _
    cases ht
    exact .moved (by rw [hf]; rfl)
  · cases ht
    exact ⟨rfl, rfl, rfl, rfl, rfl, rfl, rfl, fun _ => rfl⟩

theorem fileTruncate_touches {offset r : Int} (hs : fileTruncate env nofile s f offset = some (t, r)) :
    ∃ u, Touches env nofile s f u ∧ SameShape u t := by
  obtain ⟨⟨u, ok⟩, ha, ht⟩ := map_eq_some_iff.mp hs
  refine ⟨u, .accessed sameShape_fileSync ha, ?_⟩
  dsimp only at ht
  split at ht
  · cases ht
    exact .refl _
  · split_ifs at ht
    · cases ht
      exact .refl _
    · cases ht
      exact ⟨rfl, rfl, rfl, rfl, rfl, rfl, rfl, fun _ => rfl⟩

theorem fileCall_touches {op : FileOp B} {r : Int × List B} (hs : fileCall env nofile s f op = some (t, r)) :
    ∃ u, Touches env nofile s f u ∧ SameShape u t := by
  cases op with
  | read amount => exact fileRead_touches hs
  | write buffer =>
    obtain ⟨⟨u, r'⟩, hw, he⟩ := map_eq_some_iff.mp hs
    obtain ⟨rfl, -⟩ := Prod.mk.inj he
    exact fileWrite_touches hw
  | seek offset whence =>
    obtain ⟨⟨u, r'⟩, hw, he⟩ := map_eq_some_iff.mp hs
    obtain ⟨rfl, -⟩ := Prod.mk.inj he
    exact fileSeek_touches hw
  | truncate offset =>
    obtain ⟨⟨u, r'⟩, hw, he⟩ := map_eq_some_iff.mp hs
    obtain ⟨rfl, -⟩ := Prod.mk.inj he
    exact fileTruncate_touches hw
  | sync =>
    obtain ⟨rfl, -⟩ := Prod.mk.inj (some.inj hs)
    exact ⟨s, .same, sameShape_fileSync⟩
  | invalidate =>
    obtain ⟨u, hw, he⟩ := map_eq_some_iff.mp hs
    obtain ⟨rfl, -⟩ := Prod.mk.inj he
    rw [fileInvalidate] at hw
    split at hw
    · exact ⟨u, .closed hw, .refl u⟩
    · cases hw
      exact ⟨s, .same, .refl s⟩

theorem VfdInv.fileCall (h : VfdInv s inUse drift ring free) (hu : inUse f = true) {op : FileOp B} {r : Int × List B}
    (hs : fileCall env nofile s f op = some (t, r)) : ∃ ring', VfdInv t inUse drift ring' free := by
  obtain ⟨u, htouch, hsame⟩ := fileCall_touches hs
  cases htouch with
  | same => exact ⟨ring, hsame.inv h⟩
  | closed hdel => exact ⟨_, hsame.inv (h.lruDelete hdel)⟩
  | accessed hv ha =>
    obtain ⟨⟨ring', hinv⟩, -⟩ := fileAccess_spec (hv.inv h) hu ha
    exact ⟨ring', hsame.inv hinv⟩

/-! ### Opening and closing -/

omit [DecidableEq P] [Zero B] in
theorem VfdInv.closed_of_notMem (h : VfdInv s inUse drift ring free) (hf : f ∉ ring) : s.fd f = none := by
  cases hfd : s.fd f with
  | none => rfl
  | some pos => exact absurd ((h.opened f).mpr (by rw [hfd]; rfl)) hf

omit [DecidableEq P] [Zero B] in
theorem allocateVfd_closed (h : VfdInv s inUse drift ring free) (noName : P) :
    (allocateVfd noName s).1.fd (allocateVfd noName s).2 = none := by
  obtain ⟨⟨free', ha⟩, hout⟩ := allocateVfd_spec h noName
  refine ha.closed_of_notMem fun hm => ?_
  rw [h.opened_used _ hm] at hout
  cases hout

omit [Zero B] in
/-- An entry is taken, room is made, and the entry is given back or put at the front of the ring. -/
theorem fileNameOpenFile_cases {noName path : P} {r : Option Nat}
    (hs : fileNameOpenFile env nofile noName s path = some (t, r)) : ∃ u v,
    (assertLruRoom env nofile (allocateVfd noName s).1 = some u ∨ u = (allocateVfd noName s).1) ∧
      refuse env nofile env.refusals {u with osRanOut := u.osRanOut || decide (0 < env.refusals)} = some v ∧
      (r = none ∧ t = freeVfd {v with
          fd := update v.fd (allocateVfd noName s).2 none
          dirty := update v.dirty (allocateVfd noName s).2 false} (allocateVfd noName s).2 ∨
        r = some (allocateVfd noName s).2 ∧ t = {Vfds.insert {v with
            fd := update v.fd (allocateVfd noName s).2 (some 0)
            dirty := update v.dirty (allocateVfd noName s).2 false
            nfile := v.nfile + 1} (allocateVfd noName s).2 with
          fileName := update v.fileName (allocateVfd noName s).2 path
          seekPos := update v.seekPos (allocateVfd noName s).2 0}) := by
  rw [fileNameOpenFile] at hs
  generalize allocateVfd noName s = e at *
  obtain ⟨s1, file⟩ := e
  obtain ⟨u, hroom, hs⟩ := bind_eq_some_iff.mp hs
  obtain ⟨v, hrefuse, hs⟩ := bind_eq_some_iff.mp hs
  refine ⟨u, v, ?_, hrefuse, ?_⟩
  · split_ifs at hroom
    · exact .inl hroom
    · exact .inr (some.inj hroom).symm
  · split_ifs at hs
    · obtain ⟨ht, hr⟩ := Prod.mk.inj (some.inj hs)
      exact .inl ⟨hr.symm, ht.symm⟩
    · obtain ⟨ht, hr⟩ := Prod.mk.inj (some.inj hs)
      exact .inr ⟨hr.symm, ht.symm⟩

omit [Zero B] in
theorem VfdInv.fileNameOpenFile (h : VfdInv s inUse drift ring free) {noName path : P} {r : Option Nat}
    (hs : fileNameOpenFile env nofile noName s path = some (t, r)) : ∃ ring' free',
    VfdInv t (match r with | some f => update inUse f true | none => inUse) drift ring' free' := by
  obtain ⟨u, v, hroom, hrefuse, hcases⟩ := fileNameOpenFile_cases hs
  obtain ⟨⟨free', ha⟩, hout⟩ := allocateVfd_spec h noName
  have hclosed1 := allocateVfd_closed h noName
  generalize allocateVfd noName s = e at *
  obtain ⟨s1, file⟩ := e
  dsimp only at ha hout hclosed1 hroom hcases
  obtain ⟨⟨ring2, h2⟩, hev⟩ : (∃ ring2, VfdInv u (update inUse file true) drift ring2 free') ∧ Evicts s1 u := by
    rcases hroom with hroom | rfl
    · exact ⟨ha.assertLruRoom hroom, evicts_assertLruRoom hroom⟩
    · exact ⟨⟨ring, ha⟩, .refl _⟩
  have h2' : VfdInv {u with osRanOut := u.osRanOut || decide (0 < env.refusals)} (update inUse file true)
    drift ring2 free' := h2.congr rfl rfl rfl rfl rfl rfl fun _ => rfl
  obtain ⟨ring3, h3⟩ := h2'.refuse hrefuse
  have hused : update inUse file true file = true := update_self ..
  have hclosed : v.fd file = none := (evicts_refuse hrefuse).closed file (hev.closed file hclosed1)
  rcases hcases with ⟨rfl, rfl⟩ | ⟨rfl, rfl⟩
  · have hnot : file ∉ ring3 := fun hm => by
      have := (h3.opened file).mp hm
      rw [hclosed] at this
      cases this
    have hback : update (update inUse file true) file false = inUse := by
      rw [update_idem, ← hout, update_eq_self]
    have hfreed := h3.freed hused hnot
    rw [hback] at hfreed
    refine ⟨ring3, file :: free', hfreed.congr rfl rfl rfl rfl rfl rfl fun f => ?_⟩
    show (update v.fd file none f).isSome = (v.fd f).isSome
    rw [← hclosed, update_eq_self]
  · have hins := h3.inserted (t := {v with
      fd := update v.fd file (some 0)
      dirty := update v.dirty file false
      nfile := v.nfile + 1}) hclosed hused rfl rfl rfl rfl rfl rfl rfl
    exact ⟨ring3 ++ [file], free', hins.congr rfl rfl rfl rfl rfl rfl fun _ => rfl⟩

omit [Zero B] in
theorem VfdInv.fileClose (h : VfdInv s inUse drift ring free) (hu : inUse f = true) (hs : fileClose env s f = some t) :
    ∃ ring' free', VfdInv t (update inUse f false) drift ring' free' := by
  rw [Fd.fileClose] at hs
  cases hf : s.fd f with
  | none =>
    rw [hf] at hs
    cases hs
    refine ⟨ring, _, h.freed hu fun hm => ?_⟩
    have := (h.opened f).mp hm
    rw [hf] at this
    cases this
  | some pos =>
    rw [hf] at hs
    dsimp only at hs
    split_ifs at hs
    cases hs
    have hmem := (h.opened f).mpr (by rw [hf]; rfl)
    have hnd := (List.nodup_cons.mp h.linked.1).2
    exact ⟨_, _, (h.closed hmem).freed hu fun hm => (hnd.mem_erase_iff.mp hm).1 rfl⟩

omit [Zero B] in
theorem VfdInv.fileUnlink (h : VfdInv s inUse drift ring free) (hu : inUse f = true) (hs : fileUnlink env s f = some t) :
    ∃ ring' free', VfdInv t (update inUse f false) drift ring' free' := by
  obtain ⟨u, hc, rfl⟩ := map_eq_some_iff.mp hs
  obtain ⟨ring', free', hinv⟩ := h.fileClose hu hc
  exact ⟨ring', free', hinv.congr rfl rfl rfl rfl rfl rfl fun _ => rfl⟩

/-- How far a call takes `nfile` off. -/
def FdAct.drifts : FdAct P B → Int
  | .allocateFile => -1
  | .freeFile => 2
  | _ => 0

/-- One call keeps the ring and the free list; only `AllocateFile` and `FreeFile` take `nfile` off. -/
theorem VfdInv.fdStep {s t : Session P B} {noName : P} {a : Env P × FdAct P B}
    (h : VfdInv s.vfds s.inUse drift ring free) (hs : fdStep nofile noName s a = some t) :
    ∃ ring' free', VfdInv t.vfds t.inUse (drift + a.2.drifts) ring' free' := by
  obtain ⟨env, act⟩ := a
  cases act with
  | «open» path =>
    obtain ⟨⟨u, r⟩, ho, ht⟩ := map_eq_some_iff.mp hs
    have hinv := h.fileNameOpenFile ho
    cases r with
    | none | some f =>
      cases ht
      simpa [FdAct.drifts] using hinv
  | file f op =>
    simp only [Fd.fdStep] at hs
    split_ifs at hs with hu
    obtain ⟨⟨u, r⟩, hc, ht⟩ := map_eq_some_iff.mp hs
    cases ht
    obtain ⟨ring', hinv⟩ := h.fileCall hu hc
    exact ⟨ring', free, by simpa [FdAct.drifts] using hinv⟩
  | close f =>
    simp only [Fd.fdStep] at hs
    split_ifs at hs with hu
    obtain ⟨u, hc, ht⟩ := map_eq_some_iff.mp hs
    cases ht
    simpa [FdAct.drifts] using h.fileClose hu hc
  | unlink f =>
    simp only [Fd.fdStep] at hs
    split_ifs at hs with hu
    obtain ⟨u, hc, ht⟩ := map_eq_some_iff.mp hs
    cases ht
    simpa [FdAct.drifts] using h.fileUnlink hu hc
  | allocateFile =>
    obtain ⟨u, hc, ht⟩ := map_eq_some_iff.mp hs
    obtain ⟨w, hr, hw⟩ := map_eq_some_iff.mp hc
    obtain ⟨ring', hinv⟩ := h.refuse hr
    cases ht
    cases hw
    refine ⟨ring', free, ⟨hinv.linked, hinv.opened, hinv.opened_used, hinv.used, hinv.listed, hinv.free_nodup,
      hinv.unused, ?_⟩⟩
    show w.nfile = _ + (w.allocatedFiles + 1) + (drift + -1)
    rw [hinv.count]
    omega
  | freeFile =>
    obtain ⟨u, hc, ht⟩ := map_eq_some_iff.mp hs
    rw [freeFile] at hc
    split_ifs at hc
    cases ht
    cases hc
    refine ⟨ring, free, ⟨h.linked, h.opened, h.opened_used, h.used, h.listed, h.free_nodup, h.unused, ?_⟩⟩
    show s.vfds.nfile + 1 = _ + (s.vfds.allocatedFiles - 1) + (drift + 2)
    rw [h.count]
    omega

omit [DecidableEq P] [Zero B] in
theorem VfdInv.start (noName : P) (contents : P → List B) :
    VfdInv (Vfds.start noName contents) (fun _ => false) 0 [] [] := by
  refine ⟨⟨List.nodup_singleton 0, rfl, rfl⟩, fun f => ?_, nofun, nofun, rfl, List.nodup_nil, fun f => ?_, rfl⟩
  · simp [Vfds.start]
  · simp [Vfds.start]

end Invariant

end PgStorage.Fd
