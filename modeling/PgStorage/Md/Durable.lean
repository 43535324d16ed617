import PgStorage.Md.Md

/-! Durability of committed writes.

The routines of `md.c` run over the virtual files, with descriptors that are closed and opened
again by the operating system's leave. A file that has been written since its last `fsync` has
an entry with both dirty flags set, and stays open until it is synced; `mdcommit` syncs the
files of the dirty entries. `mdflush` clears the flag of its entry also when its write or its
sync has failed. -/
namespace PgStorage.Md
open Fd Trace
open Function Option List Nat

/-- The virtual files, and what the operating system does in the calls to come. -/
structure Live (P B : Type) where
  session : Session P B
  envs : Nat → Env P

section Layer
variable {P B : Type} [DecidableEq P] [Zero B]

/-- The next call has been made. -/
def Live.after (a : Live P B) (t : Vfds P B) (inUse : Nat → Bool) : Live P B := ⟨⟨t, inUse⟩, fun k => a.envs (k + 1)⟩

def fdLayer (nofile : Int) (noName : P) : FileLayer (Live P B) P B where
  call a f op :=
    if a.session.inUse f = true then
      (fileCall (a.envs 0) nofile a.session.vfds f op).map fun (t, r) => (a.after t a.session.inUse, r)
    else none
  «open» a path _ :=
    (fileNameOpenFile (a.envs 0) nofile noName a.session.vfds path).map fun
      | (t, some f) => (a.after t (Function.update a.session.inUse f true), some f)
      | (t, none) => (a.after t a.session.inUse, none)
  close a f :=
    if a.session.inUse f = true then
      (fileClose (a.envs 0) a.session.vfds f).map fun t => a.after t (Function.update a.session.inUse f false)
    else none

end Layer

/-! ### What a call keeps -/

section Keeps
variable {P B : Type} {s t : Session P B} {f : Nat} {env : Env P} {nofile : Int}

/-- An entry that is open and has been written. -/
def Pending (s : Vfds P B) (f : Nat) : Prop := (s.fd f).isSome = true ∧ s.dirty f = true

/-- What happens to files between two states of the cache: an entry that has been written stays
so unless its file has been synced after all writes of the first state. -/
structure Keeps (s t : Session P B) : Prop where
  inUse : ∀ g, s.inUse g = true → t.inUse g = true
  fileName : ∀ g, s.inUse g = true → t.vfds.fileName g = s.vfds.fileName g
  written : ∀ p, s.vfds.written p ≤ t.vfds.written p
  synced : ∀ p, t.vfds.synced p = s.vfds.synced p ∨ s.vfds.written p ≤ t.vfds.synced p
  kept : ∀ g, s.inUse g = true → Pending s.vfds g →
    Pending t.vfds g ∨ s.vfds.written (s.vfds.fileName g) ≤ t.vfds.synced (s.vfds.fileName g)

theorem Keeps.refl (s : Session P B) : Keeps s s :=
  ⟨fun _ => id, fun _ _ => rfl, fun _ => le_refl _, fun _ => .inl rfl, fun _ _ => .inl⟩

theorem Keeps.trans {u : Session P B} (h : Keeps s t) (h' : Keeps t u) : Keeps s u := by
  have hsynced {p : P} (hp : s.vfds.written p ≤ t.vfds.synced p) : s.vfds.written p ≤ u.vfds.synced p := by
    rcases h'.synced p with he | hle
    · rwa [he]
    · exact le_trans (h.written p) hle
  refine ⟨fun g hg => h'.inUse g (h.inUse g hg), fun g hg => (h'.fileName g (h.inUse g hg)).trans (h.fileName g hg),
    fun p => le_trans (h.written p) (h'.written p), fun p => ?_, fun g hg hp => ?_⟩
  · rcases h.synced p with he | hle
    · rcases h'.synced p with he' | hle'
      · exact .inl (he'.trans he)
      · exact .inr (le_trans (h.written p) hle')
    · exact .inr (hsynced hle)
  · rcases h.kept g hg hp with hp' | hle
    · rcases h'.kept g (h.inUse g hg) hp' with hp'' | hle'
      · exact .inl hp''
      · rw [h.fileName g hg] at hle'
        exact .inr (le_trans (h.written _) hle')
    · exact .inr (hsynced hle)

section Vfds
variable {a b : Vfds P B} {inUse : Nat → Bool}

theorem keeps_of_evicts (h : Evicts a b) : Keeps ⟨a, inUse⟩ ⟨b, inUse⟩ := by
  refine ⟨fun _ => id, fun g _ => congrFun h.fileName g, fun p => le_of_eq (congrFun h.written p).symm, fun p => ?_,
    fun g _ hp => ?_⟩
  · rcases h.synced p with he | he
    · exact .inl he
    · exact .inr (le_of_eq he.symm)
  · rcases h.kept g hp.1 hp.2 with hk | he
    · exact .inl hk
    · exact .inr (le_of_eq he.symm)

/-- Entries may be opened and written. -/
theorem Keeps.of_fields (hname : ∀ g, inUse g = true → b.fileName g = a.fileName g)
    (hwritten : ∀ p, a.written p ≤ b.written p) (hsynced : b.synced = a.synced)
    (hkept : ∀ g, inUse g = true → Pending a g → Pending b g) : Keeps ⟨a, inUse⟩ ⟨b, inUse⟩ :=
  ⟨fun _ => id, hname, hwritten, fun p => .inl (congrFun hsynced p), fun g hg hp => .inl (hkept g hg hp)⟩

theorem keeps_of_accessed {ok : Bool} (h : Accessed a b f ok) : Keeps ⟨a, inUse⟩ ⟨b, inUse⟩ := by
  obtain ⟨-, u, hev, hfd, -, hdirty, hself, -, hname, -, hwritten, hsynced⟩ := h
  refine (keeps_of_evicts hev).trans (.of_fields (fun g _ => congrFun hname g) (fun p => le_of_eq (congrFun hwritten p).symm)
    hsynced fun g _ hp => ?_)
  by_cases hgf : g = f
  · subst hgf
    obtain ⟨hf, hd⟩ := hself hp.1
    exact ⟨by rw [hf]; exact hp.1, by rw [hd]; exact hp.2⟩
  · exact ⟨by rw [hfd g hgf]; exact hp.1, by rw [hdirty g hgf]; exact hp.2⟩

variable {drift : Int} {ring free : List Nat}

theorem Keeps.seek (inUse : Nat → Bool) (offset : Int) (whence : Whence) : Keeps ⟨a, inUse⟩ ⟨(a.seek f offset whence).1, inUse⟩ := by
  have hshape := sameShape_seek (s := a) (f := f) offset whence
  have hfields : (a.seek f offset whence).1.fileName = a.fileName ∧ (a.seek f offset whence).1.written = a.written ∧
      (a.seek f offset whence).1.synced = a.synced ∧ (a.seek f offset whence).1.dirty = a.dirty := by
    rw [Vfds.seek]
    cases a.fd f <;> exact ⟨rfl, rfl, rfl, rfl⟩
  obtain ⟨hname, hwritten, hsynced, hdirty⟩ := hfields
  exact .of_fields (fun g _ => congrFun hname g) (fun p => le_of_eq (congrFun hwritten p).symm) hsynced
    fun g _ hp => ⟨by rw [hshape.opened]; exact hp.1, by rw [hdirty]; exact hp.2⟩

section Calls
variable [DecidableEq P]

theorem fileSeek_keeps (h : VfdInv a inUse drift ring free) (hu : inUse f = true) {offset r : Int} {whence : Whence}
    (hs : fileSeek env nofile a f offset whence = some (b, r)) : Keeps ⟨a, inUse⟩ ⟨b, inUse⟩ := by
  have hmoved {q : Nat → Int} : Keeps ⟨a, inUse⟩ ⟨{a with seekPos := q}, inUse⟩ :=
    .of_fields (fun _ _ => rfl) (fun _ => le_refl _) rfl fun _ _ hp => hp
  unfold fileSeek at hs
  split at hs
  · cases hs
    exact hmoved
  · cases hs
    exact hmoved
  · obtain ⟨⟨u, ok⟩, ha, ht⟩ := map_eq_some_iff.mp hs
    obtain ⟨-, hacc⟩ := fileAccess_spec h hu ha
    have hseek := Keeps.seek (a := u) (f := f) inUse offset .end
    dsimp only at ht
    rw [ht] at hseek
    exact (keeps_of_accessed hacc).trans hseek
  · rename_i w _ _ _ _
    have hseek := Keeps.seek (a := a) (f := f) inUse offset w
    rw [some.inj hs] at hseek
    exact hseek

theorem fileWrite_keeps [Zero B] (h : VfdInv a inUse drift ring free) (hu : inUse f = true) {buffer : List B} {r : Int}
    (hs : fileWrite env nofile a f buffer = some (b, r)) :
    Keeps ⟨a, inUse⟩ ⟨b, inUse⟩ ∧ (0 ≤ r → Pending b f) := by
  obtain ⟨⟨u, ok⟩, ha, ht⟩ := map_eq_some_iff.mp hs
  obtain ⟨-, hacc⟩ := fileAccess_spec h hu ha
  have hkeep : Keeps ⟨a, inUse⟩ ⟨u, inUse⟩ := keeps_of_accessed hacc
  have hdirty (g : Nat) (hg : u.dirty g = true) : update u.dirty f true g = true := by
    by_cases hgf : g = f
    · rw [hgf, update_self]
    · rwa [update_of_ne hgf]
  dsimp only at ht
  split at ht
  · rename_i pos n hf hw
    cases ht
    have hopen (g : Nat) (hg : (u.fd g).isSome = true) (q : Nat) : (update u.fd f (some q) g).isSome = true := by
      by_cases hgf : g = f
      · rw [hgf, update_self]
        rfl
      · rwa [update_of_ne hgf]
    refine ⟨hkeep.trans (.of_fields (fun _ _ => rfl) (fun p => ?_) rfl fun g _ hp => ⟨hopen g hp.1 _, hdirty g hp.2⟩),
      fun _ => ⟨hopen f (by rw [hf]; rfl) _, update_self ..⟩⟩
    show u.written p ≤ update u.written (u.fileName f) (u.written (u.fileName f) + 1) p
    by_cases hp : p = u.fileName f
    · rw [hp, update_self]
      exact le_succ _
    · rw [update_of_ne hp]
  · cases ht
    refine ⟨hkeep.trans (.of_fields (fun _ _ => rfl) (fun _ => le_refl _) rfl fun g _ hp => ⟨hp.1, hdirty g hp.2⟩),
      fun hr => absurd hr (by decide)⟩

/-- A write to an open file writes all of a buffer that the kernel accepts. -/
theorem fileWrite_full [Zero B] {buffer : List B} {r : Int} {n : Nat} (hf : (a.fd f).isSome = true)
    (hw : env.writes = some n) (hn : buffer.length ≤ n) (hs : fileWrite env nofile a f buffer = some (b, r)) :
    r = buffer.length := by
  obtain ⟨⟨u, ok⟩, ha, ht⟩ := map_eq_some_iff.mp hs
  obtain ⟨pos, hpos⟩ := isSome_iff_exists.mp hf
  have hu : u.fd = a.fd := by
    rw [fileAccess, hpos] at ha
    cases ha
    rfl
  dsimp only at ht
  rw [hu, hpos, hw] at ht
  cases ht
  rw [take_of_length_le hn]

/-- `FileSync`: nothing to do, a sync, or a sync that failed. -/
theorem fileSync_cases (env : Env P) (a : Vfds P B) (f : Nat) :
    (¬ Pending a f ∧ fileSync env a f = (a, 0)) ∨
      (Pending a f ∧ env.syncs (a.fileName f) = true ∧ fileSync env a f = ({a with
        dirty := update a.dirty f false
        synced := update a.synced (a.fileName f) (a.written (a.fileName f))}, 0)) ∨
      (Pending a f ∧ env.syncs (a.fileName f) = false ∧
        fileSync env a f = ({a with dirty := update a.dirty f false}, -1)) := by
  rw [fileSync]
  cases hf : a.fd f with
  | none => exact .inl ⟨fun hp => by simp [Pending, hf] at hp, rfl⟩
  | some pos =>
    cases hd : a.dirty f with
    | false => exact .inl ⟨fun hp => by simp [Pending, hd] at hp, rfl⟩
    | true =>
      have hp : Pending a f := ⟨by rw [hf]; rfl, hd⟩
      cases hs : env.syncs (a.fileName f) with
      | true => exact .inr (.inl ⟨hp, rfl, by simp⟩)
      | false => exact .inr (.inr ⟨hp, rfl, by simp⟩)

theorem keeps_synced {q : P} (hq : a.fileName f = q) : Keeps ⟨a, inUse⟩ ⟨{a with
    dirty := update a.dirty f false
    synced := update a.synced q (a.written q)}, inUse⟩ := by
  subst hq
  refine ⟨fun _ => id, fun _ _ => rfl, fun _ => le_refl _, fun p => ?_, fun g _ hp => ?_⟩
  · dsimp only
    by_cases hpf : p = a.fileName f
    · rw [hpf, update_self]
      exact .inr (le_refl _)
    · rw [update_of_ne hpf]
      exact .inl rfl
  · by_cases hgf : g = f
    · subst hgf
      refine .inr ?_
      dsimp only
      rw [update_self]
    · refine .inl ⟨hp.1, ?_⟩
      dsimp only
      rw [update_of_ne hgf]
      exact hp.2

/-- Opening a file makes room, and the entry that is taken was not in use. -/
theorem fileNameOpenFile_keeps (h : VfdInv a inUse drift ring free) {noName path : P} {r : Option Nat}
    (hs : fileNameOpenFile env nofile noName a path = some (b, r)) :
    Keeps ⟨a, inUse⟩ ⟨b, match r with | some f => update inUse f true | none => inUse⟩ ∧
      ∀ f, r = some f → b.fileName f = path := by
  obtain ⟨u, v, hroom, hrefuse, hcases⟩ := fileNameOpenFile_cases hs
  obtain ⟨-, hout⟩ := allocateVfd_spec h noName
  obtain ⟨-, -, -, hwritten, hsynced⟩ := allocateVfd_fields (s := a) noName
  have hkept1 {g : Nat} (hg : inUse g = true) := allocateVfd_kept h hg noName
  generalize allocateVfd noName a = e at *
  obtain ⟨s1, file⟩ := e
  dsimp only at hout hwritten hsynced hkept1 hroom hcases
  have hne {g : Nat} (hg : inUse g = true) : g ≠ file := by
    rintro rfl
    rw [hg] at hout
    cases hout
  have halloc : Keeps ⟨a, inUse⟩ ⟨s1, inUse⟩ := by
    refine .of_fields (fun g hg => (hkept1 hg).2.2.1) (fun p => le_of_eq (congrFun hwritten p).symm) hsynced
      fun g hg hp => ⟨?_, ?_⟩
    · rw [(hkept1 hg).1]
      exact hp.1
    · rw [(hkept1 hg).2.2.2]
      exact hp.2
  have hev : Evicts s1 u := by
    rcases hroom with hroom | rfl
    · exact evicts_assertLruRoom hroom
    · exact .refl _
  have hran : Evicts u {u with osRanOut := u.osRanOut || decide (0 < env.refusals)} :=
    ⟨fun _ => id, fun _ => rfl, rfl, rfl, rfl, rfl, fun _ => .inl rfl, fun _ ho hd => .inl ⟨ho, hd⟩⟩
  have hkeep : Keeps ⟨a, inUse⟩ ⟨v, inUse⟩ :=
    halloc.trans (keeps_of_evicts ((hev.trans hran).trans (evicts_refuse hrefuse)))
  rcases hcases with ⟨rfl, rfl⟩ | ⟨rfl, rfl⟩
  · refine ⟨hkeep.trans (.of_fields (fun _ _ => rfl) (fun _ => le_refl _) rfl fun g hg hp => ⟨?_, ?_⟩), nofun⟩
    · show (update v.fd file none g).isSome = true
      rw [update_of_ne (hne hg)]
      exact hp.1
    · show update v.dirty file false g = true
      rw [update_of_ne (hne hg)]
      exact hp.2
  · refine ⟨hkeep.trans ⟨fun g hg => ?_, fun g hg => ?_, fun _ => le_refl _, fun _ => .inl rfl, fun g hg hp =>
      .inl ⟨?_, ?_⟩⟩, fun f hf => ?_⟩
    · show update inUse file true g = true
      rw [update_of_ne (hne hg)]
      exact hg
    · show update v.fileName file path g = v.fileName g
      rw [update_of_ne (hne hg)]
    · show (update v.fd file (some 0) g).isSome = true
      rw [update_of_ne (hne hg)]
      exact hp.1
    · show update v.dirty file false g = true
      rw [update_of_ne (hne hg)]
      exact hp.2
    · cases hf
      exact update_self ..

end Calls

end Vfds

end Keeps

/-! ### Calls of the layer -/

section Steps
variable {P B : Type} [DecidableEq P] [Zero B] {a b c : Live P B} {f : Nat} {nofile : Int} {noName : P}

/-- The cache is as it should be. -/
def Good (s : Session P B) : Prop := ∃ drift ring free, VfdInv s.vfds s.inUse drift ring free

/-- Calls have been made. -/
structure Steps (a b : Live P B) : Prop where
  good : Good b.session
  keeps : Keeps a.session b.session
  envs : ∃ j, ∀ k, b.envs k = a.envs (k + j)

omit [DecidableEq P] [Zero B] in
theorem Steps.refl (h : Good a.session) : Steps a a := ⟨h, .refl _, 0, fun _ => rfl⟩

omit [DecidableEq P] [Zero B] in
theorem envs_trans (h : ∃ j, ∀ k, b.envs k = a.envs (k + j)) (h' : ∃ j, ∀ k, c.envs k = b.envs (k + j)) :
    ∃ j, ∀ k, c.envs k = a.envs (k + j) := by
  obtain ⟨j, hj⟩ := h
  obtain ⟨i, hi⟩ := h'
  exact ⟨i + j, fun k => by rw [hi, hj, Nat.add_assoc]⟩

omit [DecidableEq P] [Zero B] in
theorem Steps.trans (h : Steps a b) (h' : Steps b c) : Steps a c :=
  ⟨h'.good, h.keeps.trans h'.keeps, envs_trans h.envs h'.envs⟩

theorem call_eq {op : FileOp B} {r : Int × List B} (hs : (fdLayer nofile noName).call a f op = some (b, r)) :
    a.session.inUse f = true ∧ ∃ t, fileCall (a.envs 0) nofile a.session.vfds f op = some (t, r) ∧
      b = a.after t a.session.inUse := by
  simp only [fdLayer] at hs
  split_ifs at hs with hu
  obtain ⟨⟨t, r'⟩, hc, he⟩ := map_eq_some_iff.mp hs
  obtain ⟨rfl, rfl⟩ := Prod.mk.inj he
  exact ⟨hu, t, hc, rfl⟩

theorem call_good (h : Good a.session) {op : FileOp B} {t : Vfds P B} {r : Int × List B} (hu : a.session.inUse f = true)
    (hc : fileCall (a.envs 0) nofile a.session.vfds f op = some (t, r)) :
    Good (a.after t a.session.inUse).session := by
  obtain ⟨drift, ring, free, hinv⟩ := h
  obtain ⟨ring', hinv'⟩ := hinv.fileCall hu hc
  exact ⟨drift, ring', free, hinv'⟩

theorem call_seek (h : Good a.session) {offset : Int} {whence : Whence} {r : Int × List B}
    (hs : (fdLayer nofile noName).call a f (.seek offset whence) = some (b, r)) : Steps a b := by
  obtain ⟨hu, t, hc, rfl⟩ := call_eq hs
  refine ⟨call_good h hu hc, ?_, 1, fun _ => rfl⟩
  obtain ⟨drift, ring, free, hinv⟩ := h
  obtain ⟨⟨t', r'⟩, hw, he⟩ := map_eq_some_iff.mp hc
  obtain ⟨rfl, -⟩ := Prod.mk.inj he
  exact fileSeek_keeps hinv hu hw

theorem call_write (h : Good a.session) {buffer : List B} {r : Int × List B}
    (hs : (fdLayer nofile noName).call a f (.write buffer) = some (b, r)) :
    Steps a b ∧ (0 ≤ r.1 → Pending b.session.vfds f) ∧ ∀ n, (a.session.vfds.fd f).isSome = true →
      (a.envs 0).writes = some n → buffer.length ≤ n → r.1 = buffer.length := by
  obtain ⟨hu, t, hc, rfl⟩ := call_eq hs
  have hgood := call_good h hu hc
  obtain ⟨drift, ring, free, hinv⟩ := h
  obtain ⟨⟨t', r'⟩, hw, he⟩ := map_eq_some_iff.mp hc
  obtain ⟨rfl, rfl⟩ := Prod.mk.inj he
  obtain ⟨hkeep, hpend⟩ := fileWrite_keeps hinv hu hw
  exact ⟨⟨hgood, hkeep, 1, fun _ => rfl⟩, hpend, fun n hf hn hlen => fileWrite_full hf hn hlen hw⟩

/-- A sync that does not fail leaves the file synced; one that fails clears the flag only. -/
theorem call_sync (h : Good a.session) {r : Int × List B} (hs : (fdLayer nofile noName).call a f .sync = some (b, r)) :
    (0 ≤ r.1 → Steps a b ∧ (Pending a.session.vfds f →
        b.session.vfds.written (a.session.vfds.fileName f) ≤ b.session.vfds.synced (a.session.vfds.fileName f))) ∧
      (r.1 < 0 → (a.envs 0).syncs (a.session.vfds.fileName f) = false ∧ Good b.session ∧
        b.session = ⟨{a.session.vfds with dirty := update a.session.vfds.dirty f false}, a.session.inUse⟩) := by
  obtain ⟨hu, t, hc, rfl⟩ := call_eq hs
  have hgood := call_good h hu hc
  obtain ⟨ht, hr⟩ := Prod.mk.inj (some.inj hc)
  have hr1 : r.1 = (fileSync (a.envs 0) a.session.vfds f).2 := by rw [← hr]
  rw [hr1]
  rcases fileSync_cases (a.envs 0) a.session.vfds f with ⟨hnp, he⟩ | ⟨hp, hsync, he⟩ | ⟨hp, hsync, he⟩
  · rw [he] at ht ⊢
    subst ht
    exact ⟨fun _ => ⟨⟨hgood, .refl _, 1, fun _ => rfl⟩, fun hp => absurd hp hnp⟩,
      fun hr => absurd hr (by decide : ¬ (0 : Int) < 0)⟩
  · rw [he] at ht ⊢
    subst ht
    refine ⟨fun _ => ⟨⟨hgood, keeps_synced rfl, 1, fun _ => rfl⟩, fun _ => ?_⟩,
      fun hr => absurd hr (by decide : ¬ (0 : Int) < 0)⟩
    simp only [Live.after]
    rw [update_self]
  · rw [he] at ht ⊢
    subst ht
    exact ⟨fun hr => absurd hr (by decide : ¬ (0 : Int) ≤ -1), fun _ => ⟨hsync, hgood, rfl⟩⟩

theorem open_steps (h : Good a.session) {path : P} {create : Bool} {r : Option Nat}
    (hs : (fdLayer nofile noName).open a path create = some (b, r)) : Steps a b ∧
      ∀ f, r = some f → b.session.inUse f = true ∧ b.session.vfds.fileName f = path := by
  obtain ⟨⟨t, r'⟩, ho, he⟩ := map_eq_some_iff.mp hs
  obtain ⟨drift, ring, free, hinv⟩ := h
  obtain ⟨ring', free', hinv'⟩ := hinv.fileNameOpenFile ho
  obtain ⟨hkeep, hname⟩ := fileNameOpenFile_keeps hinv ho
  cases r' with
  | none =>
    obtain ⟨rfl, rfl⟩ := Prod.mk.inj he
    exact ⟨⟨⟨drift, ring', free', hinv'⟩, hkeep, 1, fun _ => rfl⟩, nofun⟩
  | some g =>
    obtain ⟨rfl, rfl⟩ := Prod.mk.inj he
    refine ⟨⟨⟨drift, ring', free', hinv'⟩, hkeep, 1, fun _ => rfl⟩, fun f hf => ?_⟩
    cases hf
    exact ⟨update_self .., hname g rfl⟩

end Steps

section Chains
variable {N B : Type} [DecidableEq N] [Zero B] {a b : Live (N × Nat) B} {name : N} {i : Nat} {chain chain' : List MdfdVec}
  {v : MdfdVec} {nofile : Int} {noName : N × Nat}

/-- The entries of a chain from segment `i` on have the files of their segments. -/
def Named (s : Session (N × Nat) B) (name : N) (i : Nat) (chain : List MdfdVec) : Prop :=
  ∀ (j : Nat) (v : MdfdVec), chain[j]? = some v → s.inUse v.vfd = true ∧ s.vfds.fileName v.vfd = (name, i + j)

/-- Entries are kept, with flags set or as they are. -/
def Grew (chain chain' : List MdfdVec) : Prop :=
  ∀ (j : Nat) (v : MdfdVec), chain[j]? = some v → ∃ w, chain'[j]? = some w ∧ w.vfd = v.vfd ∧ (v.dirty = true → w.dirty = true)

theorem Grew.refl (chain : List MdfdVec) : Grew chain chain := fun _ v hv => ⟨v, hv, rfl, id⟩

theorem grew_nil : Grew [] chain' := fun j v hv => by simp at hv

theorem Grew.trans {chain'' : List MdfdVec} (h : Grew chain chain') (h' : Grew chain' chain'') : Grew chain chain'' := by
  intro j v hv
  obtain ⟨w, hw, hvfd, hd⟩ := h j v hv
  obtain ⟨u, hu, hvfd', hd'⟩ := h' j w hw
  exact ⟨u, hu, hvfd'.trans hvfd, fun hv => hd' (hd hv)⟩

theorem Grew.cons {w : MdfdVec} (h : Grew chain chain') (hvfd : w.vfd = v.vfd) (hd : w.dirty = v.dirty) :
    Grew (v :: chain) (w :: chain') := by
  intro j u hu
  cases j with
  | zero =>
    cases hu
    exact ⟨w, rfl, hvfd, fun hv => hd.trans hv⟩
  | succ j => exact h j u hu

variable {s : Session (N × Nat) B}

omit [DecidableEq N] [Zero B] in
theorem Named.keeps {t : Session (N × Nat) B} (h : Named s name i chain) (hk : Keeps s t) : Named t name i chain := by
  intro j v hv
  obtain ⟨hu, hn⟩ := h j v hv
  exact ⟨hk.inUse _ hu, (hk.fileName _ hu).trans hn⟩

omit [DecidableEq N] [Zero B] in
theorem named_nil : Named s name i [] := fun j v hv => by simp at hv

omit [DecidableEq N] [Zero B] in
theorem named_cons : Named s name i (v :: chain) ↔
    (s.inUse v.vfd = true ∧ s.vfds.fileName v.vfd = (name, i)) ∧ Named s name (i + 1) chain := by
  constructor
  · intro h
    refine ⟨h 0 v rfl, fun j w hw => ?_⟩
    obtain ⟨hu, hn⟩ := h (j + 1) w hw
    exact ⟨hu, by rw [hn, Nat.add_assoc, Nat.add_comm 1 j]⟩
  · rintro ⟨hv, h⟩ j w hw
    cases j with
    | zero =>
      cases hw
      exact hv
    | succ j =>
      obtain ⟨hu, hn⟩ := h j w hw
      exact ⟨hu, by rw [hn, Nat.add_assoc, Nat.add_comm 1 j]⟩

theorem countSegment_steps (h : Good a.session) {f : Nat} {n : Int}
    (hs : countSegment (fdLayer nofile noName) a f = some (b, n)) : Steps a b := by
  obtain ⟨⟨t, r⟩, hc, he⟩ := map_eq_some_iff.mp hs
  obtain ⟨rfl, -⟩ := Prod.mk.inj he
  exact call_seek h hc

theorem openNext_steps (h : Good a.session) {create : Bool}
    (hs : openNext (fdLayer nofile noName) a name i create = some (b, v)) :
    Steps a b ∧ b.session.inUse v.vfd = true ∧ b.session.vfds.fileName v.vfd = (name, i) ∧ v.dirty = false := by
  obtain ⟨⟨c, w⟩, ho, hs⟩ := bind_eq_some_iff.mp hs
  cases w with
  | none => cases hs
  | some w =>
    cases hs
    obtain ⟨⟨d, r⟩, hopen, hcount⟩ := bind_eq_some_iff.mp ho
    obtain ⟨hsteps, hfile⟩ := open_steps h hopen
    cases r with
    | none => cases hcount
    | some f =>
      obtain ⟨⟨e, n⟩, hc, he⟩ := map_eq_some_iff.mp hcount
      cases he
      obtain ⟨hu, hn⟩ := hfile f rfl
      have hcount := countSegment_steps hsteps.good hc
      exact ⟨hsteps.trans hcount, hcount.keeps.inUse f hu, (hcount.keeps.fileName f hu).trans hn, rfl⟩

theorem mdfdGetseg_steps (h : Good a.session) (hn : Named a.session name i chain) {create : Bool} {k : Nat}
    (hs : mdfdGetseg (fdLayer nofile noName) name create k a (i + 1) chain = some (b, chain')) :
    Steps a b ∧ Named b.session name i chain' ∧ Grew chain chain' := by
  induction k generalizing a i chain chain' with
  | zero =>
    have hsame : mdfdGetseg (fdLayer nofile noName) name create 0 a (i + 1) chain = some (a, chain) := by
      cases chain with
      | nil => rfl
      | cons v chain => cases chain <;> rfl
    obtain ⟨rfl, rfl⟩ := Prod.mk.inj (some.inj (hsame.symm.trans hs))
    exact ⟨.refl h, hn, .refl _⟩
  | succ k ih =>
    cases chain with
    | nil =>
      cases hs
      exact ⟨.refl h, hn, .refl _⟩
    | cons v chain =>
      obtain ⟨hv, hrest⟩ := named_cons.mp hn
      cases chain with
      | cons w chain =>
        obtain ⟨⟨c, rest⟩, hc, he⟩ := map_eq_some_iff.mp hs
        cases he
        obtain ⟨hsteps, hn', hg⟩ := ih h hrest hc
        refine ⟨hsteps, named_cons.mpr ⟨?_, hn'⟩, hg.cons rfl rfl⟩
        exact ⟨hsteps.keeps.inUse _ hv.1, (hsteps.keeps.fileName _ hv.1).trans hv.2⟩
      | nil =>
        obtain ⟨⟨c, w⟩, ho, hs⟩ := bind_eq_some_iff.mp hs
        obtain ⟨⟨d, rest⟩, hc, he⟩ := map_eq_some_iff.mp hs
        cases he
        obtain ⟨hopen, hu, hname, -⟩ := openNext_steps h ho
        obtain ⟨hsteps, hn', hg⟩ := ih hopen.good (named_cons.mpr ⟨⟨hu, hname⟩, named_nil⟩) hc
        have hall := hopen.trans hsteps
        refine ⟨hall, named_cons.mpr ⟨?_, hn'⟩, grew_nil.cons rfl rfl⟩
        exact ⟨hall.keeps.inUse _ hv.1, (hall.keeps.fileName _ hv.1).trans hv.2⟩

theorem segmentFull_steps (h : Good a.session) {n : Option Int}
    (hs : segmentFull (fdLayer nofile noName) a v = some (b, n)) : Steps a b := by
  rw [segmentFull] at hs
  split_ifs at hs
  · cases hs
    exact .refl h
  · obtain ⟨⟨c, m⟩, hc, he⟩ := map_eq_some_iff.mp hs
    obtain ⟨rfl, -⟩ := Prod.mk.inj he
    exact countSegment_steps h hc

theorem countChain_steps (h : Good a.session) (hn : Named a.session name i chain) {fuel : Nat} {n : Int}
    (hs : countChain (fdLayer nofile noName) name fuel a i chain = some (b, chain', n)) :
    Steps a b ∧ Named b.session name i chain' ∧ Grew chain chain' := by
  induction fuel generalizing a i chain chain' with
  | zero => cases hs
  | succ fuel ih =>
    cases chain with
    | nil => cases hs
    | cons v chain =>
      obtain ⟨hv, hrest⟩ := named_cons.mp hn
      rw [countChain.eq_def] at hs
      obtain ⟨⟨c, full⟩, hfull, hs⟩ := bind_eq_some_iff.mp hs
      have hsteps := segmentFull_steps h hfull
      have hv' {d : Live (N × Nat) B} (hk : Keeps a.session d.session) :
          d.session.inUse v.vfd = true ∧ d.session.vfds.fileName v.vfd = (name, i) :=
        ⟨hk.inUse _ hv.1, (hk.fileName _ hv.1).trans hv.2⟩
      cases full with
      | some m =>
        cases hs
        exact ⟨hsteps, hn.keeps hsteps.keeps, .refl _⟩
      | none =>
        cases chain with
        | nil =>
          obtain ⟨⟨d, w⟩, ho, hs⟩ := bind_eq_some_iff.mp hs
          obtain ⟨⟨e, rest, m⟩, hc, he⟩ := map_eq_some_iff.mp hs
          cases he
          obtain ⟨hopen, hu, hname, -⟩ := openNext_steps hsteps.good ho
          obtain ⟨hcount, hn', -⟩ := ih hopen.good (named_cons.mpr ⟨⟨hu, hname⟩, named_nil⟩) hc
          have hall := (hsteps.trans hopen).trans hcount
          exact ⟨hall, named_cons.mpr ⟨hv' hall.keeps, hn'⟩, grew_nil.cons rfl rfl⟩
        | cons w chain =>
          obtain ⟨⟨e, rest, m⟩, hc, he⟩ := map_eq_some_iff.mp hs
          cases he
          obtain ⟨hcount, hn', hg⟩ := ih hsteps.good (hrest.keeps hsteps.keeps) hc
          have hall := hsteps.trans hcount
          exact ⟨hall, named_cons.mpr ⟨hv' hall.keeps, hn'⟩, hg.cons rfl rfl⟩

end Chains

/-- The virtual files, the open relations, and for each file the count of its writes at the last
one that was reported successful. -/
structure Committing (N B : Type) where
  session : Session (N × Nat) B
  fdvec : List (List MdfdVec)
  rdFd : N → Option Nat
  reported : N × Nat → Nat

inductive MdAct (N B : Type) where
  | «open» (name : N)
  | write (name : N) (b : Nat) (page : List B)
  | extend (name : N) (page : List B)
  | flush (name : N) (b : Nat) (page : List B)
  | commit

section Runs
variable {N B : Type}

def Committing.md (st : Committing N B) (envs : Nat → Env (N × Nat)) : MdState (Live (N × Nat) B) :=
  ⟨⟨st.session, envs⟩, st.fdvec⟩

/-- The state after a routine of `md.c`. -/
def Committing.took (st : Committing N B) (m : MdState (Live (N × Nat) B)) : Committing N B :=
  {st with session := m.files.session, fdvec := m.fdvec}

variable [DecidableEq N]

/-- The last write to a file has been reported successful. -/
def Committing.report (st : Committing N B) (p : N × Nat) : Committing N B :=
  {st with reported := Function.update st.reported p (st.session.vfds.written p)}

variable [Zero B] (nofile : Int) (noName : N × Nat)

/-- A call of `md.c`, with what the operating system does during it. -/
def commitStep (st : Committing N B) : (Nat → Env (N × Nat)) × MdAct N B → Option (Committing N B)
  | (envs, .open name) =>
    if st.rdFd name = none then
      (mdopen (fdLayer nofile noName) (st.md envs) name).map fun (m, fd) =>
        {st.took m with rdFd := Function.update st.rdFd name (some fd)}
    else none
  | (envs, .write name b page) =>
    if page.length = blcksz then
      (st.rdFd name).bind fun fd =>
        (mdwrite (fdLayer nofile noName) (st.md envs) name fd b page).map fun (m, ok) =>
          if ok = true then (st.took m).report (name, segnoOf b) else st.took m
    else none
  | (envs, .extend name page) =>
    if page.length = blcksz then
      (st.rdFd name).bind fun fd =>
        (mdnblocks (fdLayer nofile noName) (st.md envs) name fd).bind fun (_, nblocks) =>
          (mdextend (fdLayer nofile noName) (st.md envs) name fd page).map fun (m, ok) =>
            if ok = true then (st.took m).report (name, segnoOf nblocks) else st.took m
    else none
  | (envs, .flush name b page) =>
    if page.length = blcksz then
      (st.rdFd name).bind fun fd =>
        (mdflush (fdLayer nofile noName) (st.md envs) name fd b page).map fun (m, ok) =>
          if ok = true then (st.took m).report (name, segnoOf b) else st.took m
    else none
  | (envs, .commit) => (mdcommit (fdLayer nofile noName) (st.md envs)).map fun (m, _) => st.took m

def Committing.start (contents : N × Nat → List B) : Committing N B where
  session := .start noName contents
  fdvec := []
  rdFd _ := none
  reported _ := 0

/-- A flush of a segment whose file has writes that are not yet synced writes and syncs its page,
and so does a commit with such files. -/
def CommitOk (st : Committing N B) : (Nat → Env (N × Nat)) × MdAct N B → Prop
  | (envs, .flush name b _) => st.session.vfds.synced (name, segnoOf b) < st.reported (name, segnoOf b) →
      ∀ k, (∃ n, (envs k).writes = some n ∧ blcksz ≤ n) ∧ (envs k).syncs (name, segnoOf b) = true
  | (envs, .commit) => ∀ k p, st.session.vfds.synced p < st.reported p → (envs k).syncs p = true
  | _ => True

end Runs

/-! ### The invariant -/

section Invariant
variable {N B : Type} {s t : Session (N × Nat) B} {fdvec : List (List MdfdVec)} {p : N × Nat} {fd : Nat}
  {chain chain' : List MdfdVec} {name : N}

/-- A file has an entry with both flags set. -/
def Covered (s : Session (N × Nat) B) (fdvec : List (List MdfdVec)) (p : N × Nat) : Prop :=
  ∃ (fd : Nat) (chain : List MdfdVec) (j : Nat) (v : MdfdVec), fdvec[fd]? = some chain ∧ chain[j]? = some v ∧
    v.dirty = true ∧ s.inUse v.vfd = true ∧ s.vfds.fileName v.vfd = p ∧ Pending s.vfds v.vfd

structure CommitInv (st : Committing N B) : Prop where
  good : Good st.session
  named : ∀ name fd chain, st.rdFd name = some fd → st.fdvec[fd]? = some chain → Named st.session name 0 chain
  owned : ∀ fd, fd < st.fdvec.length → ∃ name, st.rdFd name = some fd
  valid : ∀ name fd, st.rdFd name = some fd → fd < st.fdvec.length
  slots : ∀ name other fd, st.rdFd name = some fd → st.rdFd other = some fd → name = other
  le : ∀ p, st.reported p ≤ st.session.vfds.written p
  cover : ∀ p, st.reported p ≤ st.session.vfds.synced p ∨ Covered st.session st.fdvec p

theorem Covered.keeps (h : Covered s fdvec p) (hk : Keeps s t) :
    Covered t fdvec p ∨ s.vfds.written p ≤ t.vfds.synced p := by
  obtain ⟨fd, chain, j, v, hfd, hv, hd, hu, hn, hp⟩ := h
  rcases hk.kept v.vfd hu hp with hp' | hle
  · exact .inl ⟨fd, chain, j, v, hfd, hv, hd, hk.inUse _ hu, (hk.fileName _ hu).trans hn, hp'⟩
  · rw [hn] at hle
    exact .inr hle

theorem Covered.grew (h : Covered s fdvec p) (hfd : fdvec[fd]? = some chain) (hg : Grew chain chain') :
    Covered s (fdvec.set fd chain') p := by
  obtain ⟨fd', c, j, v, hfd', hv, hd, hu, hn, hp⟩ := h
  have hlt : fd < fdvec.length := (List.getElem?_eq_some_iff.mp hfd).1
  by_cases he : fd = fd'
  · subst he
    obtain rfl : chain = c := some.inj (hfd.symm.trans hfd')
    obtain ⟨w, hw, hvfd, hdw⟩ := hg j v hv
    exact ⟨fd, chain', j, w, getElem?_set_self hlt, hw, hdw hd, by rw [hvfd]; exact hu, by rw [hvfd]; exact hn,
      by rw [hvfd]; exact hp⟩
  · exact ⟨fd', c, j, v, by rw [getElem?_set_ne he]; exact hfd', hv, hd, hu, hn, hp⟩

/-- A file that has been synced stays so, or is synced again. -/
theorem Keeps.synced_le (hk : Keeps s t) {n : Nat} (hn : n ≤ s.vfds.written p) (h : n ≤ s.vfds.synced p) :
    n ≤ t.vfds.synced p := by
  rcases hk.synced p with he | hle
  · rwa [he]
  · exact le_trans hn hle

variable {st : Committing N B}

/-- Files have been accessed and the chain of one relation has grown. -/
theorem CommitInv.stepped (h : CommitInv st) (hfd : st.rdFd name = some fd)
    (hslot : st.fdvec[fd]? = some chain) (hk : Keeps st.session t) (hgood : Good t) (hn : Named t name 0 chain')
    (hg : Grew chain chain') : CommitInv {st with session := t, fdvec := st.fdvec.set fd chain'} := by
  have hlt : fd < st.fdvec.length := (List.getElem?_eq_some_iff.mp hslot).1
  refine ⟨hgood, fun other fd' c hfd' hslot' => ?_, fun fd' hfd' => ?_, fun other fd' hfd' => ?_, h.slots, fun p => ?_,
    fun p => ?_⟩
  · by_cases he : fd = fd'
    · subst he
      dsimp only at hslot'
      rw [getElem?_set_self hlt] at hslot'
      cases hslot'
      obtain rfl := h.slots name other fd hfd hfd'
      exact hn
    · dsimp only at hslot'
      rw [getElem?_set_ne he] at hslot'
      exact (h.named other fd' c hfd' hslot').keeps hk
  · rw [length_set] at hfd'
    exact h.owned fd' hfd'
  · rw [length_set]
    exact h.valid other fd' hfd'
  · exact le_trans (h.le p) (hk.written p)
  · rcases h.cover p with hs | hc
    · exact .inl (hk.synced_le (h.le p) hs)
    · rcases hc.keeps hk with hc' | hle
      · exact .inr (hc'.grew hslot hg)
      · exact .inl (le_trans (h.le p) hle)

theorem CommitInv.report [DecidableEq N] (h : CommitInv st)
    (hp : st.session.vfds.written p ≤ st.session.vfds.synced p ∨ Covered st.session st.fdvec p) :
    CommitInv (st.report p) := by
  refine ⟨h.good, h.named, h.owned, h.valid, h.slots, fun q => ?_, fun q => ?_⟩
  · show update st.reported p _ q ≤ _
    by_cases hq : q = p
    · rw [hq, update_self]
      exact le_refl _
    · rw [update_of_ne hq]
      exact h.le q
  · show update st.reported p _ q ≤ _ ∨ _
    by_cases hq : q = p
    · rw [hq, update_self]
      exact hp
    · rw [update_of_ne hq]
      exact h.cover q

/-- The only entry of a file. -/
theorem CommitInv.entry_unique (h : CommitInv st) {j : Nat} {v : MdfdVec}
    (hfd : st.rdFd name = some fd) (hslot : st.fdvec[fd]? = some chain) (hv : chain[j]? = some v) {fd' j' : Nat}
    {l : List MdfdVec} {w : MdfdVec} (hslot' : st.fdvec[fd']? = some l) (hw : l[j']? = some w)
    (hp : st.session.vfds.fileName w.vfd = (name, j)) : fd' = fd ∧ j' = j ∧ w = v := by
  obtain ⟨other, ho⟩ := h.owned fd' (List.getElem?_eq_some_iff.mp hslot').1
  have hname := (h.named other fd' l ho hslot' j' w hw).2
  rw [Nat.zero_add] at hname
  obtain ⟨rfl, rfl⟩ := Prod.mk.inj (hname.symm.trans hp)
  obtain rfl : fd = fd' := some.inj (hfd.symm.trans ho)
  obtain rfl : chain = l := some.inj (hslot.symm.trans hslot')
  exact ⟨rfl, rfl, some.inj (hw.symm.trans hv)⟩

/-- The flag of an entry is cleared when the reported writes to its file are synced. -/
theorem CommitInv.cleared (h : CommitInv st) {j : Nat} {v : MdfdVec}
    (hfd : st.rdFd name = some fd) (hslot : st.fdvec[fd]? = some chain) (hv : chain[j]? = some v)
    (hs : st.reported (name, j) ≤ st.session.vfds.synced (name, j)) :
    CommitInv {st with fdvec := st.fdvec.set fd (chain.set j {v with dirty := false})} := by
  have hlt : fd < st.fdvec.length := (List.getElem?_eq_some_iff.mp hslot).1
  have hj : j < chain.length := (List.getElem?_eq_some_iff.mp hv).1
  refine ⟨h.good, fun other fd' c hfd' hslot' => ?_, fun fd' hfd' => ?_, fun other fd' hfd' => ?_, h.slots, h.le,
    fun p => ?_⟩
  · by_cases he : fd = fd'
    · subst he
      dsimp only at hslot'
      rw [getElem?_set_self hlt] at hslot'
      cases hslot'
      obtain rfl := h.slots name other fd hfd hfd'
      intro i w hw
      by_cases hi : j = i
      · subst hi
        rw [getElem?_set_self hj] at hw
        cases hw
        exact h.named name fd chain hfd hslot j v hv
      · rw [getElem?_set_ne hi] at hw
        exact h.named name fd chain hfd hslot i w hw
    · dsimp only at hslot'
      rw [getElem?_set_ne he] at hslot'
      exact h.named other fd' c hfd' hslot'
  · rw [length_set] at hfd'
    exact h.owned fd' hfd'
  · rw [length_set]
    exact h.valid other fd' hfd'
  · by_cases hp : p = (name, j)
    · rw [hp]
      exact .inl hs
    rcases h.cover p with hs | ⟨fd', c, i, w, hslot', hw, hd, hu, hn, hpend⟩
    · exact .inl hs
    refine .inr ?_
    by_cases he : fd = fd'
    · subst he
      obtain rfl : chain = c := some.inj (hslot.symm.trans hslot')
      have hi : j ≠ i := by
        rintro rfl
        have hname := (h.named name fd chain hfd hslot j w hw).2
        rw [Nat.zero_add, hn] at hname
        exact hp hname
      exact ⟨fd, _, i, w, getElem?_set_self hlt, by rw [getElem?_set_ne hi]; exact hw, hd, hu, hn, hpend⟩
    · exact ⟨fd', c, i, w, by rw [getElem?_set_ne he]; exact hslot', hw, hd, hu, hn, hpend⟩

/-- A sync that failed clears the flag of the descriptor. -/
theorem CommitInv.undirtied (h : CommitInv st) {f : Nat}
    (hs : st.reported (st.session.vfds.fileName f) ≤ st.session.vfds.synced (st.session.vfds.fileName f))
    (hgood : Good (⟨{st.session.vfds with dirty := update st.session.vfds.dirty f false}, st.session.inUse⟩ :
      Session (N × Nat) B)) :
    CommitInv {st with
      session := ⟨{st.session.vfds with dirty := update st.session.vfds.dirty f false}, st.session.inUse⟩} := by
  refine ⟨hgood, h.named, h.owned, h.valid, h.slots, h.le, fun p => ?_⟩
  by_cases hp : p = st.session.vfds.fileName f
  · rw [hp]
    exact .inl hs
  rcases h.cover p with hs | ⟨fd', c, i, w, hslot', hw, hd, hu, hn, hpend⟩
  · exact .inl hs
  · refine .inr ⟨fd', c, i, w, hslot', hw, hd, hu, hn, hpend.1, ?_⟩
    have hne : w.vfd ≠ f := by
      rintro rfl
      exact hp hn.symm
    show update st.session.vfds.dirty f false w.vfd = true
    rw [update_of_ne hne]
    exact hpend.2

end Invariant

/-! ### The routines -/

section Routines
variable {N B : Type} [DecidableEq N] [Zero B] {nofile : Int} {noName : N × Nat} {st : Committing N B} {name : N}
  {fd : Nat} {envs : Nat → Env (N × Nat)} {m : MdState (Live (N × Nat) B)} {ok : Bool} {page : List B} {b : Nat}

/-- A segment is found: its chain has grown. -/
theorem mdseek_steps (h : CommitInv st) (hfd : st.rdFd name = some fd) {a : Live (N × Nat) B} {chain' : List MdfdVec}
    {v : MdfdVec} {found : Bool}
    (hs : mdseek (fdLayer nofile noName) (st.md envs) name fd b = some (a, chain', v, found)) :
    ∃ chain, st.fdvec[fd]? = some chain ∧ Steps ⟨st.session, envs⟩ a ∧ Named a.session name 0 chain' ∧
      Grew chain chain' ∧ chain'[segnoOf b]? = some v := by
  obtain ⟨chain, hslot, hs⟩ := bind_eq_some_iff.mp hs
  obtain ⟨⟨a1, chain1⟩, hget, hs⟩ := bind_eq_some_iff.mp hs
  obtain ⟨w, hw, hs⟩ := bind_eq_some_iff.mp hs
  obtain ⟨⟨a2, r⟩, hseek, he⟩ := map_eq_some_iff.mp hs
  cases he
  obtain ⟨hsteps, hn, hg⟩ := mdfdGetseg_steps h.good (h.named name fd chain hfd hslot) hget
  have hseek := call_seek hsteps.good hseek
  exact ⟨chain, hslot, hsteps.trans hseek, hn.keeps hseek.keeps, hg, hw⟩

omit [DecidableEq N] [Zero B] in
theorem named_set {s : Session (N × Nat) B} {i k : Nat} {chain : List MdfdVec} {v w : MdfdVec}
    (h : Named s name i chain) (hv : chain[k]? = some v) (hvfd : w.vfd = v.vfd) : Named s name i (chain.set k w) := by
  have hk : k < chain.length := (List.getElem?_eq_some_iff.mp hv).1
  intro j u hu
  by_cases hj : k = j
  · subst hj
    rw [getElem?_set_self hk] at hu
    cases hu
    rw [hvfd]
    exact h k v hv
  · rw [getElem?_set_ne hj] at hu
    exact h j u hu

theorem grew_set {k : Nat} {chain : List MdfdVec} {v w : MdfdVec} (hv : chain[k]? = some v) (hvfd : w.vfd = v.vfd)
    (hd : w.dirty = true) : Grew chain (chain.set k w) := by
  have hk : k < chain.length := (List.getElem?_eq_some_iff.mp hv).1
  intro j u hu
  by_cases hj : k = j
  · subst hj
    obtain rfl : v = u := some.inj (hv.symm.trans hu)
    exact ⟨w, getElem?_set_self hk, hvfd, fun _ => hd⟩
  · exact ⟨u, by rw [getElem?_set_ne hj]; exact hu, rfl, id⟩

section
variable (h : CommitInv st) (hfd : st.rdFd name = some fd)
include h hfd

/-- A segment has been written and its flag set; the write is reported if it wrote the page. -/
theorem CommitInv.wrote {chain chain' : List MdfdVec} {k : Nat}
    {v w : MdfdVec} {a c : Live (N × Nat) B} {r : Int × List B} (hslot : st.fdvec[fd]? = some chain)
    (hsteps : Steps ⟨st.session, envs⟩ a) (hn : Named a.session name 0 chain') (hg : Grew chain chain')
    (hv : chain'[k]? = some v) (hvfd : w.vfd = v.vfd) (hd : w.dirty = true)
    (hw : (fdLayer nofile noName).call a v.vfd (.write page) = some (c, r)) (hr : 0 ≤ r.1) :
    CommitInv (({st with session := c.session, fdvec := st.fdvec.set fd (chain'.set k w)} : Committing N B).report
      (name, k)) := by
  obtain ⟨hwrite, hpend, -⟩ := call_write hsteps.good hw
  have hall := hsteps.trans hwrite
  have hn' := hn.keeps hwrite.keeps
  have hlt : fd < st.fdvec.length := (List.getElem?_eq_some_iff.mp hslot).1
  have hk : k < chain'.length := (List.getElem?_eq_some_iff.mp hv).1
  have hinv := h.stepped hfd hslot hall.keeps hall.good (named_set hn' hv hvfd) (hg.trans (grew_set hv hvfd hd))
  refine hinv.report (.inr ⟨fd, _, k, w, getElem?_set_self hlt, getElem?_set_self hk, hd, ?_, ?_, ?_⟩)
  · rw [hvfd]
    exact (hn' k v hv).1
  · rw [hvfd, (hn' k v hv).2, Nat.zero_add]
  · rw [hvfd]
    exact hpend hr

theorem commitInv_write
    (hs : mdwrite (fdLayer nofile noName) (st.md envs) name fd b page = some (m, ok)) :
    CommitInv (if ok = true then (st.took m).report (name, segnoOf b) else st.took m) := by
  obtain ⟨⟨a, chain', v, found⟩, hseek, hs⟩ := bind_eq_some_iff.mp hs
  obtain ⟨chain, hslot, hsteps, hn, hg, hv⟩ := mdseek_steps h hfd hseek
  dsimp only at hs
  split_ifs at hs with hfound
  · cases hs
    exact h.stepped hfd hslot hsteps.keeps hsteps.good hn hg
  · obtain ⟨⟨c, r⟩, hw, he⟩ := map_eq_some_iff.mp hs
    cases he
    split_ifs with hok
    · refine h.wrote hfd hslot hsteps hn hg hv rfl rfl hw ?_
      rw [of_decide_eq_true hok]
      exact Int.natCast_nonneg _
    · obtain ⟨hwrite, -⟩ := call_write hsteps.good hw
      have hall := hsteps.trans hwrite
      exact h.stepped hfd hslot hall.keeps hall.good (named_set (hn.keeps hwrite.keeps) hv rfl)
        (hg.trans (grew_set hv rfl rfl))

/-- The blocks are counted: the chain has grown. -/
theorem mdnblocks_steps {n : Int}
    (hs : mdnblocks (fdLayer nofile noName) (st.md envs) name fd = some (m, n)) : ∃ chain chain',
    st.fdvec[fd]? = some chain ∧ Steps ⟨st.session, envs⟩ m.files ∧ Named m.files.session name 0 chain' ∧
      Grew chain chain' ∧ m.fdvec = st.fdvec.set fd chain' := by
  obtain ⟨chain, hslot, hs⟩ := bind_eq_some_iff.mp hs
  obtain ⟨⟨a, chain', n'⟩, hcount, he⟩ := map_eq_some_iff.mp hs
  cases he
  obtain ⟨hsteps, hn, hg⟩ := countChain_steps h.good (h.named name fd chain hfd hslot) hcount
  exact ⟨chain, chain', hslot, hsteps, hn, hg, rfl⟩

theorem commitInv_extend {m' : MdState (Live (N × Nat) B)}
    {nblocks : Int} (hcount : mdnblocks (fdLayer nofile noName) (st.md envs) name fd = some (m', nblocks))
    (hs : mdextend (fdLayer nofile noName) (st.md envs) name fd page = some (m, ok)) :
    CommitInv (if ok = true then (st.took m).report (name, segnoOf nblocks) else st.took m) := by
  rw [mdextend, hcount, bind_some] at hs
  dsimp only at hs
  obtain ⟨chain, chain1, hslot, hsteps, hn, hg, hfdvec⟩ := mdnblocks_steps h hfd hcount
  have hlt : fd < st.fdvec.length := (List.getElem?_eq_some_iff.mp hslot).1
  rw [hfdvec, List.getElem?_set_self hlt, bind_some] at hs
  obtain ⟨⟨a, chain2⟩, hget, hs⟩ := bind_eq_some_iff.mp hs
  obtain ⟨v, hv, hs⟩ := bind_eq_some_iff.mp hs
  obtain ⟨⟨c, pos, bytes⟩, hseek, hs⟩ := bind_eq_some_iff.mp hs
  obtain ⟨hsteps2, hn2, hg2⟩ := mdfdGetseg_steps hsteps.good hn hget
  have hseek := call_seek hsteps2.good hseek
  have hfound := (hsteps.trans hsteps2).trans hseek
  have hn3 := hn2.keeps hseek.keeps
  have hg3 := hg.trans hg2
  simp only [set_set] at hs
  by_cases hpos : pos < 0
  · rw [if_pos hpos] at hs
    cases hs
    exact h.stepped hfd hslot hfound.keeps hfound.good hn3 hg3
  · rw [if_neg hpos] at hs
    obtain ⟨⟨e, nbytes, bytes'⟩, hw, he⟩ := map_eq_some_iff.mp hs
    dsimp only at he
    by_cases hbytes : nbytes ≠ blcksz
    · rw [if_pos hbytes] at he
      cases he
      obtain ⟨hwrite, -⟩ := call_write hfound.good hw
      have hall := hfound.trans hwrite
      exact h.stepped hfd hslot hall.keeps hall.good (hn3.keeps hwrite.keeps) hg3
    · rw [if_neg hbytes] at he
      cases he
      refine h.wrote hfd hslot hfound hn3 hg3 hv rfl rfl hw ?_
      rw [not_not.mp hbytes]
      exact Int.natCast_nonneg _

/-- A flush writes and syncs its page, or its file is synced already. -/
theorem commitInv_flush (hp : page.length = blcksz)
    (hok : st.session.vfds.synced (name, segnoOf b) < st.reported (name, segnoOf b) →
      ∀ k, (∃ n, (envs k).writes = some n ∧ blcksz ≤ n) ∧ (envs k).syncs (name, segnoOf b) = true)
    (hs : mdflush (fdLayer nofile noName) (st.md envs) name fd b page = some (m, ok)) :
    CommitInv (if ok = true then (st.took m).report (name, segnoOf b) else st.took m) := by
  obtain ⟨⟨a, chain1, v, found⟩, hseek, hs⟩ := bind_eq_some_iff.mp hs
  obtain ⟨chain, hslot, hsteps, hn, hg, hv⟩ := mdseek_steps h hfd hseek
  have hlt : fd < st.fdvec.length := (List.getElem?_eq_some_iff.mp hslot).1
  have hinv1 := h.stepped hfd hslot hsteps.keeps hsteps.good hn hg
  dsimp only at hs
  split_ifs at hs with hfound
  · cases hs
    exact hinv1
  obtain ⟨⟨c, nbytes, bytes⟩, hw, hs⟩ := bind_eq_some_iff.mp hs
  obtain ⟨hwrite, hpend, hfull⟩ := call_write hsteps.good hw
  have hall := hsteps.trans hwrite
  have hn2 := hn.keeps hwrite.keeps
  have hinv2 := h.stepped hfd hslot hall.keeps hall.good hn2 hg
  have hslot1 : (st.fdvec.set fd chain1)[fd]? = some chain1 := getElem?_set_self hlt
  have hname : c.session.vfds.fileName v.vfd = (name, segnoOf b) := by
    have := (hn2 _ v hv).2
    rwa [Nat.zero_add] at this
  obtain ⟨j1, hj1⟩ := hsteps.envs
  obtain ⟨j2, hj2⟩ := hall.envs
  dsimp only at hs hpend hfull hj1 hj2
  have hcase : st.reported (name, segnoOf b) ≤ a.session.vfds.synced (name, segnoOf b) ∨
      (nbytes = blcksz ∧ ∀ k, (c.envs k).syncs (name, segnoOf b) = true) := by
    rcases hinv1.cover (name, segnoOf b) with hs1 | ⟨fd', e, j, w, hslot', hw', hd, hu, hn', hpending⟩
    · exact .inl hs1
    obtain ⟨rfl, rfl, rfl⟩ := hinv1.entry_unique hfd hslot1 hv hslot' hw' hn'
    by_cases hle : st.reported (name, segnoOf b) ≤ st.session.vfds.synced (name, segnoOf b)
    · exact .inl (hsteps.keeps.synced_le (h.le _) hle)
    · have henv := hok (by omega)
      obtain ⟨⟨n, hwrites, hn⟩, -⟩ := henv (0 + j1)
      refine .inr ⟨?_, fun k => by rw [hj2]; exact (henv _).2⟩
      rw [hfull n hpending.1 (by rw [hj1]; exact hwrites) (by omega), hp]
  have hsynced2 (hs1 : st.reported (name, segnoOf b) ≤ a.session.vfds.synced (name, segnoOf b)) :
      st.reported (name, segnoOf b) ≤ c.session.vfds.synced (name, segnoOf b) :=
    hwrite.keeps.synced_le (hinv1.le _) hs1
  split_ifs at hs with hbytes
  · cases hs
    have hs1 := hcase.resolve_right fun hr => hbytes hr.1
    have hcleared := hinv2.cleared hfd hslot1 hv (hsynced2 hs1)
    rwa [set_set] at hcleared
  obtain ⟨⟨e, r, bytes'⟩, hsync, he⟩ := map_eq_some_iff.mp hs
  cases he
  obtain ⟨hgood, hbad⟩ := call_sync hall.good hsync
  dsimp only at hgood hbad
  split_ifs with hr
  · obtain ⟨hsteps3, hsynced⟩ := hgood (of_decide_eq_true hr)
    have hpend' := hpend (by rw [not_not.mp hbytes]; exact Int.natCast_nonneg _)
    have hle := hsynced hpend'
    rw [hname] at hle
    have hall3 := hall.trans hsteps3
    have hinv3 := h.stepped hfd hslot hall3.keeps hall3.good (hn2.keeps hsteps3.keeps) hg
    have hcleared := hinv3.cleared hfd hslot1 hv (le_trans (hinv3.le _) hle)
    rw [set_set] at hcleared
    exact hcleared.report (.inl hle)
  · obtain ⟨hnosync, hgood3, heq⟩ := hbad (by simpa using hr)
    have hs1 := hcase.resolve_right fun hr => by
      have := hr.2 0
      rw [hname] at hnosync
      rw [hnosync] at this
      cases this
    have hle := hsynced2 hs1
    rw [heq] at hgood3
    have hinv3 := hinv2.undirtied (by rw [hname]; exact hle) hgood3
    have hcleared := hinv3.cleared hfd hslot1 hv hle
    rw [set_set, ← heq] at hcleared
    exact hcleared

end

end Routines

section Commit
variable {N B : Type} {R : N × Nat → Nat} {s t u : Session (N × Nat) B} {a b : Live (N × Nat) B}
  {chain chain' : List MdfdVec} {ok : Bool}

/-- What is kept for the writes that have been reported. -/
structure KeepsReported (R : N × Nat → Nat) (s t : Session (N × Nat) B) : Prop where
  inUse : ∀ g, s.inUse g = true → t.inUse g = true
  fileName : ∀ g, s.inUse g = true → t.vfds.fileName g = s.vfds.fileName g
  written : ∀ p, s.vfds.written p ≤ t.vfds.written p
  synced : ∀ p, R p ≤ s.vfds.synced p → R p ≤ t.vfds.synced p
  kept : ∀ g, s.inUse g = true → Pending s.vfds g →
    Pending t.vfds g ∨ R (s.vfds.fileName g) ≤ t.vfds.synced (s.vfds.fileName g)

theorem KeepsReported.refl (R : N × Nat → Nat) (s : Session (N × Nat) B) : KeepsReported R s s :=
  ⟨fun _ => id, fun _ _ => rfl, fun _ => le_refl _, fun _ => id, fun _ _ => .inl⟩

theorem Keeps.reported (h : Keeps s t) (hR : ∀ p, R p ≤ s.vfds.written p) : KeepsReported R s t :=
  ⟨h.inUse, h.fileName, h.written, fun p hp => h.synced_le (hR p) hp, fun g hg hp =>
    (h.kept g hg hp).imp_right (le_trans (hR _))⟩

theorem KeepsReported.trans (h : KeepsReported R s t) (h' : KeepsReported R t u) : KeepsReported R s u := by
  refine ⟨fun g hg => h'.inUse g (h.inUse g hg), fun g hg => (h'.fileName g (h.inUse g hg)).trans (h.fileName g hg),
    fun p => le_trans (h.written p) (h'.written p), fun p hp => h'.synced p (h.synced p hp), fun g hg hp => ?_⟩
  rcases h.kept g hg hp with hp' | hle
  · have := h'.kept g (h.inUse g hg) hp'
    rwa [h.fileName g hg] at this
  · exact .inr (h'.synced _ hle)

/-- A commit under way. -/
structure Commits (R : N × Nat → Nat) (a : Live (N × Nat) B) : Prop where
  good : Good a.session
  le : ∀ p, R p ≤ a.session.vfds.written p

/-- Files with reported writes that are not synced can be synced. -/
def CanSync (R : N × Nat → Nat) (a : Live (N × Nat) B) : Prop :=
  ∀ k p, a.session.vfds.synced p < R p → (a.envs k).syncs p = true

theorem Commits.steps (h : Commits R a) (hs : Steps a b) : Commits R b :=
  ⟨hs.good, fun p => le_trans (h.le p) (hs.keeps.written p)⟩

theorem CanSync.kept (h : CanSync R a) (hk : KeepsReported R a.session b.session)
    (henvs : ∃ j, ∀ k, b.envs k = a.envs (k + j)) : CanSync R b := by
  obtain ⟨j, hj⟩ := henvs
  intro k p hp
  rw [hj]
  refine h _ p ?_
  by_contra hle
  have := hk.synced p (Nat.le_of_not_lt hle)
  omega

variable [DecidableEq N] [Zero B] {nofile : Int} {noName : N × Nat}

/-- The loop along a chain syncs the files of its dirty entries, up to a failure. -/
theorem commitChain_spec (h : Commits R a) (hcan : ok = false → CanSync R a)
    (hu : ∀ v ∈ chain, a.session.inUse v.vfd = true)
    (hs : commitChain (fdLayer nofile noName) a chain = some (b, chain', ok)) :
    Commits R b ∧ KeepsReported R a.session b.session ∧ (∃ j, ∀ k, b.envs k = a.envs (k + j)) ∧
      chain'.map MdfdVec.vfd = chain.map MdfdVec.vfd ∧
      ∀ (j : Nat) (v : MdfdVec), chain[j]? = some v → v.dirty = true → Pending a.session.vfds v.vfd →
        R (a.session.vfds.fileName v.vfd) ≤ b.session.vfds.synced (a.session.vfds.fileName v.vfd) ∨
          ok = false ∧ Pending b.session.vfds v.vfd ∧ ∃ w, chain'[j]? = some w ∧ w.dirty = true := by
  induction chain generalizing a chain' with
  | nil =>
    cases hs
    exact ⟨h, .refl _ _, ⟨0, fun _ => rfl⟩, rfl, fun j v hv => by simp at hv⟩
  | cons v chain ih =>
    have huv := hu v mem_cons_self
    have hrest : ∀ w ∈ chain, a.session.inUse w.vfd = true := fun w hw => hu w (mem_cons_of_mem v hw)
    rw [commitChain] at hs
    by_cases hdirty : v.dirty = true
    · rw [if_pos hdirty] at hs
      obtain ⟨⟨c, r, bytes⟩, hsync, hs⟩ := bind_eq_some_iff.mp hs
      obtain ⟨hgood, hbad⟩ := call_sync h.good hsync
      dsimp only at hs hgood hbad
      by_cases hr : r < 0
      · -- the file has no reported writes that are not synced
        rw [if_pos hr] at hs
        cases hs
        obtain ⟨hnosync, hgoodb, heq⟩ := hbad hr
        have hle : R (a.session.vfds.fileName v.vfd) ≤ a.session.vfds.synced (a.session.vfds.fileName v.vfd) := by
          by_contra hlt
          have := hcan rfl 0 _ (Nat.lt_of_not_le hlt)
          rw [hnosync] at this
          cases this
        have hkeep : KeepsReported R a.session b.session := by
          rw [heq]
          refine ⟨fun _ => id, fun _ _ => rfl, fun _ => le_refl _, fun _ => id, fun g _ hp => ?_⟩
          by_cases hg : g = v.vfd
          · rw [hg]
            exact .inr hle
          · refine .inl ⟨hp.1, ?_⟩
            show update a.session.vfds.dirty v.vfd false g = true
            rw [update_of_ne hg]
            exact hp.2
        refine ⟨⟨hgoodb, fun p => le_trans (h.le p) (hkeep.written p)⟩, hkeep, (call_eq hsync).2.elim fun _ hc =>
          ⟨1, fun k => by rw [hc.2]; rfl⟩, rfl, fun j w hw hd hp => ?_⟩
        exact (hkeep.kept w.vfd (hu w (mem_of_getElem? hw)) hp).symm.imp_right fun hp' => ⟨rfl, hp', w, hw, hd⟩
      · rw [if_neg hr] at hs
        obtain ⟨⟨d, rest, ok'⟩, hc, he⟩ := map_eq_some_iff.mp hs
        cases he
        obtain ⟨hsteps, hsynced⟩ := hgood (Int.not_lt.mp hr)
        have hcommits := h.steps hsteps
        have hkeep := hsteps.keeps.reported h.le
        obtain ⟨hgoodb, hkeepb, henvsb, hmap, hall⟩ := ih hcommits (fun hf => (hcan hf).kept hkeep hsteps.envs)
          (fun w hw => hsteps.keeps.inUse _ (hrest w hw)) hc
        refine ⟨hgoodb, hkeep.trans hkeepb, envs_trans hsteps.envs henvsb, by rw [map_cons, map_cons, hmap], fun j w hw hd hp => ?_⟩
        cases j with
        | zero =>
          cases hw
          exact .inl (hkeepb.synced _ (le_trans (hcommits.le _) (hsynced hp)))
        | succ j =>
          have hwm := hrest w (mem_of_getElem? hw)
          rcases hkeep.kept w.vfd hwm hp with hp' | hle
          · have := hall j w hw hd hp'
            rwa [hkeep.fileName w.vfd hwm] at this
          · exact .inl (hkeepb.synced _ hle)
    · rw [if_neg hdirty] at hs
      obtain ⟨⟨d, rest, ok'⟩, hc, he⟩ := map_eq_some_iff.mp hs
      cases he
      obtain ⟨hgoodb, hkeepb, henvsb, hmap, hall⟩ := ih h hcan hrest hc
      refine ⟨hgoodb, hkeepb, henvsb, by rw [map_cons, map_cons, hmap], fun j w hw hd hp => ?_⟩
      cases j with
      | zero =>
        cases hw
        exact absurd hd hdirty
      | succ j => exact hall j w hw hd hp

theorem commitSlots_spec {slots slots' : List (List MdfdVec)} (h : Commits R a) (hcan : ok = false → CanSync R a)
    (hu : ∀ chain ∈ slots, ∀ v ∈ chain, a.session.inUse v.vfd = true)
    (hs : commitSlots (fdLayer nofile noName) a slots = some (b, slots', ok)) :
    Commits R b ∧ KeepsReported R a.session b.session ∧
      slots'.map (map MdfdVec.vfd) = slots.map (map MdfdVec.vfd) ∧
      ∀ (i j : Nat) (chain : List MdfdVec) (v : MdfdVec), slots[i]? = some chain → chain[j]? = some v →
        v.dirty = true → Pending a.session.vfds v.vfd →
          R (a.session.vfds.fileName v.vfd) ≤ b.session.vfds.synced (a.session.vfds.fileName v.vfd) ∨
            ok = false ∧ Pending b.session.vfds v.vfd ∧
              ∃ chain' w, slots'[i]? = some chain' ∧ chain'[j]? = some w ∧ w.dirty = true := by
  induction slots generalizing a slots' with
  | nil =>
    cases hs
    exact ⟨h, .refl _ _, rfl, fun i j chain v hc => by simp at hc⟩
  | cons chain slots ih =>
    have huc := hu chain mem_cons_self
    have hrest : ∀ e ∈ slots, ∀ v ∈ e, a.session.inUse v.vfd = true := fun e he => hu e (mem_cons_of_mem chain he)
    obtain ⟨⟨c, chain', ok'⟩, hchain, hs⟩ := bind_eq_some_iff.mp hs
    dsimp only at hs
    by_cases hok : ok' = false
    · rw [if_pos hok] at hs
      cases hs
      obtain ⟨hgoodc, hkeepc, -, hmapc, hallc⟩ := commitChain_spec h (fun _ => hcan rfl) huc hchain
      refine ⟨hgoodc, hkeepc, by rw [map_cons, map_cons, hmapc], fun i j e v he hv hd hp => ?_⟩
      cases i with
      | zero =>
        cases he
        refine (hallc j v hv hd hp).imp_right ?_
        rintro ⟨-, hp', w, hw, hdw⟩
        exact ⟨rfl, hp', chain', w, rfl, hw, hdw⟩
      | succ i =>
        have hvm := hrest e (mem_of_getElem? he) v (mem_of_getElem? hv)
        exact (hkeepc.kept v.vfd hvm hp).symm.imp_right fun hp' => ⟨rfl, hp', e, v, he, hv, hd⟩
    · rw [if_neg hok] at hs
      obtain ⟨⟨d, rest, ok''⟩, hc, he⟩ := map_eq_some_iff.mp hs
      cases he
      obtain ⟨hgoodc, hkeepc, henvsc, hmapc, hallc⟩ := commitChain_spec h (fun hf => absurd hf hok) huc hchain
      obtain ⟨hgoodb, hkeepb, hmap, hall⟩ := ih hgoodc (fun hf => (hcan hf).kept hkeepc henvsc)
        (fun e he v hv => hkeepc.inUse _ (hrest e he v hv)) hc
      refine ⟨hgoodb, hkeepc.trans hkeepb, by rw [map_cons, map_cons, hmapc, hmap],
        fun i j e v he hv hd hp => ?_⟩
      cases i with
      | zero =>
        cases he
        rcases hallc j v hv hd hp with hle | ⟨hfalse, -⟩
        · exact .inl (hkeepb.synced _ hle)
        · exact absurd hfalse hok
      | succ i =>
        have hvm := hrest e (mem_of_getElem? he) v (mem_of_getElem? hv)
        rcases hkeepc.kept v.vfd hvm hp with hp' | hle
        · have := hall i j e v he hv hd hp'
          rwa [hkeepc.fileName v.vfd hvm] at this
        · exact .inl (hkeepb.synced _ hle)

variable {st : Committing N B} {envs : Nat → Env (N × Nat)} {m : MdState (Live (N × Nat) B)}

omit [DecidableEq N] [Zero B] in
/-- An entry has the file of the entry that it comes from. -/
theorem entry_of_map {slots slots' : List (List MdfdVec)} {fd j : Nat} {w : MdfdVec}
    (hmap : slots'.map (map MdfdVec.vfd) = slots.map (map MdfdVec.vfd)) (hslot : slots'[fd]? = some chain')
    (hw : chain'[j]? = some w) : ∃ chain v, slots[fd]? = some chain ∧ chain[j]? = some v ∧ w.vfd = v.vfd := by
  have h1 := congrArg (fun l => l[fd]?) hmap
  simp only [getElem?_map, hslot] at h1
  obtain ⟨chain, hchain, he⟩ := map_eq_some_iff.mp h1.symm
  have h2 := congrArg (fun l => l[j]?) he
  simp only [getElem?_map, hw] at h2
  obtain ⟨v, hv, hvfd⟩ := map_eq_some_iff.mp h2
  exact ⟨chain, v, hchain, hv, hvfd.symm⟩

omit [DecidableEq N] [Zero B] in
theorem CommitInv.commits (h : CommitInv st) : Commits st.reported (⟨st.session, envs⟩ : Live (N × Nat) B) :=
  ⟨h.good, h.le⟩

omit [DecidableEq N] [Zero B] in
theorem CommitInv.entries_used (h : CommitInv st) : ∀ chain ∈ st.fdvec, ∀ v ∈ chain, st.session.inUse v.vfd = true := by
  intro chain hchain v hv
  obtain ⟨fd, hfd⟩ := List.getElem?_of_mem hchain
  obtain ⟨j, hj⟩ := List.getElem?_of_mem hv
  obtain ⟨name, hname⟩ := h.owned fd (List.getElem?_eq_some_iff.mp hfd).1
  exact (h.named name fd chain hname hfd j v hj).1

/-- A commit keeps the invariant, also one that fails. -/
theorem commitInv_commit (h : CommitInv st)
    (hok : ∀ k p, st.session.vfds.synced p < st.reported p → (envs k).syncs p = true)
    (hs : mdcommit (fdLayer nofile noName) (st.md envs) = some (m, ok)) : CommitInv (st.took m) := by
  obtain ⟨⟨b, slots', ok'⟩, hc, he⟩ := map_eq_some_iff.mp hs
  cases he
  obtain ⟨hgood, hkeep, hmap, hall⟩ := commitSlots_spec h.commits (fun _ => hok) h.entries_used hc
  have hlen : slots'.length = st.fdvec.length := by
    have := congrArg length hmap
    simpa using this
  refine ⟨hgood.good, fun name fd chain' hfd hslot' j w hw => ?_, fun fd hfd => h.owned fd (by rw [← hlen]; exact hfd),
    fun name fd hfd => lt_of_lt_of_eq (h.valid name fd hfd) hlen.symm, h.slots, fun p => le_trans (h.le p) (hkeep.written p), fun p => ?_⟩
  · -- an entry of the chain before has the same file
    obtain ⟨chain, v, hslot, hv, hvfd⟩ := entry_of_map hmap hslot' hw
    obtain ⟨hu, hn⟩ := h.named name fd chain hfd hslot j v hv
    rw [hvfd]
    exact ⟨hkeep.inUse _ hu, (hkeep.fileName _ hu).trans hn⟩
  · rcases h.cover p with hs | ⟨fd, chain, j, v, hslot, hv, hd, hu, hn, hp⟩
    · exact .inl (hkeep.synced p hs)
    rcases hall fd j chain v hslot hv hd hp with hle | ⟨-, hp', chain', w, hslot', hw, hdw⟩
    · rw [← hn]
      exact .inl hle
    · obtain ⟨chain2, v2, hslot2, hv2, hvfd⟩ := entry_of_map hmap hslot' hw
      obtain rfl : chain = chain2 := some.inj (hslot.symm.trans hslot2)
      obtain rfl : v = v2 := some.inj (hv.symm.trans hv2)
      refine .inr ⟨fd, chain', j, w, hslot', hw, hdw, ?_, ?_, ?_⟩
      · rw [hvfd]
        exact hkeep.inUse _ hu
      · rw [hvfd]
        exact (hkeep.fileName _ hu).trans hn
      · rw [hvfd]
        exact hp'

/-- A commit that succeeds leaves every reported write synced. -/
theorem CommitInv.committed (h : CommitInv st)
    (hs : mdcommit (fdLayer nofile noName) (st.md envs) = some (m, true)) (p : N × Nat) :
    st.reported p ≤ m.files.session.vfds.synced p := by
  obtain ⟨⟨b, slots', ok'⟩, hc, he⟩ := map_eq_some_iff.mp hs
  cases he
  obtain ⟨-, hkeep, -, hall⟩ := commitSlots_spec h.commits (fun hf => by cases hf) h.entries_used hc
  rcases h.cover p with hs | ⟨fd, chain, j, v, hslot, hv, hd, hu, hn, hp⟩
  · exact hkeep.synced p hs
  · rcases hall fd j chain v hslot hv hd hp with hle | ⟨hfalse, -⟩
    · rw [← hn]
      exact hle
    · cases hfalse

/-- A relation is opened in a new slot. -/
theorem commitInv_open (h : CommitInv st) {name : N} {fd : Nat} (hnone : st.rdFd name = none)
    (hs : mdopen (fdLayer nofile noName) (st.md envs) name = some (m, fd)) :
    CommitInv {st.took m with rdFd := update st.rdFd name (some fd)} := by
  obtain ⟨⟨a, v⟩, ho, he⟩ := map_eq_some_iff.mp hs
  cases he
  obtain ⟨hsteps, hu, hn, -⟩ := openNext_steps h.good ho
  have hlen : (st.fdvec ++ [[v]]).length = st.fdvec.length + 1 := length_append
  have hcases {other : N} {fd' : Nat} (hfd : update st.rdFd name (some st.fdvec.length) other = some fd') :
      (other = name ∧ fd' = st.fdvec.length) ∨ (st.rdFd other = some fd' ∧ fd' < st.fdvec.length) := by
    by_cases he : other = name
    · rw [he, update_self] at hfd
      exact .inl ⟨he, (some.inj hfd).symm⟩
    · rw [update_of_ne he] at hfd
      exact .inr ⟨hfd, h.valid other fd' hfd⟩
  refine ⟨hsteps.good, fun other fd' chain hfd hc => ?_, fun fd' hfd => ?_, fun other fd' hfd => ?_,
    fun other third fd' hfd hfd' => ?_, fun p => le_trans (h.le p) (hsteps.keeps.written p), fun p => ?_⟩
  · have hc' : (st.fdvec ++ [[v]])[fd']? = some chain := hc
    rcases hcases hfd with ⟨rfl, rfl⟩ | ⟨hold, hlt⟩
    · rw [getElem?_concat_length] at hc'
      cases hc'
      exact named_cons.mpr ⟨⟨hu, hn⟩, named_nil⟩
    · rw [getElem?_append_left hlt] at hc'
      exact (h.named other fd' chain hold hc').keeps hsteps.keeps
  · have hfd' : fd' < st.fdvec.length + 1 := by rw [← hlen]; exact hfd
    by_cases hlt : fd' < st.fdvec.length
    · obtain ⟨other, hother⟩ := h.owned fd' hlt
      refine ⟨other, ?_⟩
      have hne : other ≠ name := by
        rintro rfl
        rw [hnone] at hother
        cases hother
      show update st.rdFd name (some st.fdvec.length) other = some fd'
      rw [update_of_ne hne]
      exact hother
    · refine ⟨name, ?_⟩
      show update st.rdFd name (some st.fdvec.length) name = some fd'
      rw [update_self, show fd' = st.fdvec.length by omega]
  · show fd' < (st.fdvec ++ [[v]]).length
    rcases hcases hfd with ⟨-, rfl⟩ | ⟨-, hlt⟩ <;> omega
  · rcases hcases hfd with ⟨rfl, rfl⟩ | ⟨hold, hlt⟩ <;> rcases hcases hfd' with ⟨rfl, he⟩ | ⟨hold', hlt'⟩
    · rfl
    · omega
    · omega
    · exact h.slots other third fd' hold hold'
  · rcases h.cover p with hs | hc
    · exact .inl (hsteps.keeps.synced_le (h.le p) hs)
    rcases hc.keeps hsteps.keeps with ⟨fd', chain, j, w, hc', hw⟩ | hle
    · have hlt : fd' < st.fdvec.length := (List.getElem?_eq_some_iff.mp hc').1
      exact .inr ⟨fd', chain, j, w, (List.getElem?_append_left hlt).trans hc', hw⟩
    · exact .inl (le_trans (h.le p) hle)

theorem commitInv_step {st' : Committing N B} {a : (Nat → Env (N × Nat)) × MdAct N B} (h : CommitInv st)
    (hok : CommitOk st a) (hs : commitStep nofile noName st a = some st') : CommitInv st' := by
  obtain ⟨envs, act⟩ := a
  cases act with
  | «open» name =>
    simp only [commitStep] at hs
    split_ifs at hs with hnone
    obtain ⟨⟨m, fd⟩, ho, he⟩ := map_eq_some_iff.mp hs
    cases he
    exact commitInv_open h hnone ho
  | write name b page =>
    simp only [commitStep] at hs
    split_ifs at hs with hp
    obtain ⟨fd, hfd, hs⟩ := bind_eq_some_iff.mp hs
    obtain ⟨⟨m, ok⟩, hw, he⟩ := map_eq_some_iff.mp hs
    subst he
    exact commitInv_write h hfd hw
  | extend name page =>
    simp only [commitStep] at hs
    split_ifs at hs with hp
    obtain ⟨fd, hfd, hs⟩ := bind_eq_some_iff.mp hs
    obtain ⟨⟨m', nblocks⟩, hcount, hs⟩ := bind_eq_some_iff.mp hs
    obtain ⟨⟨m, ok⟩, hw, he⟩ := map_eq_some_iff.mp hs
    subst he
    exact commitInv_extend h hfd hcount hw
  | flush name b page =>
    simp only [commitStep] at hs
    split_ifs at hs with hp
    obtain ⟨fd, hfd, hs⟩ := bind_eq_some_iff.mp hs
    obtain ⟨⟨m, ok⟩, hw, he⟩ := map_eq_some_iff.mp hs
    subst he
    exact commitInv_flush h hfd hp hok hw
  | commit =>
    obtain ⟨⟨m, ok⟩, hc, he⟩ := map_eq_some_iff.mp hs
    subst he
    exact commitInv_commit h hok hc

end Commit

/-! ### A page that is appended -/

section Append
variable {N B : Type} [DecidableEq N] [Zero B] {nofile : Int} {noName : N × Nat} {name : N} {fd : Nat} {page : List B}

/-- A page is written to an entry that is open. -/
theorem call_write_page {a : Live (N × Nat) B} {f pos : Nat} (hu : a.session.inUse f = true)
    (hf : a.session.vfds.fd f = some pos) (hw : (a.envs 0).writes = some blcksz) (hp : page.length = blcksz) :
    (fdLayer nofile noName).call a f (.write page) = some (a.after {(a.session.vfds.delete f).insert f with
      fd := update a.session.vfds.fd f (some (pos + (page.take blcksz).length))
      contents := update a.session.vfds.contents (a.session.vfds.fileName f)
        (writeAt (a.session.vfds.contents (a.session.vfds.fileName f)) pos (page.take blcksz))
      seekPos := update a.session.vfds.seekPos f (a.session.vfds.seekPos f + (page.take blcksz).length)
      dirty := update a.session.vfds.dirty f true
      written := update a.session.vfds.written (a.session.vfds.fileName f)
        (a.session.vfds.written (a.session.vfds.fileName f) + 1)} a.session.inUse, (blcksz : Int), []) := by
  have hlen : (page.take blcksz).length = blcksz := by rw [take_of_length_le (le_of_eq hp), hp]
  have hacc : fileAccess (a.envs 0) nofile a.session.vfds f = some ((a.session.vfds.delete f).insert f, true) := by
    rw [fileAccess, hf]
  have hf' : ((a.session.vfds.delete f).insert f).fd f = some pos := hf
  show (if a.session.inUse f = true then _ else none) = _
  rw [if_pos hu, fileCall, fileWrite, hacc, map_some]
  dsimp only
  rw [hf', hw]
  dsimp only
  rw [map_some, map_some]
  dsimp only
  nth_rewrite 3 [hlen]
  rfl

omit [DecidableEq N] [Zero B] in
theorem mdextend_page {S : Type} {L : FileLayer S (N × Nat) B} {m m' : MdState S} {n pos : Int}
    {chain chain' : List MdfdVec} {s s' t : S} {v : MdfdVec} (hcount : mdnblocks L m name fd = some (m', n))
    (hslot : m'.fdvec[fd]? = some chain)
    (hseg : mdfdGetseg L name true (segnoOf n) m'.files 1 chain = some (s, chain'))
    (hv : chain'[segnoOf n]? = some v) (hseek : L.call s v.vfd (.seek 0 .end) = some (s', pos, [])) (hpos : 0 ≤ pos)
    (hwrite : L.call s' v.vfd (.write page) = some (t, (blcksz : Int), [])) :
    mdextend L m name fd page = some (⟨t, m'.fdvec.set fd (chain'.set (segnoOf n) ⟨v.vfd, true,
      if (cint (n + 1)).tmod relsegSize = 0 then relsegSize else (cint (n + 1)).tmod relsegSize⟩)⟩, true) := by
  rw [mdextend, hcount, bind_some]
  dsimp only
  rw [hslot, bind_some, hseg, bind_some]
  dsimp only
  rw [hv, bind_some, hseek, bind_some]
  dsimp only
  rw [if_neg (by omega), hwrite]
  rfl

theorem commitStep_extend {st : Committing N B} {envs : Nat → Env (N × Nat)} {m m' : MdState (Live (N × Nat) B)}
    {n : Int} (hp : page.length = blcksz) (hfd : st.rdFd name = some fd)
    (hcount : mdnblocks (fdLayer nofile noName) (st.md envs) name fd = some (m', n))
    (hext : mdextend (fdLayer nofile noName) (st.md envs) name fd page = some (m, true)) :
    commitStep nofile noName st (envs, .extend name page) = some ((st.took m).report (name, segnoOf n)) := by
  rw [commitStep, if_pos hp, hfd, bind_some, hcount, bind_some]
  dsimp only
  rw [hext]
  rfl

end Append

/-- Calls that succeed, except that writes fail if `writes` is `none`. -/
def quietly (writes : Option Nat) (_ : Nat) : Env (Unit × Nat) := ⟨0, true, writes, fun _ => true⟩

end PgStorage.Md
