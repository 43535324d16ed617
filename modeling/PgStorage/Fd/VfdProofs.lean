import PgStorage.Fd.Vfd
import PgStorage.Lib.Ring
import PgStorage.Lib.Trace

/-! The cache of virtual file descriptors.

The ring around entry 0 has exactly the entries with an open kernel descriptor, and the free
list exactly the unused entries, also after an open that failed. Making room closes descriptors
and changes neither a file's position nor its contents. -/
namespace PgStorage.Fd
open PgStorage.Ring Trace
open Function List

/-- The links run from `a` through the entries of `l` to entry 0. -/
def FreeChain (nextFree : Nat → Nat) : Nat → List Nat → Prop
  | a, [] => nextFree a = 0
  | a, f :: l => nextFree a = f ∧ FreeChain nextFree f l

/-- The structure of the cache: the entries in the ring, and those in the free list. `nfile`
exceeds the number of open entries and allocated files by `drift`. -/
structure VfdInv {P B : Type} (s : Vfds P B) (inUse : Nat → Bool) (drift : Int)
    (ring free : List Nat) : Prop where
  linked : Anchored s.lruMoreRecently s.lruLessRecently 0 ring
  opened : ∀ f, f ∈ ring ↔ (s.fd f).isSome = true
  opened_used : ∀ f ∈ ring, inUse f = true
  used : ∀ f, inUse f = true → 0 < f ∧ f < s.sizeVfdCache
  listed : FreeChain s.nextFree 0 free
  free_nodup : free.Nodup
  unused : ∀ f, f ∈ free ↔ 0 < f ∧ f < s.sizeVfdCache ∧ inUse f = false
  count : s.nfile = ring.length + s.allocatedFiles + drift

section Cache
variable {P B : Type} {s t : Vfds P B} {inUse : Nat → Bool} {drift : Int} {ring free : List Nat} {f : Nat} {env : Env P}
  {nofile : Int}

theorem freeChain_congr {next next' : Nat → Nat} {a : Nat} {l : List Nat} (h : ∀ b ∈ a :: l, next' b = next b)
    (hc : FreeChain next a l) : FreeChain next' a l := by
  induction l generalizing a with
  | nil => exact (h a mem_cons_self).trans hc
  | cons b l ih =>
    exact ⟨(h a mem_cons_self).trans hc.1, ih (fun c hc' => h c (mem_cons_of_mem a hc')) hc.2⟩

/-- Changes that leave the links, the count and which descriptors are open. -/
theorem VfdInv.congr (h : VfdInv s inUse drift ring free) (hmore : t.lruMoreRecently = s.lruMoreRecently)
    (hless : t.lruLessRecently = s.lruLessRecently) (hnext : t.nextFree = s.nextFree)
    (hsize : t.sizeVfdCache = s.sizeVfdCache) (hn : t.nfile = s.nfile)
    (hall : t.allocatedFiles = s.allocatedFiles)
    (hfd : ∀ f, (t.fd f).isSome = (s.fd f).isSome) : VfdInv t inUse drift ring free where
  linked := by rw [hmore, hless]; exact h.linked
  opened f := by rw [hfd]; exact h.opened f
  opened_used := h.opened_used
  used f hf := by rw [hsize]; exact h.used f hf
  listed := by rw [hnext]; exact h.listed
  free_nodup := h.free_nodup
  unused f := by rw [hsize]; exact h.unused f
  count := by rw [hn, hall]; exact h.count

/-! ### The ring -/

/-- A node of the ring is not its own neighbour. -/
theorem less_ne_self {ring : List Nat} {more less : Nat → Nat} (hr : Anchored more less 0 ring) (hf : f ∈ ring) :
    less f ≠ f := by
  obtain ⟨l, m, rfl⟩ := append_of_mem hf
  intro he
  have hrot := anchored_rotate hr
  have hmem := chain_prev_mem (chain_append.mp hr.2).1
  rw [he] at hmem
  have hnd := hr.1
  rcases mem_cons.mp hmem with h0 | hl
  · exact (nodup_cons.mp hnd).1 (h0 ▸ mem_append_right l mem_cons_self)
  · exact (nodup_append.mp (nodup_cons.mp hnd).2).2.2 f hl f mem_cons_self rfl

theorem anchored_delete (h : Anchored s.lruMoreRecently s.lruLessRecently 0 ring) (hf : f ∈ ring) :
    Anchored (s.delete f).lruMoreRecently (s.delete f).lruLessRecently 0 (ring.erase f) := by
  have hne := less_ne_self h hf
  obtain ⟨l, m, rfl⟩ := append_of_mem hf
  have hl : f ∉ l := by
    intro hm
    exact (nodup_append.mp (nodup_cons.mp h.1).2).2.2 f hm f mem_cons_self rfl
  rw [erase_append_right _ hl, erase_cons_head]
  have hrem := anchored_remove (v := s.lruMoreRecently f) (w := s.lruLessRecently f) h
  have hmore : update (update s.lruMoreRecently (s.lruLessRecently f) (s.lruMoreRecently f)) f
      (s.lruMoreRecently f) = (s.delete f).lruMoreRecently := by
    funext g
    by_cases hg : g = f
    · subst hg
      show _ = update s.lruMoreRecently (s.lruLessRecently g) (s.lruMoreRecently g) g
      rw [update_self, update_of_ne hne.symm]
    · rw [update_of_ne hg]
      rfl
  have hmoref : (s.delete f).lruMoreRecently f = s.lruMoreRecently f := by rw [← hmore, update_self]
  have hnext : f ≠ s.lruMoreRecently f := by
    intro he
    have hm := chain_next_mem (chain_append.mp h.2).2
    rw [← he] at hm
    rcases hm with hm | h0
    · exact (nodup_cons.mp (nodup_append.mp (nodup_cons.mp h.1).2).2.1).1 hm
    · exact (nodup_cons.mp h.1).1 (h0 ▸ mem_append_right l mem_cons_self)
  have hless : update (update s.lruLessRecently (s.lruMoreRecently f) (s.lruLessRecently f)) f
      (s.lruLessRecently f) = (s.delete f).lruLessRecently := by
    funext g
    show _ = update s.lruLessRecently ((s.delete f).lruMoreRecently f) (s.lruLessRecently f) g
    rw [hmoref]
    by_cases hg : g = f
    · subst hg
      rw [update_self, update_of_ne hnext]
    · rw [update_of_ne hg]
  rw [hmore, hless] at hrem
  exact hrem

theorem anchored_vfdInsert (h : Anchored s.lruMoreRecently s.lruLessRecently 0 ring) (hf : f ∉ 0 :: ring) :
    Anchored (s.insert f).lruMoreRecently (s.insert f).lruLessRecently 0 (ring ++ [f]) := by
  have hins := anchored_insert h hf
  have hless : update s.lruLessRecently f (s.lruLessRecently 0) f = s.lruLessRecently 0 :=
    update_self ..
  simp only [Vfds.insert, hless]
  exact hins

section Ring
variable [DecidableEq P]

theorem settle_fields : (s.settle f).lruMoreRecently = s.lruMoreRecently ∧
    (s.settle f).lruLessRecently = s.lruLessRecently ∧ (s.settle f).nextFree = s.nextFree ∧
    (s.settle f).sizeVfdCache = s.sizeVfdCache ∧ (s.settle f).allocatedFiles = s.allocatedFiles ∧
    (s.settle f).contents = s.contents ∧ (s.settle f).fileName = s.fileName ∧ (s.settle f).seekPos = s.seekPos ∧
    (s.settle f).written = s.written := by
  rw [Vfds.settle]
  split_ifs <;> exact ⟨rfl, rfl, rfl, rfl, rfl, rfl, rfl, rfl, rfl⟩

/-- An open entry leaves the ring and its descriptor is closed. -/
theorem VfdInv.closed (h : VfdInv s inUse drift ring free) (hf : f ∈ ring) :
    VfdInv ((s.delete f).close f) inUse drift (ring.erase f) free := by
  obtain ⟨hmore, hless, hnext, hsize, hall, -⟩ := settle_fields (s := s.delete f) (f := f)
  have hnd := (nodup_cons.mp h.linked.1).2
  refine ⟨?_, fun g => ?_, fun g hg => h.opened_used g (erase_subset hg), fun g hg => ?_, ?_, h.free_nodup,
    fun g => ?_, ?_⟩
  · simp only [Vfds.close, hmore, hless]
    exact anchored_delete h.linked hf
  · rw [hnd.mem_erase_iff, h.opened g]
    simp only [Vfds.close, Vfds.delete]
    by_cases hg : g = f
    · subst hg
      simp
    · rw [update_of_ne hg]
      simp [hg]
  · simp only [Vfds.close, hsize]
    exact h.used g hg
  · simp only [Vfds.close, hnext]
    exact h.listed
  · simp only [Vfds.close, hsize]
    exact h.unused g
  · have hpos := length_pos_of_mem hf
    show s.nfile - 1 = _ + ((s.delete f).settle f).allocatedFiles + drift
    rw [hall, h.count, length_erase_of_mem hf]
    show _ = _ + s.allocatedFiles + drift
    omega

theorem lruDelete_eq (hs : lruDelete env s f = some t) : ∃ pos, s.fd f = some pos ∧ f ≠ 0 ∧ s.MaySettle env f ∧
    t = {(s.delete f).close f with seekPos := update s.seekPos f pos} := by
  rw [lruDelete] at hs
  cases hfd : s.fd f with
  | none =>
    rw [hfd] at hs
    cases hs
  | some pos =>
    rw [hfd] at hs
    dsimp only at hs
    split_ifs at hs with hok
    exact ⟨pos, rfl, hok.1, hok.2, (Option.some.inj hs).symm⟩

theorem VfdInv.lruDelete (h : VfdInv s inUse drift ring free) (hs : lruDelete env s f = some t) :
    VfdInv t inUse drift (ring.erase f) free := by
  obtain ⟨pos, hfd, -, -, rfl⟩ := lruDelete_eq hs
  have hclosed := h.closed ((h.opened f).mpr (by rw [hfd]; rfl))
  exact hclosed.congr rfl rfl rfl rfl rfl rfl fun _ => rfl

theorem VfdInv.assertLruRoom (h : VfdInv s inUse drift ring free) (hs : assertLruRoom env nofile s = some t) :
    ∃ ring', VfdInv t inUse drift ring' free := by
  rw [Fd.assertLruRoom] at hs
  split_ifs at hs
  · exact ⟨_, h.lruDelete hs⟩
  · cases hs
    exact ⟨ring, h⟩

theorem VfdInv.refuse {n : Nat} (h : VfdInv s inUse drift ring free) (hs : refuse env nofile n s = some t) :
    ∃ ring', VfdInv t inUse drift ring' free := by
  induction n generalizing s ring with
  | zero =>
    cases hs
    exact ⟨ring, h⟩
  | succ n ih =>
    obtain ⟨u, hu, ht⟩ := Option.bind_eq_some_iff.mp hs
    have h0 : VfdInv {s with freeFd := 0} inUse drift ring free := h.congr rfl rfl rfl rfl rfl rfl fun _ => rfl
    obtain ⟨ring', h'⟩ := h0.assertLruRoom hu
    exact ih h' ht

omit [DecidableEq P] in
/-- A descriptor that was closed is open and at the front of the ring. -/
theorem VfdInv.inserted (h : VfdInv s inUse drift ring free) (hf : s.fd f = none) (hu : inUse f = true) {pos : Nat}
    (hmore : t.lruMoreRecently = s.lruMoreRecently) (hless : t.lruLessRecently = s.lruLessRecently)
    (hnext : t.nextFree = s.nextFree) (hsize : t.sizeVfdCache = s.sizeVfdCache) (hn : t.nfile = s.nfile + 1)
    (hall : t.allocatedFiles = s.allocatedFiles) (hfd : t.fd = update s.fd f (some pos)) : VfdInv (t.insert f) inUse drift (ring ++ [f]) free := by
  have hout : f ∉ 0 :: ring := by
    rw [mem_cons, not_or]
    refine ⟨fun h0 => ?_, fun hm => ?_⟩
    · exact absurd (h.used f hu).1 (by rw [h0]; exact lt_irrefl 0)
    · have := (h.opened f).mp hm
      rw [hf] at this
      cases this
  have hlinked : Anchored t.lruMoreRecently t.lruLessRecently 0 ring := by
    rw [hmore, hless]
    exact h.linked
  refine ⟨anchored_vfdInsert hlinked hout, fun g => ?_, fun g hg => ?_, fun g hg => ?_, ?_, h.free_nodup,
    fun g => ?_, ?_⟩
  · show g ∈ ring ++ [f] ↔ (t.fd g).isSome = true
    rw [hfd, mem_append, mem_singleton, h.opened g]
    by_cases hg : g = f
    · subst hg
      rw [update_self]
      simp
    · rw [update_of_ne hg]
      simp [hg]
  · rcases mem_append.mp hg with hg | hg
    · exact h.opened_used g hg
    · rw [mem_singleton.mp hg]
      exact hu
  · show 0 < g ∧ g < t.sizeVfdCache
    rw [hsize]
    exact h.used g hg
  · show FreeChain t.nextFree 0 free
    rw [hnext]
    exact h.listed
  · show g ∈ free ↔ 0 < g ∧ g < t.sizeVfdCache ∧ inUse g = false
    rw [hsize]
    exact h.unused g
  · show t.nfile = _ + t.allocatedFiles + drift
    rw [hn, hall, h.count, length_append, length_singleton]
    omega

omit [DecidableEq P] in
/-- A descriptor that is open is moved to the front of the ring. -/
theorem VfdInv.moved (h : VfdInv s inUse drift ring free) (hf : f ∈ ring) :
    VfdInv ((s.delete f).insert f) inUse drift (ring.erase f ++ [f]) free := by
  have hnd := (nodup_cons.mp h.linked.1).2
  have hout : f ∉ 0 :: ring.erase f := by
    rw [mem_cons, not_or]
    refine ⟨fun h0 => (nodup_cons.mp h.linked.1).1 (h0 ▸ hf), fun hm => ?_⟩
    exact (hnd.mem_erase_iff.mp hm).1 rfl
  have hmem (g : Nat) : g ∈ ring.erase f ++ [f] ↔ g ∈ ring := by
    rw [mem_append, mem_singleton, hnd.mem_erase_iff]
    constructor
    · rintro (hg | rfl)
      · exact hg.2
      · exact hf
    · intro hg
      by_cases hgf : g = f
      · exact .inr hgf
      · exact .inl ⟨hgf, hg⟩
  refine ⟨anchored_vfdInsert (anchored_delete h.linked hf) hout, fun g => (hmem g).trans (h.opened g),
    fun g hg => h.opened_used g ((hmem g).mp hg), h.used, h.listed, h.free_nodup, h.unused, ?_⟩
  show s.nfile = _ + s.allocatedFiles + drift
  rw [h.count, length_append, length_erase_of_mem hf, length_singleton]
  have := length_pos_of_mem hf
  omega

/-! ### What making room does -/

/-- The position of a file, whether its descriptor is open or not. -/
def Vfds.position (s : Vfds P B) (f : Nat) : Int :=
  match s.fd f with
  | some pos => pos
  | none => s.seekPos f

/-- Descriptors have been closed: positions and contents are the same, and an entry that has
been written stays open and dirty unless its file has been synced since. -/
structure Evicts (s t : Vfds P B) : Prop where
  closed : ∀ g, s.fd g = none → t.fd g = none
  position : ∀ g, t.position g = s.position g
  contents : t.contents = s.contents
  fileName : t.fileName = s.fileName
  allocatedFiles : t.allocatedFiles = s.allocatedFiles
  written : t.written = s.written
  synced : ∀ p, t.synced p = s.synced p ∨ t.synced p = s.written p
  kept : ∀ g, (s.fd g).isSome = true → s.dirty g = true →
    ((t.fd g).isSome = true ∧ t.dirty g = true) ∨ t.synced (s.fileName g) = s.written (s.fileName g)

omit [DecidableEq P] in
theorem Evicts.refl (s : Vfds P B) : Evicts s s :=
  ⟨fun _ => id, fun _ => rfl, rfl, rfl, rfl, rfl, fun _ => .inl rfl, fun _ ho hd => .inl ⟨ho, hd⟩⟩

omit [DecidableEq P] in
theorem Evicts.trans {u : Vfds P B} (h : Evicts s t) (h' : Evicts t u) : Evicts s u := by
  refine ⟨fun g hg => h'.closed g (h.closed g hg), fun g => (h'.position g).trans (h.position g),
    h'.contents.trans h.contents, h'.fileName.trans h.fileName, h'.allocatedFiles.trans h.allocatedFiles,
    h'.written.trans h.written, fun p => ?_, fun g ho hd => ?_⟩
  · rcases h'.synced p with hp | hp
    · rw [hp]
      exact h.synced p
    · exact .inr (by rw [hp, h.written])
  · rcases h.kept g ho hd with ⟨ho', hd'⟩ | hs
    · have := h'.kept g ho' hd'
      rwa [h.fileName, h.written] at this
    · rcases h'.synced (s.fileName g) with hp | hp
      · exact .inr (hp.trans hs)
      · exact .inr (by rw [hp, h.written])

theorem settle_dirty (g : Nat) (hg : g ≠ f) : (s.settle f).dirty g = s.dirty g := by
  rw [Vfds.settle]
  split_ifs
  · exact update_of_ne hg ..
  · rfl

theorem settle_synced (p : P) : (s.settle f).synced p =
    if s.dirty f = true ∧ p = s.fileName f then s.written p else s.synced p := by
  rw [Vfds.settle]
  by_cases hd : s.dirty f = true
  · rw [if_pos hd]
    by_cases hp : p = s.fileName f
    · rw [hp, if_pos ⟨hd, rfl⟩]
      exact update_self ..
    · rw [if_neg fun h => hp h.2]
      exact update_of_ne hp ..
  · rw [if_neg hd, if_neg fun h => hd h.1]

theorem evicts_lruDelete (hs : lruDelete env s f = some t) : Evicts s t := by
  obtain ⟨pos, hfd, -, -, rfl⟩ := lruDelete_eq hs
  obtain ⟨-, -, -, -, hall, hcon, hname, -, hwritten⟩ := settle_fields (s := s.delete f) (f := f)
  refine ⟨fun g hg => ?_, fun g => ?_, hcon, hname, hall, hwritten, fun p => ?_, fun g ho hd => ?_⟩
  · show update s.fd f none g = none
    by_cases hgf : g = f
    · rw [hgf, update_self]
    · rw [update_of_ne hgf]
      exact hg
  · simp only [Vfds.position, Vfds.close, Vfds.delete]
    by_cases hgf : g = f
    · rw [hgf, update_self, update_self, hfd]
    · rw [update_of_ne hgf, update_of_ne hgf]
  · show ((s.delete f).settle f).synced p = _ ∨ ((s.delete f).settle f).synced p = _
    rw [settle_synced]
    split_ifs
    · exact .inr rfl
    · exact .inl rfl
  · by_cases hgf : g = f
    · right
      show ((s.delete f).settle f).synced (s.fileName g) = _
      rw [hgf] at hd ⊢
      rw [settle_synced, if_pos ⟨hd, rfl⟩]
      rfl
    · refine .inl ⟨?_, ?_⟩
      · show (update s.fd f none g).isSome = true
        rw [update_of_ne hgf]
        exact ho
      · exact (settle_dirty g hgf).trans hd

theorem evicts_assertLruRoom (hs : assertLruRoom env nofile s = some t) : Evicts s t := by
  rw [assertLruRoom] at hs
  split_ifs at hs
  · exact evicts_lruDelete hs
  · cases hs
    exact .refl _

theorem evicts_refuse {n : Nat} (hs : refuse env nofile n s = some t) : Evicts s t := by
  induction n generalizing s with
  | zero =>
    cases hs
    exact .refl _
  | succ n ih =>
    obtain ⟨u, hu, ht⟩ := Option.bind_eq_some_iff.mp hs
    have h0 : Evicts s {s with freeFd := 0} :=
      ⟨fun _ => id, fun _ => rfl, rfl, rfl, rfl, rfl, fun _ => .inl rfl, fun _ ho hd => .inl ⟨ho, hd⟩⟩
    exact (h0.trans (evicts_assertLruRoom hu)).trans (ih ht)

/-- The entry of a file is put at the front of the ring, open at its position; if it was closed,
it has not been written since. With `ok = false` it could not be opened. -/
structure Accessed (s t : Vfds P B) (f : Nat) (ok : Bool) : Prop where
  fd : if ok = true then t.fd f = some (s.position f).toNat ∧ 0 ≤ s.position f else t.fd f = none
  room : ∃ u, Evicts s u ∧ (∀ g, g ≠ f → t.fd g = u.fd g) ∧ (∀ g, t.seekPos g = u.seekPos g) ∧
    (∀ g, g ≠ f → t.dirty g = u.dirty g) ∧ ((u.fd f).isSome = true → t.fd f = u.fd f ∧ t.dirty f = u.dirty f) ∧
    t.contents = u.contents ∧ t.fileName = u.fileName ∧ t.allocatedFiles = u.allocatedFiles ∧ t.written = u.written ∧
    t.synced = u.synced

theorem lruInsert_spec {ok : Bool} (h : VfdInv s inUse drift ring free) (hf : s.fd f = none) (hu : inUse f = true)
    (hs : lruInsert env nofile s f = some (t, ok)) :
    (∃ ring', VfdInv t inUse drift ring' free) ∧ Accessed s t f ok := by
  rw [lruInsert, hf] at hs
  obtain ⟨u, hr, ht⟩ := Option.bind_eq_some_iff.mp hs
  obtain ⟨ring', hinv⟩ := h.refuse hr
  have hev := evicts_refuse hr
  have hclosed := hev.closed f hf
  by_cases hopen : env.opens = false
  · rw [if_pos hopen] at ht
    obtain ⟨hut, rfl⟩ := Prod.mk.inj (Option.some.inj ht)
    subst hut
    exact ⟨⟨ring', hinv⟩, by rw [if_neg (by simp)]; exact hclosed, u, hev, fun _ _ => rfl, fun _ => rfl,
      fun _ _ => rfl, fun _ => ⟨rfl, rfl⟩, rfl, rfl, rfl, rfl, rfl⟩
  · rw [if_neg hopen] at ht
    by_cases hseek : cint (lseek 0 0 (u.seekPos f) .set).1 = -1
    · rw [if_pos hseek] at ht
      cases ht
    rw [if_neg hseek] at ht
    cases ht
    have hpos : s.position f = u.seekPos f := by
      rw [← hev.position f, Vfds.position, hclosed]
    have hge : 0 ≤ u.seekPos f := by
      by_contra hneg
      rw [lseek, seekTarget, if_pos (by omega)] at hseek
      exact hseek (by decide)
    refine ⟨⟨ring' ++ [f], hinv.inserted hclosed hu rfl rfl rfl rfl rfl rfl rfl⟩, ?_, u, hev,
      fun g hg => update_of_ne hg .., fun _ => rfl, fun g hg => update_of_ne hg .., fun ho => ?_, rfl,
      rfl, rfl, rfl, rfl⟩
    · rw [if_pos rfl, hpos]
      exact ⟨update_self .., hge⟩
    · rw [hclosed] at ho
      cases ho

theorem fileAccess_spec {ok : Bool} (h : VfdInv s inUse drift ring free) (hu : inUse f = true)
    (hs : fileAccess env nofile s f = some (t, ok)) :
    (∃ ring', VfdInv t inUse drift ring' free) ∧ Accessed s t f ok := by
  rw [fileAccess] at hs
  cases hf : s.fd f with
  | none =>
    rw [hf] at hs
    obtain ⟨u, hr, ht⟩ := Option.bind_eq_some_iff.mp hs
    obtain ⟨ring', hinv⟩ := h.assertLruRoom hr
    have hev := evicts_assertLruRoom hr
    obtain ⟨hinv', hfd, w, hw, hrest⟩ := lruInsert_spec hinv (hev.closed f hf) hu ht
    refine ⟨hinv', ?_, w, hev.trans hw, hrest⟩
    rw [hev.position f] at hfd
    exact hfd
  | some pos =>
    rw [hf] at hs
    cases hs
    have hmem := (h.opened f).mpr (by rw [hf]; rfl)
    refine ⟨⟨_, h.moved hmem⟩, ?_, s, .refl s, fun _ _ => rfl, fun _ => rfl, fun _ _ => rfl, fun _ => ⟨rfl, rfl⟩, rfl,
      rfl, rfl, rfl, rfl⟩
    rw [if_pos rfl, Vfds.position, hf]
    exact ⟨hf, Int.natCast_nonneg pos⟩

omit [DecidableEq P] in
theorem VfdInv.initCache (h : VfdInv s inUse drift ring free) (h0 : s.sizeVfdCache = 0) :
    VfdInv s.initCache inUse drift ring free := by
  have hused (f : Nat) : inUse f = false := by
    cases hf : inUse f with
    | false => rfl
    | true => exact absurd (h.used f hf).2 (by omega)
  obtain rfl : ring = [] := eq_nil_iff_forall_not_mem.mpr fun f hf => by
    have := h.opened_used f hf
    rw [hused] at this
    cases this
  obtain rfl : free = [] := eq_nil_iff_forall_not_mem.mpr fun f hf => by
    have := ((h.unused f).mp hf).2.1
    omega
  have hlinks : s.initCache.lruMoreRecently 0 = 0 ∧ s.initCache.lruLessRecently 0 = 0 ∧ s.initCache.nextFree 0 = 0 := by
    simp [Vfds.initCache]
  refine ⟨⟨nodup_singleton 0, hlinks.1, hlinks.2.1⟩, fun f => ?_, nofun, fun f hf => ?_, hlinks.2.2,
    nodup_nil, fun f => ?_, h.count⟩
  · show f ∈ [] ↔ (update s.fd 0 none f).isSome = true
    by_cases hf : f = 0
    · rw [hf, update_self]
      simp
    · rw [update_of_ne hf]
      exact h.opened f
  · rw [hused] at hf
    cases hf
  · show f ∈ [] ↔ 0 < f ∧ f < 1 ∧ inUse f = false
    simp only [not_mem_nil, false_iff]
    omega

omit [DecidableEq P] in
theorem freeChain_range {next : Nat → Nat} {a n : Nat} {k : Nat} (ha : next a = n)
    (hstep : ∀ i, n ≤ i → i < n + k → next i = i + 1) (hlast : next (n + k) = 0) :
    FreeChain next a (range' n (k + 1)) := by
  induction k generalizing a n with
  | zero => exact ⟨ha, hlast⟩
  | succ k ih =>
    refine ⟨ha, ih (hstep n (le_refl n) (by omega)) (fun i hi hk => hstep i (by omega) (by omega)) ?_⟩
    rw [show n + 1 + k = n + (k + 1) by omega]
    exact hlast

omit [DecidableEq P] in
theorem VfdInv.grow (h : VfdInv s inUse drift ring []) (h0 : 0 < s.sizeVfdCache) (noName : P) :
    VfdInv (s.grow noName) inUse drift ring (range' s.sizeVfdCache s.sizeVfdCache) := by
  have hold {f : Nat} (hf : f ∈ 0 :: ring) : ¬ (s.sizeVfdCache ≤ f ∧ f < 2 * s.sizeVfdCache) := by
    rcases mem_cons.mp hf with rfl | hf
    · omega
    · have := h.used f (h.opened_used f hf)
      omega
  refine ⟨⟨h.linked.1, chain_congr (fun f hf => ?_) (fun f hf => ?_) h.linked.2⟩, fun f => ?_, h.opened_used,
    fun f hf => ?_, ?_, nodup_range', fun f => ?_, h.count⟩
  · simp only [Vfds.grow, hold hf, decide_false, Bool.false_eq_true, if_false]
  · have hmem : f ∈ 0 :: ring := hf.elim (mem_cons_of_mem 0) fun e => e ▸ mem_cons_self
    simp only [Vfds.grow, hold hmem, decide_false, Bool.false_eq_true, if_false]
  · simp only [Vfds.grow]
    by_cases hnew : s.sizeVfdCache ≤ f ∧ f < 2 * s.sizeVfdCache
    · simp only [hnew, and_self, decide_true, if_true, Option.isSome_none, Bool.false_eq_true, iff_false]
      exact fun hf => hold (mem_cons_of_mem 0 hf) hnew
    · simp only [hnew, decide_false, Bool.false_eq_true, if_false]
      exact h.opened f
  · have := h.used f hf
    exact ⟨this.1, lt_of_lt_of_le this.2 (by simp only [Vfds.grow]; omega)⟩
  · obtain ⟨k, hk⟩ : ∃ k, s.sizeVfdCache = k + 1 := ⟨s.sizeVfdCache - 1, by omega⟩
    rw [hk]
    refine freeChain_range ?_ (fun i hi hlt => ?_) ?_
    · simp only [Vfds.grow, hk]
      rw [if_neg (by omega)]
      simp
    · simp only [Vfds.grow, hk]
      rw [if_neg (by omega), if_neg (by omega), if_pos (by simp; omega)]
    · simp only [Vfds.grow, hk]
      rw [if_pos (by omega)]
  · have hun := h.unused f
    have hu := h.used f
    simp only [not_mem_nil, false_iff] at hun
    simp only [mem_range'_1, Vfds.grow]
    constructor
    · intro hf
      refine ⟨by omega, by omega, ?_⟩
      cases hb : inUse f with
      | false => rfl
      | true => exact absurd (hu hb).2 (by omega)
    · intro hf
      refine ⟨?_, by omega⟩
      by_contra hlt
      exact hun ⟨hf.1, by omega, hf.2.2⟩

omit [DecidableEq P] in
/-- The first entry of the free list is taken. -/
theorem VfdInv.taken (h : VfdInv s inUse drift ring (f :: free)) :
    VfdInv {s with nextFree := update s.nextFree 0 (s.nextFree f)} (update inUse f true) drift ring free := by
  obtain ⟨hpos, hlt, hout⟩ := (h.unused f).mp mem_cons_self
  obtain ⟨hnot, hnd⟩ := nodup_cons.mp h.free_nodup
  have hne {g : Nat} (hg : g ∈ free) : g ≠ f := fun e => hnot (e ▸ hg)
  refine ⟨h.linked, h.opened, fun g hg => ?_, fun g hg => ?_, ?_, hnd, fun g => ?_, h.count⟩
  · by_cases hgf : g = f
    · rw [hgf, update_self]
    · rw [update_of_ne hgf]
      exact h.opened_used g hg
  · by_cases hgf : g = f
    · rw [hgf]
      exact ⟨hpos, hlt⟩
    · rw [update_of_ne hgf] at hg
      exact h.used g hg
  · have hrest := h.listed.2
    cases free with
    | nil =>
      have hend : s.nextFree f = 0 := hrest
      show update s.nextFree 0 (s.nextFree f) 0 = 0
      rw [update_self, hend]
    | cons b l =>
      have hfirst : update s.nextFree 0 (s.nextFree f) 0 = b := by rw [update_self, hrest.1]
      refine ⟨hfirst, freeChain_congr (fun g hg => ?_) hrest.2⟩
      have hg0 : g ≠ 0 := by
        have := ((h.unused g).mp (mem_cons_of_mem f hg)).1
        omega
      exact update_of_ne hg0 ..
  · have hun := h.unused g
    rw [mem_cons] at hun
    by_cases hgf : g = f
    · rw [hgf, update_self]
      simp [hnot]
    · rw [update_of_ne hgf]
      simpa [hgf] using hun

omit [DecidableEq P] in
theorem allocateVfd_spec (h : VfdInv s inUse drift ring free) (noName : P) :
    (∃ free', VfdInv (allocateVfd noName s).1 (update inUse (allocateVfd noName s).2 true) drift ring free') ∧
      inUse (allocateVfd noName s).2 = false := by
  rw [allocateVfd]
  have h1 : VfdInv (if s.sizeVfdCache = 0 then s.initCache else s) inUse drift ring free ∧
      0 < (if s.sizeVfdCache = 0 then s.initCache else s).sizeVfdCache := by
    by_cases h0 : s.sizeVfdCache = 0
    · rw [if_pos h0]
      exact ⟨h.initCache h0, Nat.one_pos⟩
    · rw [if_neg h0]
      exact ⟨h, by omega⟩
  obtain ⟨h1, hpos⟩ := h1
  generalize (if s.sizeVfdCache = 0 then s.initCache else s) = s1 at *
  obtain ⟨f, rest, h2⟩ : ∃ f rest, VfdInv (if s1.nextFree 0 = 0 then s1.grow noName else s1) inUse drift ring (f :: rest) := by
    cases free with
    | nil =>
      have hend : s1.nextFree 0 = 0 := h1.listed
      rw [if_pos hend]
      have hg := h1.grow hpos noName
      obtain ⟨k, hk⟩ : ∃ k, s1.sizeVfdCache = k + 1 := ⟨s1.sizeVfdCache - 1, by omega⟩
      rw [hk, range'_succ] at hg
      exact ⟨_, _, hg⟩
    | cons f rest =>
      have hf := ((h1.unused f).mp mem_cons_self).1
      rw [if_neg (by rw [h1.listed.1]; omega)]
      exact ⟨f, rest, h1⟩
  generalize (if s1.nextFree 0 = 0 then s1.grow noName else s1) = s2 at *
  have hfirst : s2.nextFree 0 = f := h2.listed.1
  dsimp only
  rw [hfirst]
  exact ⟨⟨rest, h2.taken⟩, ((h2.unused f).mp mem_cons_self).2.2⟩

omit [DecidableEq P] in
theorem allocateVfd_fields (noName : P) : (allocateVfd noName s).1.contents = s.contents ∧
    (allocateVfd noName s).1.allocatedFiles = s.allocatedFiles ∧ (allocateVfd noName s).1.freeFd = s.freeFd ∧
    (allocateVfd noName s).1.written = s.written ∧ (allocateVfd noName s).1.synced = s.synced := by
  simp only [allocateVfd]
  split_ifs <;> exact ⟨rfl, rfl, rfl, rfl, rfl⟩

omit [DecidableEq P] in
/-- The entries in use keep what they have. -/
theorem allocateVfd_kept (h : VfdInv s inUse drift ring free) (hu : inUse f = true) (noName : P) :
    (allocateVfd noName s).1.fd f = s.fd f ∧ (allocateVfd noName s).1.seekPos f = s.seekPos f ∧
      (allocateVfd noName s).1.fileName f = s.fileName f ∧ (allocateVfd noName s).1.dirty f = s.dirty f := by
  have hlt := (h.used f hu).2
  have hold : ¬ (s.sizeVfdCache ≤ f ∧ f < 2 * s.sizeVfdCache) := by omega
  have hsize : s.sizeVfdCache ≠ 0 := by omega
  simp only [allocateVfd, if_neg hsize]
  split_ifs with hnext
  · simp only [Vfds.grow, hold, decide_false, Bool.false_eq_true, if_false, and_self]
  · exact ⟨rfl, rfl, rfl, rfl⟩

omit [DecidableEq P] in
theorem VfdInv.freed (h : VfdInv s inUse drift ring free) (hu : inUse f = true) (hc : f ∉ ring) :
    VfdInv (freeVfd s f) (update inUse f false) drift ring (f :: free) := by
  obtain ⟨hpos, hlt⟩ := h.used f hu
  have hnot : f ∉ free := by
    intro hm
    have := ((h.unused f).mp hm).2.2
    rw [hu] at this
    cases this
  have hf0 : f ≠ 0 := by omega
  have hhead : (freeVfd s f).nextFree 0 = f := by simp [freeVfd]
  refine ⟨h.linked, h.opened, fun g hg => ?_, fun g hg => ?_, ⟨hhead, ?_⟩,
    nodup_cons.mpr ⟨hnot, h.free_nodup⟩, fun g => ?_, h.count⟩
  · have hgf : g ≠ f := fun e => hc (e ▸ hg)
    rw [update_of_ne hgf]
    exact h.opened_used g hg
  · have hgf : g ≠ f := by
      rintro rfl
      rw [update_self] at hg
      cases hg
    rw [update_of_ne hgf] at hg
    exact h.used g hg
  · have hself : (freeVfd s f).nextFree f = s.nextFree 0 := by
      simp only [freeVfd, update_of_ne hf0, update_self]
    have hrest {g : Nat} (hg : g ∈ free) : (freeVfd s f).nextFree g = s.nextFree g := by
      have hg0 : g ≠ 0 := by
        have := ((h.unused g).mp hg).1
        omega
      simp only [freeVfd, update_of_ne hg0, update_of_ne (fun e => hnot (e ▸ hg) : g ≠ f)]
    have hl := h.listed
    cases free with
    | nil => exact hself.trans hl
    | cons b l => exact ⟨hself.trans hl.1, freeChain_congr (fun g hg => hrest hg) hl.2⟩
  · have hun := h.unused g
    rw [mem_cons]
    by_cases hgf : g = f
    · rw [hgf, update_self]
      simp only [true_or, true_iff]
      exact ⟨hpos, hlt, trivial⟩
    · rw [update_of_ne hgf]
      show g = f ∨ g ∈ free ↔ 0 < g ∧ g < s.sizeVfdCache ∧ inUse g = false
      rw [← hun]
      simp [hgf]

end Ring

end Cache

end PgStorage.Fd
