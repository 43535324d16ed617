import PgStorage.BufMgr.Local
import PgStorage.BufMgr.PoolProofs
import PgStorage.Lib.Trace
import PgStorage.Lib.WriteBack

/-! Local buffers as a cache of blocks.

The descriptor of a local buffer has no relation name, so what is written from it goes to the
file with the empty name and is lost. As long as nothing has to be written, that is to say
every buffer that is evicted, flushed or synced has the contents of its block, the local
buffers show each block as it was written last. -/
namespace PgStorage.BufMgr
open WriteBack Trace
open Function Option LocalTrace

variable {Page : Type} [Zero Page]

theorem writeOut_unnamed {db : Oid} {l : LocalPool Page} {disk : Disk Page} {i : Nat} (h : l.sbRelname i = "") :
    l.writeOut db disk i = disk := mdwrite_unnamed h

section Alloc
variable {l : LocalPool Page} {relId : Oid} {blockNum i : Nat}

omit [Zero Page] in
theorem search_some (h : l.search relId blockNum = some i) :
    i < l.nlocBuffer ∧ l.relId i = relId ∧ l.blockNum i = blockNum := by
  have hp := List.find?_some h
  simp only [decide_eq_true_eq] at hp
  exact ⟨List.mem_range.mp (List.mem_of_find?_eq_some h), hp⟩

omit [Zero Page] in
theorem search_none (h : l.search relId blockNum = none) (hi : i < l.nlocBuffer) (hrel : l.relId i = relId) :
    l.blockNum i ≠ blockNum := by
  intro hb
  have hp := List.find?_eq_none.mp h i (List.mem_range.mpr hi)
  simp only [decide_eq_true_eq] at hp
  exact hp ⟨hrel, hb⟩

omit [Zero Page] in
theorem victim_some (h : l.victim = some i) : i < l.nlocBuffer ∧ l.refcount i = 0 := by
  have hp := List.find?_some h
  obtain ⟨j, hj, rfl⟩ := List.mem_map.mp (List.mem_of_find?_eq_some h)
  simp only [decide_eq_true_eq] at hp
  exact ⟨Nat.mod_lt _ (by have := List.mem_range.mp hj; omega), hp⟩

end Alloc

variable {db : Oid} {file : Oid → File}

/-- The local buffers as a cache over the files. -/
def LocalTrace.cache (file : Oid → File) (s : LocalTrace Page) : Cache Nat (Oid × Nat) Page where
  key i := if i < s.pool.nlocBuffer ∧ s.pool.relId i ≠ 0 then some (s.pool.relId i, s.pool.blockNum i) else none
  data := s.pool.data
  dirty := s.pool.dirty
  pending := s.pending
  store k := mdread s.disk (file k.1) k.2

/-- What holds in every history in which nothing has to be written to a file. -/
structure LocalInv (file : Oid → File) (s : LocalTrace Page) : Prop where
  shows : Shows (s.cache file) s.written
  pinned : ∀ i, s.pending i = true → s.pool.Pinned i
  valid : ∀ i, 0 < s.pool.refcount i → s.pool.relId i ≠ 0
  fresh : ∀ o b, s.rdNblocks o ≤ b → mdread s.disk (file o) b = 0
  unnamed : ∀ i, s.pool.sbRelname i = ""

/-- The contents of a buffer are those of its block in the file. -/
def LocalTrace.OnDisk (file : Oid → File) (s : LocalTrace Page) (i : Nat) : Prop :=
  s.pool.data i = mdread s.disk (file (s.pool.relId i)) (s.pool.blockNum i)

/-- How a backend uses its buffers: a relation is what its identifier says, and a page that
has been changed is written before it is given up. -/
def LocalTrace.Legal (file : Oid → File) (s : LocalTrace Page) : LocalAct Page → Prop
  | .readBuffer rel _ => rel.rdId ≠ 0 ∧ rel.file = file rel.rdId
  | .releaseBuffer i => s.pending i = true → 1 < s.pool.refcount i
  | .localBufferSync => ∀ i, i < s.pool.nlocBuffer → s.pending i = false
  | .modify .. | .writeLocalBuffer .. | .flushLocalBuffer .. => True

/-- No buffer that the step writes differs from its block: the dirty victim of a read, a
buffer that is flushed, the dirty buffers of a sync. -/
def LocalTrace.NothingToWrite (file : Oid → File) (s : LocalTrace Page) : LocalAct Page → Prop
  | .readBuffer rel blockNum => s.pool.search rel.rdId (blockNum.getD (s.rdNblocks rel.rdId)) = none →
    ∀ v ∈ s.pool.victim, s.pool.dirty v = true → s.OnDisk file v
  | .flushLocalBuffer i _ => s.OnDisk file i
  | .localBufferSync => ∀ i, i < s.pool.nlocBuffer → s.pool.dirty i = true → s.OnDisk file i
  | .modify .. | .writeLocalBuffer .. | .releaseBuffer _ => True

/-- A step in which no contents are lost. -/
def LocalTrace.Harmless (file : Oid → File) (s : LocalTrace Page) (a : LocalAct Page) : Prop :=
  s.Legal file a ∧ s.NothingToWrite file a

section Inv
variable {s : LocalTrace Page} {i : Nat}

theorem cache_key (hi : i < s.pool.nlocBuffer) (hv : s.pool.relId i ≠ 0) :
    (s.cache file).key i = some (s.pool.relId i, s.pool.blockNum i) := if_pos ⟨hi, hv⟩

theorem key_cache {k : Oid × Nat} (h : (s.cache file).key i = some k) :
    i < s.pool.nlocBuffer ∧ s.pool.relId i ≠ 0 ∧ k = (s.pool.relId i, s.pool.blockNum i) := by
  simp only [cache] at h
  split_ifs at h with hi
  exact ⟨hi.1, hi.2, (some.inj h).symm⟩

end Inv

/-! ### Steps -/

section Steps
variable {s : LocalTrace Page} {i : Nat}

theorem LocalInv.key (h : LocalInv file s) (hp : s.pool.Pinned i) :
    (s.cache file).key i = some (s.pool.relId i, s.pool.blockNum i) := cache_key hp.1 (h.valid i hp.2)

theorem inv_modify {page : Page} (h : LocalInv file s) (hp : s.pool.Pinned i) :
    LocalInv file ⟨⟨{s.pool with data := update s.pool.data i page}, s.rdNblocks, s.disk, s.ret⟩, s.written,
      update s.pending i true⟩ := by
  have hkey := h.key hp
  refine ⟨h.shows.touch (i := i) ⟨fun _ _ => rfl, fun j hj => update_of_ne hj .., fun _ _ => rfl,
    fun j hj => update_of_ne hj .., fun _ _ => rfl⟩ hkey hkey (fun _ _ => rfl) (fun hpend => ?_)
    (fun _ hpend => ?_), fun j hj => ?_, h.valid, h.fresh, h.unnamed⟩
  · exact absurd hpend (by simp [cache])
  · exact absurd hpend (by simp [cache])
  · by_cases hji : j = i
    · exact hji ▸ hp
    · exact h.pinned j ((update_of_ne hji _ _).symm.trans hj)

omit [Zero Page] in
theorem releaseIf_refcount {l : LocalPool Page} {release : Bool} {j : Nat} (hj : j ≠ i) :
    (l.releaseIf i release).refcount j = l.refcount j := by
  unfold LocalPool.releaseIf
  split
  · exact update_of_ne hj ..
  · rfl

omit [Zero Page] in
theorem releaseIf_pos {l : LocalPool Page} {release : Bool} {j : Nat} (h : 0 < (l.releaseIf i release).refcount j) :
    0 < l.refcount j := by
  by_cases hj : j = i
  · subst hj
    unfold LocalPool.releaseIf at h
    split at h
    · simp only [update_self] at h
      omega
    · exact h
  · rwa [releaseIf_refcount hj] at h

omit [Zero Page] in
/-- Only the reference counts of a released buffer change. -/
theorem releaseIf_eq (l : LocalPool Page) (i : Nat) (release : Bool) :
    l.releaseIf i release = {l with refcount := (l.releaseIf i release).refcount} := by
  unfold LocalPool.releaseIf
  split <;> rfl

/-- A page written, to the files or not, with its dirty bit set accordingly. -/
theorem inv_written {release d : Bool} (h : LocalInv file s) (hp : s.pool.Pinned i)
    (hd : d = false → s.OnDisk file i) :
    LocalInv file ⟨⟨{s.pool with dirty := update s.pool.dirty i d}.releaseIf i release, s.rdNblocks, s.disk,
      s.ret⟩, update s.written (s.pool.relId i, s.pool.blockNum i) (s.pool.data i),
      update s.pending i false⟩ := by
  have hkey := h.key hp
  have hpos (j : Nat) := @releaseIf_pos _ i {s.pool with dirty := update s.pool.dirty i d} release j
  have href (j : Nat) := @releaseIf_refcount _ i {s.pool with dirty := update s.pool.dirty i d} release j
  rw [releaseIf_eq]
  refine ⟨h.shows.touch (i := i) ⟨fun _ _ => rfl, fun _ _ => rfl, fun j hj => update_of_ne hj ..,
    fun j hj => update_of_ne hj .., fun _ _ => rfl⟩ hkey hkey (fun _ hk => update_of_ne hk ..)
    (fun _ => (update_self _ (s.pool.data i) s.written).symm) (fun hdirty _ => hd ?_), fun j hj => ?_,
    fun j hj => h.valid j (hpos j hj), h.fresh, h.unnamed⟩
  · simpa [cache] using hdirty
  · have hji : j ≠ i := by rintro rfl; simp at hj
    obtain ⟨hlt, hcount⟩ := h.pinned j ((update_of_ne hji _ _).symm.trans hj)
    exact ⟨hlt, by rw [href j hji]; exact hcount⟩

theorem inv_release (h : LocalInv file s) (hw : s.pending i = true → 1 < s.pool.refcount i) :
    LocalInv file ⟨⟨s.pool.releaseIf i true, s.rdNblocks, s.disk, s.ret⟩, s.written, s.pending⟩ := by
  have hpos (j : Nat) := @releaseIf_pos _ i s.pool true j
  refine ⟨h.shows, fun j hj => ?_, fun j hj => h.valid j (hpos j hj), h.fresh, h.unnamed⟩
  obtain ⟨hlt, hcount⟩ := h.pinned j hj
  refine ⟨hlt, ?_⟩
  by_cases hji : j = i
  · subst hji
    have := hw hj
    show 0 < update s.pool.refcount j (s.pool.refcount j - 1) j
    rw [update_self]
    omega
  · rw [releaseIf_refcount hji]
    exact hcount

/-- `LocalBufferSync` gives up the dirty buffers, one pass a buffer. -/
theorem syncLocal_spec (db : Oid) (h : LocalInv file s) (hs : s.Harmless file .localBufferSync) {n : Nat}
    (hn : n ≤ s.pool.nlocBuffer) :
    ∃ relId dirty, syncLocal db s.pool s.disk n = ({s.pool with relId := relId, dirty := dirty}, s.disk) ∧
      (∀ j, n ≤ j → relId j = s.pool.relId j ∧ dirty j = s.pool.dirty j) ∧
      Shows (cache file ⟨⟨{s.pool with relId := relId, dirty := dirty}, s.rdNblocks, s.disk, s.ret⟩,
        s.written, s.pending⟩) s.written := by
  induction n with
  | zero => exact ⟨_, _, rfl, fun _ _ => ⟨rfl, rfl⟩, h.shows⟩
  | succ n ih =>
    obtain ⟨relId, dirty, heq, hrest, hshows⟩ := ih (by omega)
    obtain ⟨hrel, hdirty⟩ := hrest n (le_refl n)
    have hpend := hs.1 n (by omega)
    have hdisk := hs.2 n (by omega)
    rw [syncLocal, heq]
    dsimp only
    by_cases hd : dirty n = true
    · refine ⟨update relId n 0, update dirty n false, ?_, fun j hj => ?_, ?_⟩
      · rw [if_pos hd]
        exact congrArg (Prod.mk _) (writeOut_unnamed (h.unnamed n))
      · have hjn : j ≠ n := by omega
        rw [update_of_ne hjn, update_of_ne hjn]
        exact hrest j (by omega)
      · refine hshows.drop (i := n) (k := (0, 0)) ⟨fun j hj => ?_, fun _ _ => rfl, fun j hj => ?_, fun _ _ => rfl,
          fun _ _ => rfl⟩ (if_neg fun e => e.2 (update_self ..)) rfl (fun _ _ => hpend) fun k hk _ => ?_
        · simp only [cache, update_of_ne hj]
        · exact update_of_ne hj ..
        · obtain ⟨-, -, rfl⟩ := key_cache hk
          have := hdisk (hdirty ▸ hd)
          rw [LocalTrace.OnDisk, ← hrel] at this
          exact this
    · exact ⟨relId, dirty, if_neg hd, fun j hj => hrest j (by omega), hshows⟩

theorem inv_sync (h : LocalInv file s) (hs : s.Harmless file .localBufferSync) :
    LocalInv file ⟨⟨(localBufferSync db s.pool s.disk).1, s.rdNblocks, (localBufferSync db s.pool s.disk).2, s.ret⟩,
      s.written, s.pending⟩ := by
  obtain ⟨relId, dirty, heq, -, hshows⟩ := syncLocal_spec db h hs (le_refl _)
  rw [localBufferSync, heq]
  refine ⟨hshows, fun j hj => ?_, fun j hj => absurd hj (lt_irrefl 0), h.fresh, h.unnamed⟩
  have := hs.1 j (h.pinned j hj).1
  rw [show s.pending j = true from hj] at this
  cases this

/-- What `LocalBufferAlloc` returns: the buffer that has the block, or a victim. -/
theorem localBufferAlloc_cases {disk : Disk Page} {rel : Relation} {b : Nat}
    {c : Nat × Bool × LocalPool Page × Disk Page} (hn : ∀ i, s.pool.sbRelname i = "")
    (hc : localBufferAlloc db s.pool disk rel b = some c) :
    (∃ i, s.pool.search rel.rdId b = some i ∧
        c = (i, true, {s.pool with refcount := update s.pool.refcount i (s.pool.refcount i + 1)}, disk)) ∨
      ∃ v, s.pool.search rel.rdId b = none ∧ s.pool.victim = some v ∧
        c = (v, false,
          {s.pool with
            refcount := update s.pool.refcount v (s.pool.refcount v + 1)
            nextFreeLocalBuf := (v + 1) % s.pool.nlocBuffer
            relId := update s.pool.relId v rel.rdId
            blockNum := update s.pool.blockNum v b
            dirty := update s.pool.dirty v false}, disk) := by
  unfold localBufferAlloc at hc
  cases hs : s.pool.search rel.rdId b with
  | some i =>
    rw [hs] at hc
    exact .inl ⟨i, rfl, (some.inj hc).symm⟩
  | none =>
    rw [hs] at hc
    cases hv : s.pool.victim with
    | none => rw [hv] at hc; cases hc
    | some v =>
      rw [hv] at hc
      refine .inr ⟨v, rfl, rfl, ?_⟩
      simp only [writeOut_unnamed (hn v), ite_self, some.injEq] at hc
      exact hc.symm

section Read
variable {disk : Disk Page} {rdNblocks : Oid → Nat} {written : Oid × Nat → Page} {ret : Option Nat}

/-- A buffer that has the block already; a new block is zero-filled in it. -/
theorem inv_found {data : Nat → Page} (h : LocalInv file s) (hi : i < s.pool.nlocBuffer) (hv : s.pool.relId i ≠ 0)
    (hdisk : ∀ f b, mdread disk f b = mdread s.disk f b) (hn : ∀ o, s.rdNblocks o ≤ rdNblocks o)
    (hdata : ∀ j, j ≠ i → data j = s.pool.data j)
    (hw : ∀ k, k ≠ (s.pool.relId i, s.pool.blockNum i) → written k = s.written k)
    (hv' : data i = s.pool.data i ∧ written = s.written ∨ data i = written (s.pool.relId i, s.pool.blockNum i) ∧
      data i = mdread s.disk (file (s.pool.relId i)) (s.pool.blockNum i)) :
    LocalInv file ⟨⟨{s.pool with
      refcount := update s.pool.refcount i (s.pool.refcount i + 1)
      data := data}, rdNblocks, disk, ret⟩, written, s.pending⟩ := by
  have hkey : (s.cache file).key i = _ := cache_key hi hv
  refine ⟨h.shows.touch (i := i) ⟨fun _ _ => rfl, fun j hj => hdata j hj, fun _ _ => rfl, fun _ _ => rfl,
    fun k _ => hdisk ..⟩ hkey hkey hw (fun hp => ?_) (fun hd hp => ?_), fun j hj => ?_, fun j hj => ?_,
    fun o b hb => (hdisk ..).trans (h.fresh o b (le_trans (hn o) hb)), h.unnamed⟩
  · rcases hv' with ⟨hsame, rfl⟩ | ⟨hnew, -⟩
    · exact hsame.trans (h.shows.current i _ hkey hp)
    · exact hnew
  · rcases hv' with ⟨hsame, -⟩ | ⟨-, hzero⟩
    · exact hsame.trans ((h.shows.clean i _ hkey hd hp).trans (hdisk ..).symm)
    · exact hzero.trans (hdisk ..).symm
  · obtain ⟨hlt, hcount⟩ := h.pinned j hj
    refine ⟨hlt, ?_⟩
    by_cases hji : j = i
    · subst hji; simp
    · simpa [hji] using hcount
  · by_cases hji : j = i
    · exact hji ▸ hv
    · exact h.valid j ((update_of_ne hji _ s.pool.refcount) ▸ hj)

/-- A victim that gets the block, with contents that the file has too. -/
theorem inv_loaded {rel : Relation} {b v nextFree : Nat} {page : Page} (h : LocalInv file s)
    (hsearch : s.pool.search rel.rdId b = none) (hvictim : s.pool.victim = some v) (hrel : rel.rdId ≠ 0)
    (hclean : s.pool.dirty v = true → s.OnDisk file v)
    (hdisk : ∀ f b, mdread disk f b = mdread s.disk f b) (hn : ∀ o, s.rdNblocks o ≤ rdNblocks o)
    (hpage : page = mdread s.disk (file rel.rdId) b) (hw : ∀ k, k ≠ (rel.rdId, b) → written k = s.written k)
    (hwk : written (rel.rdId, b) = page) :
    LocalInv file ⟨⟨{s.pool with
      refcount := update s.pool.refcount v (s.pool.refcount v + 1)
      nextFreeLocalBuf := nextFree
      relId := update s.pool.relId v rel.rdId
      blockNum := update s.pool.blockNum v b
      dirty := update s.pool.dirty v false
      data := update s.pool.data v page}, rdNblocks, disk, ret⟩, written, s.pending⟩ := by
  obtain ⟨hlt, hzero⟩ := victim_some hvictim
  have hpend : s.pending v = false := by
    cases hp : s.pending v with
    | false => rfl
    | true => exact absurd (h.pinned v hp).2 (by omega)
  have hdrop : Shows {s.cache file with key := update (s.cache file).key v none} s.written :=
    h.shows.drop (i := v) (k := (rel.rdId, b)) ⟨fun j hj => update_of_ne hj .., fun _ _ => rfl, fun _ _ => rfl, fun _ _ => rfl,
      fun _ _ => rfl⟩ (update_self ..) rfl (fun _ _ => hpend) fun k hk hd => by
        obtain ⟨-, -, rfl⟩ := key_cache hk
        exact hclean hd
  have habsent (j : Nat) : update (s.cache file).key v none j ≠ some (rel.rdId, b) := by
    intro hj
    have hjv : j ≠ v := by rintro rfl; rw [update_self] at hj; cases hj
    rw [update_of_ne hjv] at hj
    obtain ⟨hjlt, -, hk⟩ := key_cache hj
    exact search_none hsearch hjlt (congrArg Prod.fst hk).symm (congrArg Prod.snd hk).symm
  refine ⟨hdrop.fill (i := v) (k := (rel.rdId, b)) ⟨fun j hj => ?_, fun j hj => update_of_ne hj ..,
    fun j hj => update_of_ne hj .., fun _ _ => rfl, fun k _ => hdisk ..⟩ (update_self ..) ?_ habsent
    hw ?_ ?_, fun j hj => ?_, fun j hj => ?_, fun o b hb => (hdisk ..).trans (h.fresh o b (le_trans (hn o) hb)),
    h.unnamed⟩
  · simp only [cache, update_of_ne hj]
  · simp [cache, hlt, hrel]
  · exact hwk.trans (hpage.trans (hdisk ..).symm)
  · exact (update_self ..).trans (hpage.trans (hdisk ..).symm)
  · obtain ⟨hjlt, hcount⟩ := h.pinned j hj
    have hjv : j ≠ v := by rintro rfl; omega
    exact ⟨hjlt, by simpa [hjv] using hcount⟩
  · by_cases hjv : j = v
    · subst hjv; simpa using hrel
    · simp only [update_of_ne hjv] at hj ⊢
      exact h.valid j hj

end Read

/-- The block that `ReadBuffer` asks for. -/
def LocalTrace.block (s : LocalTrace Page) (rel : Relation) (blockNum : Option Nat) : Nat :=
  blockNum.getD (s.rdNblocks rel.rdId)

/-- A read keeps the invariant, and returns the block with what was written to it last. -/
theorem read_spec {rel : Relation} {blockNum : Option Nat} {t : LocalSys Page} (h : LocalInv file s)
    (hok : s.Harmless file (.readBuffer rel blockNum)) (hs : readLocal db s.toLocalSys rel blockNum = some t) :
    LocalInv file (s.record (.readBuffer rel blockNum) t) ∧ ∃ i, t.ret = some i ∧ t.pool.relId i = rel.rdId ∧
      t.pool.blockNum i = s.block rel blockNum ∧
      (blockNum = none ∨ s.pending i = false → t.pool.data i =
        (s.record (.readBuffer rel blockNum) t).written (rel.rdId, s.block rel blockNum)) := by
  obtain ⟨⟨hrel, hfile⟩, hclean⟩ := hok
  have hmono (o : Oid) : s.rdNblocks o ≤ update s.rdNblocks rel.rdId (s.rdNblocks rel.rdId + 1) o := by
    by_cases ho : o = rel.rdId
    · subst ho; simp
    · exact le_of_eq (update_of_ne ho ..).symm
  have hzero : mdread s.disk (file rel.rdId) (s.rdNblocks rel.rdId) = 0 := h.fresh _ _ (le_refl _)
  unfold readLocal at hs
  obtain ⟨c, hc, rfl⟩ := map_eq_some_iff.mp hs
  obtain ⟨i, hsearch, rfl⟩ | ⟨v, hsearch, hvictim, rfl⟩ := localBufferAlloc_cases h.unnamed hc
  · obtain ⟨hi, hid, hblk⟩ := search_some hsearch
    have hv : s.pool.relId i ≠ 0 := hid ▸ hrel
    cases blockNum with
    | none =>
      have hpair : (s.pool.relId i, s.pool.blockNum i) = (rel.rdId, s.rdNblocks rel.rdId) := Prod.ext hid hblk
      refine ⟨inv_found h hi hv (fun f b => mdread_mdextend ..) hmono (fun j hj => update_of_ne hj ..)
        (fun k hk => update_of_ne (hpair ▸ hk) ..) (.inr ⟨?_, ?_⟩), i, rfl, hid, hblk, fun _ => ?_⟩
      · rw [hpair]
        simp
      · rw [hid, show s.pool.blockNum i = s.rdNblocks rel.rdId from hblk, hzero]
        simp
      · simp [record, block]
    | some b =>
      refine ⟨inv_found h hi hv (fun _ _ => rfl) (fun _ => le_refl _) (fun _ _ => rfl) (fun _ _ => rfl)
        (.inl ⟨rfl, rfl⟩), i, rfl, hid, hblk, fun hp => ?_⟩
      have := h.shows.current i _ (cache_key hi hv) (hp.resolve_left nofun)
      rw [hid, show s.pool.blockNum i = b from hblk] at this
      exact this
  · have hvd (hd : s.pool.dirty v = true) : s.OnDisk file v := hclean hsearch v hvictim hd
    cases blockNum with
    | none =>
      refine ⟨inv_loaded h hsearch hvictim hrel hvd (fun f b => mdread_mdextend ..) hmono hzero.symm
        (fun k hk => update_of_ne hk ..) (update_self ..), v, rfl, update_self ..,
        update_self .., fun _ => ?_⟩
      simp [record, block]
    | some b =>
      have hsame : s.written (rel.rdId, b) = mdread s.disk (file rel.rdId) b := by
        refine h.shows.absent (rel.rdId, b) fun j hj => ?_
        obtain ⟨hjlt, -, hk⟩ := key_cache hj
        exact search_none hsearch hjlt (congrArg Prod.fst hk).symm (congrArg Prod.snd hk).symm
      refine ⟨inv_loaded h hsearch hvictim hrel hvd (fun _ _ => rfl) (fun _ => le_refl _) (by rw [hfile])
        (fun _ _ => rfl) (by rw [hfile]; exact hsame), v, rfl, update_self .., update_self ..,
        fun _ => ?_⟩
      refine (update_self ..).trans ?_
      rw [hfile]
      exact hsame.symm

/-- A step keeps the invariant, and a dirty buffer that it cleans has its contents in the file. -/
theorem step_spec {a : LocalAct Page} {t : LocalTrace Page} (h : LocalInv file s) (hok : s.Harmless file a)
    (hs : traceStep db s a = some t) :
    LocalInv file t ∧ ∀ i, i < s.pool.nlocBuffer → s.pool.dirty i = true → t.pool.dirty i = false →
      mdread t.disk (file (s.pool.relId i)) (s.pool.blockNum i) = s.pool.data i := by
  obtain ⟨u, hu, rfl⟩ := map_eq_some_iff.mp hs
  cases a with
  | readBuffer rel blockNum =>
    refine ⟨(read_spec h hok hu).1, fun i hi hd hd' => ?_⟩
    unfold localStep readLocal at hu
    obtain ⟨c, hc, rfl⟩ := map_eq_some_iff.mp hu
    obtain ⟨j, -, rfl⟩ | ⟨v, hsearch, hvictim, rfl⟩ := localBufferAlloc_cases h.unnamed hc
    · cases blockNum <;> exact absurd (hd.symm.trans hd') nofun
    · have hdisk (hiv : i = v) : s.OnDisk file i := hok.2 hsearch i (hiv ▸ hvictim) hd
      have hiv : i = v := by
        by_contra hne
        have : update s.pool.dirty v false i = false := by cases blockNum <;> exact hd'
        rw [update_of_ne hne, hd] at this
        cases this
      cases blockNum with
      | none => exact (mdread_mdextend ..).trans (hdisk hiv).symm
      | some b => exact (hdisk hiv).symm
  | modify i page =>
    simp only [localStep] at hu
    split_ifs at hu with hp
    cases hu
    exact ⟨inv_modify h hp, fun j hj hd hd' => absurd (hd.symm.trans hd') nofun⟩
  | writeLocalBuffer i release =>
    simp only [localStep] at hu
    split_ifs at hu with hp
    cases hu
    refine ⟨inv_written h hp nofun, fun j hj hd hd' => ?_⟩
    have hdirty : (writeLocalBuffer s.pool i release).dirty j = update s.pool.dirty i true j := by
      rw [writeLocalBuffer, releaseIf_eq]
    rw [show (writeLocalBuffer s.pool i release).dirty j = false from hd'] at hdirty
    by_cases hji : j = i
    · rw [hji, update_self] at hdirty; cases hdirty
    · rw [update_of_ne hji, hd] at hdirty; cases hdirty
  | flushLocalBuffer i release =>
    simp only [localStep] at hu
    split_ifs at hu with hp
    cases hu
    have hdisk : (flushLocalBuffer db s.pool s.disk i release).2 = s.disk := writeOut_unnamed (h.unnamed i)
    have hon : s.OnDisk file i := hok.2
    rw [record, hdisk]
    refine ⟨inv_written h hp fun _ => hon, fun j hj hd hd' => ?_⟩
    have hdirty : (flushLocalBuffer db s.pool s.disk i release).1.dirty j = update s.pool.dirty i false j := by
      rw [flushLocalBuffer, releaseIf_eq]
    rw [show (flushLocalBuffer db s.pool s.disk i release).1.dirty j = false from hd'] at hdirty
    by_cases hji : j = i
    · exact hji ▸ hon.symm
    · rw [update_of_ne hji, hd] at hdirty; cases hdirty
  | releaseBuffer i =>
    simp only [localStep] at hu
    split_ifs at hu with hp
    cases hu
    refine ⟨inv_release h hok.1, fun j hj hd hd' => ?_⟩
    have hdirty : (s.pool.releaseIf i true).dirty j = s.pool.dirty j := by rw [releaseIf_eq]
    exact absurd ((hdirty.trans hd).symm.trans hd') nofun
  | localBufferSync =>
    cases hu
    refine ⟨inv_sync h hok, fun j hj hd _ => ?_⟩
    obtain ⟨relId, dirty, heq, -⟩ := syncLocal_spec db h hok (le_refl _)
    have hdisk : (localBufferSync db s.pool s.disk).2 = s.disk := by rw [localBufferSync, heq]
    show mdread (localBufferSync db s.pool s.disk).2 _ _ = _
    rw [hdisk]
    exact (hok.2 j hj hd).symm

end Steps

/-! ### Histories -/

/-- The local buffers show the blocks of the relations, at a state of a history: no block has
two buffers, what is evicted, flushed or synced is in its block, and a read returns what was
written last. -/
structure LocalTrace.BlockMap (db : Oid) (file : Oid → File) (Ok : LocalTrace Page → LocalAct Page → Prop)
    (s : LocalTrace Page) : Prop where
  single : ∀ i j, i < s.pool.nlocBuffer → j < s.pool.nlocBuffer → s.pool.relId i ≠ 0 →
    s.pool.relId i = s.pool.relId j → s.pool.blockNum i = s.pool.blockNum j → i = j
  stored : ∀ a t, Ok s a → traceStep db s a = some t → ∀ i, i < s.pool.nlocBuffer → s.pool.dirty i = true →
    t.pool.dirty i = false → mdread t.disk (file (s.pool.relId i)) (s.pool.blockNum i) = s.pool.data i
  read : ∀ rel blockNum t, Ok s (.readBuffer rel blockNum) → traceStep db s (.readBuffer rel blockNum) = some t →
    ∃ i, t.ret = some i ∧ t.pool.relId i = rel.rdId ∧ t.pool.blockNum i = s.block rel blockNum ∧
      (blockNum = none ∨ s.pending i = false → t.pool.data i = t.written (rel.rdId, s.block rel blockNum))

section Histories
variable {s : LocalTrace Page} {N : Nat} {memory : Nat → Page} {disk : Disk Page}

theorem inv_traceStart : LocalInv file (traceStart N memory disk file) := by
  have hkey (i : Nat) : ((traceStart N memory disk file).cache file).key i = none := if_neg fun e => e.2 rfl
  refine ⟨⟨fun i j k hi => ?_, fun i k hi => ?_, fun i k hi => ?_, fun k _ => rfl⟩, nofun, fun i hi => ?_,
    fun o b hb => List.getD_eq_default _ _ hb, fun _ => rfl⟩
  · rw [hkey] at hi; cases hi
  · rw [hkey] at hi; cases hi
  · rw [hkey] at hi; cases hi
  · exact absurd hi (lt_irrefl 0)

/-- **Local buffers show each block as it was written last, in every history in which no
buffer that is evicted, flushed or synced differs from its block.** -/
theorem local_block_map (h : Reaches (traceStep db) (LocalTrace.Harmless file) (traceStart N memory disk file) s) :
    s.BlockMap db file (LocalTrace.Harmless file) := by
  have hinv : LocalInv file s := h.keeps inv_traceStart fun t a u hok hs ht => (step_spec ht hok hs).1
  refine ⟨fun i j hi hj hv hrel hblk => ?_, fun a t hok hs => (step_spec hinv hok hs).2,
    fun rel blockNum t hok hs => ?_⟩
  · refine hinv.shows.unique i j _ (cache_key hi hv) ?_
    rw [cache_key hj (hrel ▸ hv), hrel, hblk]
  · obtain ⟨u, hu, rfl⟩ := map_eq_some_iff.mp hs
    obtain ⟨-, i, hi, hrel, hblk, hdata⟩ := read_spec hinv hok hu
    cases blockNum <;> exact ⟨i, hi, hrel, hblk, hdata⟩

end Histories

section Decidable
variable [DecidableEq Page] {file : Oid → File} {s : LocalTrace Page} {i : Nat}

instance : Decidable (s.OnDisk file i) := inferInstanceAs (Decidable (_ = _))

instance legalDecidable (a : LocalAct Page) : Decidable (s.Legal file a) :=
  match a with
  | .readBuffer .. => inferInstanceAs (Decidable (_ ∧ _))
  | .releaseBuffer _ => inferInstanceAs (Decidable (_ → _))
  | .localBufferSync => inferInstanceAs (Decidable (∀ i, i < s.pool.nlocBuffer → s.pending i = false))
  | .modify .. | .writeLocalBuffer .. | .flushLocalBuffer .. => isTrue trivial

instance (a : LocalAct Page) : Decidable (s.NothingToWrite file a) :=
  match a with
  | .readBuffer .. => inferInstanceAs (Decidable (_ → ∀ v ∈ s.pool.victim, _ → s.OnDisk file v))
  | .flushLocalBuffer i _ => inferInstanceAs (Decidable (s.OnDisk file i))
  | .localBufferSync => inferInstanceAs (Decidable (∀ i, i < s.pool.nlocBuffer → s.pool.dirty i = true → _))
  | .modify .. | .writeLocalBuffer .. | .releaseBuffer _ => isTrue trivial

instance (a : LocalAct Page) : Decidable (s.Harmless file a) := inferInstanceAs (Decidable (_ ∧ _))

end Decidable

/-- A relation that the backend has just created. -/
def scratch : Relation := ⟨⟨20000, 1⟩, "Scratch", true⟩

/-- Two new blocks, the first written and read again from its buffer. -/
def writtenTwice : List (LocalAct Nat) :=
  [.readBuffer scratch none, .modify 0 42, .writeLocalBuffer 0 true, .readBuffer scratch none,
    .readBuffer scratch (some 0)]

theorem local_block_map_writtenTwice : ∃ s : LocalTrace Nat,
    follow (traceStep 1) (LocalTrace.Harmless fun _ => scratch.file)
        (traceStart 2 (fun _ => 5) (fun _ => []) fun _ => scratch.file) writtenTwice = some s ∧
      s.ret = some 0 ∧ s.pool.data 0 = 42 ∧
      s.BlockMap 1 (fun _ => scratch.file) (LocalTrace.Harmless fun _ => scratch.file) := by
  have heval : (follow (traceStep 1) (LocalTrace.Harmless fun _ => scratch.file)
      (traceStart 2 (fun _ => 5) (fun _ => []) fun _ => scratch.file) writtenTwice).map
        (fun s => (s.ret, s.pool.data 0)) = some (some 0, 42) := by decide +kernel
  obtain ⟨s, hs, hvals⟩ := map_eq_some_iff.mp heval
  simp only [Prod.mk.injEq] at hvals
  exact ⟨s, hs, hvals.1, hvals.2, local_block_map (Reaches.start.of_follow hs)⟩

/-- A new block written and then given up by `LocalBufferSync`. -/
def writtenAndSynced : List (LocalAct Nat) :=
  [.readBuffer scratch none, .modify 0 42, .writeLocalBuffer 0 true, .localBufferSync]

/-- The next read of the block gets the zeros that it was created with. -/
theorem synced_block_lost : ¬ ∀ s : LocalTrace Nat,
    Reaches (traceStep 1) (LocalTrace.Legal fun _ => scratch.file)
      (traceStart 1 (fun _ => 5) (fun _ => []) fun _ => scratch.file) s →
    s.BlockMap 1 (fun _ => scratch.file) (LocalTrace.Legal fun _ => scratch.file) := by
  intro h
  have heval : (follow (traceStep 1) (LocalTrace.Legal fun _ => scratch.file)
      (traceStart 1 (fun _ => 5) (fun _ => []) fun _ => scratch.file) writtenAndSynced).bind
        (fun s => (traceStep 1 s (.readBuffer scratch (some 0))).map
          fun t => (s.pending 0, t.ret, t.pool.data 0, t.written (20000, 0))) = some (false, some 0, 0, 42) := by
    decide +kernel
  obtain ⟨s, hs, hmap⟩ := bind_eq_some_iff.mp heval
  obtain ⟨t, ht, hvals⟩ := map_eq_some_iff.mp hmap
  simp only [Prod.mk.injEq] at hvals
  obtain ⟨hpend, hret, hdata, hwritten⟩ := hvals
  obtain ⟨i, hi, -, -, heq⟩ := (h s (Reaches.start.of_follow hs)).read scratch (some 0) t ⟨by decide, rfl⟩ ht
  obtain rfl : 0 = i := some.inj (hret.symm.trans hi)
  have hsame := heq (.inr hpend)
  rw [hdata, show t.written (scratch.rdId, s.block scratch (some 0)) = 42 from hwritten] at hsame
  cases hsame

end PgStorage.BufMgr
