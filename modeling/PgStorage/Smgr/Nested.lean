import PgStorage.Smgr.PendingDeletes
import PgStorage.Lib.Trace

/-! The files of nested transactions.

A nested transaction stands for what it and its committed children created and dropped. Committing hands that
to the parent, aborting forgets it; the top transaction applies it. The pending deletes are these sets, entry by
entry, and the files are kept to them. -/
namespace PgStorage.Smgr
open Trace
open Function List
open Finset (mem_union mem_sdiff notMem_empty)

/-- What the open transactions created and dropped, by nesting level. -/
structure Nest where
  before : Finset RelFileNode
  level : Nat
  created : Nat → Finset RelFileNode
  dropped : Nat → Finset RelFileNode

/-- The set at a level joins that of the level below. -/
def handUp (f : Nat → Finset RelFileNode) (level : Nat) : Nat → Finset RelFileNode :=
  Function.update (Function.update f (level - 1) (f (level - 1) ∪ f level)) level ∅

namespace Nest

def start (files : Finset RelFileNode) : Nest := ⟨files, 1, fun _ => ∅, fun _ => ∅⟩

def next (n : Nest) : Act → Nest
  | .smgrcreate r => {n with created := Function.update n.created n.level (insert r (n.created n.level))}
  | .smgrscheduleunlink r => {n with dropped := Function.update n.dropped n.level (insert r (n.dropped n.level))}
  | .startSub => {n with level := n.level + 1}
  | .commitSub =>
    {n with level := n.level - 1, created := handUp n.created n.level, dropped := handUp n.dropped n.level}
  | .abortSub =>
    {n with
      level := n.level - 1
      created := Function.update n.created n.level ∅
      dropped := Function.update n.dropped n.level ∅}
  | .finish isCommit => .start (if isCommit = true then (n.before ∪ n.created 1) \ n.dropped 1 else n.before)

def marks (n : Nest) (atCommit : Bool) : Nat → Finset RelFileNode := if atCommit = true then n.dropped else n.created

end Nest

/-- The code and the nest side by side. -/
def bothNext (b : Sys × Nest) (a : Act) : Option (Sys × Nest) := (b.1.next a).map (·, b.2.next a)

/-- What the list and the files are, given the nest. -/
structure Inv (s : Sys) (n : Nest) : Prop where
  level : s.nestLevel = n.level
  pos : 1 ≤ n.level
  nodup : s.pendingDeletes.Nodup
  entry : ∀ p, p ∈ s.pendingDeletes ↔ p.relnode ∈ n.marks p.atCommit p.nestLevel
  bound : ∀ b l r, r ∈ n.marks b l → 1 ≤ l ∧ l ≤ n.level
  /-- A relation is created once and dropped once. -/
  once : ∀ b l l' r, r ∈ n.marks b l → r ∈ n.marks b l' → l = l'
  files : ∀ r, r ∈ s.files ↔ r ∈ n.before ∨ ∃ l, r ∈ n.created l
  fresh : ∀ l r, r ∈ n.created l → r ∉ n.before
  /-- A relation is dropped no further out than it was created. -/
  inner : ∀ l r, r ∈ n.dropped l → r ∈ n.before ∨ ∃ l' ≤ l, r ∈ n.created l'

section
variable {s t : Sys} {n : Nest} {r : RelFileNode} {b c : Bool} {k l : Nat} {f : Nat → Finset RelFileNode}

theorem mem_handUp (hk : 1 ≤ k) : r ∈ handUp f k l ↔ (r ∈ f l ∧ l ≠ k) ∨ (r ∈ f k ∧ l = k - 1) := by
  rw [handUp]
  by_cases hl : l = k
  · subst hl
    rw [update_self]
    exact ⟨nofun, fun h => h.elim (fun h => absurd rfl h.2) fun h => absurd h.2 (by omega)⟩
  · rw [update_of_ne hl]
    by_cases hl' : l = k - 1
    · subst hl'
      rw [update_self, mem_union]
      simp [hl]
    · rw [update_of_ne hl']
      simp [hl, hl']

theorem mem_updateInsert {q : RelFileNode} :
    q ∈ update f k (insert r (f k)) l ↔ (q = r ∧ l = k) ∨ q ∈ f l := by
  by_cases hl : l = k
  · subst hl
    simp
  · simp [hl]

theorem mem_updateEmpty : r ∈ update f k ∅ l ↔ r ∈ f l ∧ l ≠ k := by
  by_cases hl : l = k
  · simp [hl]
  · simp [hl]

theorem pendingLoop_eq (c : Bool) (k : Nat) (entries : List PendingRelDelete) (s : Sys) :
    Sys.pendingLoop c k entries s = (entries.filter (·.nestLevel < k),
      let gone := (entries.filter fun p => k ≤ p.nestLevel ∧ p.atCommit = c).map (·.relnode)
      {s with files := s.files \ gone.toFinset, unlinked := s.unlinked ++ gone}) := by
  induction entries generalizing s with
  | nil => simp [Sys.pendingLoop]
  | cons p rest ih =>
    rw [Sys.pendingLoop]
    by_cases hk : p.nestLevel < k
    · rw [if_pos hk, ih, filter_cons_of_pos (by simpa using hk), filter_cons_of_neg (by simp [hk])]
    · rw [if_neg hk, ih, filter_cons_of_neg (by simpa using hk)]
      by_cases hc : p.atCommit = c
      · rw [if_pos hc, filter_cons_of_pos (by simpa [hc] using hk)]
        have hfiles : ∀ gone : List RelFileNode,
            s.files.erase p.relnode \ gone.toFinset = s.files \ (p.relnode :: gone).toFinset := by
          intro gone
          ext r
          simp only [mem_sdiff, Finset.mem_erase, mem_toFinset, mem_cons, not_or]
          exact ⟨fun h => ⟨h.1.2, h.1.1, h.2⟩, fun h => ⟨⟨h.2.1, h.1⟩, h.2.2⟩⟩
        rw [map_cons, Sys.smgrInternalUnlink]
        dsimp only
        rw [hfiles, append_assoc]
        rfl
      · rw [if_neg hc, filter_cons_of_neg (by simp [hc])]

theorem doPendingDeletes_eq (s : Sys) (c : Bool) : s.smgrDoPendingDeletes c =
    {s with
      files := s.files \ (s.smgrGetPendingDeletes c).toFinset
      unlinked := s.unlinked ++ s.smgrGetPendingDeletes c
      pendingDeletes := s.pendingDeletes.filter (·.nestLevel < s.nestLevel)} := by
  rw [Sys.smgrDoPendingDeletes, pendingLoop_eq]
  rfl

/-- The innermost transaction's entries are at the current level. -/
theorem Inv.mem_pending (h : Inv s n) : r ∈ s.smgrGetPendingDeletes c ↔ r ∈ n.marks c n.level := by
  simp only [Sys.smgrGetPendingDeletes, mem_map, mem_filter, decide_eq_true_eq]
  constructor
  · rintro ⟨p, ⟨hp, hl, rfl⟩, rfl⟩
    have hm := (h.entry p).mp hp
    have hle := (h.bound _ _ _ hm).2
    rw [h.level] at hl
    rwa [le_antisymm hle hl] at hm
  · intro hr
    exact ⟨⟨r, c, n.level⟩, ⟨(h.entry _).mpr hr, h.level.le, rfl⟩, rfl⟩

theorem Inv.nodup_pending (h : Inv s n) : (s.smgrGetPendingDeletes c).Nodup := by
  refine List.Nodup.map_on (fun p hp q hq he => ?_) (h.nodup.filter _)
  obtain ⟨hp, hpc⟩ := mem_filter.mp hp
  obtain ⟨hq, hqc⟩ := mem_filter.mp hq
  have hpc' : p.atCommit = c := (of_decide_eq_true hpc).2
  have hqc' : q.atCommit = c := (of_decide_eq_true hqc).2
  have hp' := (h.entry p).mp hp
  have hq' := (h.entry q).mp hq
  rw [hpc', he] at hp'
  rw [hqc'] at hq'
  obtain ⟨pr, pc, pl⟩ := p
  obtain ⟨qr, qc, ql⟩ := q
  cases he
  cases hpc'
  cases hqc'
  cases h.once _ _ _ _ hp' hq'
  rfl

theorem Inv.pending_files (h : Inv s n) : ∀ r ∈ s.smgrGetPendingDeletes c, r ∈ s.files := by
  intro r hr
  have hm := h.mem_pending.mp hr
  rw [h.files]
  cases c with
  | true => exact (h.inner _ _ hm).imp_right fun ⟨l, _, hl⟩ => ⟨l, hl⟩
  | false => exact .inr ⟨_, hm⟩

/-! ### Steps -/

theorem Inv.smgrcreate (h : Inv s n) (hr : r ∉ s.files) : Inv (s.smgrcreate r) (n.next (.smgrcreate r)) := by
  have hnew : ∀ l, r ∉ n.created l := fun l hl => hr ((h.files r).mpr (.inr ⟨l, hl⟩))
  have hmem : ∀ q l, q ∈ (n.next (.smgrcreate r)).created l ↔ (q = r ∧ l = n.level) ∨ q ∈ n.created l :=
    fun q l => mem_updateInsert
  constructor
  · exact h.level
  · exact h.pos
  · refine nodup_cons.mpr ⟨fun hp => ?_, h.nodup⟩
    exact hnew _ ((h.entry _).mp hp)
  · intro p
    rw [Sys.smgrcreate, mem_cons, h.entry, h.level]
    cases hc : p.atCommit with
    | true => exact ⟨fun hp => hp.resolve_left fun he => by rw [he] at hc; exact absurd hc nofun, .inr⟩
    | false =>
      refine (or_congr_left ?_).trans (hmem _ _).symm
      obtain ⟨pr, pc, pl⟩ := p
      cases hc
      simp
  · intro b l q hq
    cases b with
    | true => exact h.bound true l q hq
    | false =>
      rcases (hmem q l).mp hq with ⟨-, rfl⟩ | hq
      · exact ⟨h.pos, le_rfl⟩
      · exact h.bound false l q hq
  · intro b l l' q hq hq'
    cases b with
    | true => exact h.once true l l' q hq hq'
    | false =>
      rcases (hmem q l).mp hq with ⟨rfl, rfl⟩ | hq <;> rcases (hmem q l').mp hq' with ⟨hqr, rfl⟩ | hq'
      · rfl
      · exact absurd hq' (hnew l')
      · exact absurd (hqr ▸ hq) (hnew l)
      · exact h.once false l l' q hq hq'
  · intro q
    rw [Sys.smgrcreate, Finset.mem_insert, h.files]
    constructor
    · rintro (rfl | hq | ⟨l, hl⟩)
      · exact .inr ⟨n.level, (hmem q n.level).mpr (.inl ⟨rfl, rfl⟩)⟩
      · exact .inl hq
      · exact .inr ⟨l, (hmem q l).mpr (.inr hl)⟩
    · rintro (hq | ⟨l, hl⟩)
      · exact .inr (.inl hq)
      · exact ((hmem q l).mp hl).imp (fun hl => hl.1) fun hl => .inr ⟨l, hl⟩
  · intro l q hq
    rcases (hmem q l).mp hq with ⟨rfl, -⟩ | hq
    · exact fun hb => hr ((h.files q).mpr (.inl hb))
    · exact h.fresh l q hq
  · intro l q hq
    exact (h.inner l q hq).imp_right fun ⟨l', hle, hl'⟩ => ⟨l', hle, (hmem q l').mpr (.inr hl')⟩

theorem Inv.smgrscheduleunlink (h : Inv s n) (hr : r ∈ s.files)
    (hlive : ∀ p ∈ s.pendingDeletes, p.relnode = r → p.atCommit = false) :
    Inv (s.smgrscheduleunlink r) (n.next (.smgrscheduleunlink r)) := by
  have hnew : ∀ l, r ∉ n.dropped l := fun l hl => absurd (hlive ⟨r, true, l⟩ ((h.entry _).mpr hl) rfl) nofun
  have hmem : ∀ q l, q ∈ (n.next (.smgrscheduleunlink r)).dropped l ↔ (q = r ∧ l = n.level) ∨ q ∈ n.dropped l :=
    fun q l => mem_updateInsert
  constructor
  · exact h.level
  · exact h.pos
  · refine nodup_cons.mpr ⟨fun hp => ?_, h.nodup⟩
    exact hnew _ ((h.entry _).mp hp)
  · intro p
    rw [Sys.smgrscheduleunlink, mem_cons, h.entry, h.level]
    cases hc : p.atCommit with
    | false => exact ⟨fun hp => hp.resolve_left fun he => by rw [he] at hc; exact absurd hc nofun, .inr⟩
    | true =>
      refine (or_congr_left ?_).trans (hmem _ _).symm
      obtain ⟨pr, pc, pl⟩ := p
      cases hc
      simp
  · intro b l q hq
    cases b with
    | false => exact h.bound false l q hq
    | true =>
      rcases (hmem q l).mp hq with ⟨-, rfl⟩ | hq
      · exact ⟨h.pos, le_rfl⟩
      · exact h.bound true l q hq
  · intro b l l' q hq hq'
    cases b with
    | false => exact h.once false l l' q hq hq'
    | true =>
      rcases (hmem q l).mp hq with ⟨rfl, rfl⟩ | hq <;> rcases (hmem q l').mp hq' with ⟨hqr, rfl⟩ | hq'
      · rfl
      · exact absurd hq' (hnew l')
      · exact absurd (hqr ▸ hq) (hnew l)
      · exact h.once true l l' q hq hq'
  · exact h.files
  · exact h.fresh
  · intro l q hq
    rcases (hmem q l).mp hq with ⟨rfl, rfl⟩ | hq
    · refine ((h.files q).mp hr).imp_right fun ⟨l', hl'⟩ => ⟨l', ?_, hl'⟩
      exact (h.bound false l' q hl').2
    · exact h.inner l q hq

theorem Inv.startSub (h : Inv s n) : Inv {s with nestLevel := s.nestLevel + 1} (n.next .startSub) :=
  {h with
    level := congrArg (· + 1) h.level
    pos := Nat.le_add_left 1 n.level
    bound := fun b l r hr => ⟨(h.bound b l r hr).1, (h.bound b l r hr).2.trans (Nat.le_succ _)⟩}

theorem mem_marks_commitSub (hk : 1 ≤ n.level) : r ∈ (n.next .commitSub).marks b l ↔
    (r ∈ n.marks b l ∧ l ≠ n.level) ∨ (r ∈ n.marks b n.level ∧ l = n.level - 1) := by
  cases b <;> exact mem_handUp hk

theorem mem_marks_abortSub : r ∈ (n.next .abortSub).marks b l ↔ r ∈ n.marks b l ∧ l ≠ n.level := by
  cases b <;> exact mem_updateEmpty

/-- The entries of the level move with the sets. -/
theorem Inv.commitSub (h : Inv s n) (hk : 1 < s.nestLevel) :
    Inv {s.atSubCommitSmgr with nestLevel := s.nestLevel - 1} (n.next .commitSub) := by
  have hk' : 1 < n.level := h.level ▸ hk
  have hmem : ∀ b l r, r ∈ (n.next .commitSub).marks b l ↔
      (r ∈ n.marks b l ∧ l ≠ n.level) ∨ (r ∈ n.marks b n.level ∧ l = n.level - 1) :=
    fun b l r => mem_marks_commitSub hk'.le
  have hcreated : ∀ r, (∃ l, r ∈ (n.next .commitSub).created l) ↔ ∃ l, r ∈ n.created l := by
    refine fun r => ⟨fun ⟨l, hl⟩ => ?_, fun ⟨l, hl⟩ => ?_⟩
    · exact ((hmem false l r).mp hl).elim (fun hx => ⟨l, hx.1⟩) fun hx => ⟨n.level, hx.1⟩
    · by_cases hln : l = n.level
      · exact ⟨n.level - 1, (hmem false _ r).mpr (.inr ⟨hln ▸ hl, rfl⟩)⟩
      · exact ⟨l, (hmem false l r).mpr (.inl ⟨hl, hln⟩)⟩
  constructor
  · exact congrArg (· - 1) h.level
  · exact Nat.le_pred_of_lt hk'
  · refine h.nodup.map_on fun p hp q hq he => ?_
    have hp' := (h.entry p).mp hp
    have hq' := (h.entry q).mp hq
    have hrel : p.relnode = q.relnode := by
      have := congrArg PendingRelDelete.relnode he
      split_ifs at this <;> exact this
    have hcom : p.atCommit = q.atCommit := by
      have := congrArg PendingRelDelete.atCommit he
      split_ifs at this <;> exact this
    obtain ⟨pr, pc, pl⟩ := p
    obtain ⟨qr, qc, ql⟩ := q
    cases hrel
    cases hcom
    cases h.once _ _ _ _ hp' hq'
    rfl
  · intro p
    rw [Sys.atSubCommitSmgr, mem_map, hmem]
    constructor
    · rintro ⟨q, hq, rfl⟩
      have hq' := (h.entry q).mp hq
      have hle := (h.bound _ _ _ hq').2
      split
      next hl =>
        rw [h.level] at hl
        exact .inr ⟨le_antisymm hle hl ▸ hq', congrArg (· - 1) h.level⟩
      next hl =>
        rw [h.level] at hl
        exact .inl ⟨hq', by omega⟩
    · rintro (⟨hp, hl⟩ | ⟨hp, hl⟩)
      · have hle := (h.bound _ _ _ hp).2
        exact ⟨p, (h.entry p).mpr hp, if_neg (by rw [h.level]; omega)⟩
      · refine ⟨{p with nestLevel := n.level}, (h.entry _).mpr hp, ?_⟩
        rw [if_pos h.level.le, h.level, ← hl]
  · intro b l r hr
    change 1 ≤ l ∧ l ≤ n.level - 1
    rcases (hmem b l r).mp hr with ⟨hx, hne⟩ | ⟨-, rfl⟩
    · have := h.bound b l r hx
      omega
    · omega
  · intro b l l' r hr hr'
    rcases (hmem b l r).mp hr with ⟨hx, hne⟩ | ⟨hx, rfl⟩ <;>
      rcases (hmem b l' r).mp hr' with ⟨hx', hne'⟩ | ⟨hx', rfl⟩
    · exact h.once b l l' r hx hx'
    · exact absurd (h.once b _ _ r hx hx') hne
    · exact absurd (h.once b _ _ r hx' hx) hne'
    · rfl
  · intro r
    exact (h.files r).trans (or_congr_right (hcreated r).symm)
  · intro l r hr
    obtain ⟨l', hl'⟩ := (hcreated r).mp ⟨l, hr⟩
    exact h.fresh l' r hl'
  · intro l r hr
    have hout : ∀ l', r ∈ n.created l' → l' ≤ n.level → ∃ l'' ≤ l', l'' ≤ n.level - 1 ∧
        r ∈ (n.next .commitSub).created l'' := by
      intro l' hl' hle
      by_cases hln : l' = n.level
      · exact ⟨n.level - 1, by omega, le_rfl, (hmem false _ r).mpr (.inr ⟨hln ▸ hl', rfl⟩)⟩
      · exact ⟨l', le_rfl, by omega, (hmem false l' r).mpr (.inl ⟨hl', hln⟩)⟩
    rcases (hmem true l r).mp hr with ⟨hx, hne⟩ | ⟨hx, rfl⟩
    · refine (h.inner l r hx).imp_right fun ⟨l', hle, hl'⟩ => ?_
      obtain ⟨l'', hle', -, hl''⟩ := hout l' hl' (h.bound false l' r hl').2
      exact ⟨l'', hle'.trans hle, hl''⟩
    · refine (h.inner _ r hx).imp_right fun ⟨l', hle, hl'⟩ => ?_
      obtain ⟨l'', -, hle', hl''⟩ := hout l' hl' hle
      exact ⟨l'', hle', hl''⟩

/-- What the subtransaction created is unlinked, and nothing further out mentions it. -/
theorem Inv.abortSub (h : Inv s n) (hk : 1 < s.nestLevel) :
    Inv {s.atSubAbortSmgr with nestLevel := s.nestLevel - 1} (n.next .abortSub) := by
  have hk' : 1 < n.level := h.level ▸ hk
  have hmem : ∀ b l r, r ∈ (n.next .abortSub).marks b l ↔ r ∈ n.marks b l ∧ l ≠ n.level :=
    fun b l r => mem_marks_abortSub
  rw [Sys.atSubAbortSmgr, doPendingDeletes_eq]
  constructor
  · exact congrArg (· - 1) h.level
  · exact Nat.le_pred_of_lt hk'
  · exact h.nodup.filter _
  · intro p
    rw [mem_filter, h.entry, hmem, h.level, decide_eq_true_eq]
    refine and_congr_right fun hp => ?_
    have := (h.bound _ _ _ hp).2
    omega
  · intro b l r hr
    obtain ⟨hx, hne⟩ := (hmem b l r).mp hr
    have := h.bound b l r hx
    change 1 ≤ l ∧ l ≤ n.level - 1
    omega
  · intro b l l' r hr hr'
    exact h.once b l l' r ((hmem b l r).mp hr).1 ((hmem b l' r).mp hr').1
  · intro r
    rw [mem_sdiff, mem_toFinset, h.mem_pending, h.files]
    constructor
    · rintro ⟨hr | ⟨l, hl⟩, hne⟩
      · exact .inl hr
      · exact .inr ⟨l, (hmem false l r).mpr ⟨hl, fun hln => hne (hln ▸ hl)⟩⟩
    · rintro (hr | ⟨l, hl⟩)
      · exact ⟨.inl hr, fun hx => h.fresh _ r hx hr⟩
      · obtain ⟨hl, hne⟩ := (hmem false l r).mp hl
        exact ⟨.inr ⟨l, hl⟩, fun hx => hne (h.once false _ _ r hl hx)⟩
  · intro l r hr
    exact h.fresh l r ((hmem false l r).mp hr).1
  · intro l r hr
    obtain ⟨hx, hne⟩ := (hmem true l r).mp hr
    have hle := (h.bound true l r hx).2
    refine (h.inner l r hx).imp_right fun ⟨l', hle', hl'⟩ => ⟨l', hle', (hmem false l' r).mpr ⟨hl', ?_⟩⟩
    omega

/-- **The top transaction leaves the files that its nest says.** -/
theorem Inv.finish_files (h : Inv s n) (hk : s.nestLevel = 1) :
    (s.smgrDoPendingDeletes c).files =
      if c = true then (n.before ∪ n.created 1) \ n.dropped 1 else n.before := by
  have hlevel : n.level = 1 := h.level.symm.trans hk
  have hfiles : ∀ r, r ∈ s.files ↔ r ∈ n.before ∨ r ∈ n.created 1 := by
    refine fun r => (h.files r).trans (or_congr_right ⟨fun ⟨l, hl⟩ => ?_, fun hr => ⟨1, hr⟩⟩)
    obtain ⟨h1, h2⟩ := h.bound false l r hl
    obtain rfl : l = 1 := le_antisymm (hlevel ▸ h2) h1
    exact hl
  rw [doPendingDeletes_eq]
  ext r
  rw [mem_sdiff, mem_toFinset, h.mem_pending, hfiles, hlevel]
  cases c with
  | true => rw [if_pos rfl, mem_sdiff, mem_union]; rfl
  | false =>
    rw [if_neg nofun]
    exact ⟨fun hr => hr.1.resolve_right hr.2, fun hr => ⟨.inl hr, fun hx => h.fresh 1 r hx hr⟩⟩

theorem Inv.finish_pending (h : Inv s n) (hk : s.nestLevel = 1) : (s.smgrDoPendingDeletes c).pendingDeletes = [] := by
  rw [doPendingDeletes_eq]
  refine filter_eq_nil_iff.mpr fun p hp => ?_
  have := (h.bound _ _ _ ((h.entry p).mp hp)).1
  simp only [decide_eq_true_eq]
  omega

theorem Inv.finish (h : Inv s n) (hk : s.nestLevel = 1) : Inv (s.smgrDoPendingDeletes c) (n.next (.finish c)) := by
  have hpend : (s.smgrDoPendingDeletes c).pendingDeletes = [] := h.finish_pending hk
  have hnone : ∀ b l r, r ∉ (n.next (.finish c)).marks b l := fun b l r => by cases b <;> exact notMem_empty r
  refine ⟨?_, le_rfl, hpend ▸ .nil, fun p => ?_, fun b l r hr => absurd hr (hnone b l r),
    fun b l l' r hr => absurd hr (hnone b l r), fun r => ?_, fun l r hr => absurd hr (hnone false l r),
    fun l r hr => absurd hr (hnone true l r)⟩
  · rw [doPendingDeletes_eq]
    exact hk
  · rw [hpend]
    exact ⟨nofun, fun hr => absurd hr (hnone _ _ _)⟩
  · rw [h.finish_files hk]
    exact ⟨.inl, fun hr => hr.elim id fun ⟨l, hl⟩ => absurd hl (hnone false l r)⟩

theorem Inv.next {a : Act} (h : Inv s n) (ht : s.next a = some t) : Inv t (n.next a) := by
  cases a with
  | smgrcreate r =>
    rw [Sys.next] at ht
    split at ht
    next => exact absurd ht nofun
    next hr => exact Option.some_inj.mp ht ▸ h.smgrcreate hr
  | smgrscheduleunlink r =>
    rw [Sys.next] at ht
    split at ht
    next hr => exact Option.some_inj.mp ht ▸ h.smgrscheduleunlink hr.1 hr.2
    next => exact absurd ht nofun
  | startSub => exact Option.some_inj.mp ht ▸ h.startSub
  | commitSub =>
    rw [Sys.next] at ht
    split at ht
    next hk => exact Option.some_inj.mp ht ▸ h.commitSub hk
    next => exact absurd ht nofun
  | abortSub =>
    rw [Sys.next] at ht
    split at ht
    next hk => exact Option.some_inj.mp ht ▸ h.abortSub hk
    next => exact absurd ht nofun
  | finish c =>
    rw [Sys.next] at ht
    split at ht
    next hk => exact Option.some_inj.mp ht ▸ h.finish hk
    next => exact absurd ht nofun

theorem inv_start (files : Finset RelFileNode) : Inv (.start files) (.start files) where
  level := rfl
  pos := le_rfl
  nodup := .nil
  entry := fun p => ⟨nofun, fun h => by cases hc : p.atCommit <;> rw [hc] at h <;> exact absurd h (notMem_empty _)⟩
  bound := fun b l r h => by cases b <;> exact absurd h (notMem_empty r)
  once := fun b l l' r h => by cases b <;> exact absurd h (notMem_empty r)
  files := fun r => ⟨.inl, fun h => h.elim id fun ⟨_, hl⟩ => absurd hl (notMem_empty r)⟩
  fresh := fun l r h => absurd h (notMem_empty r)
  inner := fun l r h => absurd h (notMem_empty r)

theorem inv_reaches {files : Finset RelFileNode} {x : Sys × Nest}
    (h : Reaches bothNext (fun _ _ => True) (.start files, .start files) x) : Inv x.1 x.2 := by
  refine h.keeps (P := fun x => Inv x.1 x.2) (inv_start files) fun x a y _ hy hx => ?_
  obtain ⟨t, ht, rfl⟩ := Option.map_eq_some_iff.mp hy
  exact hx.next ht

end

/-- **The pending deletes keep the files to the nest.** Whatever the transactions did so far, a step unlinks
files that exist, each once: those that an aborted subtransaction created, and at the end of the top transaction
what `smgrGetPendingDeletes` says. It leaves what was there before, or, if it commits, that with what was
created and without what was dropped by subtransactions that committed all the way up. -/
theorem pending_deletes (files : Finset RelFileNode) (s t : Sys) (n : Nest) (a : Act)
    (hr : Reaches bothNext (fun _ _ => True) (.start files, .start files) (s, n)) (ht : s.next a = some t) :
    ∃ gone, t.unlinked = s.unlinked ++ gone ∧ gone.Nodup ∧ (∀ r ∈ gone, r ∈ s.files) ∧
      (gone = [] ∨ (a = .abortSub ∧ ∀ r, r ∈ gone ↔ r ∈ n.created n.level) ∨
        ∃ c, a = .finish c ∧ gone = s.smgrGetPendingDeletes c) ∧
      (∀ r, r ∈ t.files ↔ r ∈ (n.next a).before ∨ ∃ l, r ∈ (n.next a).created l) ∧
      ∀ c, a = .finish c → t.pendingDeletes = [] ∧ t.unlinked = s.unlinked ++ s.smgrGetPendingDeletes c ∧
        t.files = if c = true then (n.before ∪ n.created 1) \ n.dropped 1 else n.before := by
  have h : Inv s n := inv_reaches hr
  have hfiles := (h.next ht).files
  have hquiet : t.unlinked = s.unlinked → (∀ c, a ≠ .finish c) → ∃ gone, t.unlinked = s.unlinked ++ gone ∧
      gone.Nodup ∧ (∀ r ∈ gone, r ∈ s.files) ∧
      (gone = [] ∨ (a = .abortSub ∧ ∀ r, r ∈ gone ↔ r ∈ n.created n.level) ∨
        ∃ c, a = .finish c ∧ gone = s.smgrGetPendingDeletes c) ∧
      (∀ r, r ∈ t.files ↔ r ∈ (n.next a).before ∨ ∃ l, r ∈ (n.next a).created l) ∧
      ∀ c, a = .finish c → t.pendingDeletes = [] ∧ t.unlinked = s.unlinked ++ s.smgrGetPendingDeletes c ∧
        t.files = if c = true then (n.before ∪ n.created 1) \ n.dropped 1 else n.before :=
    fun hsame ha => ⟨[], hsame.trans (append_nil _).symm, .nil, nofun, .inl rfl, hfiles,
      fun c hc => absurd hc (ha c)⟩
  cases a with
  | smgrcreate r =>
    rw [Sys.next] at ht
    split at ht
    next => exact absurd ht nofun
    next => exact hquiet (Option.some_inj.mp ht ▸ rfl) nofun
  | smgrscheduleunlink r | commitSub =>
    rw [Sys.next] at ht
    split at ht
    next => exact hquiet (Option.some_inj.mp ht ▸ rfl) nofun
    next => exact absurd ht nofun
  | startSub => exact hquiet (Option.some_inj.mp ht ▸ rfl) nofun
  | abortSub =>
    rw [Sys.next] at ht
    split at ht
    next =>
      refine ⟨s.smgrGetPendingDeletes false, ?_, h.nodup_pending, h.pending_files,
        .inr (.inl ⟨rfl, fun r => h.mem_pending⟩), hfiles, nofun⟩
      rw [← Option.some_inj.mp ht, Sys.atSubAbortSmgr, doPendingDeletes_eq]
    next => exact absurd ht nofun
  | finish c =>
    rw [Sys.next] at ht
    split at ht
    next hk =>
      have ht' : s.smgrDoPendingDeletes c = t := Option.some_inj.mp ht
      have hgone : t.unlinked = s.unlinked ++ s.smgrGetPendingDeletes c := by rw [← ht', doPendingDeletes_eq]
      refine ⟨s.smgrGetPendingDeletes c, hgone, h.nodup_pending, h.pending_files, .inr (.inr ⟨c, rfl, rfl⟩), hfiles,
        ?_⟩
      rintro c' hc
      cases hc
      exact ⟨ht' ▸ h.finish_pending hk, hgone, ht' ▸ h.finish_files hk⟩
    next => exact absurd ht nofun

/-- A subtransaction that commits creates a file and drops an old one, another that aborts creates one. -/
def nested : List Act :=
  [.smgrcreate ⟨0, 0, 1⟩, .startSub, .smgrcreate ⟨0, 0, 2⟩, .smgrscheduleunlink ⟨0, 0, 0⟩, .commitSub,
    .startSub, .smgrcreate ⟨0, 0, 3⟩, .abortSub]

theorem pending_deletes_nested : ∃ s t n,
    Reaches bothNext (fun _ _ => True) (.start {⟨0, 0, 0⟩}, .start {⟨0, 0, 0⟩}) (s, n) ∧
      s.next (.finish true) = some t ∧ t.pendingDeletes = [] ∧ t.unlinked = [⟨0, 0, 3⟩, ⟨0, 0, 0⟩] := by
  have heval : (follow bothNext (fun _ _ => True) (Sys.start {⟨0, 0, 0⟩}, Nest.start {⟨0, 0, 0⟩}) nested).map
      (fun x => ((x.1.next (.finish true)).isSome, x.1.unlinked, x.1.smgrGetPendingDeletes true)) =
        some (true, [⟨0, 0, 3⟩], [⟨0, 0, 0⟩]) := by
    decide +kernel
  obtain ⟨⟨s, n⟩, hs, hvals⟩ := Option.map_eq_some_iff.mp heval
  simp only [Prod.mk.injEq] at hvals
  obtain ⟨t, ht⟩ := Option.isSome_iff_exists.mp hvals.1
  have hr := Reaches.start.of_follow hs
  obtain ⟨gone, -, -, -, -, -, hfinish⟩ := pending_deletes {⟨0, 0, 0⟩} s t n (.finish true) hr ht
  obtain ⟨hpend, hunl, -⟩ := hfinish true rfl
  refine ⟨s, t, n, hr, ht, hpend, ?_⟩
  rw [hunl, hvals.2.1, hvals.2.2]
  rfl

end PgStorage.Smgr
