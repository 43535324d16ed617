import PgStorage.Sinval.Steps

/-! Renumbering the counters changes nothing that can be observed.

The system that decrements all counters when they get large is compared with the one that never
does. They take the same steps, and all counters in use differ by one common offset, a multiple
of the size of the buffer; nothing else differs (`Shifted`). So what is known of conceptual message
numbers carries over to the counters of the code, which stay small. -/
namespace PgStorage.Sinval
open Locks
open Function

section Renumber
variable {M : Type} {s t : Sys M} {base : Int} {p i : Nat}

/-- Two entries that differ by the offset; the counter of an entry that is not used is
meaningless. -/
structure ProcState.Shifted (base : Int) (a b : ProcState) : Prop where
  pid : b.procPid = a.procPid
  next : a.procPid ≠ 0 → b.nextMsgNum = a.nextMsgNum + base
  reset : b.resetState = a.resetState
  signaled : b.signaled = a.signaled
  flag : b.hasMessages = a.hasMessages
  send : b.sendOnly = a.sendOnly

/-- The local variables that are message numbers. -/
def Pc.shift (base : Int) : Pc M → Pc M
  | .fill max done todo rest => .fill (max + base) done todo rest
  | .publish max done rest => .publish (max + base) done rest
  | .getReset datasize max => .getReset datasize (max + base)
  | .getData datasize max data => .getData datasize (max + base) data
  | c => c

structure SISeg.Shifted (base : Int) (g g' : SISeg M) : Prop where
  min : g'.minMsgNum = g.minMsgNum + base
  max : g'.maxMsgNum = g.maxMsgNum + base
  threshold : g'.nextThreshold = g.nextThreshold
  last : g'.lastBackend = g.lastBackend
  bound : g'.maxBackends = g.maxBackends
  buffer : g'.buffer = g.buffer
  entry : ∀ i, (g.procState i).Shifted base (g'.procState i)

/-- Two states that differ by the offset of their counters alone; those of the first are small. -/
structure Shifted (base : Int) (s t : Sys M) : Prop where
  dvd : (maxNumMessages : Int) ∣ base
  nonneg : 0 ≤ s.seg.minMsgNum
  small : s.seg.minMsgNum < msgNumWraparound
  seg : s.seg.Shifted base t.seg
  pc : ∀ p, t.pc p = (s.pc p).shift base
  writeLock : t.writeLock = s.writeLock
  readLock : t.readLock = s.readLock
  readers : t.readers = s.readers
  slot : t.slot = s.slot
  log : t.log = s.log
  completed : t.completed = s.completed
  since : t.since = s.since
  heard : t.heard = s.heard

theorem Pc.shift_eq {c : Pc M} (hw : c.writing = false) (hr : c.reading = false) : c.shift base = c := by
  cases c <;> first | rfl | (cases hw; done) | cases hr

theorem Shifted.own (h : Shifted base s t) (p : Nat) : (s.own p).Shifted base (t.own p) := by
  rw [Sys.own, Sys.own, h.slot]
  exact h.seg.entry _

variable {g g' : SISeg M}

theorem SISeg.Shifted.setProcState {a b : ProcState} (h : g.Shifted base g')
    (hab : a.Shifted base b) (i : Nat) : (g.setProcState i a).Shifted base (g'.setProcState i b) := by
  refine ⟨h.min, h.max, h.threshold, h.last, h.bound, h.buffer, fun j => ?_⟩
  dsimp only [SISeg.setProcState]
  rcases eq_or_ne j i with rfl | hj
  · rw [update_self, update_self]; exact hab
  · rw [update_of_ne hj, update_of_ne hj]; exact h.entry j

theorem buffer_place_shift (hd : (maxNumMessages : Int) ∣ base) (k : Int) :
    (k + base) % maxNumMessages = k % maxNumMessages := by
  obtain ⟨c, rfl⟩ := hd
  exact Int.add_mul_emod_self_left k maxNumMessages c

theorem SISeg.Shifted.write (h : g.Shifted base g') (hd : (maxNumMessages : Int) ∣ base) (k : Int) (m : M) :
    SISeg.Shifted base {g with buffer := update g.buffer (k % maxNumMessages) m}
      {g' with buffer := update g'.buffer ((k + base) % maxNumMessages) m} := by
  refine ⟨h.min, h.max, h.threshold, h.last, h.bound, ?_, h.entry⟩
  dsimp only
  rw [buffer_place_shift hd, h.buffer]

theorem SISeg.Shifted.publish (h : g.Shifted base g') (max : Int) :
    SISeg.Shifted base {g with maxMsgNum := max} {g' with maxMsgNum := max + base} :=
  ⟨h.min, rfl, h.threshold, h.last, h.bound, h.buffer, h.entry⟩

theorem shifted_update {f g : Nat → Pc M} {c d : Pc M} (h : ∀ q, g q = (f q).shift base) (hcd : d = c.shift base)
    (p : Nat) : ∀ q, update g p d q = (update f p c q).shift base := by
  intro q
  rcases eq_or_ne q p with rfl | hq
  · rw [update_self, update_self, hcd]
  · rw [update_of_ne hq, update_of_ne hq, h q]

/-- A process moves, with the locks and the history changed in the same way. -/
theorem Shifted.move (h : Shifted base s t) (hg : g.Shifted base g')
    (hmin : g.minMsgNum = s.seg.minMsgNum) (p : Nat) {c d : Pc M} (hcd : d = c.shift base)
    (wl rl : Option Nat) (rs : List Nat) (slot : Nat → Nat) (log : List M) (completed : Nat)
    (since : Nat → Nat) (heard : Nat → List (Event M)) :
    Shifted base ⟨g, wl, rl, rs, update s.pc p c, slot, log, completed, since, heard⟩
      ⟨g', wl, rl, rs, update t.pc p d, slot, log, completed, since, heard⟩ :=
  ⟨h.dvd, hmin ▸ h.nonneg, hmin ▸ h.small, hg, shifted_update h.pc hcd p, rfl, rfl, rfl, rfl, rfl, rfl, rfl, rfl⟩

theorem Shifted.goto (h : Shifted base s t) (p : Nat) {c d : Pc M} (hcd : d = c.shift base) :
    Shifted base (s.goto p c) (t.goto p d) :=
  ⟨h.dvd, h.nonneg, h.small, h.seg, shifted_update h.pc hcd p, h.writeLock, h.readLock, h.readers, h.slot, h.log,
    h.completed, h.since, h.heard⟩

/-! ### The cleanup -/

structure Scan.Shifted (base : Int) (a b : Scan) : Prop where
  min : b.min = a.min + base
  minsig : b.minsig = a.minsig + base
  needSig : b.needSig = a.needSig
  entry : ∀ i, (a.procState i).Shifted base (b.procState i)

theorem scanBackend_shifted {a b : Scan} {lowbound : Int} (h : a.Shifted base b) (i : Nat) :
    (scanBackend lowbound a i).Shifted base (scanBackend (lowbound + base) b i) := by
  have he := h.entry i
  unfold scanBackend
  dsimp only
  rw [he.pid, he.reset, he.send, he.signaled]
  by_cases hskip : (a.procState i).procPid = 0 ∨ (a.procState i).resetState = true ∨ (a.procState i).sendOnly = true
  · rw [if_pos hskip, if_pos hskip]; exact h
  · rw [if_neg hskip, if_neg hskip]
    have hnext := he.next (not_or.mp hskip).1
    have hlow : (b.procState i).nextMsgNum < lowbound + base ↔ (a.procState i).nextMsgNum < lowbound := by omega
    have hmin := h.min
    have hminsig := h.minsig
    by_cases hl : (a.procState i).nextMsgNum < lowbound
    · rw [if_pos hl, if_pos (hlow.mpr hl)]
      refine ⟨hmin, hminsig, h.needSig, fun j => ?_⟩
      dsimp only
      rcases eq_or_ne j i with rfl | hj
      · rw [update_self, update_self]
        exact ⟨rfl, he.next, rfl, rfl, he.flag, rfl⟩
      · rw [update_of_ne hj, update_of_ne hj]; exact h.entry j
    · rw [if_neg hl, if_neg (mt hlow.mp hl)]
      have hb : Scan.Shifted base
          (if (a.procState i).nextMsgNum < a.min then {a with min := (a.procState i).nextMsgNum} else a)
          (if (b.procState i).nextMsgNum < b.min then {b with min := (b.procState i).nextMsgNum} else b) := by
        have hiff : (b.procState i).nextMsgNum < b.min ↔ (a.procState i).nextMsgNum < a.min := by omega
        by_cases hm : (a.procState i).nextMsgNum < a.min
        · rw [if_pos hm, if_pos (hiff.mpr hm)]
          exact ⟨hnext, hminsig, h.needSig, h.entry⟩
        · rw [if_neg hm, if_neg (mt hiff.mp hm)]
          exact h
      revert hb
      generalize (if (a.procState i).nextMsgNum < a.min then {a with min := (a.procState i).nextMsgNum} else a) = a'
      generalize (if (b.procState i).nextMsgNum < b.min then {b with min := (b.procState i).nextMsgNum} else b) = b'
      intro hb
      have hsig := hb.minsig
      have hiff : ((b.procState i).nextMsgNum < b'.minsig ∧ (a.procState i).signaled = false) ↔
          ((a.procState i).nextMsgNum < a'.minsig ∧ (a.procState i).signaled = false) := by
        refine and_congr_left fun _ => ?_
        omega
      by_cases hc : (a.procState i).nextMsgNum < a'.minsig ∧ (a.procState i).signaled = false
      · rw [if_pos hc, if_pos (hiff.mpr hc)]
        exact ⟨hb.min, hnext, rfl, hb.entry⟩
      · rw [if_neg hc, if_neg (mt hiff.mp hc)]
        exact hb

theorem scanBackends_shifted (h : g.Shifted base g') (minFree : Nat) :
    (scanBackends g minFree).Shifted base (scanBackends g' minFree) := by
  unfold scanBackends
  have hlow : g'.maxMsgNum - (maxNumMessages : Int) + minFree = g.maxMsgNum - (maxNumMessages : Int) + minFree + base := by
    have := h.max
    omega
  rw [hlow, h.last]
  have h0 : Scan.Shifted base ⟨g.maxMsgNum, g.maxMsgNum - sigThreshold, none, g.procState⟩
      ⟨g'.maxMsgNum, g'.maxMsgNum - sigThreshold, none, g'.procState⟩ := by
    refine ⟨h.max, ?_, rfl, h.entry⟩
    have := h.max
    dsimp only; omega
  revert h0
  generalize (⟨g.maxMsgNum, g.maxMsgNum - sigThreshold, none, g.procState⟩ : Scan) = a
  generalize (⟨g'.maxMsgNum, g'.maxMsgNum - sigThreshold, none, g'.procState⟩ : Scan) = b
  intro h0
  induction List.range g.lastBackend generalizing a b with
  | nil => exact h0
  | cons i l ih => exact ih _ _ (scanBackend_shifted h0 i)

/-- Subtracting from all counters adds to the offset; the entries behind the last backend are
not in use. -/
theorem renumber_shifted (h : g.Shifted base g')
    (hused : ∀ i, (g.procState i).procPid ≠ 0 → i < g.lastBackend) :
    ((renumber true g = g ∧ g.minMsgNum < msgNumWraparound) ∨
      (msgNumWraparound ≤ g.minMsgNum ∧ (renumber true g).minMsgNum = g.minMsgNum - msgNumWraparound ∧
        (renumber true g).Shifted (base + msgNumWraparound) g')) := by
  unfold renumber
  split_ifs with hc
  · refine .inr ⟨hc.2, rfl, ?_, ?_, h.threshold, h.last, h.bound, h.buffer, fun i => ?_⟩
    · have := h.min
      dsimp only; omega
    · have := h.max
      dsimp only; omega
    · have he := h.entry i
      dsimp only
      split_ifs with hi
      · refine ⟨he.pid, fun hp => ?_, he.reset, he.signaled, he.flag, he.send⟩
        have := he.next hp
        dsimp only; omega
      · exact ⟨he.pid, fun hp => absurd (hused i hp) hi, he.reset, he.signaled, he.flag, he.send⟩
  · exact .inl ⟨rfl, by simpa using hc⟩

theorem finishCleanup_shifted (h : g.Shifted base g') (needSig : Option Nat) :
    (finishCleanup g needSig).1.Shifted base (finishCleanup g' needSig).1 ∧
      (finishCleanup g' needSig).2 = (finishCleanup g needSig).2 ∧
      (finishCleanup g needSig).1.minMsgNum = g.minMsgNum := by
  have hthr : g'.maxMsgNum - g'.minMsgNum = g.maxMsgNum - g.minMsgNum := by
    have := h.min
    have := h.max
    omega
  have ht : SISeg.Shifted base {g with nextThreshold := cleanupThreshold (g.maxMsgNum - g.minMsgNum)}
      {g' with nextThreshold := cleanupThreshold (g'.maxMsgNum - g'.minMsgNum)} :=
    ⟨h.min, h.max, by rw [hthr], h.last, h.bound, h.buffer, h.entry⟩
  cases needSig with
  | none => exact ⟨ht, rfl, rfl⟩
  | some i =>
    refine ⟨ht.setProcState ?_ i, rfl, rfl⟩
    have he := h.entry i
    exact ⟨he.pid, he.next, he.reset, rfl, he.flag, he.send⟩

theorem cleanup_shifted (h : Shifted base s t) (hi : Inv t) (minFree : Nat) :
    ∃ base', (maxNumMessages : Int) ∣ base' ∧ 0 ≤ (siCleanupQueue true s.seg minFree).1.minMsgNum ∧
      (siCleanupQueue true s.seg minFree).1.minMsgNum < msgNumWraparound ∧
      (siCleanupQueue true s.seg minFree).1.Shifted base' (siCleanupQueue false t.seg minFree).1 ∧
      (siCleanupQueue false t.seg minFree).2 = (siCleanupQueue true s.seg minFree).2 := by
  have hscan := scanBackends_shifted h.seg minFree
  have hclean := scanned t.seg minFree
  have hsmin := h.seg.min
  have hsmax := h.seg.max
  have hmin : t.seg.minMsgNum ≤ (scanBackends t.seg minFree).min := by
    refine hclean.greatest _ hi.stored.le fun i _ hp _ => ?_
    obtain ⟨hpid, hr, hs⟩ := hp
    obtain ⟨hq, hslot⟩ := hi.slotted.active i hpid
    have hown : t.own (t.seg.procState i).procPid = t.seg.procState i := by rw [Sys.own, hslot]
    have := (hi.receiver _ hq (by rw [hown]; exact hs)).above (by rw [hown]; exact hr)
    rwa [hown] at this
  have hmax := hclean.le_start
  have hroom := hi.stored.room
  have hpids : ∀ i, ((scanBackends s.seg minFree).procState i).procPid = (s.seg.procState i).procPid := by
    intro i
    have hs := scanned s.seg minFree
    by_cases hc : i < s.seg.lastBackend ∧ (s.seg.procState i).Participates ∧
        (s.seg.procState i).nextMsgNum < s.seg.maxMsgNum - maxNumMessages + minFree
    · rw [hs.reset i hc.1 hc.2.1 hc.2.2]
    · rw [hs.kept i hc]
  have hused : ∀ i, ((scanBackends s.seg minFree).procState i).procPid ≠ 0 → i < s.seg.lastBackend := by
    intro i hp
    rw [hpids i, ← (h.seg.entry i).pid] at hp
    obtain ⟨hq, hslot⟩ := hi.slotted.active i hp
    rw [← h.seg.last, ← hslot]
    exact (hi.slotted.own _ hq).1
  have hg : SISeg.Shifted base
      {s.seg with minMsgNum := (scanBackends s.seg minFree).min, procState := (scanBackends s.seg minFree).procState}
      {t.seg with minMsgNum := (scanBackends t.seg minFree).min, procState := (scanBackends t.seg minFree).procState} :=
    ⟨hscan.min, h.seg.max, h.seg.threshold, h.seg.last, h.seg.bound, h.seg.buffer, hscan.entry⟩
  have hfalse : renumber false
      {t.seg with minMsgNum := (scanBackends t.seg minFree).min, procState := (scanBackends t.seg minFree).procState} =
      {t.seg with minMsgNum := (scanBackends t.seg minFree).min, procState := (scanBackends t.seg minFree).procState} :=
    if_neg (by simp)
  have hlo := h.nonneg
  have hhi := h.small
  have hsm := hscan.min
  have hW : (msgNumWraparound : Int) = 1073741824 ∧ (maxNumMessages : Int) = 4096 := ⟨rfl, rfl⟩
  unfold siCleanupQueue
  dsimp only at hfalse ⊢
  rw [hfalse, hscan.needSig]
  generalize hgw : ({s.seg with
    minMsgNum := (scanBackends s.seg minFree).min
    procState := (scanBackends s.seg minFree).procState} : SISeg M) = g at hg
  have hgmin : g.minMsgNum = (scanBackends s.seg minFree).min := by rw [← hgw]
  have hgused : ∀ i, (g.procState i).procPid ≠ 0 → i < g.lastBackend := by
    rw [← hgw]; exact hused
  rcases renumber_shifted hg hgused with ⟨he, hsmall⟩ | ⟨hbig, hm, hsh⟩
  · rw [he]
    obtain ⟨h1, h2, h3⟩ := finishCleanup_shifted hg (scanBackends s.seg minFree).needSig
    exact ⟨base, h.dvd, by rw [h3]; omega, by rw [h3]; exact hsmall, h1, h2⟩
  · obtain ⟨h1, h2, h3⟩ := finishCleanup_shifted hsh (scanBackends s.seg minFree).needSig
    refine ⟨base + msgNumWraparound, ?_, by rw [h3]; omega, by rw [h3]; omega, h1, h2⟩
    exact Int.dvd_add h.dvd (Int.dvd_mul_right _ _)

/-! ### The same steps -/

/-- Both systems are blocked, or both take the step. -/
def Matches (x y : Option (Sys M)) : Prop := Option.Rel (fun s t => ∃ base, Shifted base s t) x y

theorem Matches.some (h : Shifted base s t) : Matches (some s) (some t) := Option.Rel.some ⟨base, h⟩

theorem Matches.none : Matches (none : Option (Sys M)) none := Option.Rel.none

theorem matches_ite {c d : Prop} [Decidable c] [Decidable d] {x x' y y' : Option (Sys M)} (hcd : d ↔ c)
    (hx : c → Matches x x') (hy : ¬ c → Matches y y') :
    Matches (if c then x else y) (if d then x' else y') := by
  by_cases hc : c
  · rw [if_pos hc, if_pos (hcd.mpr hc)]; exact hx hc
  · rw [if_neg hc, if_neg (mt hcd.mp hc)]; exact hy hc

theorem insertNext_shift (data : List M) : insertNext data = (insertNext data).shift base := by
  cases data <;> rfl

theorem continue_matches (h : Shifted base s t) (hi : Inv t) :
    Matches (siContinue true s p (s.pc p)) (siContinue false t p (t.pc p)) := by
  have hclean := cleanup_shifted h hi
  have hlock := hi.locked
  have hslotted := hi.slotted.own p
  have hown := h.own p
  have hpc := h.pc p
  rw [hpc] at hslotted
  have hsmin := h.seg.min
  have hsmax := h.seg.max
  have hbuf := buffer_place_shift h.dvd
  obtain ⟨g', wl, rl, rs, pc', sl, log, comp, since, heard⟩ := t
  have e1 := h.writeLock
  have e2 := h.readLock
  have e3 := h.readers
  have e4 := h.slot
  have e5 := h.log
  have e6 := h.completed
  have e7 := h.since
  have e8 := h.heard
  dsimp only at e1 e2 e3 e4 e5 e6 e7 e8 hpc hsmin hsmax
  subst e1 e2 e3 e4 e5 e6 e7 e8
  dsimp only
  rw [hpc]
  cases hc : s.pc p with
  | absent => exact .none
  | idle => exact .none
  | insertLock data | cleanupLock minFree | cleanupRead caller minFree | getLock datasize =>
    exact matches_ite Iff.rfl (fun _ => .some (h.move h.seg rfl p rfl _ _ _ _ _ _ _ _)) fun _ => .none
  | check data =>
    have hnum : g'.maxMsgNum - g'.minMsgNum = s.seg.maxMsgNum - s.seg.minMsgNum := by omega
    refine matches_ite ?_ (fun _ => .some (h.move h.seg rfl p rfl _ _ _ _ _ _ _ _))
      fun _ => .some (h.move h.seg rfl p ?_ _ _ _ _ _ _ _ _)
    · dsimp only
      rw [hnum, h.seg.threshold]
    · dsimp only [Pc.shift]
      rw [hsmax]
  | fill max done todo rest =>
    cases todo with
    | nil => exact .some (h.move h.seg rfl p rfl _ _ _ _ _ _ _ _)
    | cons m todo =>
      refine .some (h.move (h.seg.write h.dvd max m) rfl p ?_ _ _ _ _ _ _ _ _)
      dsimp only [Pc.shift]
      rw [add_right_comm]
  | publish max done rest =>
    exact .some (h.move (h.seg.publish max) rfl p rfl _ _ _ _ _ _ _ _)
  | kick i rest =>
    refine matches_ite ?_ (fun _ => .some (h.move (h.seg.setProcState ?_ i) rfl p rfl _ _ _ _ _ _ _ _))
      fun _ => .some (h.move h.seg rfl p (insertNext_shift rest) _ _ _ _ _ _ _ _)
    · dsimp only
      rw [h.seg.last]
    · have he := h.seg.entry i
      exact ⟨he.pid, he.next, he.reset, he.signaled, rfl, he.send⟩
  | cleanup caller minFree =>
    obtain ⟨base', hdvd, hnn, hsm, hseg, hsig⟩ := hclean minFree
    have hp : (Pc.shift base (s.pc p)).writing = true ∧ (Pc.shift base (s.pc p)).cleaning = true := by
      rw [hc]; exact ⟨rfl, rfl⟩
    rw [← hpc] at hp
    have hothers : ∀ q, q ≠ p → ∀ b, (s.pc q).shift b = s.pc q := by
      intro q hq b
      have hw : (pc' q).writing = false := hlock.not_writing hp.1 hq
      have hr : (pc' q).reading = false := by
        have hshared := hlock.shared
        rw [hlock.alone (by rw [(hlock.read p).mpr hp.2]; exact Option.some_ne_none _)] at hshared
        exact hshared.free q
      have hq' : pc' q = (s.pc q).shift base := h.pc q
      refine Pc.shift_eq ?_ ?_
      · rw [hq'] at hw
        cases hs : s.pc q <;> rw [hs] at hw <;> exact hw
      · rw [hq'] at hr
        cases hs : s.pc q <;> rw [hs] at hr <;> exact hr
    dsimp only [siContinue, Pc.shift]
    rw [hsig]
    refine .some ⟨hdvd, hnn, hsm, hseg, fun q => ?_, rfl, rfl, rfl, rfl, rfl, rfl, rfl, rfl⟩
    dsimp only [Sys.goto]
    rcases eq_or_ne q p with rfl | hq
    · rw [update_self, update_self]; rfl
    · rw [update_of_ne hq, update_of_ne hq, hothers q hq]
      exact (h.pc q).trans (hothers q hq base)
  | cleanupUnlock caller needSig =>
    refine .some (h.move h.seg rfl p ?_ _ _ _ _ _ _ _ _)
    cases caller <;> cases needSig <;> rfl
  | cleanupRelease caller =>
    refine .some (h.move h.seg rfl p ?_ _ _ _ _ _ _ _ _)
    cases caller <;> rfl
  | getClear datasize =>
    refine .some (h.move (h.seg.setProcState ?_ _) rfl p rfl _ _ _ _ _ _ _ _)
    exact ⟨hown.pid, hown.next, hown.reset, hown.signaled, rfl, hown.send⟩
  | getMax datasize =>
    refine .some (h.move h.seg rfl p ?_ _ _ _ _ _ _ _ _)
    dsimp only [Pc.shift]
    rw [hsmax]
  | getReset datasize max =>
    refine matches_ite ?_ (fun _ => .some (h.move (h.seg.setProcState ?_ _) rfl p rfl _ _ _ _ _ _ _ _))
      fun _ => .some (h.move h.seg rfl p rfl _ _ _ _ _ _ _ _)
    · rw [hown.reset]
    · exact ⟨hown.pid, fun _ => rfl, rfl, rfl, hown.flag, hown.send⟩
  | getData datasize max data =>
    have hpid : (s.own p).procPid ≠ 0 := by
      rw [← hown.pid, (hslotted (by rw [hc]; exact nofun)).2.1]
      exact (hslotted (by rw [hc]; exact nofun)).2.2
    have hnext := hown.next hpid
    dsimp only [siContinue, Pc.shift]
    rw [hnext, hbuf, h.seg.buffer]
    refine matches_ite ?_ (fun _ => .some (h.move (h.seg.setProcState ?_ _) rfl p rfl _ _ _ _ _ _ _ _))
      fun _ => .some (h.move (h.seg.setProcState ?_ _) rfl p rfl _ _ _ _ _ _ _ _)
    · rw [add_lt_add_iff_right]
    · exact ⟨hown.pid, fun _ => add_right_comm _ _ _, hown.reset, hown.signaled, hown.flag, hown.send⟩
    · by_cases hm : max ≤ (s.own p).nextMsgNum
      · rw [if_pos hm, if_pos (add_le_add_left hm base)]
        exact ⟨hown.pid, fun _ => rfl, hown.reset, rfl, hown.flag, hown.send⟩
      · rw [if_neg hm, if_neg fun hle => hm (le_of_add_le_add_right hle)]
        exact ⟨hown.pid, fun _ => rfl, hown.reset, hown.signaled, rfl, hown.send⟩
  | getUnlock reply =>
    exact .some (h.move h.seg rfl p rfl _ _ _ _ _ _ _ _)

theorem freeEntry_shifted (h : g.Shifted base g') : freeEntry g' = freeEntry g := by
  unfold freeEntry
  have hpid : (fun i => decide ((g'.procState i).procPid = 0)) = fun i => decide ((g.procState i).procPid = 0) := by
    funext i
    rw [(h.entry i).pid]
  rw [h.last, h.bound, hpid]

theorem lastActive_shifted {f g : Nat → ProcState} (h : ∀ i, (g i).procPid = (f i).procPid) (n : Nat) :
    lastActive g n = lastActive f n := by
  induction n with
  | zero => rfl
  | succ n ih => simp only [lastActive, h n, ih]

theorem init_shifted (h : Shifted base s t) (p : Nat) (sendOnly : Bool) :
    Shifted base (sharedInvalBackendInit s p sendOnly) (sharedInvalBackendInit t p sendOnly) := by
  unfold sharedInvalBackendInit
  rw [freeEntry_shifted h.seg]
  cases freeEntry s.seg with
  | none => exact h
  | some i =>
    have hset := h.seg.setProcState (a := ⟨p, s.seg.maxMsgNum, false, false, false, sendOnly⟩)
      (b := ⟨p, t.seg.maxMsgNum, false, false, false, sendOnly⟩) ⟨rfl, fun _ => h.seg.max, rfl, rfl, rfl, rfl⟩ i
    have hpc := shifted_update (c := .idle) (d := .idle) h.pc rfl p
    refine ⟨h.dvd, h.nonneg, h.small, ⟨h.seg.min, h.seg.max, h.seg.threshold, ?_, h.seg.bound, h.seg.buffer, hset.entry⟩,
      hpc, h.writeLock, h.readLock, h.readers, ?_, h.log, h.completed, ?_, ?_⟩
    · dsimp only
      rw [h.seg.last]
    · dsimp only
      rw [h.slot]
    · dsimp only
      rw [h.since, h.log]
    · dsimp only
      rw [h.heard]

theorem exit_shifted (h : Shifted base s t) (p : Nat) :
    Shifted base (cleanupInvalidationState s p) (cleanupInvalidationState t p) := by
  have hown := h.own p
  have hset := h.seg.setProcState
    (a := {s.own p with procPid := 0, nextMsgNum := 0, resetState := false, signaled := false})
    (b := {t.own p with procPid := 0, nextMsgNum := 0, resetState := false, signaled := false})
    ⟨rfl, fun hp => absurd rfl hp, rfl, rfl, hown.flag, hown.send⟩ (s.slot p)
  have hpc := shifted_update (c := .absent) (d := .absent) h.pc rfl p
  unfold cleanupInvalidationState
  rw [h.slot]
  refine ⟨h.dvd, h.nonneg, h.small, ⟨h.seg.min, h.seg.max, h.seg.threshold, ?_, h.seg.bound, h.seg.buffer, hset.entry⟩,
    hpc, h.writeLock, h.readLock, h.readers, rfl, h.log, h.completed, h.since, h.heard⟩
  dsimp only
  rw [lastActive_shifted fun i => (hset.entry i).pid]
  exact congrArg _ h.seg.last

/-- **Both systems take the same steps.** -/
theorem step_matches (h : Shifted base s t) (hi : Inv t) (pa : Nat × Act M) :
    Matches (siStep true s pa) (siStep false t pa) := by
  obtain ⟨p, a⟩ := pa
  have hcont := continue_matches (p := p) h hi
  have hpc := h.pc p
  have hown := h.own p
  unfold siStep
  dsimp only
  rw [hpc] at hcont ⊢
  cases hc : s.pc p with
  | absent =>
    cases a with
    | init sendOnly =>
      refine matches_ite ?_ (fun _ => .some (init_shifted h p sendOnly)) fun _ => .none
      rw [h.writeLock]
    | _ => exact .none
  | idle =>
    cases a with
    | exit =>
      refine matches_ite ?_ (fun _ => .some (exit_shifted h p)) fun _ => .none
      rw [h.writeLock]
    | insert data => exact .some (h.goto p (insertNext_shift data))
    | cleanup minFree => exact matches_ite Iff.rfl (fun _ => .some (h.goto p rfl)) fun _ => .none
    | get datasize =>
      dsimp only [Pc.shift]
      rw [hown.flag]
      split_ifs
      · exact .some (h.goto p rfl)
      · exact .some h
    | _ => exact .none
  | _ =>
    cases a with
    | step => rw [hc] at hcont; exact hcont
    | _ => exact .none

theorem shifted_start (maxBackends : Nat) (buffer : Int → M) :
    Shifted 0 (Sys.start maxBackends buffer) (Sys.start maxBackends buffer) :=
  ⟨Int.dvd_zero _, le_refl _, by simp [Sys.start, createSharedInvalidationState, msgNumWraparound, maxNumMessages], ⟨rfl, rfl, rfl, rfl, rfl, rfl, fun _ => ⟨rfl, fun _ => rfl, rfl, rfl, rfl, rfl⟩⟩,
    fun _ => rfl, rfl, rfl, rfl, rfl, rfl, rfl, rfl, rfl⟩

theorem run_matches (acts : List (Nat × Act M)) (h : Shifted base s t) (hi : Inv t) :
    Matches (siRun true s acts) (siRun false t acts) := by
  induction acts generalizing s t base with
  | nil => exact .some h
  | cons pa rest ih =>
    have hstep := step_matches h hi pa
    have hinv : ∀ u, siStep false t pa = some u → Inv u := fun _ => inv_step hi
    simp only [siRun]
    revert hstep hinv
    generalize siStep true s pa = x
    generalize siStep false t pa = y
    intro hstep hinv
    cases hstep with
    | none => exact .none
    | some hex =>
      obtain ⟨base', hsh⟩ := hex
      exact ih hsh (hinv _ rfl)

end Renumber
end PgStorage.Sinval
