import PgStorage.Sinval.Invariant

/-! The invariant is kept by every step, as long as no counter is renumbered.

Most steps move one process and change at most its own entry (`Move`); for those only its own
view has to be considered again. The others write the buffer, publish, set a flag, run the
cleanup, or let a process start or end. -/
namespace PgStorage.Sinval
open Locks
open Option List Sys Pc
open Function (update update_self update_of_ne)

section Steps
variable {M : Type} {s t : Sys M} {p q : Nat} {c : Pc M} {st : ProcState}

/-- What a receiver depends on is the same, or has grown. -/
structure Frame (s t : Sys M) (q : Nat) : Prop where
  slot : t.slot q = s.slot q
  view : (t.pc q).view = (s.pc q).view
  next : (t.own q).nextMsgNum = (s.own q).nextMsgNum
  reset : (t.own q).resetState = (s.own q).resetState
  flag : (s.own q).hasMessages = true → (t.own q).hasMessages = true
  notified : (t.own q).hasMessages = true ∨ notified t (s.slot q) ≤ notified s (s.slot q)
  since : t.since q = s.since q
  heard : t.heard q = s.heard q
  log : ∃ l, t.log = s.log ++ l
  min : t.seg.minMsgNum = s.seg.minMsgNum
  max : s.seg.maxMsgNum ≤ t.seg.maxMsgNum

theorem Receiver.frame (h : Receiver s q) (e : Frame s t q) : Receiver t q where
  above hr := by
    rw [e.min, e.next]
    exact h.above (e.reset ▸ hr)
  below := by
    rw [e.next]
    exact le_trans h.below e.max
  taking hv := by
    rw [e.reset]
    exact h.taking (e.view ▸ hv)
  told := by
    obtain ⟨k, hd, hle, heq⟩ := h.told
    obtain ⟨l, hl⟩ := e.log
    refine ⟨k, ?_, by rw [e.next]; exact hle, ?_⟩
    · rw [hl, e.since, e.heard, e.view]
      exact hd.append
    · rw [e.view, e.next]
      exact heq
  limit max hm := by
    rw [e.view] at hm
    obtain ⟨hmin, hnext, hle, hf⟩ := h.limit max hm
    refine ⟨by rw [e.min]; exact hmin, by rw [e.next]; exact hnext, le_trans hle e.max, fun hlt => ?_⟩
    rw [e.slot] at hlt
    rcases e.notified with hflag | hn
    · exact hflag
    · exact e.flag (hf (lt_of_lt_of_le hlt (by exact_mod_cast hn)))
  flagged hv hor := by
    rw [e.view] at hv
    rw [e.slot, e.next, e.reset] at hor
    rcases e.notified with hflag | hn
    · exact hflag
    · refine e.flag (h.flagged hv (hor.imp_left fun hlt => lt_of_lt_of_le hlt ?_))
      exact_mod_cast hn

/-! ### Moves of one process -/

/-- Process `p` goes to `c`, its entry becomes `st`, and it may be told something. -/
structure Move (s t : Sys M) (p : Nat) (c : Pc M) (st : ProcState) : Prop where
  pc : t.pc = update s.pc p c
  seg : t.seg = s.seg.setProcState (s.slot p) st
  slot : t.slot = s.slot
  log : t.log = s.log
  completed : t.completed = s.completed
  since : t.since = s.since
  heard : ∀ q, q ≠ p → t.heard q = s.heard q

theorem Move.own (e : Move s t p c st) : t.own p = st := by
  simp only [Sys.own, e.seg, e.slot, SISeg.setProcState, update_self]

theorem Move.own_of_ne (e : Move s t p c st) (hs : s.slot q ≠ s.slot p) : t.own q = s.own q := by
  simp only [Sys.own, e.seg, e.slot, SISeg.setProcState, update_of_ne hs]

theorem setProcState_own (s : Sys M) (p : Nat) : s.seg.setProcState (s.slot p) (s.own p) = s.seg := by
  simp only [SISeg.setProcState, own, Function.update_eq_self]

theorem Slotted.congr (h : Slotted s) (hlive : ∀ q, (t.pc q ≠ .absent) = (s.pc q ≠ .absent))
    (hslot : t.slot = s.slot) (hpid : ∀ i, (t.seg.procState i).procPid = (s.seg.procState i).procPid)
    (hlast : t.seg.lastBackend = s.seg.lastBackend) (hmax : t.seg.maxBackends = s.seg.maxBackends) :
    Slotted t where
  own q hq := by
    rw [hlive q] at hq
    rw [Sys.own, hslot, hpid, hlast]
    exact h.own q hq
  active i hi := by
    rw [hpid i] at hi ⊢
    rw [hlive, hslot]
    exact h.active i hi
  bound := by rw [hlast, hmax]; exact h.bound

/-- Neither the writer nor what is stored are affected. -/
structure Pc.Plain (s : Sys M) (p : Nat) (c : Pc M) : Prop where
  live : s.pc p ≠ .absent
  live' : c ≠ .absent
  kicking : c.kicking = (s.pc p).kicking
  written : c.written = (s.pc p).written
  ok : c.Ok s.seg

theorem Inv.move (h : Inv s) (e : Move s t p c st) (hc : Pc.Plain s p c) (hl : Locked t)
    (hpid : st.procPid = (s.own p).procPid) (hsend : st.sendOnly = (s.own p).sendOnly)
    (hr : st.sendOnly = false → Receiver s p → Receiver t p) : Inv t := by
  have hkick : ∀ q, (t.pc q).kicking = (s.pc q).kicking := by
    rw [e.pc]; exact apply_update hc.kicking
  have hlive : ∀ q, (t.pc q ≠ .absent) = (s.pc q ≠ .absent) := by
    rw [e.pc]
    exact apply_update (β := Prop) (f := (· ≠ absent)) (by simp [hc.live, hc.live'])
  have hwritten : ∀ q, (t.pc q).written = (s.pc q).written := by
    rw [e.pc]; exact apply_update hc.written
  have hnot : ∀ i, notified t i = notified s i :=
    notified_congr h.locked hl hkick e.log e.completed
  have hpids : ∀ i, (t.seg.procState i).procPid = (s.seg.procState i).procPid := by
    have hown : st.procPid = (s.seg.procState (s.slot p)).procPid := hpid
    rw [e.seg]
    exact apply_update hown
  refine ⟨hl, h.slotted.congr hlive e.slot hpids ?_ ?_, ⟨?_, ?_, ?_, ?_, ?_, ?_, ?_, ?_⟩, ?_⟩
  · rw [e.seg]; rfl
  · rw [e.seg]; rfl
  · rw [e.seg]; exact h.stored.nonneg
  · rw [e.seg]; exact h.stored.le
  · rw [e.seg]; exact h.stored.room
  · rw [e.seg, e.log]; exact h.stored.log
  · intro q k m
    rw [hwritten, e.seg, e.log]
    exact h.stored.buffer q k m
  · intro q
    rw [e.seg, e.pc]
    rcases eq_or_ne q p with rfl | hq
    · rw [update_self]; exact hc.ok
    · rw [update_of_ne hq]; exact h.stored.ok q
  · rw [e.completed, e.log]; exact h.stored.completed
  · intro hall
    rw [e.completed, e.log]
    exact h.stored.idle fun q => (hkick q).symm.trans (hall q)
  · intro q hq hs
    rw [hlive q] at hq
    rcases eq_or_ne q p with rfl | hne
    · rw [e.own] at hs
      exact hr hs (h.receiver q hq (hsend ▸ hs))
    · have hown := e.own_of_ne fun es => hne (h.slotted.inj hc.live hq es)
      rw [hown] at hs
      refine (h.receiver q hq hs).frame ⟨?_, ?_, ?_, ?_, ?_, ?_, ?_, e.heard q hne, ⟨[], ?_⟩, ?_, ?_⟩
      · rw [e.slot]
      · rw [e.pc, update_of_ne hne]
      · rw [hown]
      · rw [hown]
      · rw [hown]; exact id
      · exact .inr (le_of_eq (hnot _))
      · rw [e.since]
      · rw [e.log, append_nil]
      · rw [e.seg]; rfl
      · rw [e.seg]; exact le_refl _

/-- A process moves and nothing of what it has to do with receiving changes. -/
theorem Inv.quiet (h : Inv s) (e : Move s t p c (s.own p)) (hc : Pc.Plain s p c) (hl : Locked t)
    (hv : c.view = (s.pc p).view) (hh : t.heard p = s.heard p) : Inv t := by
  refine h.move e hc hl rfl rfl fun _ hr => hr.frame ⟨?_, ?_, ?_, ?_, ?_, ?_, ?_, hh, ⟨[], ?_⟩, ?_, ?_⟩
  · rw [e.slot]
  · rw [e.pc, update_self, hv]
  · rw [e.own]
  · rw [e.own]
  · rw [e.own]; exact id
  · refine .inr (le_of_eq (notified_congr h.locked hl ?_ e.log e.completed _))
    rw [e.pc]; exact apply_update hc.kicking
  · rw [e.since]
  · rw [e.log, append_nil]
  · rw [e.seg]; rfl
  · rw [e.seg]; exact le_refl _

variable {g : SISeg M} {max : Int} {rest : List M} {datasize : Nat}

theorem Pc.ok_of_not_writing {g' : SISeg M} (hw : c.writing = false) (h : c.Ok g) : c.Ok g' := by
  cases c <;> first | exact h | cases hw

theorem Pc.written_of_not_writing (hw : c.writing = false) : c.written = [] := by
  cases c <;> first | rfl | cases hw

theorem Pc.kicking_of_not_writing (hw : c.writing = false) : c.kicking = none := by
  cases c <;> first | rfl | cases hw

/-- While one process has the write lock, the others do not. -/
theorem Locked.not_writing (h : Locked s) (hp : (s.pc p).writing = true) (hq : q ≠ p) :
    (s.pc q).writing = false := by
  rw [← Bool.not_eq_true]
  exact fun hw => hq (h.write.unique hw hp)

theorem Locked.not_kicking (h : Locked s) (hp : (s.pc p).writing = true) (hk : (s.pc p).kicking = none) :
    ∀ q, (s.pc q).kicking = none := by
  intro q
  rcases eq_or_ne q p with rfl | hq
  · exact hk
  · exact kicking_of_not_writing (h.not_writing hp hq)

/-- Two different positions that are both in the buffer are at different places. -/
theorem buffer_place_ne {k : Int} (hlt : k < max) (hroom : max < k + maxNumMessages) :
    k % maxNumMessages ≠ max % maxNumMessages := by
  unfold maxNumMessages at *
  omega

/-- What was stored at positions in use stays when the writer adds one message. -/
theorem buffer_write {buffer : Int → M} {l : List M} {m : M} {low : Int} (max : Int)
    (hl : max = l.length) (hroom : max < low + maxNumMessages)
    (h : ∀ (k : Nat) (m' : M), low ≤ k → l[k]? = some m' → buffer ((k : Int) % maxNumMessages) = m') :
    ∀ (k : Nat) (m' : M), low ≤ k → (l ++ [m])[k]? = some m' →
      update buffer (max % maxNumMessages) m ((k : Int) % maxNumMessages) = m' := by
  intro k m' hk hm
  rcases lt_trichotomy k l.length with hlt | heq | hgt
  · rw [getElem?_append_left hlt] at hm
    rw [update_of_ne (buffer_place_ne (by omega) (by omega))]
    exact h k m' hk hm
  · rw [heq, getElem?_concat_length] at hm
    rw [heq, ← hl, update_self]
    exact some_inj.mp hm
  · rw [getElem?_eq_none (by simp; omega)] at hm
    cases hm

theorem Pc.view_of_writing (hw : c.writing = true) : c.view = {} := by
  cases c <;> first | rfl | cases hw

/-- The writer goes to `c`. It leaves the counters of the backends alone, and at most sets flags. -/
structure Write (s t : Sys M) (p : Nat) (c : Pc M) : Prop where
  pc : t.pc = update s.pc p c
  slot : t.slot = s.slot
  since : t.since = s.since
  heard : t.heard = s.heard
  entry : ∀ i, t.seg.procState i = s.seg.procState i ∨
    t.seg.procState i = {s.seg.procState i with hasMessages := true}
  last : t.seg.lastBackend = s.seg.lastBackend
  bound : t.seg.maxBackends = s.seg.maxBackends
  min : t.seg.minMsgNum = s.seg.minMsgNum
  max : s.seg.maxMsgNum ≤ t.seg.maxMsgNum
  log : ∃ l, t.log = s.log ++ l

/-- The entries of the processes are the slots in use, so it is enough that the flags of those
tell of what they must. -/
theorem Inv.write (h : Inv s) (e : Write s t p c) (hw : (s.pc p).writing = true) (hc : c ≠ .absent)
    (hv : c.view = {}) (hl : Locked t) (hs : Stored t)
    (hn : ∀ i < s.seg.lastBackend, (t.seg.procState i).hasMessages = true ∨ notified t i ≤ notified s i) :
    Inv t := by
  have hp : s.pc p ≠ .absent := fun ha => by rw [ha] at hw; cases hw
  have hlive : ∀ q, (t.pc q ≠ .absent) = (s.pc q ≠ .absent) := by
    rw [e.pc]
    exact apply_update (β := Prop) (f := (· ≠ absent)) (by simp [hp, hc])
  have hview : ∀ q, (t.pc q).view = (s.pc q).view := by
    rw [e.pc]
    exact apply_update (hv.trans (view_of_writing hw).symm)
  have hpid : ∀ i, (t.seg.procState i).procPid = (s.seg.procState i).procPid := by
    intro i
    rcases e.entry i with he | he <;> rw [he]
  refine ⟨hl, h.slotted.congr hlive e.slot hpid e.last e.bound, hs, fun q hq hsend => ?_⟩
  rw [hlive q] at hq
  have hown : t.own q = s.own q ∨ t.own q = {s.own q with hasMessages := true} := by
    simp only [own, e.slot]
    exact e.entry (s.slot q)
  have hsend' : (s.own q).sendOnly = false := by
    rcases hown with he | he <;> rw [he] at hsend <;> exact hsend
  refine (h.receiver q hq hsend').frame
    ⟨by rw [e.slot], hview q, ?_, ?_, ?_, ?_, by rw [e.since], by rw [e.heard], e.log, e.min, e.max⟩
  · rcases hown with he | he <;> rw [he]
  · rcases hown with he | he <;> rw [he]
  · intro hf
    rcases hown with he | he <;> rw [he]
    exact hf
  · have hi := hn (s.slot q) (h.slotted.own q hq).1
    rw [own, e.slot]
    exact hi

/-- The processes other than the writer, as far as the segment goes. -/
theorem Inv.others (h : Inv s) (e : t.pc = update s.pc p c) (hw : (s.pc p).writing = true)
    (hok : c.Ok t.seg) : ∀ q, (t.pc q).Ok t.seg := by
  intro q
  rw [e]
  rcases eq_or_ne q p with rfl | hq
  · rw [update_self]; exact hok
  · rw [update_of_ne hq]
    exact ok_of_not_writing (h.locked.not_writing hw hq) (h.stored.ok q)

theorem Inv.buffer_others (h : Inv s) (e : t.pc = update s.pc p c) (hw : (s.pc p).writing = true)
    (hb : ∀ (k : Nat) (m : M), t.seg.minMsgNum ≤ k → (t.log ++ c.written)[k]? = some m →
      t.seg.buffer ((k : Int) % maxNumMessages) = m) :
    ∀ (q k : Nat) (m : M), t.seg.minMsgNum ≤ k → (t.log ++ (t.pc q).written)[k]? = some m →
      t.seg.buffer ((k : Int) % maxNumMessages) = m := by
  intro q k m hk hm
  refine hb k m hk ?_
  rw [e] at hm
  rcases eq_or_ne q p with rfl | hq
  · rw [update_self] at hm; exact hm
  · rw [update_of_ne hq, written_of_not_writing (h.locked.not_writing hw hq), List.append_nil] at hm
    rw [List.getElem?_append_left (List.getElem?_eq_some_iff.mp hm).1]
    exact hm

theorem inv_fill {done todo : List M} {m : M} (h : Inv s) (hpc : s.pc p = .fill max done (m :: todo) rest) :
    Inv ({s with seg := {s.seg with buffer := update s.seg.buffer (max % maxNumMessages) m}}.goto p
      (.fill (max + 1) (done ++ [m]) todo rest)) := by
  have hw : (s.pc p).writing = true := by rw [hpc]; rfl
  have hok := h.stored.ok p
  rw [hpc] at hok
  obtain ⟨hmax, hroom⟩ := hok
  rw [length_cons] at hroom
  have hlog := h.stored.log
  have hkick : ∀ q, (update s.pc p (.fill (max + 1) (done ++ [m]) todo rest) q).kicking =
      (s.pc q).kicking := apply_update (by rw [hpc]; rfl)
  have hl : Locked ({s with
      seg := {s.seg with buffer := update s.seg.buffer (max % maxNumMessages) m}}.goto p
      (.fill (max + 1) (done ++ [m]) todo rest)) :=
    ⟨h.locked.write.keep (by rw [hpc]; rfl), h.locked.read.keep (by rw [hpc]; rfl),
      h.locked.shared.keep (by rw [hpc]; rfl), h.locked.alone⟩
  have hstored := h.stored.buffer p
  rw [hpc] at hstored
  have hwrite := buffer_write (m := m) max (by simp [written]; omega) (by omega) hstored
  refine h.write ⟨rfl, rfl, rfl, rfl, fun _ => .inl rfl, rfl, rfl, rfl, le_refl _, [], ?_⟩ hw (by simp) rfl hl
    ⟨h.stored.nonneg, h.stored.le, h.stored.room, hlog, h.buffer_others rfl hw ?_, h.others rfl hw ?_,
      h.stored.completed, ?_⟩ fun i _ => ?_
  · exact (append_nil _).symm
  · intro k m' hk hm
    refine hwrite k m' hk ?_
    rw [← hm, written, written, append_assoc]
    rfl
  · refine ⟨?_, ?_⟩
    · rw [length_append, length_singleton]; push_cast; dsimp only [goto]; omega
    · dsimp only [goto]; push_cast at hroom; omega
  · exact fun hall => h.stored.idle fun q => (hkick q).symm.trans (hall q)
  · exact .inr (le_of_eq (notified_congr h.locked hl hkick rfl rfl _))

theorem inv_publish {done : List M} (h : Inv s) (hpc : s.pc p = .publish max done rest) :
    Inv ({s with seg := {s.seg with maxMsgNum := max}, log := s.log ++ done}.goto p (.kick 0 rest)) := by
  have hw : (s.pc p).writing = true := by rw [hpc]; rfl
  have hok := h.stored.ok p
  rw [hpc] at hok
  obtain ⟨hmax, hroom⟩ := hok
  have hlog := h.stored.log
  have hidle := h.stored.idle (h.locked.not_kicking hw (by rw [hpc]; rfl))
  have hl : Locked ({s with
      seg := {s.seg with maxMsgNum := max}, log := s.log ++ done}.goto p (.kick 0 rest)) :=
    ⟨h.locked.write.keep (by rw [hpc]; rfl), h.locked.read.keep (by rw [hpc]; rfl),
      h.locked.shared.keep (by rw [hpc]; rfl), h.locked.alone⟩
  have hself : (update s.pc p (.kick 0 rest) p).kicking = some 0 := by rw [update_self]; rfl
  have hstored := h.stored.buffer p
  rw [hpc] at hstored
  refine h.write ⟨rfl, rfl, rfl, rfl, fun _ => .inl rfl, rfl, rfl, rfl, ?_, done, rfl⟩ hw (by simp) rfl hl
    ⟨h.stored.nonneg, ?_, hroom, ?_, h.buffer_others rfl hw ?_, h.others rfl hw trivial, ?_, ?_⟩ fun i _ => .inr ?_
  · dsimp only [goto]; omega
  · have := h.stored.le
    dsimp only [goto]; omega
  · dsimp only [goto]
    rw [length_append]; push_cast; omega
  · intro k m hk hm
    refine hstored k m hk ?_
    rw [← hm]
    exact congrArg (·[k]?) (append_nil _).symm
  · dsimp only [goto]
    rw [length_append, hidle]
    exact Nat.le_add_right _ _
  · exact fun hall => absurd (hself.symm.trans (hall p)) (by simp)
  · -- nobody has been kicked yet
    rw [notified_kicking hl hself, if_neg (Nat.not_lt_zero i),
      notified_idle (h.locked.not_kicking hw (by rw [hpc]; rfl))]
    exact h.stored.completed

theorem inv_kick {i : Nat} (h : Inv s) (hpc : s.pc p = .kick i rest) :
    Inv ({s with seg := s.seg.setProcState i {s.seg.procState i with hasMessages := true}}.goto p
      (.kick (i + 1) rest)) := by
  have hw : (s.pc p).writing = true := by rw [hpc]; rfl
  have hl : Locked ({s with
      seg := s.seg.setProcState i {s.seg.procState i with hasMessages := true}}.goto p (.kick (i + 1) rest)) :=
    ⟨h.locked.write.keep (by rw [hpc]; rfl), h.locked.read.keep (by rw [hpc]; rfl),
      h.locked.shared.keep (by rw [hpc]; rfl), h.locked.alone⟩
  have hself : (update s.pc p (.kick (i + 1) rest) p).kicking = some (i + 1) := by
    rw [update_self]; rfl
  have hstored := h.stored.buffer p
  rw [hpc] at hstored
  refine h.write ⟨rfl, rfl, rfl, rfl, fun j => ?_, rfl, rfl, rfl, le_refl _, [], ?_⟩ hw (by simp) rfl hl
    ⟨h.stored.nonneg, h.stored.le, h.stored.room, h.stored.log, h.buffer_others rfl hw hstored,
      h.others rfl hw trivial, h.stored.completed, ?_⟩ fun j _ => ?_
  · dsimp only [goto, SISeg.setProcState]
    rcases eq_or_ne j i with rfl | hj
    · exact .inr (update_self _ _ _)
    · exact .inl (update_of_ne hj _ _)
  · exact (append_nil _).symm
  · exact fun hall => absurd (hself.symm.trans (hall p)) (by simp)
  · rcases eq_or_ne j i with rfl | hj
    · refine .inl ?_
      dsimp only [goto, SISeg.setProcState]
      rw [update_self]
    · refine .inr ?_
      rw [notified_kicking hl hself, notified_kicking h.locked (show (s.pc p).kicking = some i by rw [hpc]; rfl)]
      have hiff : j < i + 1 ↔ j < i := by omega
      simp only [hiff]
      exact le_refl _

theorem Pc.insertNext_cases (data : List M) :
    insertNext data = .idle ∨ insertNext data = .insertLock data := by
  cases data with
  | nil => exact .inl rfl
  | cons m data => exact .inr rfl

theorem inv_kicked {i : Nat} (h : Inv s) (hpc : s.pc p = .kick i rest) (hi : ¬ i < s.seg.lastBackend) :
    Inv ({s with writeLock := none, completed := s.log.length}.goto p (insertNext rest)) := by
  have hw : (s.pc p).writing = true := by rw [hpc]; rfl
  have hc : (insertNext rest).writing = false ∧ (insertNext rest).cleaning = false ∧
      (insertNext rest).reading = false ∧ insertNext rest ≠ .absent ∧ (insertNext rest).Ok s.seg ∧
      (insertNext rest).written = [] ∧ (insertNext rest).view = {} := by
    rcases insertNext_cases rest with e | e <;> rw [e] <;> exact ⟨rfl, rfl, rfl, by simp, trivial, rfl, rfl⟩
  obtain ⟨hwr, hcl, hrd, hne, hok, hwritten, hview⟩ := hc
  have hl : Locked ({s with writeLock := none, completed := s.log.length}.goto p (insertNext rest)) :=
    ⟨h.locked.write.release hw hwr, h.locked.read.keep (by rw [hpc, hcl]; rfl),
      h.locked.shared.keep (by rw [hpc, hrd]; rfl), h.locked.alone⟩
  have hstored := h.stored.buffer p
  rw [hpc] at hstored
  refine h.write ⟨rfl, rfl, rfl, rfl, fun _ => .inl rfl, rfl, rfl, rfl, le_refl _, [], ?_⟩ hw hne hview hl
    ⟨h.stored.nonneg, h.stored.le, h.stored.room, h.stored.log, h.buffer_others rfl hw ?_,
      h.others rfl hw hok, le_refl _, fun _ => rfl⟩ fun j hj => .inr ?_
  · exact (append_nil _).symm
  · rw [hwritten]; exact hstored
  · -- all entries in use have been kicked
    rw [notified_kicking h.locked (show (s.pc p).kicking = some i by rw [hpc]; rfl),
      if_pos (lt_of_lt_of_le hj (Nat.not_lt.mp hi))]
    exact notified_le (le_refl _) j

/-! ### The cleanup -/

/-- What a cleanup that does not renumber makes of a segment. -/
structure Cleaned (g r : SISeg M) (lowbound : Int) : Prop where
  max : r.maxMsgNum = g.maxMsgNum
  buffer : r.buffer = g.buffer
  last : r.lastBackend = g.lastBackend
  bound : r.maxBackends = g.maxBackends
  le : r.minMsgNum ≤ g.maxMsgNum
  greatest : ∀ m, m ≤ g.maxMsgNum → (∀ i < g.lastBackend, (g.procState i).Participates →
    lowbound ≤ (g.procState i).nextMsgNum → m ≤ (g.procState i).nextMsgNum) → m ≤ r.minMsgNum
  pid : ∀ i, (r.procState i).procPid = (g.procState i).procPid
  next : ∀ i, (r.procState i).nextMsgNum = (g.procState i).nextMsgNum
  flag : ∀ i, (r.procState i).hasMessages = (g.procState i).hasMessages
  send : ∀ i, (r.procState i).sendOnly = (g.procState i).sendOnly
  reset : ∀ i, (r.procState i).resetState = true →
    (g.procState i).resetState = true ∨ (g.procState i).nextMsgNum < lowbound
  above : ∀ i < g.lastBackend, (g.procState i).procPid ≠ 0 → (g.procState i).sendOnly = false →
    (r.procState i).resetState = false → (g.procState i).resetState = false ∧
      r.minMsgNum ≤ (g.procState i).nextMsgNum

theorem cleaned_of_scanned {r : SISeg M} {a : Scan} {lowbound : Int}
    (h : Scanned g.maxMsgNum lowbound g.procState g.lastBackend a)
    (hmin : r.minMsgNum = a.min) (hmax : r.maxMsgNum = g.maxMsgNum) (hbuf : r.buffer = g.buffer)
    (hlast : r.lastBackend = g.lastBackend) (hbound : r.maxBackends = g.maxBackends)
    (hst : ∀ i, ∃ sg, r.procState i = {a.procState i with signaled := sg}) : Cleaned g r lowbound := by
  have hentry : ∀ i, ∃ sg, r.procState i = {g.procState i with signaled := sg} ∨
      (i < g.lastBackend ∧ (g.procState i).Participates ∧ (g.procState i).nextMsgNum < lowbound) ∧
        r.procState i = {g.procState i with signaled := sg, resetState := true} := by
    intro i
    obtain ⟨sg, hsg⟩ := hst i
    refine ⟨sg, ?_⟩
    by_cases hc : i < g.lastBackend ∧ (g.procState i).Participates ∧ (g.procState i).nextMsgNum < lowbound
    · refine .inr ⟨hc, ?_⟩
      rw [hsg, h.reset i hc.1 hc.2.1 hc.2.2]
    · refine .inl ?_
      rw [hsg, h.kept i hc]
  refine ⟨hmax, hbuf, hlast, hbound, hmin ▸ h.le_start, fun m hm hall => hmin ▸ h.greatest m hm hall,
    fun i => ?_, fun i => ?_, fun i => ?_, fun i => ?_, fun i hr => ?_, fun i hi hpid hsend hr => ?_⟩
  · obtain ⟨sg, he | ⟨-, he⟩⟩ := hentry i <;> rw [he]
  · obtain ⟨sg, he | ⟨-, he⟩⟩ := hentry i <;> rw [he]
  · obtain ⟨sg, he | ⟨-, he⟩⟩ := hentry i <;> rw [he]
  · obtain ⟨sg, he | ⟨-, he⟩⟩ := hentry i <;> rw [he]
  · obtain ⟨sg, he | ⟨hc, -⟩⟩ := hentry i
    · rw [he] at hr
      exact .inl hr
    · exact .inr hc.2.2
  · by_cases hreset : (g.procState i).resetState = true
    · obtain ⟨sg, he | ⟨-, he⟩⟩ := hentry i
      · rw [he] at hr
        exact absurd hr (by simp [hreset])
      · rw [he] at hr
        cases hr
    · have hp : (g.procState i).Participates := ⟨hpid, by simpa using hreset, hsend⟩
      have hlow : ¬ (g.procState i).nextMsgNum < lowbound := by
        intro hlt
        obtain ⟨sg, hsg⟩ := hst i
        rw [hsg, h.reset i hi hp hlt] at hr
        cases hr
      exact ⟨hp.2.1, hmin ▸ h.le i hi hp (not_lt.mp hlow)⟩

theorem cleaned (g : SISeg M) (minFree : Nat) :
    Cleaned g (siCleanupQueue false g minFree).1 (g.maxMsgNum - maxNumMessages + minFree) := by
  have hs := scanned g minFree
  unfold siCleanupQueue finishCleanup renumber
  simp only [Bool.false_eq_true, false_and, if_false]
  generalize scanBackends g minFree = a at hs
  cases a.needSig with
  | none => exact cleaned_of_scanned hs rfl rfl rfl rfl rfl fun i => ⟨(a.procState i).signaled, rfl⟩
  | some j =>
    refine cleaned_of_scanned hs rfl rfl rfl rfl rfl fun i => ?_
    dsimp only [SISeg.setProcState]
    rcases eq_or_ne i j with rfl | hi
    · exact ⟨true, update_self _ _ _⟩
    · exact ⟨(a.procState i).signaled, update_of_ne hi _ _⟩

theorem Pc.view_of_not_reading (hr : c.reading = false) : c.view = {} := by
  cases c <;> first | rfl | cases hr

theorem inv_cleanup {caller : Caller M} {minFree : Nat} (h : Inv s) (hpc : s.pc p = .cleanup caller minFree) :
    Inv ({s with seg := (siCleanupQueue false s.seg minFree).1}.goto p
      (.cleanupUnlock caller (siCleanupQueue false s.seg minFree).2)) := by
  have hw : (s.pc p).writing = true := by rw [hpc]; rfl
  have hfree := h.stored.ok p
  rw [hpc] at hfree
  have hfree : minFree ≤ maxNumMessages := hfree
  have hreaders : s.readers = [] :=
    h.locked.alone (by rw [(h.locked.read p).mpr (by rw [hpc]; rfl)]; exact some_ne_none _)
  have hview : ∀ q, (s.pc q).view = {} := by
    have hshared := h.locked.shared
    rw [hreaders] at hshared
    exact fun q => view_of_not_reading (hshared.free q)
  have hkick := h.locked.not_kicking hw (by rw [hpc]; rfl)
  have hclean := cleaned s.seg minFree
  generalize (siCleanupQueue false s.seg minFree).2 = needSig
  generalize (siCleanupQueue false s.seg minFree).1 = r at hclean
  have hkick' : ∀ q, (update s.pc p (.cleanupUnlock caller needSig) q).kicking = none := by
    intro q
    rw [apply_update (f := kicking) (by rw [hpc]; rfl) q]
    exact hkick q
  have hlive : ∀ q, (update s.pc p (.cleanupUnlock caller needSig) q ≠ .absent) =
      (s.pc q ≠ .absent) := apply_update (β := Prop) (f := (· ≠ absent)) (by simp [hpc])
  have hview' : ∀ q, (update s.pc p (.cleanupUnlock caller needSig) q).view = {} := by
    intro q
    rw [apply_update (f := view) (by rw [hpc]; rfl) q]
    exact hview q
  have hmin : s.seg.minMsgNum ≤ r.minMsgNum := by
    refine hclean.greatest _ h.stored.le fun i hi hp _ => ?_
    obtain ⟨hpid, hr, hs⟩ := hp
    obtain ⟨hq, hslot⟩ := h.slotted.active i hpid
    have hown : s.own (s.seg.procState i).procPid = s.seg.procState i := by rw [own, hslot]
    have := (h.receiver _ hq (by rw [hown]; exact hs)).above (by rw [hown]; exact hr)
    rwa [hown] at this
  have hroom : s.seg.maxMsgNum ≤ r.minMsgNum + maxNumMessages := by
    have := hclean.greatest (s.seg.maxMsgNum - maxNumMessages + minFree) (by omega) fun i _ _ hl => hl
    omega
  refine ⟨⟨h.locked.write.keep (by rw [hpc]; rfl), h.locked.read.keep (by rw [hpc]; rfl),
      h.locked.shared.keep (by rw [hpc]; rfl), h.locked.alone⟩,
    h.slotted.congr hlive rfl hclean.pid hclean.last hclean.bound,
    ⟨le_trans h.stored.nonneg hmin, ?_, ?_, ?_, ?_, h.others rfl hw trivial, h.stored.completed, ?_⟩,
    fun q hq hsend => ?_⟩
  · exact hclean.max ▸ hclean.le
  · dsimp only [goto]; rw [hclean.max]; exact hroom
  · exact hclean.max.trans h.stored.log
  · have hstored := h.stored.buffer p
    rw [hpc] at hstored
    refine h.buffer_others rfl hw fun k m hk hm => ?_
    dsimp only [goto] at hk hm ⊢
    rw [hclean.buffer]
    exact hstored k m (le_trans hmin hk) hm
  · exact fun _ => h.stored.idle hkick
  · have hq' : s.pc q ≠ .absent := by rw [← hlive q]; exact hq
    have hsend' : (s.own q).sendOnly = false := by rw [← hsend]; exact (hclean.send _).symm
    have hold := h.receiver q hq' hsend'
    obtain ⟨hslot, hpid, hne⟩ := h.slotted.own q hq'
    have hview0 : ((({s with seg := r}.goto p (.cleanupUnlock caller needSig)).pc q).view) = {} := hview' q
    refine ⟨fun hr => ?_, ?_, fun hv => ?_, ?_, fun max hm => ?_, fun _ hor => ?_⟩
    · have habove := hclean.above (s.slot q) hslot (fun h0 => hne (hpid.symm.trans h0)) hsend' hr
      exact le_trans habove.2 (le_of_eq (hclean.next _).symm)
    · exact le_trans (le_of_eq (hclean.next _)) (le_trans hold.below (le_of_eq hclean.max.symm))
    · rw [hview0] at hv
      cases hv
    · obtain ⟨k, hd, hle, heq⟩ := hold.told
      rw [hview q] at hd heq
      rw [hview0]
      exact ⟨k, hd, le_trans hle (le_of_eq (hclean.next _).symm), fun hv => (heq hv).trans (hclean.next _).symm⟩
    · rw [hview0] at hm
      cases hm
    · -- a backend that is reset has not read all there is
      refine (hclean.flag _).trans (hold.flagged (by rw [hview q]) ?_)
      have hlog := h.stored.log
      rw [notified_idle hkick]
      rcases hor with hlt | hr
      · rw [notified_idle hkick'] at hlt
        exact .inl (lt_of_le_of_lt (le_of_eq (hclean.next _).symm) hlt)
      · rcases hclean.reset _ hr with hr | hlow
        · exact .inr hr
        · refine .inl (lt_of_lt_of_le hlow ?_)
          omega

/-! ### Start and end of a backend -/

theorem inv_init {sendOnly : Bool} (h : Inv s) (hpc : s.pc p = .absent) (hlock : s.writeLock = none) (hp : p ≠ 0) :
    Inv (sharedInvalBackendInit s p sendOnly) := by
  unfold sharedInvalBackendInit
  split
  · exact h
  · next i hi =>
    obtain ⟨hbound, hplace⟩ := freeEntry_spec hi h.slotted.bound
    have hother : ∀ q, s.pc q ≠ .absent → s.slot q ≠ i := by
      intro q hq e
      obtain ⟨hlt, hpid, hne⟩ := h.slotted.own q hq
      rcases hplace with ⟨-, hz⟩ | rfl
      · rw [own, e, hz] at hpid
        exact hne hpid.symm
      · omega
    have hkick : ∀ q, (update s.pc p .idle q).kicking = (s.pc q).kicking :=
      apply_update (by rw [hpc]; rfl)
    have hnone : ∀ q, (s.pc q).kicking = none := fun q =>
      kicking_of_not_writing ((hlock ▸ h.locked.write).free q)
    generalize ht : ({s with
      seg := {s.seg.setProcState i ⟨p, s.seg.maxMsgNum, false, false, false, sendOnly⟩ with
        lastBackend := max s.seg.lastBackend (i + 1)}
      pc := update s.pc p .idle
      slot := update s.slot p i
      since := update s.since p s.log.length
      heard := update s.heard p []} : Sys M) = t
    have hlive : ∀ q, q ≠ p → t.pc q = s.pc q ∧ t.slot q = s.slot q ∧ t.since q = s.since q ∧
        t.heard q = s.heard q := by
      intro q hq
      rw [← ht]
      exact ⟨update_of_ne hq _ _, update_of_ne hq _ _, update_of_ne hq _ _,
        update_of_ne hq _ _⟩
    have hself : t.pc p = .idle ∧ t.slot p = i ∧ t.since p = s.log.length ∧ t.heard p = [] := by
      rw [← ht]
      exact ⟨update_self _ _ _, update_self _ _ _, update_self _ _ _,
        update_self _ _ _⟩
    have hentry : t.seg.procState i = ⟨p, s.seg.maxMsgNum, false, false, false, sendOnly⟩ := by
      rw [← ht]
      exact update_self _ _ _
    have hentries : ∀ j, j ≠ i → t.seg.procState j = s.seg.procState j := by
      intro j hj
      rw [← ht]
      exact update_of_ne hj _ _
    have hlast : t.seg.lastBackend = max s.seg.lastBackend (i + 1) := by rw [← ht]
    have hl : Locked t := by
      rw [← ht]
      exact ⟨h.locked.write.keep (by rw [hpc]; rfl), h.locked.read.keep (by rw [hpc]; rfl),
        h.locked.shared.keep (by rw [hpc]; rfl), h.locked.alone⟩
    have hstored : Stored t := by
      rw [← ht]
      refine ⟨h.stored.nonneg, h.stored.le, h.stored.room, h.stored.log, fun q k m => ?_, fun q => ?_,
        h.stored.completed, fun _ => h.stored.idle hnone⟩
      · dsimp only
        rw [apply_update (f := written) (by rw [hpc]; rfl) q]
        exact h.stored.buffer q k m
      · dsimp only
        rcases eq_or_ne q p with rfl | hq
        · rw [update_self]; trivial
        · rw [update_of_ne hq]; exact h.stored.ok q
    have hnot : ∀ j, notified t j = s.log.length := by
      intro j
      rw [← ht]
      exact notified_idle fun q => (hkick q).trans (hnone q)
    refine ⟨hl, ⟨fun q hq => ?_, fun j hj => ?_, ?_⟩, hstored, fun q hq hsend => ?_⟩
    · rw [hlast]
      rcases eq_or_ne q p with rfl | hne
      · rw [own, hself.2.1, hentry]
        exact ⟨by omega, rfl, hp⟩
      · rw [(hlive q hne).1] at hq
        rw [own, (hlive q hne).2.1, hentries _ (hother q hq)]
        obtain ⟨hlt, hrest⟩ := h.slotted.own q hq
        exact ⟨by omega, hrest⟩
    · rcases eq_or_ne j i with rfl | hne
      · rw [hentry, hself.1, hself.2.1]
        exact ⟨by simp, rfl⟩
      · rw [hentries j hne] at hj ⊢
        obtain ⟨hq, hs⟩ := h.slotted.active j hj
        have hqp : (s.seg.procState j).procPid ≠ p := fun e => hq (by rw [e, hpc])
        rw [(hlive _ hqp).1, (hlive _ hqp).2.1]
        exact ⟨hq, hs⟩
    · have hb := h.slotted.bound
      rw [hlast, ← ht]
      exact max_le hb hbound
    · rcases eq_or_ne q p with rfl | hne
      · have hmin := h.stored.le
        have hlog := h.stored.log
        have hmm : t.seg.minMsgNum = s.seg.minMsgNum ∧ t.seg.maxMsgNum = s.seg.maxMsgNum ∧ t.log = s.log := by
          rw [← ht]; exact ⟨rfl, rfl, rfl⟩
        have hown : t.own q = ⟨q, s.seg.maxMsgNum, false, false, false, sendOnly⟩ := by
          rw [own, hself.2.1, hentry]
        constructor
        · rw [hown, hmm.1]; exact fun _ => hmin
        · rw [hown, hmm.2.1]
        · rw [hself.1]; exact fun hv => nomatch hv
        · refine ⟨s.log.length, ?_, ?_, fun _ => ?_⟩
          · rw [hmm.2.2, hself.2.2.1, hself.2.2.2, hself.1]
            exact .start
          · rw [hown]; exact le_of_eq hlog.symm
          · rw [hown]; exact hlog.symm
        · rw [hself.1]; exact fun _ hm => nomatch hm
        · rw [hown, hnot]
          rintro - (hlt | hr)
          · exact absurd hlt (not_lt.mpr (le_of_eq hlog.symm))
          · cases hr
      · rw [(hlive q hne).1] at hq
        have hown : t.own q = s.own q := by
          rw [own, (hlive q hne).2.1, hentries _ (hother q hq), own]
        rw [hown] at hsend
        obtain ⟨hpcq, hslotq, hsinceq, hheardq⟩ := hlive q hne
        refine (h.receiver q hq hsend).frame ⟨hslotq, by rw [hpcq], by rw [hown], by rw [hown],
          by rw [hown]; exact id, .inr ?_, hsinceq, hheardq, ⟨[], ?_⟩, ?_, ?_⟩
        · rw [hnot, notified_idle hnone]
        · rw [← ht, append_nil]
        · rw [← ht]; rfl
        · rw [← ht]; exact le_refl _

theorem inv_exit (h : Inv s) (hpc : s.pc p = .idle) (hlock : s.writeLock = none) :
    Inv (cleanupInvalidationState s p) := by
  have hp : s.pc p ≠ .absent := by simp [hpc]
  have hnone : ∀ q, (s.pc q).kicking = none := fun q =>
    kicking_of_not_writing ((hlock ▸ h.locked.write).free q)
  have hkick : ∀ q, (update s.pc p .absent q).kicking = (s.pc q).kicking :=
    apply_update (by rw [hpc]; rfl)
  unfold cleanupInvalidationState
  have hdead : ∀ q, update s.pc p .absent q ≠ .absent → q ≠ p ∧ s.pc q ≠ .absent := by
    intro q hq
    have hqp : q ≠ p := fun e => hq (by rw [e, update_self])
    rw [update_of_ne hqp] at hq
    exact ⟨hqp, hq⟩
  have hown : ∀ q (st : ProcState), q ≠ p → s.pc q ≠ .absent →
      (s.seg.setProcState (s.slot p) st).procState (s.slot q) = s.own q :=
    fun q st hqp hq => update_of_ne (fun e => hqp (h.slotted.inj hp hq e)) _ _
  refine ⟨⟨h.locked.write.keep (by rw [hpc]; rfl), h.locked.read.keep (by rw [hpc]; rfl),
      h.locked.shared.keep (by rw [hpc]; rfl), h.locked.alone⟩,
    ⟨fun q hq => ?_, fun i hi => ?_, ?_⟩,
    ⟨h.stored.nonneg, h.stored.le, h.stored.room, h.stored.log, fun q k m => ?_, fun q => ?_,
      h.stored.completed, fun _ => h.stored.idle hnone⟩, fun q hq hsend => ?_⟩
  · obtain ⟨hqp, hq⟩ := hdead q hq
    obtain ⟨hlt, hpid, hne⟩ := h.slotted.own q hq
    have hq' := hown q {s.own p with procPid := 0, nextMsgNum := 0, resetState := false, signaled := false} hqp hq
    refine ⟨lt_lastActive hlt ?_, ?_, hne⟩
    · rw [hq', hpid]; exact hne
    · exact (congrArg ProcState.procPid hq').trans hpid
  · have hne : i ≠ s.slot p := by
      rintro rfl
      refine hi ?_
      dsimp only [SISeg.setProcState]
      rw [update_self]
    have he : ∀ st, (s.seg.setProcState (s.slot p) st).procState i = s.seg.procState i :=
      fun st => update_of_ne hne _ _
    dsimp only at hi ⊢
    rw [he] at hi ⊢
    obtain ⟨hq, hs⟩ := h.slotted.active i hi
    have hqp : (s.seg.procState i).procPid ≠ p := fun e => hne (by rw [← hs, e])
    rw [update_of_ne hqp]
    exact ⟨hq, hs⟩
  · exact le_trans (lastActive_le _ _) h.slotted.bound
  · dsimp only
    rw [apply_update (f := written) (by rw [hpc]; rfl) q]
    exact h.stored.buffer q k m
  · dsimp only
    rcases eq_or_ne q p with rfl | hq
    · rw [update_self]; trivial
    · rw [update_of_ne hq]; exact h.stored.ok q
  · obtain ⟨hqp, hq⟩ := hdead q hq
    have hq' := hown q {s.own p with procPid := 0, nextMsgNum := 0, resetState := false, signaled := false} hqp hq
    have hsend' : (s.own q).sendOnly = false := (congrArg ProcState.sendOnly hq').symm.trans hsend
    refine (h.receiver q hq hsend').frame ⟨rfl, ?_, congrArg ProcState.nextMsgNum hq',
      congrArg ProcState.resetState hq', fun hf => (congrArg ProcState.hasMessages hq').trans hf, .inr ?_,
      rfl, rfl, ⟨[], (append_nil _).symm⟩, rfl, le_refl _⟩
    · exact congrArg view (update_of_ne hqp _ _)
    · rw [notified_idle fun q => (hkick q).trans (hnone q), notified_idle hnone]

/-! ### Steps of a reader -/

theorem Locked.keep (h : Locked s) (hpc : t.pc = update s.pc p c)
    (hlocks : t.writeLock = s.writeLock ∧ t.readLock = s.readLock ∧ t.readers = s.readers)
    (hw : c.writing = (s.pc p).writing) (hc : c.cleaning = (s.pc p).cleaning)
    (hr : c.reading = (s.pc p).reading) : Locked t := by
  obtain ⟨h1, h2, h3⟩ := hlocks
  refine ⟨?_, ?_, ?_, ?_⟩
  · rw [hpc, h1]; exact h.write.keep hw
  · rw [hpc, h2]; exact h.read.keep hc
  · rw [hpc, h3]; exact h.shared.keep hr
  · rw [h2, h3]; exact h.alone

theorem Pc.of_reading (hr : c.reading = true) :
    c ≠ .absent ∧ c.writing = false ∧ c.cleaning = false ∧ c.written = [] := by
  refine ⟨fun e => ?_, ?_⟩
  · rw [e] at hr
    cases hr
  · cases c <;> first | exact ⟨rfl, rfl, rfl⟩ | cases hr

theorem Pc.ok_of_reading (hr : c.reading = true) : c.Ok g := by
  cases c <;> first | exact trivial | cases hr

/-- A reader changes its own entry and may be told something; what the writer does is not
concerned. -/
theorem Inv.read (h : Inv s) (e : Move s t p c st) (hl : Locked t) (hpc : (s.pc p).reading = true)
    (hc : c.reading = true ∨ c = .idle) (hpid : st.procPid = (s.own p).procPid)
    (hsend : st.sendOnly = (s.own p).sendOnly)
    (hr : (∀ i, notified t i = notified s i) → Receiver s p → Receiver t p) : Inv t := by
  have hplain : ∀ d : Pc M, d.reading = true ∨ d = .idle →
      d ≠ .absent ∧ d.kicking = none ∧ d.written = [] ∧ d.Ok s.seg := by
    rintro d (hd | rfl)
    · obtain ⟨h1, h2, -, h4⟩ := of_reading hd
      exact ⟨h1, kicking_of_not_writing h2, h4, ok_of_reading hd⟩
    · exact ⟨nofun, rfl, rfl, trivial⟩
  obtain ⟨hp1, hp2, hp3, -⟩ := hplain _ (.inl hpc)
  obtain ⟨hc1, hc2, hc3, hc4⟩ := hplain _ hc
  refine h.move e ⟨hp1, hc1, hc2.trans hp2.symm, hc3.trans hp3.symm, hc4⟩ hl hpid hsend fun _ => hr ?_
  refine notified_congr h.locked hl ?_ e.log e.completed
  rw [e.pc]
  exact apply_update (hc2.trans hp2.symm)

theorem inv_getClear (h : Inv s) (hpc : s.pc p = .getClear datasize)
    (e : Move s t p (.getMax datasize) {s.own p with hasMessages := false}) (hl : Locked t)
    (hh : t.heard p = s.heard p) : Inv t := by
  refine h.read e hl (by rw [hpc]; rfl) (.inl rfl) rfl rfl fun _ hr => ?_
  have hview : (t.pc p).view = {cleared := true} := by rw [e.pc, update_self]; rfl
  refine ⟨?_, ?_, ?_, ?_, ?_, ?_⟩
  · rw [e.own, e.seg]; exact hr.above
  · rw [e.own, e.seg]; exact hr.below
  · rw [hview]; exact fun hv => nomatch hv
  · obtain ⟨k, hd, hle, heq⟩ := hr.told
    rw [hpc] at hd heq
    rw [hview, e.own, e.log, e.since, hh]
    exact ⟨k, hd, hle, heq⟩
  · rw [hview]; exact fun _ hm => nomatch hm
  · rw [hview]; exact fun hv => nomatch hv

/-- The limit that is read covers everything the flag may still have to tell of. -/
theorem inv_getMax (h : Inv s) (hpc : s.pc p = .getMax datasize)
    (e : Move s t p (.getReset datasize s.seg.maxMsgNum) (s.own p)) (hl : Locked t)
    (hh : t.heard p = s.heard p) : Inv t := by
  refine h.read e hl (by rw [hpc]; rfl) (.inl rfl) rfl rfl fun hn hr => ?_
  have hview : (t.pc p).view = {cleared := true, limit := some s.seg.maxMsgNum} := by
    rw [e.pc, update_self]; rfl
  refine ⟨?_, ?_, ?_, ?_, ?_, ?_⟩
  · rw [e.own, e.seg]; exact hr.above
  · rw [e.own, e.seg]; exact hr.below
  · rw [hview]; exact fun hv => nomatch hv
  · obtain ⟨k, hd, hle, heq⟩ := hr.told
    rw [hpc] at hd heq
    rw [hview, e.own, e.log, e.since, hh]
    exact ⟨k, hd, hle, heq⟩
  · rw [hview]
    rintro max hm
    obtain rfl := some_inj.mp hm
    refine ⟨by rw [e.seg]; exact h.stored.le, by rw [e.own]; exact hr.below, by rw [e.seg]; exact le_refl _,
      fun hlt => absurd hlt (not_lt.mpr ?_)⟩
    rw [hn, h.stored.log]
    exact_mod_cast notified_le h.stored.completed _
  · rw [hview]; exact fun hv => nomatch hv

/-- The limit of the flag: what it tells of beyond the limit it still tells of. -/
theorem Receiver.limit_flag (hr : Receiver s p) (hl : (s.pc p).view.limit = some max)
    (hs : t.slot p = s.slot p) (hn : ∀ i, notified t i = notified s i)
    (hlt : max < notified t (t.slot p)) : (s.own p).hasMessages = true := by
  rw [hs, hn] at hlt
  exact (hr.limit max hl).2.2.2 hlt

/-- What was missed lies before the limit, and that is in the log. -/
theorem inv_getReset (h : Inv s) (hpc : s.pc p = .getReset datasize max)
    (e : Move s t p (.getUnlock .reset) {s.own p with nextMsgNum := max, resetState := false, signaled := false})
    (hl : Locked t) (hh : t.heard p = s.heard p) : Inv t := by
  refine h.read e hl (by rw [hpc]; rfl) (.inl rfl) rfl rfl fun hn hr => ?_
  have hview : (t.pc p).view = {resetting := true} := by rw [e.pc, update_self]; rfl
  have hlim : (s.pc p).view.limit = some max := by rw [hpc]; rfl
  obtain ⟨hmin, hnext, hmax, -⟩ := hr.limit max hlim
  refine ⟨?_, ?_, ?_, ?_, ?_, ?_⟩
  · rw [e.own, e.seg]; exact fun _ => hmin
  · rw [e.own, e.seg]; exact hmax
  · rw [hview]; exact fun hv => nomatch hv
  · obtain ⟨k, hd, hle, -⟩ := hr.told
    rw [hpc] at hd
    rw [hview, e.own, e.log, e.since, hh]
    exact ⟨k, hd, le_trans hle hnext, fun hv => nomatch hv⟩
  · rw [hview]; exact fun _ hm => nomatch hm
  · rw [e.own]
    rintro - (hlt | hr')
    · exact hr.limit_flag hlim (by rw [e.slot]) hn hlt
    · cases hr'

theorem inv_getPast (h : Inv s) (hpc : s.pc p = .getReset datasize max)
    (e : Move s t p (.getData datasize max []) (s.own p)) (hl : Locked t) (hreset : (s.own p).resetState = false)
    (hh : t.heard p = s.heard p) : Inv t := by
  refine h.read e hl (by rw [hpc]; rfl) (.inl rfl) rfl rfl fun hn hr => ?_
  have hview : (t.pc p).view = {pending := [], cleared := true, limit := some max, taking := true} := by
    rw [e.pc, update_self]; rfl
  have hlim : (s.pc p).view.limit = some max := by rw [hpc]; rfl
  obtain ⟨hmin, hnext, hmax, -⟩ := hr.limit max hlim
  refine ⟨?_, ?_, ?_, ?_, ?_, ?_⟩
  · rw [e.own, e.seg]; exact hr.above
  · rw [e.own, e.seg]; exact hr.below
  · rw [e.own]; exact fun _ => hreset
  · obtain ⟨k, hd, hle, heq⟩ := hr.told
    rw [hpc] at hd heq
    rw [hview, e.own, e.log, e.since, hh]
    exact ⟨k, hd, hle, heq⟩
  · rw [hview]
    rintro m hm
    obtain rfl := some_inj.mp hm
    rw [e.own, e.seg]
    exact ⟨hmin, hnext, hmax, hr.limit_flag hlim (by rw [e.slot]) hn⟩
  · rw [hview]; exact fun hv => nomatch hv

/-- The message that is taken is the next one of the log. -/
theorem inv_getTake {data : List M} (h : Inv s)
    (hpc : s.pc p = .getData datasize max data) (hlt : (s.own p).nextMsgNum < max)
    (e : Move s t p (.getData datasize max (data ++ [s.seg.buffer ((s.own p).nextMsgNum % maxNumMessages)]))
      {s.own p with nextMsgNum := (s.own p).nextMsgNum + 1}) (hl : Locked t)
    (hh : t.heard p = s.heard p) : Inv t := by
  refine h.read e hl (by rw [hpc]; rfl) (.inl rfl) rfl rfl fun hn hr => ?_
  generalize hm : s.seg.buffer ((s.own p).nextMsgNum % maxNumMessages) = m at e
  have hview : (t.pc p).view = {pending := data ++ [m], cleared := true, limit := some max, taking := true} := by
    rw [e.pc, update_self]; rfl
  have hlim : (s.pc p).view.limit = some max := by rw [hpc]; rfl
  obtain ⟨hmin, hnext, hmax, -⟩ := hr.limit max hlim
  have hreset := hr.taking (by rw [hpc]; rfl)
  have habove := hr.above hreset
  refine ⟨?_, ?_, ?_, ?_, ?_, ?_⟩
  · rw [e.own, e.seg]
    intro _
    dsimp only [SISeg.setProcState]; omega
  · rw [e.own, e.seg]
    dsimp only [SISeg.setProcState]; omega
  · rw [e.own]; exact fun _ => hreset
  · obtain ⟨k, hd, hle, heq⟩ := hr.told
    rw [hpc] at hd heq
    have hk : (k : Int) = (s.own p).nextMsgNum := heq rfl
    rw [hview, e.own, e.log, e.since, hh, map_append, ← append_assoc]
    refine ⟨k + 1, .message hd ?_, by push_cast; omega, fun _ => by push_cast; omega⟩
    have hlog := h.stored.log
    have hklt : k < s.log.length := by omega
    have hbuf := h.stored.buffer p k (s.log[k]) (by omega) (by
      rw [getElem?_append_left hklt]; exact getElem?_eq_getElem hklt)
    rw [hk, hm] at hbuf
    rw [hbuf]
    exact getElem?_eq_getElem hklt
  · rw [hview]
    rintro x hx
    obtain rfl := some_inj.mp hx
    rw [e.own, e.seg]
    exact ⟨hmin, hlt, hmax, hr.limit_flag hlim (by rw [e.slot]) hn⟩
  · rw [hview]; exact fun hv => nomatch hv

theorem inv_getDone {data : List M} (h : Inv s) (hpc : s.pc p = .getData datasize max data)
    (hst : st = if max ≤ (s.own p).nextMsgNum then {s.own p with signaled := false}
      else {s.own p with hasMessages := true})
    (e : Move s t p (.getUnlock (.messages data)) st) (hl : Locked t) (hh : t.heard p = s.heard p) : Inv t := by
  have hsame : st.procPid = (s.own p).procPid ∧ st.sendOnly = (s.own p).sendOnly ∧
      st.nextMsgNum = (s.own p).nextMsgNum ∧ st.resetState = (s.own p).resetState := by
    rw [hst]
    split_ifs <;> exact ⟨rfl, rfl, rfl, rfl⟩
  obtain ⟨hpid, hsend, hnextst, hresetst⟩ := hsame
  refine h.read e hl (by rw [hpc]; rfl) (.inl rfl) hpid hsend fun hn hr => ?_
  have hview : (t.pc p).view = {pending := data} := by rw [e.pc, update_self]; rfl
  have hlim : (s.pc p).view.limit = some max := by rw [hpc]; rfl
  have hreset := hr.taking (by rw [hpc]; rfl)
  refine ⟨?_, ?_, ?_, ?_, ?_, ?_⟩
  · rw [e.own, e.seg, hnextst, hresetst]; exact hr.above
  · rw [e.own, e.seg, hnextst]; exact hr.below
  · rw [hview]; exact fun hv => nomatch hv
  · obtain ⟨k, hd, hle, heq⟩ := hr.told
    rw [hpc] at hd heq
    rw [hview, e.own, e.log, e.since, hh, hnextst]
    exact ⟨k, hd, hle, heq⟩
  · rw [hview]; exact fun _ hm => nomatch hm
  · rw [e.own, hnextst, hresetst, hreset]
    rintro - (hlt | hr')
    · rw [hst]
      split_ifs with hmax
      · exact hr.limit_flag hlim (by rw [e.slot]) hn (lt_of_le_of_lt hmax hlt)
      · rfl
    · cases hr'

theorem inv_getUnlock {reply : Reply M} (h : Inv s) (hpc : s.pc p = .getUnlock reply)
    (e : Move s t p .idle (s.own p)) (hl : Locked t)
    (hh : t.heard p = s.heard p ++ reply.events s.log.length) : Inv t := by
  refine h.read e hl (by rw [hpc]; rfl) (.inr rfl) rfl rfl fun hn hr => ?_
  have hview : (t.pc p).view = {} := by rw [e.pc, update_self]; rfl
  have hcleared : (s.pc p).view.cleared = false := by rw [hpc]; cases reply <;> rfl
  refine ⟨?_, ?_, ?_, ?_, ?_, ?_⟩
  · rw [e.own, e.seg]; exact hr.above
  · rw [e.own, e.seg]; exact hr.below
  · rw [hview]; exact fun hv => nomatch hv
  · obtain ⟨k, hd, hle, heq⟩ := hr.told
    have hlog := h.stored.log
    have hbelow := hr.below
    rw [hpc] at hd heq
    rw [hview, e.own, e.log, e.since, hh, map_nil, append_nil]
    cases reply with
    | messages data => exact ⟨k, hd, hle, heq⟩
    | reset =>
      -- the reset stands for the messages up to the counter
      obtain ⟨n, hcount⟩ := Int.eq_ofNat_of_zero_le (le_trans (Int.natCast_nonneg k) hle)
      have hd' : Delivered s.log (s.since p) (s.heard p) k := by simpa [view] using hd
      exact ⟨n, .reset hd' (by omega) (by omega) (le_refl _), le_of_eq hcount.symm, fun _ => hcount.symm⟩
  · rw [hview]; exact fun _ hm => nomatch hm
  · rw [e.own, e.slot, hn]
    exact fun _ hor => hr.flagged hcleared hor

theorem move_goto (s : Sys M) (p : Nat) (c : Pc M) (wl rl : Option Nat) (rs : List Nat) :
    Move s ({s with writeLock := wl, readLock := rl, readers := rs}.goto p c) p c (s.own p) :=
  ⟨rfl, (setProcState_own s p).symm, rfl, rfl, rfl, rfl, fun _ _ => rfl⟩

/-- A step of a process that neither signals nor writes, before or after it. -/
theorem Inv.goto {d : Pc M} {wl rl : Option Nat} {rs : List Nat} (h : Inv s) (hp : s.pc p = d)
    (hpresent : d ≠ .absent ∧ c ≠ .absent)
    (hplain : (d.kicking = none ∧ d.written = []) ∧ c.kicking = none ∧ c.written = []) (hv : c.view = d.view)
    (hok : c.Ok s.seg) (hl : Locked ({s with writeLock := wl, readLock := rl, readers := rs}.goto p c)) :
    Inv ({s with writeLock := wl, readLock := rl, readers := rs}.goto p c) := by
  subst hp
  obtain ⟨⟨hdk, hdw⟩, hk, hw⟩ := hplain
  exact h.quiet (move_goto s p c wl rl rs) ⟨hpresent.1, hpresent.2, by rw [hk, hdk], by rw [hw, hdw], hok⟩ hl hv rfl

theorem move_setOwn (s : Sys M) (p : Nat) (c : Pc M) (st : ProcState) :
    Move s ((s.setOwn p st).goto p c) p c st :=
  ⟨rfl, rfl, rfl, rfl, rfl, rfl, fun _ _ => rfl⟩

/-- A step inside a call. -/
theorem inv_continue (h : Inv s) (ht : siContinue false s p (s.pc p) = some t) : Inv t := by
  have hl := h.locked
  have hokp := h.stored.ok p
  cases hpc : s.pc p with
  | absent | idle => rw [hpc] at ht; cases ht
  | insertLock data =>
    rw [hpc] at ht
    simp only [siContinue] at ht
    split_ifs at ht with hfree
    obtain rfl := some_inj.mp ht
    refine h.goto hpc ⟨nofun, nofun⟩ ⟨⟨rfl, rfl⟩, rfl, rfl⟩ rfl trivial ?_
    exact ⟨(hfree ▸ hl.write).acquire rfl, hl.read.keep (by rw [hpc]; rfl), hl.shared.keep (by rw [hpc]; rfl), hl.alone⟩
  | check data =>
    rw [hpc] at ht
    simp only [siContinue] at ht
    split_ifs at ht with hfull
    · obtain rfl := some_inj.mp ht
      refine h.goto hpc ⟨nofun, nofun⟩ ⟨⟨rfl, rfl⟩, rfl, rfl⟩ rfl ?_ (hl.keep rfl ⟨rfl, rfl, rfl⟩ ?_ ?_ ?_)
      · exact le_trans (min_le_right _ _) (by decide)
      all_goals rw [hpc]; rfl
    · obtain rfl := some_inj.mp ht
      refine h.goto hpc ⟨nofun, nofun⟩ ⟨⟨rfl, rfl⟩, rfl, rfl⟩ rfl ⟨?_, ?_⟩ (hl.keep rfl ⟨rfl, rfl, rfl⟩ ?_ ?_ ?_)
      · rw [length_nil]; exact (Int.add_zero _).symm
      · -- the batch fits
        have hn := (not_or.mp hfull).1
        rw [length_take_of_le (min_le_left _ _)]
        omega
      all_goals rw [hpc]; rfl
  | fill max done todo rest =>
    rw [hpc] at ht hokp
    cases todo with
    | cons m todo =>
      obtain rfl := some_inj.mp ht
      exact inv_fill h hpc
    | nil =>
      obtain rfl := some_inj.mp ht
      refine h.quiet (move_goto s p _ _ _ _) ⟨by rw [hpc]; exact nofun, nofun, by rw [hpc]; rfl, by rw [hpc]; rfl, ?_⟩
        (hl.keep rfl ⟨rfl, rfl, rfl⟩ ?_ ?_ ?_) (by rw [hpc]; rfl) rfl
      · exact ⟨hokp.1, by simpa using hokp.2⟩
      all_goals rw [hpc]; rfl
  | publish max done rest =>
    rw [hpc] at ht
    obtain rfl := some_inj.mp ht
    exact inv_publish h hpc
  | kick i rest =>
    rw [hpc] at ht
    simp only [siContinue] at ht
    split_ifs at ht with hi
    · obtain rfl := some_inj.mp ht
      exact inv_kick h hpc
    · obtain rfl := some_inj.mp ht
      exact inv_kicked h hpc hi
  | cleanupLock minFree =>
    rw [hpc] at ht hokp
    simp only [siContinue] at ht
    split_ifs at ht with hfree
    obtain rfl := some_inj.mp ht
    refine h.goto hpc ⟨nofun, nofun⟩ ⟨⟨rfl, rfl⟩, rfl, rfl⟩ rfl hokp ?_
    exact ⟨(hfree ▸ hl.write).acquire rfl, hl.read.keep (by rw [hpc]; rfl), hl.shared.keep (by rw [hpc]; rfl), hl.alone⟩
  | cleanupRead caller minFree =>
    rw [hpc] at ht hokp
    simp only [siContinue] at ht
    split_ifs at ht with hfree
    obtain rfl := some_inj.mp ht
    refine h.goto hpc ⟨nofun, nofun⟩ ⟨⟨rfl, rfl⟩, rfl, rfl⟩ rfl hokp ?_
    exact ⟨hl.write.keep (by rw [hpc]; rfl), (hfree.1 ▸ hl.read).acquire rfl, hl.shared.keep (by rw [hpc]; rfl),
      fun _ => hfree.2⟩
  | cleanup caller minFree =>
    rw [hpc] at ht
    obtain rfl := some_inj.mp ht
    exact inv_cleanup h hpc
  | cleanupUnlock caller needSig =>
    rw [hpc] at ht
    simp only [siContinue] at ht
    obtain rfl := some_inj.mp ht
    have hcl : (s.pc p).cleaning = true := by rw [hpc]; rfl
    split
    · refine h.goto hpc ⟨nofun, nofun⟩ ⟨⟨rfl, rfl⟩, rfl, rfl⟩ rfl trivial ?_
      exact ⟨hl.write.keep (by rw [hpc]; rfl), hl.read.release hcl rfl, hl.shared.keep (by rw [hpc]; rfl),
        fun hn => absurd rfl hn⟩
    · refine h.goto hpc ⟨nofun, nofun⟩ ⟨⟨rfl, rfl⟩, rfl, rfl⟩ rfl trivial ?_
      exact ⟨hl.write.keep (by rw [hpc]; rfl), hl.read.release hcl rfl, hl.shared.keep (by rw [hpc]; rfl),
        fun hn => absurd rfl hn⟩
  | cleanupRelease caller =>
    rw [hpc] at ht
    simp only [siContinue] at ht
    obtain rfl := some_inj.mp ht
    have hw : (s.pc p).writing = true := by rw [hpc]; rfl
    cases caller with
    | insert data | backend =>
      refine h.goto hpc ⟨nofun, nofun⟩ ⟨⟨rfl, rfl⟩, rfl, rfl⟩ rfl trivial ?_
      exact ⟨hl.write.release hw rfl, hl.read.keep (by rw [hpc]; rfl), hl.shared.keep (by rw [hpc]; rfl), hl.alone⟩
  | getLock datasize =>
    rw [hpc] at ht
    simp only [siContinue] at ht
    split_ifs at ht with hfree
    obtain rfl := some_inj.mp ht
    refine h.goto hpc ⟨nofun, nofun⟩ ⟨⟨rfl, rfl⟩, rfl, rfl⟩ rfl trivial ?_
    exact ⟨hl.write.keep (by rw [hpc]; rfl), hl.read.keep (by rw [hpc]; rfl), hl.shared.join rfl,
      fun hn => absurd hfree hn⟩
  | getClear datasize =>
    rw [hpc] at ht
    obtain rfl := some_inj.mp ht
    refine inv_getClear h hpc (move_setOwn s p _ _) (hl.keep rfl ⟨rfl, rfl, rfl⟩ ?_ ?_ ?_) rfl
    all_goals rw [hpc]; rfl
  | getMax datasize =>
    rw [hpc] at ht
    obtain rfl := some_inj.mp ht
    refine inv_getMax h hpc (move_goto s p _ _ _ _) (hl.keep rfl ⟨rfl, rfl, rfl⟩ ?_ ?_ ?_) rfl
    all_goals rw [hpc]; rfl
  | getReset datasize max =>
    rw [hpc] at ht
    simp only [siContinue] at ht
    split_ifs at ht with hreset
    · obtain rfl := some_inj.mp ht
      refine inv_getReset h hpc (move_setOwn s p _ _) (hl.keep rfl ⟨rfl, rfl, rfl⟩ ?_ ?_ ?_) rfl
      all_goals rw [hpc]; rfl
    · obtain rfl := some_inj.mp ht
      refine inv_getPast h hpc (move_goto s p _ _ _ _) (hl.keep rfl ⟨rfl, rfl, rfl⟩ ?_ ?_ ?_) (by simpa using hreset) rfl
      all_goals rw [hpc]; rfl
  | getData datasize max data =>
    rw [hpc] at ht
    simp only [siContinue] at ht
    split_ifs at ht with htake hmax
    · obtain rfl := some_inj.mp ht
      refine inv_getTake h hpc htake.2 (move_setOwn s p _ _) (hl.keep rfl ⟨rfl, rfl, rfl⟩ ?_ ?_ ?_) rfl
      all_goals rw [hpc]; rfl
    · obtain rfl := some_inj.mp ht
      refine inv_getDone h hpc (if_pos hmax).symm (move_setOwn s p _ _) (hl.keep rfl ⟨rfl, rfl, rfl⟩ ?_ ?_ ?_) rfl
      all_goals rw [hpc]; rfl
    · obtain rfl := some_inj.mp ht
      refine inv_getDone h hpc (if_neg hmax).symm (move_setOwn s p _ _) (hl.keep rfl ⟨rfl, rfl, rfl⟩ ?_ ?_ ?_) rfl
      all_goals rw [hpc]; rfl
  | getUnlock reply =>
    rw [hpc] at ht
    obtain rfl := some_inj.mp ht
    refine inv_getUnlock h hpc ⟨rfl, (setProcState_own s p).symm, rfl, rfl, rfl, rfl, fun q hq => ?_⟩ ?_ ?_
    · exact update_of_ne hq _ _
    · refine ⟨hl.write.keep (by rw [hpc]; rfl), hl.read.keep (by rw [hpc]; rfl), hl.shared.leave rfl, fun hn => ?_⟩
      dsimp only [goto]
      rw [hl.alone hn]
      rfl
    · exact update_self _ _ _

/-- **Every step keeps the invariant.** -/
theorem inv_step {pa : Nat × Act M} (h : Inv s) (ht : siStep false s pa = some t) : Inv t := by
  obtain ⟨p, a⟩ := pa
  have hl := h.locked
  unfold siStep at ht
  dsimp only at ht
  split at ht
  · next sendOnly hpc =>
    split_ifs at ht with hc
    obtain rfl := some_inj.mp ht
    exact inv_init h hpc hc.1 hc.2
  · next hpc =>
    split_ifs at ht with hc
    obtain rfl := some_inj.mp ht
    exact inv_exit h hpc hc
  · next data hpc =>
    obtain rfl := some_inj.mp ht
    rcases insertNext_cases data with e | e
    · rw [e]
      refine h.goto hpc ⟨nofun, nofun⟩ ⟨⟨rfl, rfl⟩, rfl, rfl⟩ rfl trivial (hl.keep rfl ⟨rfl, rfl, rfl⟩ ?_ ?_ ?_)
      all_goals rw [hpc]
    · rw [e]
      refine h.goto hpc ⟨nofun, nofun⟩ ⟨⟨rfl, rfl⟩, rfl, rfl⟩ rfl trivial (hl.keep rfl ⟨rfl, rfl, rfl⟩ ?_ ?_ ?_)
      all_goals rw [hpc]; rfl
  · next minFree hpc =>
    split_ifs at ht with hfree
    obtain rfl := some_inj.mp ht
    refine h.goto hpc ⟨nofun, nofun⟩ ⟨⟨rfl, rfl⟩, rfl, rfl⟩ rfl hfree (hl.keep rfl ⟨rfl, rfl, rfl⟩ ?_ ?_ ?_)
    all_goals rw [hpc]; rfl
  · next datasize hpc =>
    split_ifs at ht with hflag
    · obtain rfl := some_inj.mp ht
      refine h.goto hpc ⟨nofun, nofun⟩ ⟨⟨rfl, rfl⟩, rfl, rfl⟩ rfl trivial (hl.keep rfl ⟨rfl, rfl, rfl⟩ ?_ ?_ ?_)
      all_goals rw [hpc]; rfl
    · obtain rfl := some_inj.mp ht
      exact h
  · exact inv_continue h ht
  · cases ht

theorem inv_start (maxBackends : Nat) (buffer : Int → M) : Inv (start maxBackends buffer) where
  locked := ⟨fun p => by simp [start, writing], fun p => by simp [start, cleaning],
    fun p => by simp [start, reading], fun _ => rfl⟩
  slotted := ⟨fun p hp => absurd rfl hp, fun i hi => absurd rfl hi, Nat.zero_le _⟩
  stored := by
    refine ⟨le_refl _, le_refl _, by simp [start, createSharedInvalidationState], rfl, fun p k m _ hm => ?_, fun _ => trivial, le_refl _, fun _ => rfl⟩
    exact absurd hm (by simp [start, written])
  receiver p hp := absurd rfl hp

theorem inv_run {acts : List (Nat × Act M)} (h : Inv s) (hr : siRun false s acts = some t) : Inv t := by
  induction acts generalizing s with
  | nil => exact some_inj.mp hr ▸ h
  | cons pa rest ih =>
    obtain ⟨u, hu, hrest⟩ := bind_eq_some_iff.mp hr
    exact ih (inv_step h hu) hrest

end Steps
end PgStorage.Sinval
