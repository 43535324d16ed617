import PgStorage.ShmMq.Sender

/-! The steps of the sender.

Each of them keeps what the sender keeps, and is a frame step for the receiver. -/
namespace PgStorage.ShmMq
open Memory Circular
open List

section SenderSteps
variable {s t : Sys} {x : Sender} {prev : List Msg} {m : Msg} {c : Call} {pt : At} {n : Nat}

theorem Frame.setSnd (hd : s.snd.pc.isDead = false) : Frame s (s.setSnd x) where
  rcv := rfl
  received := rfl
  read := rfl
  size := rfl
  written := le_refl _
  sent := prefix_rfl
  gone h := by
    rcases h with h | h
    · exact ⟨.inl h, rfl⟩
    · simp [hd] at h
  detached := id
  ring _ _ _ := rfl

theorem SendInv.kept (hi : SendInv s.mq s.snd s.sent s.completed prev) (hd : s.snd.pc.isDead = false)
    (h : SendAt s.mq x s.sent s.completed prev) : Kept s (s.setSnd x) :=
  ⟨⟨prev, {hi with pc := h}⟩, .setSnd hd⟩

theorem SendInv.kept_settled (hi : SendInv s.mq s.snd s.sent s.completed prev) (hd : s.snd.pc.isDead = false)
    (h : Settled s.mq x s.sent s.completed prev) : Kept s (s.setSnd x) := by
  obtain ⟨prev', hp, hbegun, hlen, hat⟩ := h
  have hdone := le_trans hi.done hp.length_le
  exact ⟨⟨prev', {hi with before := hlen, begun := hbegun, done := hdone, pc := hat}⟩, .setSnd hd⟩

/-- The room that is found, with the counters as they are read. -/
theorem copy_room {r w size : Nat} (left : Nat) (hr : 8 ∣ r) (hw : 8 ∣ w) (hs : 8 ∣ size) (hle : r ≤ w)
    (hfit : w ≤ r + size)
    (h0 : 0 < size) :
    min (min (size - (w - r)) left) (size - w % size) ≤ left ∧
    (8 ∣ min (min (size - (w - r)) left) (size - w % size) ∨
      min (min (size - (w - r)) left) (size - w % size) = left) ∧
    w + min (min (size - (w - r)) left) (size - w % size) ≤ r + size ∧
    w % size + min (min (size - (w - r)) left) (size - w % size) ≤ size := by
  have hmod : 8 ∣ w % size := (Nat.dvd_mod_iff hs).mpr hw
  have hlt := Nat.mod_lt w h0
  omega

section
variable (hi : SendInv s.mq s.snd s.sent s.completed prev)
include hi

theorem sendTop_kept (hpc : s.snd.pc = .bytes .top c)
    (hb : (stream s.sent).length < 2 ^ 64) : Kept s (s.sendTop c) := by
  have hd : s.snd.pc.isDead = false := by rw [hpc]; rfl
  have hat := hi.pc
  rw [SendAt, hpc] at hat
  have htotal := hi.total
  have hused := Mq.used_eq hi.le (by omega)
  rcases hat with ⟨m, hc, hw⟩ | ⟨hbr, -, hlt⟩
  · by_cases hend : c.data.length ≤ c.sent
    · rw [Sys.sendTop, if_pos hend]
      exact hi.kept_settled hd (resume_settled hc (le_antisymm hc.le hend) hw hi.done hb)
    · have hlt : c.sent < c.data.length := by omega
      have hpos : s.mq.bytesWritten = (stream prev).length +
          (position s.snd.h.lengthWordComplete s.snd.h.partialBytes + c.sent) := by
        rw [← hc.aligned hlt]
        exact hw
      rw [Sys.sendTop, if_neg hend, hused]
      dsimp only
      split
      next hdet => exact hi.kept hd (sendAt_detached hdet)
      · split
        · refine hi.kept hd (.inl ⟨m, hc, ?_⟩)
          split
          · exact ⟨hlt, hpos⟩
          · exact ⟨hlt, hpos⟩
        · split
          · exact hi.kept hd (.inl ⟨m, hc, hlt, hpos⟩)
          · obtain ⟨h1, h2, h3, h4⟩ := copy_room (c.data.length - c.sent) hi.aligned.1 hi.aligned.2 hi.size.2 hi.le
              hi.fits hi.size.1
            refine hi.kept hd (.inl ⟨m, hc, ?_, ?_, hlt, hpos, h3, h4⟩)
            · omega
            · omega
  · rw [Sys.sendTop, if_neg (by omega)]
    dsimp only
    rw [if_pos hbr.1]
    exact hi.kept hd (sendAt_detached hbr.1)

/-- The bytes that are copied are the next ones of the stream. -/
theorem copy_kept (hpc : s.snd.pc = .bytes (.copy n) c)
    (hc : Calling s.snd.h.lengthWordComplete s.snd.h.partialBytes s.snd.iov s.sent prev m c)
    (hp : (At.copy n).Holds s.mq s.sent (stream prev).length
      (position s.snd.h.lengthWordComplete s.snd.h.partialBytes) c) :
    Kept s (s.sendBytes false c (.copy n)) := by
  obtain ⟨hn, hal, hlt, hw, hroom, hfit⟩ := hp
  have hlen : ((c.data.drop c.sent).take n).length = n := by
    rw [length_take, length_drop]
    omega
  have hbegun : prev ++ [m] <+: s.sent := hc.mid.sent ▸ prefix_rfl
  have hseg := hc.seg.le
  rw [length_word] at hseg
  have hwin : Window (memcpy s.mq.ring (s.mq.bytesWritten % s.mq.ringSize)
    ((c.data.drop c.sent).take n)) s.mq.ringSize
      (stream s.sent) s.mq.bytesRead (s.mq.bytesWritten + n) := by
    have h := hi.window.memcpy ((c.data.drop c.sent).take n) (by omega) (by omega) ?_
    · rwa [hlen] at h
    · intro i b hi' hb
      have := le_maxAlign (n := m.length)
      rw [hw, add_assoc, stream_eq_some hbegun (by omega)] at hb
      rw [getElem?_take, if_pos (by omega), getElem?_drop, hc.seg.getElem? (by omega), ← hb,
        add_assoc]
  refine ⟨⟨prev, {hi with window := hwin.mono (le_refl _) (Nat.le_add_right _ _), pc := .inl ⟨m, ?_, ?_⟩}⟩, ?_⟩
  · have := hc.align
    exact {hc with le := hn, align := by dsimp only; omega}
  · refine ⟨?_, hroom, hwin⟩
    simp only [Sys.sendBytes, Sender.goto]
    omega
  · have hset : Frame s (s.setSnd (s.snd.goto (.inc n) {c with sent := c.sent + n})) := .setSnd (by rw [hpc]; rfl)
    refine {hset with ring := fun y hy hyw => ?_}
    refine memcpy_of_not_mem ?_
    exact not_mem_cells _ hy hyw (by omega) (by omega)

/-- The counter of bytes written grows by what was copied, with its padding. -/
theorem inc_kept (hpc : s.snd.pc = .bytes (.inc n) c)
    (hc : Calling s.snd.h.lengthWordComplete s.snd.h.partialBytes s.snd.iov s.sent prev m c)
    (hp : (At.inc n).Holds s.mq s.sent (stream prev).length
      (position s.snd.h.lengthWordComplete s.snd.h.partialBytes) c) (hb : (stream s.sent).length < 2 ^ 64) :
    Kept s (s.sendBytes false c (.inc n)) := by
  obtain ⟨hw, hroom, hwin⟩ := hp
  have hpad := maxAlign_add (n := n) hi.aligned.2
  have htotal := hc.total
  have hbase := dvd_length_stream prev
  have hbegun : prev ++ [m] <+: s.sent := hc.mid.sent ▸ prefix_rfl
  have hsum : s.mq.bytesWritten + maxAlign n = (stream prev).length +
      maxAlign (position s.snd.h.lengthWordComplete s.snd.h.partialBytes + c.sent) := by
    rw [← hpad, hw, maxAlign_add hbase]
  have hu : u64 (s.mq.bytesWritten + maxAlign n) = s.mq.bytesWritten + maxAlign n := u64_eq (by omega)
  have hn8 := dvd_maxAlign (n := n)
  have hnle := le_maxAlign (n := n)
  have hfits : s.mq.bytesWritten + maxAlign n ≤ s.mq.bytesRead + s.mq.ringSize := by
    have hdvd : 8 ∣ s.mq.bytesRead + s.mq.ringSize := Nat.dvd_add hi.aligned.1 hi.size.2
    rw [← hpad]
    exact maxAlign_le hdvd hroom
  have hgrow : Window s.mq.ring s.mq.ringSize (stream s.sent) s.mq.bytesRead (s.mq.bytesWritten + maxAlign n) := by
    intro y b hy hyw hyb
    by_cases hlt : y < s.mq.bytesWritten + n
    · exact hwin y b hy hlt hyb
    · -- only behind the end of the message is there padding
      exfalso
      have hstart := hc.seg.start
      have hfin := hc.seg.fin
      have halign := hc.align
      have hlt8 := maxAlign_lt (n := n)
      have hmle := le_maxAlign (n := m.length)
      have hlen := length_stream_concat prev m
      rw [← hc.mid.sent] at hlen
      rw [length_word] at hfin
      have hal := hi.aligned.2
      obtain ⟨i, rfl⟩ : ∃ i, y = (stream prev).length + i := ⟨y - (stream prev).length, by omega⟩
      rw [stream_eq_some hbegun (by omega), getElem?_eq_none (by rw [length_word]; omega)] at hyb
      exact absurd hyb nofun
  refine ⟨⟨prev, ?_⟩, ?_⟩
  · refine {hi with
      aligned := ⟨hi.aligned.1, ?_⟩, le := ?_, fits := ?_, window := ?_, total := ?_, before := ?_, pc := ?_}
    all_goals simp only [Sys.sendBytes, Mq.incBytesWritten, hu]
    · exact Nat.dvd_add hi.aligned.2 hn8
    · exact le_trans hi.le (Nat.le_add_right _ _)
    · exact hfits
    · exact hgrow
    · omega
    · exact le_trans hi.before (Nat.le_add_right _ _)
    · exact .inl ⟨m, hc, hsum⟩
  · have hset : Frame s (s.setSnd (s.snd.goto .top c)) := .setSnd (by rw [hpc]; rfl)
    refine {hset with written := ?_}
    simp only [Sys.sendBytes, Mq.incBytesWritten, hu]
    exact Nat.le_add_right _ _

theorem sendBytes_kept {sees : Bool}
    (hpc : s.snd.pc = .bytes pt c)
    (hb : (stream s.sent).length < 2 ^ 64) : Kept s (s.sendBytes sees c pt) := by
  have hd : s.snd.pc.isDead = false := by rw [hpc]; rfl
  have hat := hi.pc
  rw [SendAt, hpc] at hat
  cases pt with
  | top => exact sendTop_kept hi hpc hb
  | copy n =>
    rcases hat with ⟨m, hc, hp⟩ | ⟨-, he, -⟩
    · exact copy_kept hi hpc hc hp
    · exact absurd he nofun
  | inc n =>
    rcases hat with ⟨m, hc, hp⟩ | ⟨-, he, -⟩
    · exact inc_kept hi hpc hc hp hb
    · exact absurd he nofun
  | waitInternal =>
    rcases hat with ⟨m, hc, hlt, hw⟩ | ⟨-, he, -⟩
    · rw [Sys.sendBytes]
      split
      · exact hi.kept hd (.inl ⟨m, hc, hlt, hw⟩)
      · split
        · exact hi.kept hd (.inl ⟨m, hc, hc.top hlt hw⟩)
        · exact hi.kept hd (.inl ⟨m, hc, hlt, hw⟩)
    · exact absurd he nofun
  | waitStatus | goneStatus =>
    rcases hat with ⟨m, hc, hlt, hw⟩ | ⟨-, he, -⟩
    · rw [Sys.sendBytes]
      split
      · exact hi.kept hd (.inl ⟨m, hc, hlt, hw⟩)
      · exact hi.kept hd (.inl ⟨m, hc, hlt, hw⟩)
    · exact absurd he nofun
  | mark =>
    have hset : Frame s (s.setSnd (s.snd.ret c .detached)) := .setSnd hd
    exact ⟨⟨prev, {hi with pc := sendAt_detached (c := c) rfl}⟩,
      {hset with gone := fun _ => ⟨.inl rfl, rfl⟩, detached := fun _ => rfl}⟩
  | gone =>
    rcases hat with ⟨m, hc, hlt, hw⟩ | ⟨-, he, -⟩
    · rw [Sys.sendBytes]
      split
      next hdet => exact hi.kept hd (sendAt_detached hdet)
      · exact hi.kept hd (.inl ⟨m, hc, hlt, hw⟩)
    · exact absurd he nofun
  | getReceiver =>
    rcases hat with ⟨m, hc, hlt, hw⟩ | ⟨-, he, -⟩
    · rw [Sys.sendBytes]
      split
      · exact hi.kept hd (.inl ⟨m, hc, hc.top hlt hw⟩)
      · exact hi.kept hd (sendAt_wouldBlock hc hlt hw)
    · exact absurd he nofun
  | full =>
    rcases hat with ⟨m, hc, hlt, hw⟩ | ⟨-, he, -⟩
    · rw [Sys.sendBytes]
      split
      next hdet => exact hi.kept hd (sendAt_detached hdet)
      · split
        · exact hi.kept hd (sendAt_wouldBlock hc hlt hw)
        · exact hi.kept hd (.inl ⟨m, hc, hc.top hlt hw⟩)
    · exact absurd he nofun

theorem sendStep_kept {sees : Bool}
    (hb : (stream s.sent).length < 2 ^ 64) (ht : s.sendStep sees = some t) : Kept s t := by
  cases hpc : s.snd.pc with
  | idle | dead => simp [Sys.sendStep, hpc] at ht
  | bytes pt c =>
    rw [Sys.sendStep, hpc] at ht
    obtain rfl := Option.some_inj.mp ht
    exact sendBytes_kept hi hpc hb
  | notify =>
    have hd : s.snd.pc.isDead = false := by rw [hpc]; rfl
    have hat := hi.pc
    rw [SendAt, hpc] at hat
    rw [Sys.sendStep, hpc] at ht
    dsimp only at ht
    split at ht
    · obtain rfl := Option.some_inj.mp ht
      exact hi.kept hd (.inl hat.1)
    next hdet =>
      obtain rfl := Option.some_inj.mp ht
      have hset : Frame s (s.setSnd {s.snd with pc := .idle, answer := some .success}) := .setSnd hd
      refine ⟨⟨prev, {hi with done := hat.2, pc := .inl hat.1}⟩, {hset with gone := fun hg => ?_}⟩
      rcases hg with hg | hg
      · exact absurd hg hdet
      · simp [hd] at hg

/-- The messages that have been passed to `shm_mq_sendv` become more. -/
theorem SendInv.extend (hd : s.snd.pc.isDead = false)
    (hs : s.mq.hasSender = true) (h : Settled s.mq x (s.sent ++ [m]) s.completed prev) :
    Kept s {s with snd := x, sent := s.sent ++ [m]} := by
  obtain ⟨prev', hp, hbegun, hlen, hat⟩ := h
  have hpre := prefix_append s.sent [m]
  have htotal := hi.total
  have hset : Frame s (s.setSnd x) := .setSnd hd
  refine ⟨⟨prev', ?_⟩, {hset with sent := hpre}⟩
  refine {hi with
    window := hi.window.congr fun y _ hy => stream_getElem_of_lt hpre (by omega)
    total := le_trans htotal (prefix_stream hpre).length_le
    before := hlen
    begun := hbegun
    done := le_trans hi.done hp.length_le
    absent := fun hno => absurd hs (by simp [show s.mq.hasSender = false from hno])
    pc := hat}

theorem send_kept {iov : List Msg} {nowait : Bool}
    (hb : (stream t.sent).length < 2 ^ 64) (ht : s.send iov nowait = some t) : Kept s t := by
  cases hpc : s.snd.pc with
  | bytes pt c | notify | dead => simp [Sys.send, hpc] at ht
  | idle =>
    have hd : s.snd.pc.isDead = false := by rw [hpc]; rfl
    have hat := hi.pc
    rw [SendAt, hpc] at hat
    rw [Sys.send, hpc] at ht
    dsimp only at ht hat
    split at ht
    next hs =>
      by_cases hwb : s.snd.answer = some .wouldBlock
      · -- the same message again
        rw [if_pos hwb] at hat ht
        split at ht
        · obtain rfl := Option.some_inj.mp ht
          obtain ⟨m, hm, hw⟩ := hat
          exact hi.kept_settled hd (begin_settled hm hw hi.done hb)
        · simp at ht
      · rw [if_neg hwb] at hat ht
        obtain rfl := Option.some_inj.mp ht
        refine hi.extend hd hs.1 ?_
        rcases hat with hbt | hbr
        · refine begin_settled (m := iov.flatten) ⟨by rw [hbt.sent], rfl, ?_, fun _ => hbt.reset.1,
            .inl ?_⟩ ?_ hi.done hb
          · dsimp only
            rw [hbt.reset.1]
            exact Nat.zero_le _
          · dsimp only
            rw [hbt.reset.1]
            exact Nat.dvd_zero 8
          · dsimp only
            rw [hbt.reset.1, hbt.reset.2, hbt.written]
            rfl
        · refine ⟨prev, prefix_rfl, hi.begun.trans (prefix_append s.sent _), hi.before, ?_⟩
          rw [Sender.begin, if_pos hbr.2.2]
          refine .inr ⟨hbr, rfl, ?_⟩
          dsimp only
          rw [hbr.2.1, drop_zero, length_sizeBytes]
          decide
    · simp at ht

/-- The sender is gone. -/
theorem dead_kept {mq : Mq}
    (hmq : mq = s.mq ∨ mq = {s.mq with detached := true}) :
    Kept s {s with mq := mq, snd := {s.snd with pc := .dead}} := by
  rcases hmq with rfl | rfl
  · exact ⟨⟨prev, {hi with pc := trivial}⟩,
      rfl, rfl, rfl, rfl, le_refl _, prefix_rfl, fun _ => ⟨.inr rfl, rfl⟩, id, fun _ _ _ => rfl⟩
  · exact ⟨⟨prev, {hi with pc := trivial}⟩,
      rfl, rfl, rfl, rfl, le_refl _, prefix_rfl, fun _ => ⟨.inl rfl, rfl⟩, fun _ => rfl, fun _ _ _ => rfl⟩

end

end SenderSteps
end PgStorage.ShmMq
