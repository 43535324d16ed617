import PgStorage.Lib.Trace
import PgStorage.ShmMq.ReceiverSteps

/-! A message queue is a reliable first-in first-out channel. -/
namespace PgStorage.ShmMq
open Memory Circular
open List Option Sys

/-- The sender does nothing any more, or the queue is marked as detached. -/
def Gone (s : Sys) : Prop := s.mq.detached = true ∨ s.snd.pc.isDead = true

/-- What the receiver relies on when it returns `SHM_MQ_DETACHED`. -/
structure Ends (s : Sys) : Prop where
  failGet : s.rcv.pc = .failGet → Gone s
  failMark : s.rcv.pc = .failMark → Gone s ∧ s.completed = 0
  getSender : s.rcv.pc = .getSender true → s.mq.detached = true
  answer : s.rcv.answer = some .detached → s.mq.detached = true ∧ s.completed ≤ s.received.length

/-- The cells of the bytes that are written and not yet released by the receiver. -/
def Sys.Unreleased (s : Sys) (i : Nat) : Prop :=
  ∃ x, s.mq.bytesRead ≤ x ∧ x < s.mq.bytesWritten ∧ x % s.mq.ringSize = i

/-- The cells that the next step of the sender writes. -/
def Sys.Writes (s : Sys) (i : Nat) : Prop :=
  ∃ n c, s.snd.pc = .bytes (.copy n) c ∧ s.mq.bytesWritten % s.mq.ringSize ≤ i ∧
    i < s.mq.bytesWritten % s.mq.ringSize + n

section Fifo
variable {s t : Sys} {prev received sent : List Msg} {m : Msg} {need : Need} {size : Nat}

theorem exists_next_of_length (hg : received <+: prev) (hlt : received.length < prev.length) :
    ∃ m, received ++ [m] <+: prev := by
  obtain ⟨l, rfl⟩ := hg
  cases l with
  | nil => simp at hlt
  | cons m l => exact ⟨m, l, by simp⟩

theorem next_unique {m' : Msg} (h : received ++ [m] <+: sent) (h' : received ++ [m'] <+: sent) : m = m' := by
  have hp := prefix_of_prefix_length_le h h' (by simp)
  have he := hp.eq_of_length (by simp)
  simpa using he

/-- As long as a message that was sent completely has not been returned, there is enough in the ring. -/
theorem ready_of_lt (hi : SendInv s.mq s.snd s.sent s.completed prev) (hb : (stream s.sent).length < 2 ^ 64)
    (hr : RecvInv s.mq s.rcv s.sent s.received) (hpc : s.rcv.pc = .bytes need)
    (hlt : s.received.length < s.completed) : s.ready need := by
  have hdone := hi.done
  have hpre := prefix_of_prefix_length_le hr.got hi.begun (by omega)
  obtain ⟨m', hnext⟩ := exists_next_of_length hpre (by omega)
  have hlen := (prefix_stream hnext).length_le
  rw [length_stream_concat] at hlen
  have htotal := hi.total
  have hbefore := hi.before
  have hused := Mq.used_eq hi.le (by omega)
  have hpad := le_maxAlign (n := m'.length)
  have hat := hr.pc
  rw [RecvAt, hpc] at hat
  refine .inl ?_
  rw [hused]
  cases need with
  | length =>
    have := hat.1.dvd hat.2
    simp only [Receiver.needed]
    omega
  | whole =>
    obtain ⟨m, hm, h0⟩ := hat
    have hpos := hm.pos
    obtain rfl := next_unique hm.next (hnext.trans hi.begun)
    rw [Receiver.needed, hm.expected]
    omega
  | more =>
    obtain ⟨m, hm⟩ := hat
    have hpos := hm.pos
    obtain rfl := next_unique hm.next (hnext.trans hi.begun)
    rw [Receiver.needed, hm.expected]
    omega

theorem completed_eq_zero (hi : SendInv s.mq s.snd s.sent s.completed prev) (hno : s.mq.hasSender = false) :
    s.completed = 0 := by
  have hsent := hi.absent hno
  have hlen := hi.begun.length_le
  have hdone := hi.done
  rw [hsent, length_nil] at hlen
  omega

theorem Ends.kept (he : Ends s) (hk : Kept s t) : Ends t := by
  have hgone : Gone s → Gone t ∧ t.completed = s.completed := hk.frame.gone
  refine ⟨fun hp => ?_, fun hp => ?_, fun hp => ?_, fun ha => ?_⟩
  · rw [hk.frame.rcv] at hp
    exact (hgone (he.failGet hp)).1
  · rw [hk.frame.rcv] at hp
    obtain ⟨hg, h0⟩ := he.failMark hp
    exact ⟨(hgone hg).1, by rw [(hgone hg).2, h0]⟩
  · rw [hk.frame.rcv] at hp
    exact hk.frame.detached (he.getSender hp)
  · rw [hk.frame.rcv] at ha
    obtain ⟨hd, hle⟩ := he.answer ha
    rw [hk.frame.received, (hgone (.inl hd)).2]
    exact ⟨hk.frame.detached hd, hle⟩

/-- The points of `shm_mq_receive` at which nothing is relied on. -/
def RecvPc.Plain (pc : RecvPc) : Prop := pc ≠ .failGet ∧ pc ≠ .failMark ∧ pc ≠ .getSender true

def RecvPc.relies : RecvPc → Bool
  | .failGet | .failMark | .getSender true => true
  | _ => false

theorem RecvPc.Plain.of {pc : RecvPc} (h : pc.relies = false) : pc.Plain := by
  refine ⟨?_, ?_, ?_⟩ <;>
  · intro he
    rw [he] at h
    cases h

/-- A step of the receiver to a point where nothing is relied on. -/
theorem Ends.passed (he : Ends s) (hp : Passed s t prev)
    (hans : t.rcv.answer = some .detached → s.rcv.answer = some .detached)
    (hpc : t.rcv.pc.Plain) : Ends t := by
  refine ⟨fun h => absurd h hpc.1, fun h => absurd h hpc.2.1, fun h => absurd h hpc.2.2, fun ha => ?_⟩
  obtain ⟨hd, hle⟩ := he.answer (hans ha)
  rw [hp.same.2.2]
  exact ⟨hp.detached hd, le_trans hle hp.received.length_le⟩

/-! ### Steps of the receiver -/

theorem begin_plain (r : Receiver) : r.begin.pc.Plain ∧ r.begin.answer = r.answer := by
  rw [Receiver.begin]
  split
  · exact ⟨.of rfl, rfl⟩
  · split
    · exact ⟨.of rfl, rfl⟩
    · exact ⟨.of rfl, rfl⟩

theorem receiveBytes_passed (hi : SendInv s.mq s.snd s.sent s.completed prev)
    (hb : (stream s.sent).length < 2 ^ 64)
    (hr : RecvInv s.mq s.rcv s.sent s.received) (hpc : s.rcv.pc = .bytes need) :
    Passed s (s.receiveBytes need) prev := by
  cases need with
  | length => exact bytesLength_passed hi hb hr hpc
  | whole => exact bytesWhole_passed hi hb hr hpc
  | more => exact bytesMore_passed hi hb hr hpc

theorem found_plain (s : Sys) (rb offset : Nat) (need : Need) :
    (s.found rb offset need).rcv.pc.Plain ∧
    ((s.found rb offset need).rcv.answer = some .detached → s.rcv.answer = some .detached) := by
  cases need with
  | length =>
    rw [found]
    split
    · exact ⟨.of rfl, id⟩
    · exact ⟨.of rfl, id⟩
  | whole =>
    rw [found]
    split
    · exact ⟨.of rfl, by rintro ⟨⟩⟩
    · split
      · exact ⟨.of rfl, id⟩
      · exact ⟨.of rfl, id⟩
  | more => exact ⟨.of rfl, id⟩

theorem receiveBytes_ends (hi : SendInv s.mq s.snd s.sent s.completed prev) (hb : (stream s.sent).length < 2 ^ 64)
    (hr : RecvInv s.mq s.rcv s.sent s.received) (he : Ends s) (hpc : s.rcv.pc = .bytes need) :
    Ends (s.receiveBytes need) := by
  have hp := receiveBytes_passed hi hb hr hpc
  rw [receiveBytes] at hp ⊢
  split at hp
  next hready =>
    rw [if_pos hready]
    obtain ⟨hplain, hans⟩ := found_plain s (min s.mq.used (s.mq.ringSize - s.mq.bytesRead % s.mq.ringSize))
      (s.mq.bytesRead % s.mq.ringSize) need
    exact he.passed hp hans hplain
  next hready =>
    rw [if_neg hready]
    split at hp
    next hdet =>
      rw [if_pos hdet]
      have hle : s.completed ≤ s.received.length := by
        by_contra hlt
        exact hready (ready_of_lt hi hb hr hpc (by omega))
      exact ⟨by rintro ⟨⟩, by rintro ⟨⟩, by rintro ⟨⟩, fun _ => ⟨hdet, hle⟩⟩
    next hdet =>
      rw [if_neg hdet]
      split at hp
      next hn => rw [if_pos hn]; exact he.passed hp (by rintro ⟨⟩) (.of rfl)
      next hn => rw [if_neg hn]; exact he

theorem attached_passed (hi : SendInv s.mq s.snd s.sent s.completed prev)
    (hr : RecvInv s.mq s.rcv s.sent s.received)
    (hp : Paused s.mq s.rcv.h s.sent s.received) : Passed s (s.setRcv s.rcv.attached) prev := by
  refine hi.passed (.of_at hr.got hr.within ?_ nofun)
  rcases hp with hrest | ⟨m, hm⟩
  · exact .inl {hrest with }
  · exact .inr ⟨m, {hm with }⟩

variable {sees : Bool} {a : Act}

theorem receiveStep_inv {fresh : Mem} (hi : SendInv s.mq s.snd s.sent s.completed prev)
    (hb : (stream s.sent).length < 2 ^ 64) (hr : RecvInv s.mq s.rcv s.sent s.received) (he : Ends s)
    (ht : s.receiveStep sees fresh = some t) : Passed s t prev ∧ Ends t := by
  have hat := hr.pc
  have hgot := hr.got
  have hw := hr.within
  cases hpc : s.rcv.pc with
  | idle | dead => simp [receiveStep, hpc] at ht
  | waitInternal =>
    rw [RecvAt, hpc] at hat
    rw [receiveStep, hpc] at ht
    dsimp only at ht
    split at ht
    next hdet =>
      obtain rfl := some_inj.mp ht
      exact ⟨hi.passed (.of_at hgot hw hat (by rintro _ _ ⟨⟩)), fun _ => .inl hdet, by rintro ⟨⟩, by rintro ⟨⟩, he.answer⟩
    · split at ht
      · obtain rfl := some_inj.mp ht
        have hp := attached_passed hi hr hat
        exact ⟨hp, he.passed hp id (.of rfl)⟩
      · obtain rfl := some_inj.mp ht
        have hp := hi.passed (.of_at (r := s.rcv.goto .waitStatus) hgot hw hat (by rintro _ _ ⟨⟩))
        exact ⟨hp, he.passed hp id (.of rfl)⟩
  | waitStatus =>
    rw [RecvAt, hpc] at hat
    rw [receiveStep, hpc] at ht
    obtain rfl := some_inj.mp ht
    split
    next hst =>
      exact ⟨hi.passed (.of_at hgot hw hat (by rintro _ _ ⟨⟩)), fun _ => .inr hst.2.2, by rintro ⟨⟩, by rintro ⟨⟩, he.answer⟩
    · have hp := hi.passed (.of_at (r := s.rcv.goto .waitInternal) hgot hw hat (by rintro _ _ ⟨⟩))
      exact ⟨hp, he.passed hp id (.of rfl)⟩
  | failGet =>
    rw [RecvAt, hpc] at hat
    rw [receiveStep, hpc] at ht
    obtain rfl := some_inj.mp ht
    split
    · have hp := attached_passed hi hr hat
      exact ⟨hp, he.passed hp id (.of rfl)⟩
    next hno =>
      have h0 := completed_eq_zero hi (by simpa using hno)
      exact ⟨hi.passed (.of_at hgot hw hat (by rintro _ _ ⟨⟩)), by rintro ⟨⟩, fun _ => ⟨he.failGet hpc, h0⟩, by rintro ⟨⟩, he.answer⟩
  | failMark =>
    rw [RecvAt, hpc] at hat
    rw [receiveStep, hpc] at ht
    obtain rfl := some_inj.mp ht
    obtain ⟨-, h0⟩ := he.failMark hpc
    refine ⟨⟨hi.detach, .of_at hgot hw (Paused.mono hat rfl prefix_rfl) (by rintro _ _ _ ⟨⟩), ⟨rfl, rfl, rfl⟩,
      ⟨rfl, rfl⟩, prefix_rfl, fun _ => rfl⟩, ?_⟩
    exact ⟨by rintro ⟨⟩, by rintro ⟨⟩, by rintro ⟨⟩, fun _ => ⟨rfl, by dsimp only; omega⟩⟩
  | gone =>
    rw [RecvAt, hpc] at hat
    rw [receiveStep, hpc] at ht
    obtain rfl := some_inj.mp ht
    split
    next hdet =>
      exact ⟨hi.passed (.of_at hgot hw hat (by rintro _ _ ⟨⟩)), by rintro ⟨⟩, by rintro ⟨⟩, fun _ => hdet, he.answer⟩
    · have hp := hi.passed (.of_at (r := s.rcv.goto .goneStatus) hgot hw hat (by rintro _ _ ⟨⟩))
      exact ⟨hp, he.passed hp id (.of rfl)⟩
  | goneStatus =>
    rw [RecvAt, hpc] at hat
    rw [receiveStep, hpc] at ht
    obtain rfl := some_inj.mp ht
    split
    · have hp := hi.passed (.of_at (r := s.rcv.goto .goneMark) hgot hw hat (by rintro _ _ ⟨⟩))
      exact ⟨hp, he.passed hp id (.of rfl)⟩
    · have hp := hi.passed (.of_at (r := s.rcv.goto (.getSender false)) hgot hw hat (by rintro _ _ ⟨⟩))
      exact ⟨hp, he.passed hp id (.of rfl)⟩
  | goneMark =>
    rw [RecvAt, hpc] at hat
    rw [receiveStep, hpc] at ht
    obtain rfl := some_inj.mp ht
    refine ⟨⟨hi.detach, .of_at hgot hw (Paused.mono hat rfl prefix_rfl) (by rintro _ _ ⟨⟩), ⟨rfl, rfl, rfl⟩,
      ⟨rfl, rfl⟩, prefix_rfl, fun _ => rfl⟩, ?_⟩
    exact ⟨by rintro ⟨⟩, by rintro ⟨⟩, fun _ => rfl, fun ha => ⟨rfl, (he.answer ha).2⟩⟩
  | getSender gone =>
    rw [RecvAt, hpc] at hat
    rw [receiveStep, hpc] at ht
    dsimp only at ht
    split at ht
    · obtain rfl := some_inj.mp ht
      have hp := attached_passed hi hr hat
      exact ⟨hp, he.passed hp id (.of rfl)⟩
    next hno =>
      obtain rfl := some_inj.mp ht
      have h0 := completed_eq_zero hi (by simpa using hno)
      cases gone with
      | true =>
        refine ⟨hi.passed (.of_at hgot hw hat (by rintro _ _ _ ⟨⟩)), by rintro ⟨⟩, by rintro ⟨⟩, by rintro ⟨⟩, fun _ => ⟨he.getSender hpc, ?_⟩⟩
        simp only [setRcv]
        omega
      | false =>
        have hp := hi.passed (.of_at (r := s.rcv.ret .wouldBlock) hgot hw hat (by rintro _ _ _ ⟨⟩))
        exact ⟨hp, he.passed hp (by rintro ⟨⟩) (.of rfl)⟩
  | consume =>
    rw [receiveStep, hpc] at ht
    obtain rfl := some_inj.mp ht
    have hp := consume_passed hi hb hr hpc
    obtain ⟨hplain, hans⟩ := begin_plain {s.rcv with h := {s.rcv.h with consumePending := 0}}
    exact ⟨hp, he.passed hp (fun ha => hans ▸ ha) hplain⟩
  | bytes need =>
    rw [receiveStep, hpc] at ht
    obtain rfl := some_inj.mp ht
    exact ⟨receiveBytes_passed hi hb hr hpc, receiveBytes_ends hi hb hr he hpc⟩
  | lengthRead rb offset =>
    rw [receiveStep, hpc] at ht
    obtain rfl := some_inj.mp ht
    have hp := lengthRead_passed hi hb hr hpc
    refine ⟨hp, ?_⟩
    rw [lengthRead] at hp ⊢
    dsimp only at hp ⊢
    split at hp
    next hn => rw [if_pos hn]; exact he.passed hp (by rintro ⟨⟩) (.of rfl)
    next hn => rw [if_neg hn]; exact he.passed hp id (.of rfl)
  | lengthInc =>
    rw [receiveStep, hpc] at ht
    obtain rfl := some_inj.mp ht
    have hp := lengthInc_passed hi hb hr hpc
    obtain ⟨hplain, hans⟩ := begin_plain s.rcv
    exact ⟨hp, he.passed hp (fun ha => hans ▸ ha) hplain⟩
  | lengthSplit rb offset | splitInc n => rw [RecvAt, hpc] at hat; exact hat.elim
  | alloc rb offset =>
    rw [receiveStep, hpc] at ht
    obtain rfl := some_inj.mp ht
    have hp := alloc_passed fresh hi hr hpc
    refine ⟨hp, ?_⟩
    rw [Receiver.allocate] at hp ⊢
    split at hp
    · exact he
    · split at hp
      next hn => rw [if_pos hn]; exact he.passed hp (by rintro ⟨⟩) (.of rfl)
      next hn => rw [if_neg hn]; exact he.passed hp id (.of rfl)
  | copy rb offset =>
    rw [receiveStep, hpc] at ht
    obtain rfl := some_inj.mp ht
    have hp := copy_passed hi hr hpc
    exact ⟨hp, he.passed hp id (.of rfl)⟩
  | inc rb =>
    rw [receiveStep, hpc] at ht
    obtain rfl := some_inj.mp ht
    have hp := copyInc_passed hi hb hr hpc
    refine ⟨hp, ?_⟩
    rw [copyInc] at hp ⊢
    split at hp
    next hn => rw [if_pos hn]; exact he.passed hp (by rintro ⟨⟩) (.of rfl)
    next hn => rw [if_neg hn]; exact he.passed hp id (.of rfl)

/-- What holds in every state of a run, for a ring of the given size. -/
structure Inv (size : Nat) (s : Sys) : Prop where
  size : s.mq.ringSize = size
  holds : ∃ prev, SendInv s.mq s.snd s.sent s.completed prev
  rcv : RecvInv s.mq s.rcv s.sent s.received
  ends : Ends s

theorem Inv.kept (hi : Inv size s) (hk : Kept s t) : Inv size t :=
  ⟨hk.frame.size.trans hi.size, hk.holds, hi.rcv.frame hk.frame, hi.ends.kept hk⟩

theorem Inv.passed (hi : Inv size s) (hp : Passed s t prev) (he : Ends t) : Inv size t :=
  ⟨hp.queue.1.trans hi.size, ⟨prev, hp.snd⟩, hp.rcv, he⟩

/-! ### Messages that were sent -/

theorem sendBytes_sent (s : Sys) (sees : Bool) (c : Call) (pt : At) : (s.sendBytes sees c pt).sent = s.sent := by
  cases pt with
  | top =>
    rw [sendBytes, sendTop]
    split
    · rfl
    · dsimp only
      split
      · rfl
      · split
        · rfl
        · split <;> rfl
  | waitInternal | full =>
    rw [sendBytes]
    split
    · rfl
    · split <;> rfl
  | waitStatus | gone | goneStatus | getReceiver => rw [sendBytes]; split <;> rfl
  | mark => rfl
  | copy n => rfl
  | inc n => rfl

theorem sendStep_sent (ht : s.sendStep sees = some t) : t.sent = s.sent := by
  rw [sendStep] at ht
  split at ht
  · simp at ht
  · simp at ht
  · obtain rfl := some_inj.mp ht
    exact sendBytes_sent s sees _ _
  · split at ht
    · obtain rfl := some_inj.mp ht
      rfl
    · obtain rfl := some_inj.mp ht
      rfl

theorem receiveBytes_sent (s : Sys) (need : Need) : (s.receiveBytes need).sent = s.sent := by
  rw [receiveBytes]
  split
  · cases need with
    | length => rw [found]; split <;> rfl
    | whole =>
      rw [found]
      split
      · rfl
      · split <;> rfl
    | more => rfl
  · split
    · rfl
    · split <;> rfl

theorem receiveStep_sent {fresh : Mem} (ht : s.receiveStep sees fresh = some t) :
    t.sent = s.sent := by
  cases hpc : s.rcv.pc with
  | idle | dead => simp [receiveStep, hpc] at ht
  | waitInternal =>
    rw [receiveStep, hpc] at ht
    dsimp only at ht
    split at ht
    · obtain rfl := some_inj.mp ht
      rfl
    · split at ht
      · obtain rfl := some_inj.mp ht
        rfl
      · obtain rfl := some_inj.mp ht
        rfl
  | getSender gone =>
    rw [receiveStep, hpc] at ht
    dsimp only at ht
    split at ht
    · obtain rfl := some_inj.mp ht
      rfl
    · obtain rfl := some_inj.mp ht
      rfl
  | bytes need =>
    rw [receiveStep, hpc] at ht
    obtain rfl := some_inj.mp ht
    exact receiveBytes_sent s need
  | lengthRead rb offset =>
    rw [receiveStep, hpc] at ht
    obtain rfl := some_inj.mp ht
    rw [lengthRead]
    dsimp only
    split <;> rfl
  | inc rb =>
    rw [receiveStep, hpc] at ht
    obtain rfl := some_inj.mp ht
    rw [copyInc]
    split <;> rfl
  | _ =>
    rw [receiveStep, hpc] at ht
    obtain rfl := some_inj.mp ht
    rfl

theorem send_sent {iov : List Msg} {nowait : Bool} (ht : s.send iov nowait = some t) : s.sent <+: t.sent := by
  rw [send] at ht
  split at ht
  · split at ht
    · split at ht
      · split at ht
        · obtain rfl := some_inj.mp ht
          exact prefix_rfl
        · simp at ht
      · obtain rfl := some_inj.mp ht
        exact prefix_append s.sent _
    · simp at ht
  · simp at ht

/-- Messages are only added to those that were sent. -/
theorem prefix_sent (ht : s.next a = some t) : s.sent <+: t.sent := by
  cases a with
  | send iov nowait => exact send_sent ht
  | sender sees => exact sendStep_sent ht ▸ prefix_rfl
  | receiver sees fresh => exact receiveStep_sent ht ▸ prefix_rfl
  | receive nowait =>
    rw [Sys.next, receive] at ht
    split at ht
    · split at ht
      · obtain rfl := some_inj.mp ht
        exact prefix_rfl
      · simp at ht
    · simp at ht
  | senderExit | receiverExit => obtain rfl := some_inj.mp ht; exact prefix_rfl
  | setSender | setReceiver =>
    rw [Sys.next] at ht
    split at ht
    · simp at ht
    · obtain rfl := some_inj.mp ht
      exact prefix_rfl
  | senderDetach | receiverDetach =>
    rw [Sys.next] at ht
    split at ht
    · obtain rfl := some_inj.mp ht
      exact prefix_rfl
    · simp at ht

/-- The receiver is gone. -/
theorem Inv.receiverDead {mq : Mq} (hi : Inv size s) (hmq : mq = s.mq ∨ mq = {s.mq with detached := true}) :
    Inv size {s with mq := mq, rcv := {s.rcv with pc := .dead}} := by
  obtain ⟨prev, hs⟩ := hi.holds
  have hr := hi.rcv
  rcases hmq with rfl | rfl
  · exact ⟨hi.size, ⟨prev, hs⟩, ⟨hr.got, hr.within, trivial, nofun⟩, nofun, nofun, nofun, hi.ends.answer⟩
  · exact ⟨hi.size, ⟨prev, hs.detach⟩, ⟨hr.got, hr.within, trivial, nofun⟩, nofun, nofun, nofun,
      fun ha => ⟨rfl, (hi.ends.answer ha).2⟩⟩

/-- An attaching party sets its pointer in the queue. -/
theorem Inv.attach {mq : Mq} (hi : Inv size s)
    (hmq : mq = {s.mq with hasSender := true} ∨ mq = {s.mq with hasReceiver := true}) :
      Inv size {s with mq := mq} := by
  obtain ⟨prev, hs⟩ := hi.holds
  have hr := hi.rcv
  rcases hmq with rfl | rfl
  · exact ⟨hi.size,
      ⟨prev, {hs with absent := nofun, pc := hs.pc.mono rfl (le_refl _) rfl rfl id}⟩,
      ⟨hr.got, hr.within, hr.pc.mono rfl rfl (le_refl _) prefix_rfl,
        fun loc n hp ha => (hr.result loc n hp ha).mono rfl rfl (le_refl _)⟩,
      hi.ends.failGet, hi.ends.failMark, hi.ends.getSender, hi.ends.answer⟩
  · exact ⟨hi.size,
      ⟨prev, {hs with pc := hs.pc.mono rfl (le_refl _) rfl rfl id}⟩,
      ⟨hr.got, hr.within, hr.pc.mono rfl rfl (le_refl _) prefix_rfl,
        fun loc n hp ha => (hr.result loc n hp ha).mono rfl rfl (le_refl _)⟩,
      hi.ends.failGet, hi.ends.failMark, hi.ends.getSender, hi.ends.answer⟩

theorem receive_inv {nowait : Bool} (hi : Inv size s) (ht : s.receive nowait = some t) : Inv size t := by
  obtain ⟨prev, hs⟩ := hi.holds
  have hr := hi.rcv
  have hat := hr.pc
  rw [receive] at ht
  split at ht
  next hpc =>
    rw [RecvAt, hpc] at hat
    split at ht
    · obtain rfl := some_inj.mp ht
      split
      · have hp := hs.passed
          (.of_at (r := {s.rcv with nowait := nowait, pc := .consume}) hr.got hr.within hat (by rintro _ _ ⟨⟩))
        exact hi.passed hp (hi.ends.passed hp id (.of rfl))
      · split
        · have hp := hs.passed
            (.of_at (r := {s.rcv with nowait := nowait, pc := .gone}) hr.got hr.within hat (by rintro _ _ ⟨⟩))
          exact hi.passed hp (hi.ends.passed hp id (.of rfl))
        · have hp := hs.passed
            (.of_at (r := {s.rcv with nowait := nowait, pc := .waitInternal}) hr.got hr.within hat (by rintro _ _ ⟨⟩))
          exact hi.passed hp (hi.ends.passed hp id (.of rfl))
    · simp at ht
  · simp at ht

theorem next_inv (hi : Inv size s) (hb : (stream t.sent).length < 2 ^ 64) (ht : s.next a = some t) :
    Inv size t := by
  have hbs : (stream s.sent).length < 2 ^ 64 := lt_of_le_of_lt (prefix_stream (prefix_sent ht)).length_le hb
  obtain ⟨prev, hs⟩ := hi.holds
  cases a with
  | send iov nowait => exact hi.kept (send_kept hs hb ht)
  | sender sees => exact hi.kept (sendStep_kept hs hbs ht)
  | receive nowait => exact receive_inv hi ht
  | receiver sees fresh =>
    obtain ⟨hp, he⟩ := receiveStep_inv hs hbs hi.rcv hi.ends ht
    exact hi.passed hp he
  | setSender =>
    rw [Sys.next] at ht
    split at ht
    · simp at ht
    · obtain rfl := some_inj.mp ht
      exact hi.attach (.inl rfl)
  | setReceiver =>
    rw [Sys.next] at ht
    split at ht
    · simp at ht
    · obtain rfl := some_inj.mp ht
      exact hi.attach (.inr rfl)
  | senderExit =>
    obtain rfl := some_inj.mp ht
    exact hi.kept (dead_kept hs (.inl rfl))
  | senderDetach =>
    rw [Sys.next] at ht
    split at ht
    · obtain rfl := some_inj.mp ht
      exact hi.kept (dead_kept hs (.inr rfl))
    · simp at ht
  | receiverExit =>
    obtain rfl := some_inj.mp ht
    exact hi.receiverDead (.inl rfl)
  | receiverDetach =>
    rw [Sys.next] at ht
    split at ht
    · obtain rfl := some_inj.mp ht
      exact hi.receiverDead (.inr rfl)
    · simp at ht

theorem inv_create (ring : Mem) (sendWorker receiveWorker : Bool) (h0 : 0 < size) (h8 : 8 ∣ size) :
    Inv size (create ring size sendWorker receiveWorker) := by
  refine ⟨rfl, ⟨[], ?_⟩, ?_, nofun, nofun, nofun, nofun⟩
  · refine ⟨⟨h0, h8⟩, ⟨Nat.dvd_zero 8, Nat.dvd_zero 8⟩, le_refl _, Nat.zero_le _, fun x b _ hx => ?_,
      le_refl _,
      le_refl _, prefix_rfl, le_refl _, fun _ => rfl, .inl ⟨rfl, rfl, rfl, rfl⟩⟩
    exact absurd hx (Nat.not_lt_zero x)
  · exact ⟨prefix_rfl, le_refl _, .inl ⟨rfl, rfl, rfl⟩, nofun⟩

theorem inv_reaches {ring : Mem} {sendWorker receiveWorker : Bool} (h0 : 0 < size) (h8 : 8 ∣ size)
    (hr : Trace.Reaches next (fun _ _ => True) (create ring size sendWorker receiveWorker) s)
    (hb : (stream s.sent).length < 2 ^ 64) : Inv size s := by
  refine hr.keeps (P := fun s => (stream s.sent).length < 2 ^ 64 → Inv size s) (fun _ => ?_) ?_ hb
  · exact inv_create ring sendWorker receiveWorker h0 h8
  · intro s a t _ ht hs hbt
    have hbs := lt_of_le_of_lt (prefix_stream (prefix_sent ht)).length_le hbt
    exact next_inv (hs hbs) hbt ht

theorem not_writes (hi : Inv size s) {i : Nat} (hu : s.Unreleased i) : ¬ s.Writes i := by
  rintro ⟨n, c, hpc, hle, hlt⟩
  obtain ⟨prev, hs⟩ := hi.holds
  obtain ⟨x, hx, hxw, rfl⟩ := hu
  have hat := hs.pc
  rw [SendAt, hpc] at hat
  rcases hat with ⟨m, hc, hn, -, -, -, hroom, hfit⟩ | ⟨-, he, -⟩
  · have h := not_mem_cells (replicate n 0) hx hxw (by simpa using hroom) (by simpa using hfit)
    rw [length_replicate] at h
    omega
  · exact absurd he (by rintro ⟨⟩)

theorem ring_unreleased (hi : Inv size s) (hb : (stream t.sent).length < 2 ^ 64) (ht : s.next a = some t)
    {i : Nat} (hu : s.Unreleased i) : t.mq.ring i = s.mq.ring i := by
  have hbs : (stream s.sent).length < 2 ^ 64 := lt_of_le_of_lt (prefix_stream (prefix_sent ht)).length_le hb
  obtain ⟨prev, hs⟩ := hi.holds
  obtain ⟨x, hx, hxw, rfl⟩ := hu
  cases a with
  | send iov nowait => exact (send_kept hs hb ht).frame.ring x hx hxw
  | sender sees => exact (sendStep_kept hs hbs ht).frame.ring x hx hxw
  | receiver sees fresh =>
    obtain ⟨hp, -⟩ := receiveStep_inv hs hbs hi.rcv hi.ends ht
    rw [hp.queue.2]
  | receive nowait =>
    rw [Sys.next, receive] at ht
    split at ht
    · split at ht
      · obtain rfl := some_inj.mp ht
        rfl
      · simp at ht
    · simp at ht
  | senderExit | receiverExit => obtain rfl := some_inj.mp ht; rfl
  | setSender | setReceiver =>
    rw [Sys.next] at ht
    split at ht
    · simp at ht
    · obtain rfl := some_inj.mp ht
      rfl
  | senderDetach | receiverDetach =>
    rw [Sys.next] at ht
    split at ht
    · obtain rfl := some_inj.mp ht
      rfl
    · simp at ht

/-- A result shows the message that was returned last, and where it is in the ring it is not released. -/
theorem result_shown (hi : Inv size s) {loc : Loc} {n : Nat} (hpc : s.rcv.pc = .idle)
    (ha : s.rcv.answer = some (.message loc n)) :
    s.received.getLast? = some (s.read n loc) ∧
    ∀ offset, loc = .ring offset → ∀ i, offset ≤ i → i < offset + n → s.Unreleased i := by
  obtain ⟨prev, hs⟩ := hi.holds
  have hshown := hi.rcv.result loc n hpc ha
  cases loc with
  | buffer => exact ⟨hshown, nofun⟩
  | ring offset =>
    obtain ⟨l, m, he, rfl, hfit, hoff, hle, hlen⟩ := hshown
    have hnext : l ++ [m] <+: s.sent := he ▸ hi.rcv.got
    have hpad := le_maxAlign (n := m.length)
    rw [he, length_stream_concat] at hlen
    rw [he, getLast?_concat, Sys.read]
    rcases Nat.eq_zero_or_pos m.length with hz | hpos
    · refine ⟨?_, fun o _ i hi' hlt => ?_⟩
      · rw [hz, bytes_zero, eq_nil_of_length_eq_zero hz]
      · omega
    · have hpl := hoff hpos
      refine ⟨?_, fun o ho i hi' hlt => ?_⟩
      · rw [hpl] at hfit ⊢
        rw [bytes_eq hs hnext rfl hle (by omega) hfit (by omega)]
        rw [show 8 = 8 + 0 from rfl, word_drop, drop_zero, take_length]
      · obtain rfl := Loc.ring.inj ho
        refine ⟨(stream l).length + 8 + (i - offset), by omega, by omega, ?_⟩
        rw [mod_add (by omega)]
        omega

/-- A short message in one piece, and one that is longer than the ring, from a vector with odd parts;
the sender detaches, and the receiver is told only after it has both. -/
def twoMessages : List Act :=
  let zero : Mem := fun _ => 0
  let long : Act := .send [[4, 5, 6, 7, 8], [9, 10, 11, 12, 13, 14, 15, 16, 17], []] true
  [[.setSender, .setReceiver, .send [[1], [2, 3]] false], List.replicate 9 (.sender false),
    [.receive false], List.replicate 4 (.receiver false zero), [long], List.replicate 6 (.sender false),
    [.receive true], List.replicate 2 (.receiver false zero), [long], List.replicate 10 (.sender false),
    [.receive true], List.replicate 9 (.receiver false zero), [long], List.replicate 5 (.sender false),
    [.senderDetach, .receive false], List.replicate 6 (.receiver false zero),
    [.receive false], List.replicate 2 (.receiver false zero)].flatten

end Fifo
end PgStorage.ShmMq
