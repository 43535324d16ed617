import PgStorage.ShmMq.Stream

/-! What the sender keeps.

`prev` are the messages whose bytes are all in the queue. While a message is being sent, the counter
of bytes written is a position in it; what is between the counters is what the stream has there. -/
namespace PgStorage.ShmMq
open Memory Circular
open List Sender

/-- The bytes of a message that are in the queue by the state of the handle, with the length word. -/
def position (complete : Bool) (partialBytes : Nat) : Nat := (if complete = true then 8 else 0) + partialBytes

/-- No message has been begun after those of `prev`. -/
structure Between (mq : Mq) (h : Handle) (sent prev : List Msg) : Prop where
  sent : sent = prev
  written : mq.bytesWritten = (stream prev).length
  reset : h.partialBytes = 0 ∧ h.lengthWordComplete = false

/-- The message `m` has been begun. -/
structure Midway (complete : Bool) (partialBytes : Nat) (iov sent prev : List Msg) (m : Msg) : Prop where
  sent : sent = prev ++ [m]
  iov : iov.flatten = m
  le : partialBytes ≤ m.length
  start : complete = false → partialBytes = 0
  align : 8 ∣ partialBytes ∨ partialBytes = m.length

/-- A call of `shm_mq_send_bytes` for a part of the message `m`. -/
structure Calling (complete : Bool) (partialBytes : Nat) (iov sent prev : List Msg) (m : Msg) (c : Call) :
  Prop where
  mid : Midway complete partialBytes iov sent prev m
  seg : Segment m (position complete partialBytes) c.data
  part :
    (c.part = .length ∧ complete = false ∧ c.data.length = 8) ∨
    (c.part.Continues m partialBytes c.data.length ∧ complete = true)
  le : c.sent ≤ c.data.length
  align : 8 ∣ c.sent ∨ c.sent = c.data.length

/-- At each point of `shm_mq_send_bytes`: the counter of bytes written, where the message starts at
`base` and the call at `pos` in it, and the room that has been found for the next bytes. -/
def At.Holds (mq : Mq) (sent : List Msg) (base pos : Nat) (c : Call) : At → Prop
  | .top => mq.bytesWritten = base + maxAlign (pos + c.sent)
  | .copy n =>
    c.sent + n ≤ c.data.length ∧ (8 ∣ n ∨ c.sent + n = c.data.length) ∧ c.sent < c.data.length ∧
    mq.bytesWritten = base + (pos + c.sent) ∧ mq.bytesWritten + n ≤ mq.bytesRead + mq.ringSize ∧
    mq.bytesWritten % mq.ringSize + n ≤ mq.ringSize
  | .inc n =>
    mq.bytesWritten + n = base + (pos + c.sent) ∧ mq.bytesWritten + n ≤ mq.bytesRead + mq.ringSize ∧
    Window mq.ring mq.ringSize (stream sent) mq.bytesRead (mq.bytesWritten + n)
  | _ => c.sent < c.data.length ∧ mq.bytesWritten = base + (pos + c.sent)

/-- After a call that returned `SHM_MQ_DETACHED`; no more is written. -/
def Broken (mq : Mq) (h : Handle) : Prop :=
  mq.detached = true ∧ h.partialBytes = 0 ∧ h.lengthWordComplete = false

/-- The state of the sender, by where it is. -/
def SendAt (mq : Mq) (snd : Sender) (sent : List Msg) (completed : Nat) (prev : List Msg) : Prop :=
  match snd.pc with
  | .dead => True
  | .notify => Between mq snd.h sent prev ∧ completed < prev.length
  | .idle =>
    if snd.answer = some .wouldBlock then
      ∃ m, Midway snd.h.lengthWordComplete snd.h.partialBytes snd.iov sent prev m ∧
        mq.bytesWritten = (stream prev).length + maxAlign (position snd.h.lengthWordComplete snd.h.partialBytes)
    else Between mq snd.h sent prev ∨ Broken mq snd.h
  | .bytes pt c =>
    (∃ m, Calling snd.h.lengthWordComplete snd.h.partialBytes snd.iov sent prev m c ∧
      pt.Holds mq sent (stream prev).length (position snd.h.lengthWordComplete snd.h.partialBytes) c) ∨
    (Broken mq snd.h ∧ pt = .top ∧ c.sent < c.data.length)

structure SendInv (mq : Mq) (snd : Sender) (sent : List Msg) (completed : Nat) (prev : List Msg) : Prop where
  size : 0 < mq.ringSize ∧ 8 ∣ mq.ringSize
  aligned : 8 ∣ mq.bytesRead ∧ 8 ∣ mq.bytesWritten
  le : mq.bytesRead ≤ mq.bytesWritten
  fits : mq.bytesWritten ≤ mq.bytesRead + mq.ringSize
  window : Window mq.ring mq.ringSize (stream sent) mq.bytesRead mq.bytesWritten
  total : mq.bytesWritten ≤ (stream sent).length
  before : (stream prev).length ≤ mq.bytesWritten
  begun : prev <+: sent
  done : completed ≤ prev.length
  absent : mq.hasSender = false → sent = []
  pc : SendAt mq snd sent completed prev

/-- The sender is somewhere, perhaps with more messages in the queue. -/
def Settled (mq : Mq) (snd : Sender) (sent : List Msg) (completed : Nat) (prev : List Msg) : Prop :=
  ∃ prev', prev <+: prev' ∧ prev' <+: sent ∧ (stream prev').length ≤ mq.bytesWritten ∧
    SendAt mq snd sent completed prev'

section Sender
variable {mq : Mq} {snd : Sender} {sent prev rest iov : List Msg} {completed offset p : Nat} {complete : Bool}
  {m : Msg} {c : Call} {pt : At}

theorem Segment.getElem? {data : Msg} {i : Nat} (hs : Segment m p data) (hi : i < data.length) :
    data[i]? = (word m)[p + i]? := by
  rw [hs.eq, getElem?_take, if_pos hi, getElem?_drop]

/-- The length word is a part of the message. -/
theorem segment_sizeBytes (m : Msg) : Segment m 0 (sizeBytes m.length) := by
  have h : (sizeBytes m.length ++ m).take (sizeBytes m.length).length = sizeBytes m.length := take_left
  refine ⟨?_, ?_, by decide, .inl (by simp)⟩
  · rw [drop_zero, word, h]
  · simp

theorem Sender.nbytes_eq (hiov : snd.iov.flatten = m) (hm : m.length < 2 ^ 64) : snd.nbytes = m.length := by
  rw [nbytes, ← length_flatten, hiov, u64_eq hm]

theorem length_lt_of_bound (hsent : sent = prev ++ [m]) (hb : (stream sent).length < 2 ^ 64) :
    m.length < 2 ^ 64 := by
  have := le_maxAlign (n := m.length)
  rw [hsent, length_stream_concat] at hb
  omega

/-! ### The loops of `shm_mq_sendv` -/

/-- All bytes are written. -/
theorem finish_settled (hsent : sent = prev ++ [m])
    (hdone : completed ≤ prev.length) (hw : mq.bytesWritten = (stream prev).length + (8 + maxAlign m.length)) :
    Settled mq snd.finish sent completed prev := by
  have hlen := length_stream_concat prev m
  refine ⟨prev ++ [m], prefix_append prev [m], hsent ▸ prefix_rfl, by omega, ?_⟩
  refine ⟨⟨hsent, by omega, rfl, rfl⟩, ?_⟩
  rw [length_append, length_singleton]
  omega

theorem sendData_settled (hc : snd.h.lengthWordComplete = true)
    (hm : Midway true snd.h.partialBytes snd.iov sent prev m)
    (hrest : rest.flatten.drop offset = m.drop snd.h.partialBytes)
    (hw : mq.bytesWritten = (stream prev).length + maxAlign (8 + snd.h.partialBytes))
    (hdone : completed ≤ prev.length) (hb : (stream sent).length < 2 ^ 64) :
      Settled mq (snd.sendData rest offset) sent completed prev := by
  have hn := nbytes_eq hm.iov (length_lt_of_bound hm.sent hb)
  have hle := hm.le
  have hbegun : prev <+: sent := hm.sent ▸ prefix_append prev [m]
  rw [sendData]
  cases hch : chunk snd.nbytes snd.h.partialBytes rest offset with
  | some pd =>
    obtain ⟨part, data⟩ := pd
    obtain ⟨hseg, hpos, hpart⟩ := chunk_some hch hrest hm.align
    refine ⟨prev, prefix_rfl, hbegun, by omega, .inl ⟨m, ?_, ?_⟩⟩
    · simp only [goto, hc]
      exact ⟨hm, hseg, .inr ⟨hpart, rfl⟩, Nat.zero_le _, .inl (Nat.dvd_zero 8)⟩
    · simp only [goto, hc]
      exact hw
  | none =>
    have hend := chunk_none hch hrest (le_of_eq hn.symm)
    have he : snd.h.partialBytes = m.length := by omega
    refine finish_settled hm.sent hdone ?_
    rw [hw, he, maxAlign_add (by decide)]

theorem begin_settled (hm : Midway snd.h.lengthWordComplete snd.h.partialBytes snd.iov sent prev m)
    (hw : mq.bytesWritten =
      (stream prev).length + maxAlign (position snd.h.lengthWordComplete snd.h.partialBytes))
    (hdone : completed ≤ prev.length) (hb : (stream sent).length < 2 ^ 64) :
      Settled mq snd.begin sent completed prev := by
  by_cases hc : snd.h.lengthWordComplete = true
  · rw [begin, if_neg (by simp [hc])]
    rw [hc] at hm hw
    exact sendData_settled hc hm (by rw [hm.iov]) hw hdone hb
  · have hf : snd.h.lengthWordComplete = false := by simpa using hc
    have hp := hm.start hf
    have hn := nbytes_eq hm.iov (length_lt_of_bound hm.sent hb)
    rw [begin, if_pos hf, hp, drop_zero, hn]
    have hbegun : prev <+: sent := hm.sent ▸ prefix_append prev [m]
    refine ⟨prev, prefix_rfl, hbegun, by omega,
      .inl ⟨m, ⟨hm, ?_, ?_, Nat.zero_le _, .inl (Nat.dvd_zero 8)⟩, hw⟩⟩
    · simp only [goto, hf, hp]
      exact segment_sizeBytes m
    · exact .inl ⟨rfl, hf, length_sizeBytes⟩

/-- The data of a call is written. -/
theorem resume_settled (h : Calling snd.h.lengthWordComplete snd.h.partialBytes snd.iov sent prev m c)
    (hend : c.sent = c.data.length)
    (hw : mq.bytesWritten = (stream prev).length +
      maxAlign (position snd.h.lengthWordComplete snd.h.partialBytes + c.sent))
    (hdone : completed ≤ prev.length) (hb : (stream sent).length < 2 ^ 64) :
      Settled mq (snd.resume c) sent completed prev := by
  have hseg := h.seg.le
  have hfin := h.seg.fin
  have hstart := h.seg.start
  rw [length_word] at hseg hfin
  rcases h.part with ⟨hp, hc, h8⟩ | ⟨hp, hc⟩
  · have h0 := h.mid.start hc
    have hadv : snd.advance c = {snd with h := {snd.h with partialBytes := 0, lengthWordComplete := true}} := by
      simp only [advance, hp, h0, hend, h8, zero_add, le_refl, if_true]
    rw [resume, hadv, hp]
    refine begin_settled ⟨h.mid.sent, h.mid.iov, Nat.zero_le _, nofun, .inl (Nat.dvd_zero 8)⟩ ?_ hdone hb
    rw [hw, hc, h0, hend, h8]
    rfl
  · simp only [hc, position, if_true] at hw hseg hfin hstart
    have hnext : Midway true (snd.h.partialBytes + c.sent) snd.iov sent prev m :=
      ⟨h.mid.sent, h.mid.iov, by omega, nofun, by omega⟩
    have hn := nbytes_eq h.mid.iov (length_lt_of_bound h.mid.sent hb)
    rw [add_assoc] at hw
    have hfinish : ¬ snd.h.partialBytes + c.sent < m.length →
        mq.bytesWritten = (stream prev).length + (8 + maxAlign m.length) := by
      intro hge
      have he : snd.h.partialBytes + c.sent = m.length := by omega
      rw [hw, he, maxAlign_add (by decide)]
    cases hpart : c.part with
    | length => exact absurd hp (by simp [hpart, Part.Continues])
    | gathered rest offset =>
      rw [hpart, Part.Continues, ← hend] at hp
      have hadv : snd.advance c = {snd with h := {snd.h with partialBytes := snd.h.partialBytes + c.sent}} := by
        simp only [advance, hpart]
      rw [resume, hadv, hpart]
      dsimp only
      split
      · exact sendData_settled hc hnext hp hw hdone hb
      next hge => exact finish_settled h.mid.sent hdone (hfinish (hn ▸ hge))
    | direct rest offset =>
      rw [hpart, Part.Continues] at hp
      have hadv : snd.advance c = {snd with h := {snd.h with partialBytes := snd.h.partialBytes + c.sent}} := by
        simp only [advance, hpart]
      rw [resume, hadv, hpart]
      dsimp only
      split
      · refine sendData_settled hc hnext ?_ hw hdone hb
        rw [← drop_drop, hp, drop_drop]
      next hge => exact finish_settled h.mid.sent hdone (hfinish (hn ▸ hge))

/-! ### Steps of `shm_mq_send_bytes` -/

theorem Mq.used_eq (hle : mq.bytesRead ≤ mq.bytesWritten) (hb : mq.bytesWritten < 2 ^ 64) :
    mq.used = mq.bytesWritten - mq.bytesRead := by
  unfold Mq.used u64
  omega

section
variable (h : Calling complete p iov sent prev m c)
include h

theorem Calling.pos_le :
    position complete p + c.sent ≤ 8 + m.length := by
  have := h.seg.le
  have := h.le
  rw [length_word] at *
  omega

/-- The call writes inside of the stream. -/
theorem Calling.total :
    (stream prev).length + maxAlign (position complete p + c.sent) ≤ (stream sent).length := by
  have hlen := length_stream_concat prev m
  rw [← h.mid.sent] at hlen
  have hmax : maxAlign (position complete p + c.sent) ≤ 8 + maxAlign m.length := by
    rw [← maxAlign_add (by decide)]
    exact maxAlign_le dvd_maxAlign (le_trans h.pos_le le_maxAlign)
  omega

theorem Calling.aligned (hlt : c.sent < c.data.length) :
    maxAlign (position complete p + c.sent) = position complete p + c.sent := by
  have := h.seg.start
  have := h.align
  exact maxAlign_eq (by omega)

/-- A call that has data left goes on from the top of its loop. -/
theorem Calling.top (hlt : c.sent < c.data.length)
    (hw : mq.bytesWritten = (stream prev).length + (position complete p + c.sent)) :
    At.top.Holds mq sent (stream prev).length (position complete p) c :=
  hw.trans (by rw [h.aligned hlt])

end

theorem sendAt_detached (hd : mq.detached = true) : SendAt mq (snd.ret c .detached) sent completed prev :=
  .inr ⟨hd, rfl, rfl⟩

/-- The position after a call that did not write all its data. -/
theorem sendAt_wouldBlock (h : Calling snd.h.lengthWordComplete snd.h.partialBytes snd.iov sent prev m c)
    (hlt : c.sent < c.data.length)
    (hw : mq.bytesWritten = (stream prev).length +
      (position snd.h.lengthWordComplete snd.h.partialBytes + c.sent)) :
    SendAt mq (snd.ret c .wouldBlock) sent completed prev := by
  have hal := h.aligned hlt
  have hseg := h.seg.le
  have hstart := h.seg.start
  have halign := h.align
  rw [length_word] at hseg
  rcases h.part with ⟨hp, hc, h8⟩ | ⟨hp, hc⟩
  · -- nothing of the length word is written
    have h0 := h.mid.start hc
    have hs : c.sent = 0 := by omega
    have hadv : snd.advance c = snd := by
      simp only [advance, hp, hs, add_zero]
      exact if_neg (by omega)
    rw [ret, hadv]
    exact ⟨m, h.mid, by rw [hw, ← hal, hs, add_zero]⟩
  · have hadv : snd.advance c = {snd with h := {snd.h with partialBytes := snd.h.partialBytes + c.sent}} := by
      cases hpart : c.part with
      | length => exact absurd hp (by simp [hpart, Part.Continues])
      | gathered rest offset | direct rest offset => simp only [advance, hpart]
    rw [ret, hadv]
    simp only [hc, position, if_true] at hw hal hseg hstart
    refine ⟨m, ⟨h.mid.sent, h.mid.iov, ?_, fun hf => ?_, .inl ?_⟩, ?_⟩
    · dsimp only
      omega
    · exact absurd hc (by simp [show snd.h.lengthWordComplete = false from hf])
    · dsimp only
      omega
    · simp only [hc, position, if_true]
      rw [hw, ← add_assoc 8, hal]

/-- The state of the sender does not depend on the flags, and only on a lower bound of the bytes read. -/
theorem SendAt.mono {mq' : Mq} (hat : SendAt mq snd sent completed prev) (hw : mq'.bytesWritten = mq.bytesWritten)
    (hr : mq.bytesRead ≤ mq'.bytesRead) (hsize : mq'.ringSize = mq.ringSize) (hring : mq'.ring = mq.ring)
    (hd : mq.detached = true → mq'.detached = true) : SendAt mq' snd sent completed prev := by
  have hbetween : Between mq snd.h sent prev → Between mq' snd.h sent prev :=
    fun hb => {hb with written := hw.trans hb.written}
  have hbroken : Broken mq snd.h → Broken mq' snd.h := fun hb => ⟨hd hb.1, hb.2⟩
  unfold SendAt at hat ⊢
  cases hpc : snd.pc with
  | dead => trivial
  | notify => rw [hpc] at hat; exact ⟨hbetween hat.1, hat.2⟩
  | idle =>
    rw [hpc] at hat
    dsimp only at hat ⊢
    split at hat
    next hwb =>
      rw [if_pos hwb, hw]
      exact hat
    next hwb =>
      rw [if_neg hwb]
      exact hat.imp hbetween hbroken
  | bytes pt c =>
    rw [hpc] at hat
    rcases hat with ⟨m, hc, hp⟩ | ⟨hbr, he⟩
    · refine .inl ⟨m, hc, ?_⟩
      have hle := Nat.add_le_add_right hr mq.ringSize
      cases pt with
      | copy n =>
        obtain ⟨h1, h2, h3, h4, h5, h6⟩ := hp
        refine ⟨h1, h2, h3, hw.trans h4, ?_, ?_⟩
        · rw [hw, hsize]; exact le_trans h5 hle
        · rw [hw, hsize]; exact h6
      | inc n =>
        obtain ⟨h1, h2, h3⟩ := hp
        refine ⟨?_, ?_, ?_⟩
        · rw [hw]; exact h1
        · rw [hw, hsize]; exact le_trans h2 hle
        · rw [hw, hsize, hring]; exact h3.mono hr (le_refl _)
      | top => exact hw.trans hp
      | waitInternal | waitStatus | mark | gone | goneStatus | getReceiver | full => exact ⟨hp.1, hw.trans hp.2⟩
    · exact .inr ⟨hbroken hbr, he⟩

/-- What a step of the sender is to the receiver: bytes are added, and none that may still be read
are changed. -/
structure Frame (s t : Sys) : Prop where
  rcv : t.rcv = s.rcv
  received : t.received = s.received
  read : t.mq.bytesRead = s.mq.bytesRead
  size : t.mq.ringSize = s.mq.ringSize
  written : s.mq.bytesWritten ≤ t.mq.bytesWritten
  sent : s.sent <+: t.sent
  gone : s.mq.detached = true ∨ s.snd.pc.isDead = true →
    (t.mq.detached = true ∨ t.snd.pc.isDead = true) ∧ t.completed = s.completed
  detached : s.mq.detached = true → t.mq.detached = true
  ring : ∀ x, s.mq.bytesRead ≤ x → x < s.mq.bytesWritten →
    t.mq.ring (x % s.mq.ringSize) = s.mq.ring (x % s.mq.ringSize)

/-- The state after a step of the sender. -/
structure Kept (s t : Sys) : Prop where
  holds : ∃ prev, SendInv t.mq t.snd t.sent t.completed prev
  frame : Frame s t

end Sender
end PgStorage.ShmMq
