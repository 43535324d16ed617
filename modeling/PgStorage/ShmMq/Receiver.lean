import PgStorage.ShmMq.SenderSteps

/-! What the receiver keeps.

The counter of bytes read is a position in the stream behind the messages that have been returned:
at the start of the next one, before the bytes of a result that still lie in the ring, or in the
message whose length word has been read. The buffer holds the bytes that have been copied. -/
namespace PgStorage.ShmMq
open Memory Circular

/-- No length word has been read after the messages that were returned. -/
structure Resting (mq : Mq) (h : Handle) (received : List Msg) : Prop where
  word : h.lengthWordComplete = false
  zero : h.partialBytes = 0
  start : mq.bytesRead + h.consumePending = (stream received).length

/-- The length word of the message `m` has been read. -/
structure Reading (h : Handle) (sent received : List Msg) (m : Msg) : Prop where
  word : h.lengthWordComplete = true
  next : received ++ [m] <+: sent
  expected : h.expectedBytes = m.length
  pending : h.consumePending = 0
  buffer : bytes h.buffer 0 h.partialBytes = m.take h.partialBytes

/-- Between two pieces of the message `m`. -/
structure Midst (mq : Mq) (h : Handle) (sent received : List Msg) (m : Msg) : Prop extends
    Reading h sent received m where
  pos : mq.bytesRead = (stream received).length + (8 + h.partialBytes)
  dvd : 8 ∣ h.partialBytes
  lt : h.partialBytes < m.length

/-- Between two calls. -/
def Paused (mq : Mq) (h : Handle) (sent received : List Msg) : Prop :=
  Resting mq h received ∨ ∃ m, Midst mq h sent received m

/-- Bytes found in the ring. -/
structure Found (mq : Mq) (rb offset : Nat) : Prop where
  place : offset = mq.bytesRead % mq.ringSize
  fits : offset + rb ≤ mq.ringSize
  le : mq.bytesRead + rb ≤ mq.bytesWritten

/-- The state of the receiver, by where it is. -/
def RecvAt (mq : Mq) (rcv : Receiver) (sent received : List Msg) : Prop :=
  match rcv.pc with
  | .dead => True
  | .bytes .length => Resting mq rcv.h received ∧ rcv.h.consumePending = 0
  | .bytes .whole => ∃ m, Midst mq rcv.h sent received m ∧ rcv.h.partialBytes = 0
  | .bytes .more => ∃ m, Midst mq rcv.h sent received m
  | .lengthRead rb offset =>
    Resting mq rcv.h received ∧ rcv.h.consumePending = 0 ∧ Found mq rb offset ∧ 8 ≤ rb ∧ 8 ∣ rb
  | .lengthInc =>
    ∃ m, Reading rcv.h sent received m ∧ mq.bytesRead = (stream received).length ∧ rcv.h.partialBytes = 0 ∧
      0 < m.length ∧ mq.bytesRead + 8 ≤ mq.bytesWritten
  | .lengthSplit _ _ => False
  | .splitInc _ => False
  | .alloc rb offset =>
    ∃ m, Midst mq rcv.h sent received m ∧ rcv.h.partialBytes = 0 ∧ Found mq rb offset ∧ rb < m.length ∧ 8 ∣ rb
  | .copy rb offset =>
    ∃ m, Midst mq rcv.h sent received m ∧ (rb = 0 ∨ Found mq rb offset) ∧ rcv.h.partialBytes + rb ≤ m.length ∧
      (8 ∣ rb ∨ rcv.h.partialBytes + rb = m.length) ∧ mq.bytesRead + maxAlign rb ≤ mq.bytesWritten
  | .inc rb =>
    ∃ m, Reading rcv.h sent received m ∧ mq.bytesRead + rb = (stream received).length + (8 + rcv.h.partialBytes) ∧
      (8 ∣ rcv.h.partialBytes ∧ rcv.h.partialBytes < m.length ∨ rcv.h.partialBytes = m.length) ∧
      mq.bytesRead + maxAlign rb ≤ mq.bytesWritten
  | _ => Paused mq rcv.h sent received

/-- What a result shows is the last of the messages that were returned. In the ring it is the part of
the stream behind the length word of that message, which has not been released. -/
def Shown (mq : Mq) (h : Handle) (received : List Msg) (nbytes : Nat) : Loc → Prop
  | .buffer => received.getLast? = some (bytes h.buffer 0 nbytes)
  | .ring offset =>
    ∃ l m, received = l ++ [m] ∧ nbytes = m.length ∧ offset + nbytes ≤ mq.ringSize ∧
      (0 < nbytes → offset = ((stream l).length + 8) % mq.ringSize) ∧
      mq.bytesRead ≤ (stream l).length + 8 ∧ (stream received).length ≤ mq.bytesWritten

structure RecvInv (mq : Mq) (rcv : Receiver) (sent received : List Msg) : Prop where
  got : received <+: sent
  within : mq.bytesRead + rcv.h.consumePending ≤ mq.bytesWritten
  pc : RecvAt mq rcv sent received
  result : ∀ loc n, rcv.pc = .idle → rcv.answer = some (.message loc n) → Shown mq rcv.h received n loc

section Receiver
variable {s t : Sys} {mq mq' : Mq} {h : Handle} {rcv : Receiver} {sent sent' received prev : List Msg} {m : Msg}
  {completed p n x rb offset : Nat} {snd : Sender}

/-! ### Steps of the sender -/

theorem Midst.mono (hm : Midst mq h sent received m) (hr : mq'.bytesRead = mq.bytesRead) (hs : sent <+: sent') :
    Midst mq' h sent' received m :=
  {hm with next := hm.next.trans hs, pos := hr.trans hm.pos}

theorem Found.mono (hf : Found mq rb offset) (hr : mq'.bytesRead = mq.bytesRead)
    (hsize : mq'.ringSize = mq.ringSize)
    (hw : mq.bytesWritten ≤ mq'.bytesWritten) : Found mq' rb offset := by
  refine ⟨?_, ?_, ?_⟩
  · rw [hr, hsize]; exact hf.place
  · rw [hsize]; exact hf.fits
  · rw [hr]; exact le_trans hf.le hw

theorem Paused.mono (hb : Paused mq h sent received) (hr : mq'.bytesRead = mq.bytesRead) (hs : sent <+: sent') :
    Paused mq' h sent' received := by
  rcases hb with hrest | ⟨m, hm⟩
  · exact .inl {hrest with start := hr ▸ hrest.start}
  · exact .inr ⟨m, hm.mono hr hs⟩

theorem RecvAt.mono (ha : RecvAt mq rcv sent received) (hr : mq'.bytesRead = mq.bytesRead)
    (hsize : mq'.ringSize = mq.ringSize) (hw : mq.bytesWritten ≤ mq'.bytesWritten) (hs : sent <+: sent') :
    RecvAt mq' rcv sent' received := by
  unfold RecvAt at ha ⊢
  cases hpc : rcv.pc with
  | dead => trivial
  | bytes need =>
    rw [hpc] at ha
    cases need with
    | length => exact ⟨{ha.1 with start := hr ▸ ha.1.start}, ha.2⟩
    | whole => obtain ⟨m, hm, h0⟩ := ha; exact ⟨m, hm.mono hr hs, h0⟩
    | more => obtain ⟨m, hm⟩ := ha; exact ⟨m, hm.mono hr hs⟩
  | lengthRead rb offset =>
    rw [hpc] at ha
    obtain ⟨hrest, h0, hf, h8⟩ := ha
    exact ⟨{hrest with start := hr ▸ hrest.start}, h0, hf.mono hr hsize hw, h8⟩
  | lengthInc =>
    rw [hpc] at ha
    obtain ⟨m, hm, hpos, h0, hlt, hle⟩ := ha
    exact ⟨m, {hm with next := hm.next.trans hs}, hr.trans hpos, h0, hlt, by omega⟩
  | lengthSplit rb offset => rw [hpc] at ha; exact ha.elim
  | splitInc n => rw [hpc] at ha; exact ha.elim
  | alloc rb offset =>
    rw [hpc] at ha
    obtain ⟨m, hm, h0, hf, hlt⟩ := ha
    exact ⟨m, hm.mono hr hs, h0, hf.mono hr hsize hw, hlt⟩
  | copy rb offset =>
    rw [hpc] at ha
    obtain ⟨m, hm, hf, hle, hal, hin⟩ := ha
    exact ⟨m, hm.mono hr hs, hf.imp_right fun hf => hf.mono hr hsize hw, hle, hal, by omega⟩
  | inc rb =>
    rw [hpc] at ha
    obtain ⟨m, hm, hpos, hal, hin⟩ := ha
    exact ⟨m, {hm with next := hm.next.trans hs}, by omega, hal, by omega⟩
  | _ => rw [hpc] at ha; exact Paused.mono ha hr hs

theorem Shown.mono {loc : Loc} (hsh : Shown mq h received n loc) (hr : mq'.bytesRead = mq.bytesRead)
    (hsize : mq'.ringSize = mq.ringSize) (hw : mq.bytesWritten ≤ mq'.bytesWritten) :
      Shown mq' h received n loc := by
  cases loc with
  | buffer => exact hsh
  | ring offset =>
    obtain ⟨l, m, he, hn, hfit, hoff, hle, hlen⟩ := hsh
    refine ⟨l, m, he, hn, ?_, ?_, ?_, le_trans hlen hw⟩
    · rw [hsize]; exact hfit
    · rw [hsize]; exact hoff
    · rw [hr]; exact hle

theorem RecvInv.frame (hi : RecvInv s.mq s.rcv s.sent s.received) (hf : Frame s t) :
    RecvInv t.mq t.rcv t.sent t.received := by
  rw [hf.rcv, hf.received]
  refine ⟨hi.got.trans hf.sent, ?_, hi.pc.mono hf.read hf.size hf.written hf.sent, fun loc n hp ha => ?_⟩
  · rw [hf.read]
    exact le_trans hi.within hf.written
  · exact (hi.result loc n hp ha).mono hf.read hf.size hf.written

theorem SendInv.read {r : Nat} (hi : SendInv mq snd sent completed prev) (hr : mq.bytesRead ≤ r)
    (hw : r ≤ mq.bytesWritten) (hd : 8 ∣ r) : SendInv {mq with bytesRead := r} snd sent completed prev :=
  {hi with
    aligned := ⟨hd, hi.aligned.2⟩
    le := hw
    fits := le_trans hi.fits (Nat.add_le_add_right hr _)
    window := hi.window.mono hr (le_refl _)
    pc := hi.pc.mono rfl hr rfl rfl id}

theorem SendInv.detach (hi : SendInv mq snd sent completed prev) :
    SendInv {mq with detached := true} snd sent completed prev :=
  {hi with pc := hi.pc.mono rfl (le_refl _) rfl rfl fun _ => rfl}

theorem Mq.incBytesRead_eq (hle : mq.bytesRead + n ≤ mq.bytesWritten) (hb : mq.bytesWritten < 2 ^ 64) :
    mq.incBytesRead n = {mq with bytesRead := mq.bytesRead + n} := by
  rw [Mq.incBytesRead, u64_eq (by omega)]

/-- There is a message behind those that were returned. -/
theorem exists_next (hg : received <+: sent) (hlt : (stream received).length < (stream sent).length) :
    ∃ m, received ++ [m] <+: sent := by
  obtain ⟨l, rfl⟩ := hg
  cases l with
  | nil => simp at hlt
  | cons m l => exact ⟨m, l, by simp⟩

/-- A part of the ring that does not wrap holds a part of the message. -/
theorem bytes_eq (hi : SendInv mq snd sent completed prev) (hnext : received ++ [m] <+: sent)
    (hx : x = (stream received).length + p) (hr : mq.bytesRead ≤ x) (hw : x + n ≤ mq.bytesWritten)
    (hfit : x % mq.ringSize + n ≤ mq.ringSize) (hn : p + n ≤ 8 + m.length) :
    bytes mq.ring (x % mq.ringSize) n = ((word m).drop p).take n := by
  have hlen : (((word m).drop p).take n).length = n := by
    rw [List.length_take, List.length_drop, length_word]
    omega
  have h := hi.window.bytes (((word m).drop p).take n) hr (by omega) (by omega) ?_
  · rwa [hlen] at h
  · intro i b hb
    have hin : i < n := by
      by_contra hge
      rw [List.getElem?_eq_none (by omega)] at hb
      exact absurd hb nofun
    have := le_maxAlign (n := m.length)
    rw [List.getElem?_take, if_pos hin, List.getElem?_drop] at hb
    rw [hx, add_assoc, stream_eq_some hnext (by omega)]
    exact hb

theorem take_word (m : Msg) : (word m).take 8 = sizeBytes m.length := by
  have h : (sizeBytes m.length ++ m).take (sizeBytes m.length).length = sizeBytes m.length := List.take_left
  rwa [length_sizeBytes] at h

end Receiver
end PgStorage.ShmMq
