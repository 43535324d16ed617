import PgStorage.ShmMq.Receiver

/-! The steps of the receiver. -/
namespace PgStorage.ShmMq
open Memory Circular
open List Receiver

section ReceiverSteps
variable {s t : Sys} {mq : Mq} {h : Handle} {rcv : Receiver} {sent received prev : List Msg} {m : Msg}
  {completed n rb offset : Nat} {snd : Sender} {need : Need}

theorem Resting.dvd (hr : Resting mq h received) (h0 : h.consumePending = 0) :
    mq.bytesRead = (stream received).length := by
  have := hr.start
  omega

/-- What `shm_mq_receive_bytes` finds is not empty and ends at a multiple of 8. -/
theorem found_ready (hi : SendInv s.mq s.snd s.sent s.completed prev) (hb : (stream s.sent).length < 2 ^ 64)
    (hready : s.ready need) (hneed : 0 < s.rcv.needed need) :
    Found s.mq (min s.mq.used (s.mq.ringSize - s.mq.bytesRead % s.mq.ringSize)) (s.mq.bytesRead % s.mq.ringSize) ∧
    8 ≤ min s.mq.used (s.mq.ringSize - s.mq.bytesRead % s.mq.ringSize) ∧
    8 ∣ min s.mq.used (s.mq.ringSize - s.mq.bytesRead % s.mq.ringSize) := by
  have htotal := hi.total
  have hused := Mq.used_eq hi.le (by omega)
  have hal := hi.aligned
  have hsize := hi.size
  have hle := hi.le
  have hmod : 8 ∣ s.mq.bytesRead % s.mq.ringSize := (Nat.dvd_mod_iff hsize.2).mpr hal.1
  have hlt := Nat.mod_lt s.mq.bytesRead hsize.1
  unfold Sys.ready at hready
  rw [hused] at hready ⊢
  have hpos : 0 < s.mq.bytesWritten - s.mq.bytesRead := by omega
  refine ⟨⟨rfl, by omega, by omega⟩, by omega, by omega⟩

theorem bytes_add (b : Mem) (a n k : Nat) : bytes b a (n + k) = bytes b a n ++ bytes b (a + n) k := by
  refine ext_getElem (by simp) fun i hi hi' => ?_
  simp only [bytes, getElem_map, getElem_range, getElem_append, length_map, length_range]
  split
  · rfl
  · exact congrArg b (by omega)

/-- The buffer after the next bytes are copied behind the first ones. -/
theorem bytes_copied {b : Mem} (data : Msg) (p : Nat) (hbuf : bytes b 0 p = m.take p)
    (hdata : data = (m.drop p).take data.length) :
    bytes (memcpy b p data) 0 (p + data.length) = m.take (p + data.length) := by
  rw [bytes_add, zero_add, bytes_memcpy, take_add, ← hbuf, ← hdata]
  refine congrArg (· ++ data) (bytes_congr fun k hk => ?_)
  rw [zero_add]
  exact memcpy_of_not_mem (by omega)

/-- The state after a step of the receiver, seen from both sides. -/
structure Passed (s t : Sys) (prev : List Msg) : Prop where
  snd : SendInv t.mq t.snd t.sent t.completed prev
  rcv : RecvInv t.mq t.rcv t.sent t.received
  same : t.snd = s.snd ∧ t.sent = s.sent ∧ t.completed = s.completed
  queue : t.mq.ringSize = s.mq.ringSize ∧ t.mq.ring = s.mq.ring
  received : s.received <+: t.received
  detached : s.mq.detached = true → t.mq.detached = true

theorem SendInv.passed (hi : SendInv s.mq s.snd s.sent s.completed prev)
    (hr : RecvInv s.mq rcv s.sent s.received) : Passed s (s.setRcv rcv) prev :=
  ⟨hi, hr, ⟨rfl, rfl, rfl⟩, ⟨rfl, rfl⟩, prefix_rfl, id⟩

/-- Without a result nothing is said about one. -/
theorem RecvInv.of_at {r : Receiver} (hg : received <+: sent)
    (hw : mq.bytesRead + r.h.consumePending ≤ mq.bytesWritten)
    (ha : RecvAt mq r sent received) (hn : ∀ loc n, r.pc = .idle → r.answer ≠ some (.message loc n)) :
    RecvInv mq r sent received :=
  ⟨hg, hw, ha, fun loc n hp he => absurd he (hn loc n hp)⟩

theorem begin_inv (hg : received <+: sent) (hle : mq.bytesRead ≤ mq.bytesWritten)
    (hp : Paused mq rcv.h sent received)
    (h0 : rcv.h.consumePending = 0) : RecvInv mq rcv.begin sent received := by
  have hw : mq.bytesRead + rcv.h.consumePending ≤ mq.bytesWritten := by omega
  rcases hp with hrest | ⟨m, hm⟩
  · rw [begin, if_pos hrest.word]
    exact .of_at hg hw ⟨hrest, h0⟩ nofun
  · rw [begin, if_neg (by simp [hm.word])]
    split
    next hz => exact .of_at hg hw ⟨m, hm, hz⟩ nofun
    · exact .of_at hg hw ⟨m, hm, .inl rfl, le_of_lt hm.lt, .inl (Nat.dvd_zero 8), hle⟩ nofun

/-- A message is returned. -/
theorem deliver_passed {r : Receiver} {loc : Loc} {mq : Mq} (hi : SendInv mq s.snd s.sent s.completed prev)
    (hq : mq.ringSize = s.mq.ringSize ∧ mq.ring = s.mq.ring) (hd : s.mq.detached = mq.detached)
    (hnext : s.received ++ [m] <+: s.sent)
    (hread : ({s with mq := mq} : Sys).read n loc = m) (hpc : r.pc = .idle)
    (hans : r.answer = some (.message loc n)) (hword : r.h.lengthWordComplete = false) (hz : r.h.partialBytes = 0)
    (hstart : mq.bytesRead + r.h.consumePending = (stream (s.received ++ [m])).length)
    (hwithin : mq.bytesRead + r.h.consumePending ≤ mq.bytesWritten)
    (hshown : Shown mq r.h (s.received ++ [m]) n loc) :
    Passed s (({s with mq := mq} : Sys).deliver r loc n) prev := by
  refine ⟨hi, ?_, ⟨rfl, rfl, rfl⟩, hq, prefix_append s.received _, fun h => hd ▸ h⟩
  simp only [Sys.deliver]
  rw [hread]
  refine ⟨hnext, hwithin, ?_, fun loc' n' _ ha => ?_⟩
  · unfold RecvAt
    rw [hpc]
    exact .inl ⟨hword, hz, hstart⟩
  · rw [hans] at ha
    obtain ⟨rfl, rfl⟩ := Answer.message.inj (Option.some_inj.mp ha)
    exact hshown

theorem consume_passed (hi : SendInv s.mq s.snd s.sent s.completed prev) (hb : (stream s.sent).length < 2 ^ 64)
    (hr : RecvInv s.mq s.rcv s.sent s.received) (hpc : s.rcv.pc = .consume) : Passed s s.consume prev := by
  have hat := hr.pc
  rw [RecvAt, hpc] at hat
  have htotal := hi.total
  have hw := hr.within
  have hmq : (if 0 < s.rcv.h.consumePending then s.mq.incBytesRead s.rcv.h.consumePending else s.mq) =
      {s.mq with bytesRead := s.mq.bytesRead + s.rcv.h.consumePending} := by
    split
    · exact Mq.incBytesRead_eq hw (by omega)
    next hz =>
      have h0 : s.rcv.h.consumePending = 0 := by omega
      rw [h0]
      rfl
  have hd : 8 ∣ s.mq.bytesRead + s.rcv.h.consumePending := by
    rcases hat with hrest | ⟨m, hm⟩
    · rw [hrest.start]
      exact dvd_length_stream _
    · rw [hm.pending]
      exact hi.aligned.1
  have hpaused : Paused {s.mq with bytesRead := s.mq.bytesRead + s.rcv.h.consumePending}
      {s.rcv.h with consumePending := 0} s.sent s.received := by
    rcases hat with hrest | ⟨m, hm⟩
    · exact .inl {hrest with }
    · exact .inr ⟨m, {hm with pending := rfl, pos := by simp only [hm.pending, add_zero]; exact hm.pos}⟩
  rw [Sys.consume, hmq]
  refine ⟨hi.read (Nat.le_add_right _ _) hw hd, ?_, ⟨rfl, rfl, rfl⟩, ⟨rfl, rfl⟩, prefix_rfl, id⟩
  exact begin_inv hr.got hw hpaused rfl

/-! ### The length word -/

section
variable (hi : SendInv s.mq s.snd s.sent s.completed prev) (hb : (stream s.sent).length < 2 ^ 64)
  (hr : RecvInv s.mq s.rcv s.sent s.received)
include hi hb hr

theorem bytesLength_passed
    (hpc : s.rcv.pc = .bytes .length) :
    Passed s (s.receiveBytes .length) prev := by
  have hat := hr.pc
  rw [RecvAt, hpc] at hat
  obtain ⟨hrest, h0⟩ := hat
  rw [Sys.receiveBytes]
  split
  next hready =>
    obtain ⟨hf, h8, hd⟩ := found_ready hi hb hready (by simp [needed, hrest.zero])
    rw [Sys.found, if_pos ⟨hrest.zero, h8⟩]
    exact hi.passed (.of_at hr.got hr.within ⟨hrest, h0, hf, h8, hd⟩ nofun)
  · split
    · exact hi.passed (.of_at hr.got hr.within (.inl hrest) nofun)
    · split
      · exact hi.passed (.of_at hr.got hr.within (.inl hrest) nofun)
      · exact hi.passed hr

theorem lengthRead_passed
    (hpc : s.rcv.pc = .lengthRead rb offset) :
    Passed s (s.lengthRead rb offset) prev := by
  have hat := hr.pc
  rw [RecvAt, hpc] at hat
  obtain ⟨hrest, h0, hf, h8, hd⟩ := hat
  have hread := hrest.dvd h0
  have htotal := hi.total
  have hfits := hf.fits
  have hle := hf.le
  obtain ⟨m, hnext⟩ := exists_next hr.got (by omega)
  have hlen := length_stream_concat s.received m
  have hin := (prefix_stream hnext).length_le
  have hm := le_maxAlign (n := m.length)
  have hword : bytes s.mq.ring offset 8 = sizeBytes m.length := by
    rw [hf.place] at hfits ⊢
    rw [bytes_eq hi hnext (p := 0) (by omega) (le_refl _) (by omega) (by omega) (by omega), drop_zero,
      take_word]
  have hsize : loadSize s.mq.ring offset = m.length := loadSize_sizeBytes hword (by omega)
  have hneeded : u64 (maxAlign 8 + maxAlign m.length) = 8 + maxAlign m.length :=
    u64_eq (by rw [maxAlign_eight]; omega)
  rw [Sys.lengthRead, hsize, hneeded]
  dsimp only
  split
  next hwhole =>
    have hplace : 0 < m.length → offset + 8 = (s.mq.bytesRead + 8) % s.mq.ringSize := by
      intro hpos
      rw [hf.place] at hfits ⊢
      rw [mod_add (by omega)]
    have hbytes : s.read m.length (.ring (offset + 8)) = m := by
      rcases Nat.eq_zero_or_pos m.length with hz | hpos
      · rw [Sys.read, hz, bytes_zero, eq_nil_of_length_eq_zero hz]
      · have hpl := hplace hpos
        rw [Sys.read, hpl, bytes_eq hi hnext (p := 8) (by omega) (by omega) (by omega) (by omega) (by omega)]
        rw [show 8 = 8 + 0 from rfl, word_drop, drop_zero, take_length]
    refine deliver_passed hi ⟨rfl, rfl⟩ rfl hnext hbytes rfl rfl rfl hrest.zero ?_ ?_ ?_
    · simp only [zeroCopy]
      omega
    · simp only [zeroCopy]
      omega
    · refine ⟨s.received, m, rfl, rfl, by omega, fun hpos => ?_, by omega, by omega⟩
      rw [← hread]
      exact hplace hpos
  next hpart =>
    have hpos : 0 < m.length := by
      rcases Nat.eq_zero_or_pos m.length with hz | hpos
      · rw [hz, maxAlign_zero] at hpart
        omega
      · exact hpos
    refine hi.passed (.of_at hr.got hr.within ⟨m, ⟨rfl, hnext, rfl, h0, ?_⟩, hread, hrest.zero,
      hpos, by omega⟩ nofun)
    simp only [hrest.zero, bytes_zero, take_zero]

theorem lengthInc_passed
    (hpc : s.rcv.pc = .lengthInc) :
    Passed s {s with mq := s.mq.incBytesRead (maxAlign 8), rcv := s.rcv.begin} prev := by
  have hat := hr.pc
  rw [RecvAt, hpc] at hat
  obtain ⟨m, hm, hpos, h0, hlt, hle⟩ := hat
  have htotal := hi.total
  have hal := hi.aligned.1
  rw [maxAlign_eight, Mq.incBytesRead_eq hle (by omega)]
  refine ⟨hi.read (Nat.le_add_right _ _) hle (by omega), ?_, ⟨rfl, rfl, rfl⟩, ⟨rfl, rfl⟩, prefix_rfl, id⟩
  refine begin_inv hr.got hle (.inr ⟨m, {hm with pos := ?_, dvd := ?_, lt := ?_}⟩) hm.pending
  · dsimp only
    omega
  · rw [h0]
    exact Nat.dvd_zero 8
  · rw [h0]
    exact hlt

end

theorem bytesWhole_passed (hi : SendInv s.mq s.snd s.sent s.completed prev) (hb : (stream s.sent).length < 2 ^ 64)
    (hr : RecvInv s.mq s.rcv s.sent s.received) (hpc : s.rcv.pc = .bytes .whole) :
    Passed s (s.receiveBytes .whole) prev := by
  have hat := hr.pc
  rw [RecvAt, hpc] at hat
  obtain ⟨m, hm, h0⟩ := hat
  have htotal := hi.total
  have hread := hm.pos
  have hlt := hm.lt
  have hlen := length_stream_concat s.received m
  have hin := (prefix_stream hm.next).length_le
  rw [Sys.receiveBytes]
  split
  next hready =>
    obtain ⟨hf, h8, hd⟩ := found_ready hi hb hready (by rw [needed, hm.expected]; omega)
    generalize min s.mq.used (s.mq.ringSize - s.mq.bytesRead % s.mq.ringSize) = rb at hf h8 hd ⊢
    have hle := hf.le
    have hfits := hf.fits
    rw [Sys.found, hm.expected]
    split
    next hall =>
      have hpad : maxAlign m.length ≤ rb := maxAlign_le hd hall
      have hu : u64 (maxAlign m.length) = maxAlign m.length := u64_eq (by omega)
      have hbytes : s.read m.length (.ring (s.mq.bytesRead % s.mq.ringSize)) = m := by
        rw [Sys.read, bytes_eq hi hm.next (p := 8) (by omega) (le_refl _) (by omega) (by omega) (by omega)]
        rw [show 8 = 8 + 0 from rfl, word_drop, drop_zero, take_length]
      refine deliver_passed hi ⟨rfl, rfl⟩ rfl hm.next hbytes rfl rfl rfl h0 ?_ ?_ ?_
      · simp only [zeroCopy, hu]
        omega
      · simp only [zeroCopy, hu]
        omega
      · refine ⟨s.received, m, rfl, rfl, by omega, fun _ => ?_, by omega, by omega⟩
        rw [hread, h0]
    next hshort =>
      split
      · exact hi.passed (.of_at hr.got hr.within ⟨m, hm, h0, hf, by omega, hd⟩ nofun)
      · refine hi.passed (.of_at hr.got hr.within ⟨m, hm, .inr hf, ?_, .inl hd, ?_⟩ nofun)
        · simp only [goto]
          omega
        · rw [maxAlign_eq hd]
          exact hle
  · split
    · exact hi.passed (.of_at hr.got hr.within (.inr ⟨m, hm⟩) nofun)
    · split
      · exact hi.passed (.of_at hr.got hr.within (.inr ⟨m, hm⟩) nofun)
      · exact hi.passed hr

theorem bytesMore_passed (hi : SendInv s.mq s.snd s.sent s.completed prev) (hb : (stream s.sent).length < 2 ^ 64)
    (hr : RecvInv s.mq s.rcv s.sent s.received) (hpc : s.rcv.pc = .bytes .more) :
    Passed s (s.receiveBytes .more) prev := by
  have hat := hr.pc
  rw [RecvAt, hpc] at hat
  obtain ⟨m, hm⟩ := hat
  have hlt := hm.lt
  have hneed : s.rcv.needed .more = m.length - s.rcv.h.partialBytes := by rw [needed, hm.expected]
  rw [Sys.receiveBytes]
  split
  next hready =>
    obtain ⟨hf, h8, hd⟩ := found_ready hi hb hready (by omega)
    generalize min s.mq.used (s.mq.ringSize - s.mq.bytesRead % s.mq.ringSize) = rb at hf h8 hd ⊢
    have hle := hf.le
    have hfits := hf.fits
    have hpad : maxAlign (min rb (m.length - s.rcv.h.partialBytes)) ≤ rb := maxAlign_le hd (by omega)
    rw [Sys.found, hneed]
    refine hi.passed (.of_at hr.got hr.within ⟨m, hm, .inr ⟨rfl, by omega, by omega⟩, ?_, ?_, by omega⟩ nofun)
    · simp only [goto]
      omega
    · simp only [goto]
      omega
  · split
    · exact hi.passed (.of_at hr.got hr.within (.inr ⟨m, hm⟩) nofun)
    · split
      · exact hi.passed (.of_at hr.got hr.within (.inr ⟨m, hm⟩) nofun)
      · exact hi.passed hr

theorem alloc_passed (fresh : Mem) (hi : SendInv s.mq s.snd s.sent s.completed prev)
    (hr : RecvInv s.mq s.rcv s.sent s.received) (hpc : s.rcv.pc = .alloc rb offset) :
    Passed s (s.setRcv (s.rcv.allocate fresh rb offset)) prev := by
  have hat := hr.pc
  rw [RecvAt, hpc] at hat
  obtain ⟨m, hm, h0, hf, hlt, hd⟩ := hat
  refine hi.passed ?_
  rw [allocate]
  split
  · exact hr
  · split
    · exact .of_at hr.got hr.within (.inr ⟨m, {hm with }⟩) (by rintro _ _ _ ⟨⟩)
    · refine .of_at hr.got hr.within ⟨m, {hm with buffer := ?_}, .inr hf, ?_, .inl hd, ?_⟩ (by rintro _ _ ⟨⟩)
      · simp only [h0, bytes_zero, take_zero]
      · simp only [h0]
        omega
      · rw [maxAlign_eq hd]
        exact hf.le

theorem copy_passed (hi : SendInv s.mq s.snd s.sent s.completed prev)
    (hr : RecvInv s.mq s.rcv s.sent s.received) (hpc : s.rcv.pc = .copy rb offset) :
    Passed s (s.copy rb offset) prev := by
  have hat := hr.pc
  rw [RecvAt, hpc] at hat
  obtain ⟨m, hm, hf, hle, hal, hin⟩ := hat
  have hread := hm.pos
  have hlt := hm.lt
  have hdata : bytes s.mq.ring offset rb = (m.drop s.rcv.h.partialBytes).take rb := by
    rcases hf with rfl | hf
    · simp
    · have hfits := hf.fits
      have hfle := hf.le
      rw [hf.place] at hfits ⊢
      rw [bytes_eq hi hm.next (p := 8 + s.rcv.h.partialBytes) hread (le_refl _) hfle hfits (by omega),
        word_drop]
  have hbuf := bytes_copied (bytes s.mq.ring offset rb) s.rcv.h.partialBytes hm.buffer
    (by rw [length_bytes]; exact hdata)
  rw [length_bytes] at hbuf
  refine hi.passed (.of_at hr.got hr.within ⟨m, ⟨hm.word, hm.next, hm.expected, hm.pending, hbuf⟩, ?_, ?_,
    hin⟩ nofun)
  · dsimp only
    omega
  · have hd := hm.dvd
    dsimp only
    omega

theorem copyInc_passed (hi : SendInv s.mq s.snd s.sent s.completed prev) (hb : (stream s.sent).length < 2 ^ 64)
    (hr : RecvInv s.mq s.rcv s.sent s.received) (hpc : s.rcv.pc = .inc rb) : Passed s (s.copyInc rb) prev := by
  have hat := hr.pc
  rw [RecvAt, hpc] at hat
  obtain ⟨m, hm, hpos, hal, hin⟩ := hat
  have htotal := hi.total
  have halr := hi.aligned.1
  have hpad := maxAlign_add (n := rb) halr
  have hd8 := dvd_maxAlign (n := rb)
  have hread := hi.read (Nat.le_add_right _ (maxAlign rb)) hin (by omega)
  rw [Sys.copyInc, Mq.incBytesRead_eq hin (by omega), hm.expected]
  rcases hal with ⟨hd, hlt⟩ | hend
  · rw [if_neg (by omega)]
    have hrb : maxAlign rb = rb := maxAlign_eq (by have := dvd_length_stream s.received; omega)
    refine ⟨hread, .of_at hr.got ?_ ⟨m, {hm with pos := ?_, dvd := hd, lt := hlt}⟩ nofun, ⟨rfl, rfl, rfl⟩,
      ⟨rfl, rfl⟩, prefix_rfl, id⟩
    · simp only [Sys.setRcv, goto, hm.pending]
      exact hin
    · simp only [Sys.setRcv, goto]
      omega
  · rw [if_pos (by omega)]
    have hsum : s.mq.bytesRead + maxAlign rb = (stream (s.received ++ [m])).length := by
      rw [← hpad, hpos, hend, maxAlign_add (dvd_length_stream _), maxAlign_add (by decide), length_stream_concat]
    have hbuf : bytes s.rcv.h.buffer 0 m.length = m := by
      have h := hm.buffer
      rwa [hend, take_length] at h
    refine deliver_passed (m := m) hread ⟨rfl, rfl⟩ rfl hm.next hbuf rfl ?_ rfl rfl ?_ ?_ ?_
    · rw [copied, hm.expected]
    · simp only [copied, hm.pending]
      omega
    · simp only [copied, hm.pending]
      omega
    · rw [Shown, getLast?_concat]
      exact congrArg some hbuf.symm

end ReceiverSteps
end PgStorage.ShmMq
