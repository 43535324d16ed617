import PgStorage.Lib.Memory

/-! Shared memory message queues.

A queue is a ring of bytes with two counters. One process sends messages into it and one receives
them; each has a handle with the state of an operation that has not been finished. A step is one
section under the queue's mutex, one access to its ring, or one unlocked write of a shared field,
with the local computation that follows. Latches are not modelled: a process that waits may look
again at any time. Either process may end at any point, with or without detaching from the queue. -/
namespace PgStorage.ShmMq
open Memory

/-- `MAXALIGN`, for `MAXIMUM_ALIGNOF` = 8. -/
def maxAlign (n : Nat) : Nat := (n + 7) / 8 * 8

def maxAlignDown (n : Nat) : Nat := n / 8 * 8

/-- The value of a `uint64` or a `Size`. -/
def u64 (n : Nat) : Nat := n % 2 ^ 64

/-- The bytes of a `Size`, low byte first. -/
def sizeBytes (n : Nat) : List UInt8 := (List.range 8).map fun k => UInt8.ofNat (n / 256 ^ k)

def loadSize (m : Mem) (a : Nat) : Nat := load32 m a + 2 ^ 32 * load32 m (a + 4)

/-- `MQH_INITIAL_BUFSIZE` -/
def initialBufsize : Nat := 8192

/-- `MaxAllocSize`: more than this is refused by `MemoryContextAlloc`. -/
def maxAllocSize : Nat := 0x3fffffff

/-- `ring` starts at `mq_ring_offset`. -/
structure Mq where
  hasReceiver : Bool
  hasSender : Bool
  bytesRead : Nat
  bytesWritten : Nat
  ringSize : Nat
  detached : Bool
  ring : Mem

/-- `worker` says whether there is a `BackgroundWorkerHandle`. The buffer is `NULL` when `buflen` is 0. -/
structure Handle where
  worker : Bool
  buffer : Mem
  buflen : Nat
  consumePending : Nat
  partialBytes : Nat
  expectedBytes : Nat
  lengthWordComplete : Bool
  counterpartyAttached : Bool

def Mq.create (ring : Mem) (size : Nat) : Mq :=
  ⟨false, false, 0, 0, size, false, ring⟩

def Handle.attach (worker : Bool) : Handle :=
  ⟨worker, fun _ => 0, 0, 0, 0, 0, false, false⟩

/-- The bytes in use, by the counters as they are read. -/
def Mq.used (mq : Mq) : Nat := u64 (mq.bytesWritten + 2 ^ 64 - mq.bytesRead)

def Mq.incBytesRead (mq : Mq) (n : Nat) : Mq := {mq with bytesRead := u64 (mq.bytesRead + n)}

def Mq.incBytesWritten (mq : Mq) (n : Nat) : Mq := {mq with bytesWritten := u64 (mq.bytesWritten + n)}

abbrev Msg := List UInt8

/-- What is left of the vector, from `iov[which_iov]` on, with the offset into it, once the bytes of
one call of `shm_mq_send_bytes` are gathered. -/
inductive Part
  | length
  | gathered (rest : List Msg) (offset : Nat)
  | direct (rest : List Msg) (offset : Nat)

/-- Fills `tmpbuf` with 8 bytes, or with all that are left. -/
def gather : List Msg → Nat → Msg → Msg × List Msg × Nat
  | [], offset, tmpbuf => (tmpbuf, [], offset)
  | v :: rest, offset, tmpbuf =>
    let got := (v.drop offset).take (8 - tmpbuf.length)
    if tmpbuf.length + got.length = 8 then (tmpbuf ++ got, v :: rest, offset + got.length)
    else gather rest (offset + got.length - v.length) (tmpbuf ++ got)

/-- The next bytes that `shm_mq_sendv` writes, or `none` when its loop ends. -/
def chunk (nbytes partialBytes : Nat) : List Msg → Nat → Option (Part × Msg)
  | [], _ => none
  | v :: rest, offset =>
    if v.length ≤ offset then
      -- `continue` goes to the test of the loop
      if rest ≠ [] ∧ partialBytes < nbytes then chunk nbytes partialBytes rest (offset - v.length) else none
    else if rest ≠ [] ∧ v.length < offset + 8 then
      let (tmpbuf, rest', offset') := gather (v :: rest) offset []
      some (.gathered rest' offset', tmpbuf)
    else
      let chunksize := v.length - offset
      let chunksize := if rest ≠ [] then maxAlignDown chunksize else chunksize
      some (.direct (v :: rest) offset, (v.drop offset).take chunksize)

/-- Where a process is in `shm_mq_send_bytes`. -/
inductive At
  | top
  | waitInternal
  | waitStatus
  /-- The queue is marked as detached, and the call fails. -/
  | mark
  | gone
  | goneStatus
  | getReceiver
  | full
  | copy (sendnow : Nat)
  | inc (sendnow : Nat)

/-- A call of `shm_mq_send_bytes`, and how much of it is done. -/
structure Call where
  part : Part
  data : Msg
  sent : Nat

inductive Result
  | success
  | wouldBlock
  | detached
  deriving DecidableEq

inductive SendPc
  | idle
  | bytes (pt : At) (c : Call)
  | notify
  | dead

/-- The sender, with the arguments of its last call and what the call returned. -/
structure Sender where
  h : Handle
  iov : List Msg
  nowait : Bool
  answer : Option Result
  pc : SendPc

namespace Sender

def nbytes (s : Sender) : Nat := u64 (s.iov.map List.length).sum

def goto (s : Sender) (pt : At) (c : Call) : Sender := {s with pc := .bytes pt c}

def reset (s : Sender) : Sender :=
  {s with h := {s.h with partialBytes := 0, lengthWordComplete := false}}

/-- The message is in the queue. -/
def finish (s : Sender) : Sender := {s.reset with pc := .notify}

/-- One pass through the loop that writes the data bytes. -/
def sendData (s : Sender) (rest : List Msg) (offset : Nat) : Sender :=
  match chunk s.nbytes s.h.partialBytes rest offset with
  | some (part, data) => s.goto .top ⟨part, data, 0⟩
  | none => s.finish

/-- From the test of the loop that writes the length word. -/
def begin (s : Sender) : Sender :=
  if s.h.lengthWordComplete = false then
    s.goto .top ⟨.length, (sizeBytes s.nbytes).drop s.h.partialBytes, 0⟩
  else s.sendData s.iov s.h.partialBytes

/-- The bytes that `shm_mq_send_bytes` has written are counted. -/
def advance (s : Sender) (c : Call) : Sender :=
  let p := s.h.partialBytes + c.sent
  match c.part with
  | .length =>
    if 8 ≤ p then {s with h := {s.h with partialBytes := 0, lengthWordComplete := true}}
    else {s with h := {s.h with partialBytes := p}}
  | _ => {s with h := {s.h with partialBytes := p}}

/-- `shm_mq_sendv` goes on after a call that wrote all its bytes. -/
def resume (s : Sender) (c : Call) : Sender :=
  let t := s.advance c
  match c.part with
  | .length => t.begin
  | .gathered rest offset => if t.h.partialBytes < t.nbytes then t.sendData rest offset else t.finish
  | .direct rest offset => if t.h.partialBytes < t.nbytes then t.sendData rest (offset + c.sent) else t.finish

/-- `shm_mq_send_bytes` returns to `shm_mq_sendv`. -/
def ret (s : Sender) (c : Call) : Result → Sender
  | .success => s.resume c
  | .wouldBlock => {s.advance c with pc := .idle, answer := some .wouldBlock}
  | .detached => {s.reset with pc := .idle, answer := some .detached}

end Sender

/-- What is asked of `shm_mq_receive_bytes`: the length word, the whole message, or more of it. -/
inductive Need
  | length
  | whole
  | more

/-- Where a result is. -/
inductive Loc
  | ring (offset : Nat)
  | buffer

inductive Answer
  | message (loc : Loc) (nbytes : Nat)
  | wouldBlock
  | detached
  /-- The buffer could not be allocated. -/
  | error

/-- Where a process is in `shm_mq_receive`, with the bytes found and their place in the ring. -/
inductive RecvPc
  | idle
  | waitInternal
  | waitStatus
  | failGet
  | failMark
  | gone
  | goneStatus
  | goneMark
  | getSender (counterpartyGone : Bool)
  | consume
  | bytes (need : Need)
  | lengthRead (rb offset : Nat)
  | lengthInc
  | lengthSplit (rb offset : Nat)
  | splitInc (lengthbytes : Nat)
  | alloc (rb offset : Nat)
  | copy (rb offset : Nat)
  | inc (rb : Nat)
  | dead

structure Receiver where
  h : Handle
  nowait : Bool
  answer : Option Answer
  pc : RecvPc

namespace Receiver

def goto (r : Receiver) (pc : RecvPc) : Receiver := {r with pc := pc}

def ret (r : Receiver) (a : Answer) : Receiver := {r with pc := .idle, answer := some a}

def attached (r : Receiver) : Receiver := {r with h := {r.h with counterpartyAttached := true}, pc := .consume}

/-- From the test of the loop that reads the length word. -/
def begin (r : Receiver) : Receiver :=
  if r.h.lengthWordComplete = false then r.goto (.bytes .length)
  else if r.h.partialBytes = 0 then r.goto (.bytes .whole)
  else r.goto (.copy 0 0)

def needed (r : Receiver) : Need → Nat
  | .length => 8 - r.h.partialBytes
  | .whole => r.h.expectedBytes
  | .more => r.h.expectedBytes - r.h.partialBytes

/-- A message that was found in one piece is returned where it is. -/
def zeroCopy (r : Receiver) (pending nbytes offset : Nat) : Receiver :=
  {r with
    h := {r.h with lengthWordComplete := false, consumePending := pending}
    pc := .idle
    answer := some (.message (.ring offset) nbytes)}

/-- The message in the buffer is complete. -/
def copied (r : Receiver) : Receiver :=
  {r with
    h := {r.h with lengthWordComplete := false, partialBytes := 0}
    pc := .idle
    answer := some (.message .buffer r.h.expectedBytes)}

end Receiver

/-- The size of the new buffer, unless the loop never ends: after 64 rounds the size is 0. -/
def doubled (nbytes : Nat) : Nat → Nat → Option Nat
  | 0, _ => none
  | fuel + 1, newbuflen => if newbuflen < nbytes then doubled nbytes fuel (u64 (newbuflen * 2)) else some newbuflen

/-- Room for the message; `fresh` is what the allocated memory holds. -/
def Receiver.allocate (r : Receiver) (fresh : Mem) (rb offset : Nat) : Receiver :=
  match doubled r.h.expectedBytes 65 (max r.h.buflen initialBufsize) with
  | none => r
  | some newbuflen =>
    if maxAllocSize < newbuflen then
      {r with h := {r.h with buflen := 0}, pc := .idle, answer := some .error}
    else {r with h := {r.h with buffer := fresh, buflen := newbuflen}, pc := .copy rb offset}

/-! ### The system -/

/-- `sent` holds the messages passed to `shm_mq_sendv`, `completed` counts the calls that returned
success, and `received` holds the messages returned by `shm_mq_receive`. -/
structure Sys where
  mq : Mq
  snd : Sender
  rcv : Receiver
  sent : List Msg
  completed : Nat
  received : List Msg

/-- Step of a call; `sees` says whether the end of a background worker is noticed. -/
inductive Act
  | setSender
  | setReceiver
  | send (iov : List Msg) (nowait : Bool)
  | sender (sees : Bool)
  | senderDetach
  | senderExit
  | receive (nowait : Bool)
  | receiver (sees : Bool) (fresh : Mem)
  | receiverDetach
  | receiverExit

def SendPc.isDead : SendPc → Bool
  | .dead => true
  | _ => false

def RecvPc.isDead : RecvPc → Bool
  | .dead => true
  | _ => false

namespace Sys

def create (ring : Mem) (size : Nat) (sendWorker receiveWorker : Bool) : Sys where
  mq := Mq.create ring size
  snd := ⟨Handle.attach sendWorker, [], false, none, .idle⟩
  rcv := ⟨Handle.attach receiveWorker, false, none, .idle⟩
  sent := []
  completed := 0
  received := []

def setSnd (s : Sys) (t : Sender) : Sys := {s with snd := t}

def setRcv (s : Sys) (r : Receiver) : Sys := {s with rcv := r}

/-- The bytes of a result. -/
def read (s : Sys) (nbytes : Nat) : Loc → Msg
  | .ring offset => bytes s.mq.ring offset nbytes
  | .buffer => bytes s.rcv.h.buffer 0 nbytes

/-- A message is returned. -/
def deliver (s : Sys) (r : Receiver) (loc : Loc) (nbytes : Nat) : Sys :=
  {s with rcv := r, received := s.received ++ [s.read nbytes loc]}

/-- The mutex is taken to compare the counters. -/
def sendTop (s : Sys) (c : Call) : Sys :=
  if c.data.length ≤ c.sent then s.setSnd (s.snd.ret c .success)
  else
    let available := min (s.mq.ringSize - s.mq.used) (c.data.length - c.sent)
    if s.mq.detached = true then s.setSnd (s.snd.ret c .detached)
    else if available = 0 ∧ s.snd.h.counterpartyAttached = false then
      s.setSnd (s.snd.goto (if s.snd.nowait = true then .gone else .waitInternal) c)
    else if available = 0 then s.setSnd (s.snd.goto .full c)
    else s.setSnd (s.snd.goto (.copy (min available (s.mq.ringSize - s.mq.bytesWritten % s.mq.ringSize))) c)

/-- The receiver is known to have attached; the queue is looked at again. -/
def sendAttached (s : Sys) (c : Call) : Sys :=
  s.setSnd {s.snd with h := {s.snd.h with counterpartyAttached := true}, pc := .bytes .top c}

def sendBytes (s : Sys) (sees : Bool) (c : Call) : At → Sys
  | .top => s.sendTop c
  | .waitInternal =>
    if s.mq.detached = true then s.setSnd (s.snd.goto .mark c)
    else if s.mq.hasReceiver = true then s.sendAttached c
    else s.setSnd (s.snd.goto .waitStatus c)
  | .waitStatus =>
    if s.snd.h.worker = true ∧ sees = true ∧ s.rcv.pc.isDead = true then s.setSnd (s.snd.goto .mark c)
    else s.setSnd (s.snd.goto .waitInternal c)
  | .mark => {s with mq := {s.mq with detached := true}, snd := s.snd.ret c .detached}
  | .gone =>
    if s.mq.detached = true then s.setSnd (s.snd.ret c .detached) else s.setSnd (s.snd.goto .goneStatus c)
  | .goneStatus =>
    if s.snd.h.worker = true ∧ sees = true ∧ s.rcv.pc.isDead = true then s.setSnd (s.snd.goto .mark c)
    else s.setSnd (s.snd.goto .getReceiver c)
  | .getReceiver =>
    if s.mq.hasReceiver = true then s.sendAttached c else s.setSnd (s.snd.ret c .wouldBlock)
  | .full =>
    if s.mq.detached = true then s.setSnd (s.snd.ret c .detached)
    else if s.snd.nowait = true then s.setSnd (s.snd.ret c .wouldBlock)
    else s.setSnd (s.snd.goto .top c)
  | .copy sendnow =>
    {s with
      mq := {s.mq with
        ring := memcpy s.mq.ring (s.mq.bytesWritten % s.mq.ringSize) ((c.data.drop c.sent).take sendnow)}
      snd := s.snd.goto (.inc sendnow) {c with sent := c.sent + sendnow}}
  | .inc sendnow =>
    {s with mq := s.mq.incBytesWritten (maxAlign sendnow), snd := s.snd.goto .top c}

def sendStep (s : Sys) (sees : Bool) : Option Sys :=
  match s.snd.pc with
  | .idle => none
  | .dead => none
  | .bytes pt c => some (s.sendBytes sees c pt)
  | .notify =>
    if s.mq.detached = true then some (s.setSnd {s.snd with pc := .idle, answer := some .detached})
    else some {s with snd := {s.snd with pc := .idle, answer := some .success}, completed := s.completed + 1}

/-- `shm_mq_receive_bytes` returns success: there is enough, or the data runs to the end of the ring. -/
def ready (s : Sys) (need : Need) : Prop :=
  s.rcv.needed need ≤ s.mq.used ∨ s.mq.ringSize ≤ s.mq.bytesRead % s.mq.ringSize + s.mq.used

instance (s : Sys) (need : Need) : Decidable (s.ready need) := instDecidableOr

/-- What `shm_mq_receive` does with the bytes that were found. -/
def found (s : Sys) (rb offset : Nat) : Need → Sys
  | .length =>
    if s.rcv.h.partialBytes = 0 ∧ 8 ≤ rb then s.setRcv (s.rcv.goto (.lengthRead rb offset))
    else s.setRcv (s.rcv.goto (.lengthSplit rb offset))
  | .whole =>
    let nbytes := s.rcv.h.expectedBytes
    if nbytes ≤ rb then s.deliver (s.rcv.zeroCopy (u64 (maxAlign nbytes)) nbytes offset) (.ring offset) nbytes
    else if s.rcv.h.buflen < nbytes then s.setRcv (s.rcv.goto (.alloc rb offset))
    else s.setRcv (s.rcv.goto (.copy rb offset))
  | .more => s.setRcv (s.rcv.goto (.copy (min rb (s.rcv.needed .more)) offset))

def receiveBytes (s : Sys) (need : Need) : Sys :=
  let offset := s.mq.bytesRead % s.mq.ringSize
  if s.ready need then s.found (min s.mq.used (s.mq.ringSize - offset)) offset need
  else if s.mq.detached = true then s.setRcv (s.rcv.ret .detached)
  else if s.rcv.nowait = true then s.setRcv (s.rcv.ret .wouldBlock)
  else s

/-- The length word is in the ring in one piece. -/
def lengthRead (s : Sys) (rb offset : Nat) : Sys :=
  let nbytes := loadSize s.mq.ring offset
  let needed := u64 (maxAlign 8 + maxAlign nbytes)
  if needed ≤ rb then s.deliver (s.rcv.zeroCopy needed nbytes (offset + 8)) (.ring (offset + 8)) nbytes
  else s.setRcv {s.rcv with
    h := {s.rcv.h with expectedBytes := nbytes, lengthWordComplete := true}
    pc := .lengthInc}

/-- Part of the length word is copied to the buffer, which may have to be allocated. -/
def lengthSplit (s : Sys) (fresh : Mem) (rb offset : Nat) : Sys :=
  let h := s.rcv.h
  let lengthbytes := if 8 < h.partialBytes + rb then 8 - h.partialBytes else rb
  let buffer := if h.buflen = 0 then fresh else h.buffer
  s.setRcv {s.rcv with
    h := {h with
      buffer := memcpy buffer h.partialBytes (bytes s.mq.ring offset lengthbytes)
      buflen := if h.buflen = 0 then initialBufsize else h.buflen
      partialBytes := h.partialBytes + lengthbytes}
    pc := .splitInc lengthbytes}

def splitInc (s : Sys) (lengthbytes : Nat) : Sys :=
  let h := s.rcv.h
  let r :=
    if 8 ≤ h.partialBytes then
      {s.rcv with
        h := {h with expectedBytes := loadSize h.buffer 0, lengthWordComplete := true, partialBytes := 0}}
    else s.rcv
  {s with mq := s.mq.incBytesRead (maxAlign lengthbytes), rcv := r.begin}

def copy (s : Sys) (rb offset : Nat) : Sys :=
  let h := s.rcv.h
  s.setRcv {s.rcv with
    h := {h with
      buffer := memcpy h.buffer h.partialBytes (bytes s.mq.ring offset rb)
      partialBytes := h.partialBytes + rb}
    pc := .inc rb}

def copyInc (s : Sys) (rb : Nat) : Sys :=
  let t := {s with mq := s.mq.incBytesRead (maxAlign rb)}
  if s.rcv.h.expectedBytes ≤ s.rcv.h.partialBytes then t.deliver s.rcv.copied .buffer s.rcv.h.expectedBytes
  else t.setRcv (s.rcv.goto (.bytes .more))

/-- The data of the last zero-copy result is released. -/
def consume (s : Sys) : Sys :=
  let r := {s.rcv with h := {s.rcv.h with consumePending := 0}}
  {s with
    mq := if 0 < s.rcv.h.consumePending then s.mq.incBytesRead s.rcv.h.consumePending else s.mq
    rcv := r.begin}

def receiveStep (s : Sys) (sees : Bool) (fresh : Mem) : Option Sys :=
  let stopped := s.rcv.h.worker = true ∧ sees = true ∧ s.snd.pc.isDead = true
  match s.rcv.pc with
  | .idle => none
  | .dead => none
  | .waitInternal =>
    if s.mq.detached = true then some (s.setRcv (s.rcv.goto .failGet))
    else if s.mq.hasSender = true then some (s.setRcv s.rcv.attached)
    else some (s.setRcv (s.rcv.goto .waitStatus))
  | .waitStatus => some (s.setRcv (s.rcv.goto (if stopped then .failGet else .waitInternal)))
  | .failGet => some (s.setRcv (if s.mq.hasSender = true then s.rcv.attached else s.rcv.goto .failMark))
  | .failMark => some {s with mq := {s.mq with detached := true}, rcv := s.rcv.ret .detached}
  | .gone => some (s.setRcv (s.rcv.goto (if s.mq.detached = true then .getSender true else .goneStatus)))
  | .goneStatus => some (s.setRcv (s.rcv.goto (if stopped then .goneMark else .getSender false)))
  | .goneMark => some {s with mq := {s.mq with detached := true}, rcv := s.rcv.goto (.getSender true)}
  | .getSender counterpartyGone =>
    if s.mq.hasSender = true then some (s.setRcv s.rcv.attached)
    else some (s.setRcv (s.rcv.ret (if counterpartyGone = true then .detached else .wouldBlock)))
  | .consume => some s.consume
  | .bytes need => some (s.receiveBytes need)
  | .lengthRead rb offset => some (s.lengthRead rb offset)
  | .lengthInc => some {s with mq := s.mq.incBytesRead (maxAlign 8), rcv := s.rcv.begin}
  | .lengthSplit rb offset => some (s.lengthSplit fresh rb offset)
  | .splitInc lengthbytes => some (s.splitInc lengthbytes)
  | .alloc rb offset => some (s.setRcv (s.rcv.allocate fresh rb offset))
  | .copy rb offset => some (s.copy rb offset)
  | .inc rb => some (s.copyInc rb)

/-- `shm_mq_sendv`. After `SHM_MQ_WOULD_BLOCK` it is called with the same vector, which is not empty. -/
def send (s : Sys) (iov : List Msg) (nowait : Bool) : Option Sys :=
  match s.snd.pc with
  | .idle =>
    if s.mq.hasSender = true ∧ iov ≠ [] then
      if s.snd.answer = some .wouldBlock then
        if iov = s.snd.iov then some (s.setSnd {s.snd with nowait := nowait}.begin) else none
      else some {s with snd := {s.snd with iov := iov, nowait := nowait}.begin, sent := s.sent ++ [iov.flatten]}
    else none
  | _ => none

/-- `shm_mq_receive` -/
def receive (s : Sys) (nowait : Bool) : Option Sys :=
  match s.rcv.pc with
  | .idle =>
    if s.mq.hasReceiver = true then
      some (s.setRcv {s.rcv with
        nowait := nowait
        pc := if s.rcv.h.counterpartyAttached = true then .consume else if nowait = true then .gone else .waitInternal})
    else none
  | _ => none

def next (s : Sys) : Act → Option Sys
  | .setSender => if s.mq.hasSender = true then none else some {s with mq := {s.mq with hasSender := true}}
  | .setReceiver => if s.mq.hasReceiver = true then none else some {s with mq := {s.mq with hasReceiver := true}}
  | .send iov nowait => s.send iov nowait
  | .sender sees => s.sendStep sees
  | .senderDetach =>
    if s.mq.hasSender = true ∧ s.snd.pc.isDead = false then
      some {s with mq := {s.mq with detached := true}, snd := {s.snd with pc := .dead}}
    else none
  | .senderExit => some (s.setSnd {s.snd with pc := .dead})
  | .receive nowait => s.receive nowait
  | .receiver sees fresh => s.receiveStep sees fresh
  | .receiverDetach =>
    if s.mq.hasReceiver = true ∧ s.rcv.pc.isDead = false then
      some {s with mq := {s.mq with detached := true}, rcv := {s.rcv with pc := .dead}}
    else none
  | .receiverExit => some (s.setRcv {s.rcv with pc := .dead})

end Sys
end PgStorage.ShmMq
