import Mathlib

/-! Tables of contents of shared memory segments.

Entries grow from the front of the segment and chunks from its end. Sizes and addresses are natural numbers below
`2 ^ 64`, and every operation of the source on them wraps. -/
namespace PgStorage.ShmToc
open List
open Prod (snd fst)

/-- `BUFFERALIGN`; the sum wraps. -/
def bufferalign (len : Nat) : Nat := (len + 31) % 2 ^ 64 / 32 * 32

/-- `offsetof(shm_toc, toc_entry)` -/
def headerSize : Nat := 40

/-- `sizeof(shm_toc_entry)` -/
def entrySize : Nat := 16

def pgUint32Max : Nat := 2 ^ 32 - 1

structure ShmTocEntry where
  key : Nat
  offset : Nat

structure ShmToc where
  tocTotalBytes : Nat
  tocAllocatedBytes : Nat
  tocEntry : List ShmTocEntry

def ShmToc.tocNentry (toc : ShmToc) : Nat := toc.tocEntry.length

def shmTocCreate (nbytes : Nat) : ShmToc := ⟨nbytes, 0, []⟩

/-- `toc_bytes`, with the chunks. -/
def ShmToc.tocBytes (toc : ShmToc) : Nat := (headerSize + toc.tocNentry * entrySize + toc.tocAllocatedBytes) % 2 ^ 64

/-- The address of the chunk, with the table at `address`. -/
def shmTocAllocate (address : Nat) (toc : ShmToc) (nbytes : Nat) : Except String Nat × ShmToc :=
  let nbytes := bufferalign nbytes
  let bytes := (toc.tocBytes + nbytes) % 2 ^ 64
  if toc.tocTotalBytes < bytes ∨ bytes < toc.tocBytes then (.error "out of shared memory", toc)
  else
    (.ok ((address + (toc.tocTotalBytes + 2 ^ 64 - toc.tocAllocatedBytes + 2 ^ 64 - nbytes) % 2 ^ 64) % 2 ^ 64),
      { toc with tocAllocatedBytes := (toc.tocAllocatedBytes + nbytes) % 2 ^ 64 })

def shmTocFreespace (toc : ShmToc) : Nat :=
  let tocBytes := (headerSize + toc.tocNentry * entrySize) % 2 ^ 64
  (toc.tocTotalBytes + 2 ^ 64 - (toc.tocAllocatedBytes + bufferalign tocBytes) % 2 ^ 64) % 2 ^ 64

def shmTocInsert (address : Nat) (toc : ShmToc) (key pointer : Nat) : Except String Unit × ShmToc :=
  let offset := (pointer + 2 ^ 64 - address) % 2 ^ 64
  let bytes := (toc.tocBytes + entrySize) % 2 ^ 64
  if toc.tocTotalBytes < bytes ∨ bytes < toc.tocBytes ∨ pgUint32Max ≤ toc.tocNentry then
    (.error "out of shared memory", toc)
  else (.ok (), { toc with tocEntry := toc.tocEntry ++ [⟨key, offset⟩] })

/-- A null pointer is `none`. -/
def shmTocLookup (address : Nat) (toc : ShmToc) (key : Nat) (noError : Bool) : Except String (Option Nat) :=
  match toc.tocEntry.find? (·.key = key) with
  | some entry => .ok (some ((address + entry.offset) % 2 ^ 64))
  | none => if noError then .ok none else .error "could not find key in shm TOC"

def addSize (s1 s2 : Nat) : Except String Nat :=
  let result := (s1 + s2) % 2 ^ 64
  if result < s1 ∨ result < s2 then .error "requested shared memory size overflows size_t" else .ok result

def mulSize (s1 s2 : Nat) : Except String Nat :=
  if s1 = 0 ∨ s2 = 0 then .ok 0
  else
    let result := s1 * s2 % 2 ^ 64
    if result / s2 ≠ s1 then .error "requested shared memory size overflows size_t" else .ok result

structure ShmTocEstimator where
  spaceForChunks : Nat
  numberOfKeys : Nat

def shmTocInitializeEstimator : ShmTocEstimator := ⟨0, 0⟩

def shmTocEstimateChunk (e : ShmTocEstimator) (sz : Nat) : Except String ShmTocEstimator :=
  (addSize e.spaceForChunks (bufferalign sz)).map fun space => { e with spaceForChunks := space }

def shmTocEstimateKeys (e : ShmTocEstimator) (cnt : Nat) : Except String ShmTocEstimator :=
  (addSize e.numberOfKeys cnt).map fun number => { e with numberOfKeys := number }

def shmTocEstimate (e : ShmTocEstimator) : Except String Nat := do
  let keys ← mulSize e.numberOfKeys entrySize
  let space ← addSize keys e.spaceForChunks
  addSize headerSize space

/-- The estimate for some keys and chunks. -/
def estimateFor (keys : Nat) (chunks : List Nat) : Except String Nat := do
  let e ← shmTocEstimateKeys shmTocInitializeEstimator keys
  let e ← chunks.foldlM shmTocEstimateChunk e
  shmTocEstimate e

inductive Command where
  | allocate (nbytes : Nat)
  | insert (key pointer : Nat)
  | freespace
  | lookup (key : Nat) (noError : Bool)

/-- What is called. -/
def ShmToc.call (address : Nat) (toc : ShmToc) : Command → Except String (Option Nat) × ShmToc
  | .allocate nbytes =>
    let (result, toc) := shmTocAllocate address toc nbytes
    (result.map some, toc)
  | .insert key pointer =>
    let (result, toc) := shmTocInsert address toc key pointer
    (result.map fun _ => none, toc)
  | .freespace => (.ok (some (shmTocFreespace toc)), toc)
  | .lookup key noError => (shmTocLookup address toc key noError, toc)

structure Chunk where
  start : Nat
  /-- The size that was asked for. -/
  nbytes : Nat

/-- With what was handed out, and the keys with their addresses in the order of their insertion. -/
structure Segment where
  toc : ShmToc
  chunks : List Chunk
  inserted : List (Nat × Nat)

def Segment.step (address : Nat) (s : Segment) (c : Command) : Segment :=
  let (result, toc) := s.toc.call address c
  match c, result with
  | .allocate nbytes, .ok (some start) => { s with toc := toc, chunks := ⟨start, nbytes⟩ :: s.chunks }
  | .insert key pointer, .ok _ => { s with toc := toc, inserted := s.inserted ++ [(key, pointer)] }
  | _, _ => { s with toc := toc }

def Segment.run (address nbytes : Nat) (cmds : List Command) : Segment :=
  cmds.foldl (·.step address) ⟨shmTocCreate nbytes, [], []⟩

/-- Arguments are values of their types, and a pointer is one into the address space. -/
def Command.Valid : Command → Prop
  | .allocate nbytes => nbytes < 2 ^ 64
  | .insert key pointer => key < 2 ^ 64 ∧ pointer < 2 ^ 64
  | .freespace => True
  | .lookup key _ => key < 2 ^ 64

/-- The request is not lost when it is aligned. -/
def Command.Alignable : Command → Prop
  | .allocate nbytes => nbytes ≤ 2 ^ 64 - 32
  | _ => True

def Chunk.Apart (c d : Chunk) : Prop := c.start + c.nbytes ≤ d.start ∨ d.start + d.nbytes ≤ c.start

/-- What the table promises. -/
structure Segment.Sound (address : Nat) (s : Segment) : Prop where
  apart : s.chunks.Pairwise Chunk.Apart
  inside : ∀ c ∈ s.chunks, address + headerSize + s.toc.tocNentry * entrySize ≤ c.start ∧
    c.start + c.nbytes ≤ address + s.toc.tocTotalBytes
  aligned : ∀ c ∈ s.chunks, c.start % 32 = 0
  freespace : shmTocFreespace s.toc + s.toc.tocAllocatedBytes + bufferalign (headerSize + s.toc.tocNentry * entrySize) =
    s.toc.tocTotalBytes
  allocatable : ∃ start toc, shmTocAllocate address s.toc (shmTocFreespace s.toc) = (.ok start, toc)
  lookup : ∀ key noError, shmTocLookup address s.toc key noError =
    match s.inserted.find? (·.1 = key) with
    | some (_, pointer) => .ok (some pointer)
    | none => if noError then .ok none else .error "could not find key in shm TOC"
  failure : ∀ c e toc, s.toc.call address c = (.error e, toc) → toc = s.toc

variable {address nbytes : Nat} {toc toc' : ShmToc} {s : Segment} {c : Command}

/-- Both ends fit, and what is handed out is a multiple of the alignment. -/
structure ShmToc.Fits (toc : ShmToc) : Prop where
  room : headerSize + toc.tocNentry * entrySize + toc.tocAllocatedBytes ≤ toc.tocTotalBytes
  size : toc.tocTotalBytes < 2 ^ 64
  aligned : toc.tocAllocatedBytes % 32 = 0

theorem ShmToc.Fits.tocBytes (h : toc.Fits) :
    toc.tocBytes = headerSize + toc.tocNentry * entrySize + toc.tocAllocatedBytes :=
  Nat.mod_eq_of_lt (lt_of_le_of_lt h.room h.size)

theorem bufferalign_le (len : Nat) : bufferalign len ≤ 2 ^ 64 - 32 := by
  unfold bufferalign
  omega

theorem bufferalign_mod (len : Nat) : bufferalign len % 32 = 0 := Nat.mul_mod_left ..

theorem bufferalign_spec {len : Nat} (h : len ≤ 2 ^ 64 - 32) :
    len ≤ bufferalign len ∧ bufferalign len < len + 32 := by
  unfold bufferalign
  omega

/-- It fails, or the chunk is right before those handed out. -/
theorem allocate_cases (h : toc.Fits) (hend : address + toc.tocTotalBytes < 2 ^ 64) (nbytes : Nat) :
    (toc.tocTotalBytes < headerSize + toc.tocNentry * entrySize + toc.tocAllocatedBytes + bufferalign nbytes ∧
      shmTocAllocate address toc nbytes = (.error "out of shared memory", toc)) ∨
    ∃ start, headerSize + toc.tocNentry * entrySize + toc.tocAllocatedBytes + bufferalign nbytes ≤ toc.tocTotalBytes ∧
      start + (toc.tocAllocatedBytes + bufferalign nbytes) = address + toc.tocTotalBytes ∧
      shmTocAllocate address toc nbytes =
        (.ok start, { toc with tocAllocatedBytes := toc.tocAllocatedBytes + bufferalign nbytes }) := by
  have hroom := h.room
  have hsize := h.size
  have hle := bufferalign_le nbytes
  unfold shmTocAllocate
  rw [h.tocBytes]
  dsimp only
  generalize bufferalign nbytes = n at *
  unfold headerSize at *
  split
  next hfull =>
    refine .inl ⟨?_, rfl⟩
    omega
  next hfits =>
    refine .inr ⟨address + (toc.tocTotalBytes - toc.tocAllocatedBytes - n), by omega, by omega, ?_⟩
    have hin : toc.tocAllocatedBytes + n ≤ toc.tocTotalBytes := by omega
    have hstart : (address + (toc.tocTotalBytes + 2 ^ 64 - toc.tocAllocatedBytes + 2 ^ 64 - n) % 2 ^ 64) % 2 ^ 64 =
        address + (toc.tocTotalBytes - toc.tocAllocatedBytes - n) := by omega
    rw [hstart, Nat.mod_eq_of_lt (by omega)]

theorem insert_cases (address : Nat) (h : toc.Fits) (key pointer : Nat) :
    ((toc.tocTotalBytes < headerSize + toc.tocNentry * entrySize + toc.tocAllocatedBytes + entrySize ∨
        pgUint32Max ≤ toc.tocNentry) ∧
      shmTocInsert address toc key pointer = (.error "out of shared memory", toc)) ∨
    headerSize + toc.tocNentry * entrySize + toc.tocAllocatedBytes + entrySize ≤ toc.tocTotalBytes ∧
      shmTocInsert address toc key pointer =
        (.ok (), { toc with tocEntry := toc.tocEntry ++ [⟨key, (pointer + 2 ^ 64 - address) % 2 ^ 64⟩] }) := by
  have hroom := h.room
  have hsize := h.size
  unfold shmTocInsert
  rw [h.tocBytes]
  dsimp only
  unfold headerSize entrySize at *
  split
  next hfull =>
    refine .inl ⟨?_, rfl⟩
    omega
  next hfits =>
    refine .inr ⟨?_, rfl⟩
    omega

theorem ShmToc.tocNentry_append (toc : ShmToc) (entry : ShmTocEntry) (total allocated : Nat) :
    ShmToc.tocNentry ⟨total, allocated, toc.tocEntry ++ [entry]⟩ = toc.tocNentry + 1 := length_append

/-! ### Invariant -/

/-- The invariant of all runs. -/
structure Segment.Kept (address : Nat) (s : Segment) : Prop where
  fits : s.toc.Fits
  segment : address + s.toc.tocTotalBytes < 2 ^ 64
  entries : s.toc.tocEntry = s.inserted.map fun x => ⟨x.1, (x.2 + 2 ^ 64 - address) % 2 ^ 64⟩
  pointers : ∀ x ∈ s.inserted, x.2 < 2 ^ 64
  apart : s.chunks.Pairwise Chunk.Apart
  inside : ∀ c ∈ s.chunks, address + s.toc.tocTotalBytes ≤ c.start + s.toc.tocAllocatedBytes ∧
    c.start + c.nbytes ≤ address + s.toc.tocTotalBytes
  aligned : ∀ c ∈ s.chunks, c.start % 32 = (address + s.toc.tocTotalBytes) % 32

theorem create_kept {address nbytes : Nat} (h : headerSize ≤ nbytes) (hend : address + nbytes < 2 ^ 64) :
    Segment.Kept address ⟨shmTocCreate nbytes, [], []⟩ :=
  ⟨⟨h, lt_of_le_of_lt (Nat.le_add_left ..) hend, rfl⟩, hend, rfl, nofun, .nil, nofun, nofun⟩

theorem step_allocate {start : Nat} (h : shmTocAllocate address s.toc nbytes = (.ok start, toc)) :
    s.step address (.allocate nbytes) = ⟨toc, ⟨start, nbytes⟩ :: s.chunks, s.inserted⟩ := by
  unfold Segment.step ShmToc.call
  dsimp only
  rw [h]
  rfl

theorem step_insert {key pointer : Nat} (h : shmTocInsert address s.toc key pointer = (.ok (), toc)) :
    s.step address (.insert key pointer) = ⟨toc, s.chunks, s.inserted ++ [(key, pointer)]⟩ := by
  unfold Segment.step ShmToc.call
  dsimp only
  rw [h]
  rfl

theorem step_failed {e : String} (h : s.toc.call address c = (.error e, toc)) :
    s.step address c = { s with toc := toc } := by
  unfold Segment.step
  rw [h]
  cases c <;> rfl

theorem step_kept (h : s.Kept address) (hvalid : c.Valid) (halign : c.Alignable) :
    (s.step address c).Kept address ∧ (s.step address c).toc.tocTotalBytes = s.toc.tocTotalBytes := by
  have hfits := h.fits
  cases c with
  | allocate nbytes =>
    rcases allocate_cases hfits h.segment nbytes with ⟨-, heq⟩ | ⟨start, hroom, hstart, heq⟩
    · have hcall : s.toc.call address (.allocate nbytes) = (.error "out of shared memory", s.toc) := by
        rw [ShmToc.call, heq]
        rfl
      rw [step_failed hcall]
      exact ⟨h, rfl⟩
    rw [step_allocate heq]
    dsimp only
    obtain ⟨hle, -⟩ := bufferalign_spec halign
    have hold := hfits.aligned
    have hnew := bufferalign_mod nbytes
    refine ⟨⟨⟨?_, hfits.size, ?_⟩, h.segment, h.entries, h.pointers, ?_, ?_, ?_⟩, rfl⟩
    · show headerSize + s.toc.tocNentry * entrySize + (s.toc.tocAllocatedBytes + bufferalign nbytes) ≤
        s.toc.tocTotalBytes
      omega
    · show (s.toc.tocAllocatedBytes + bufferalign nbytes) % 32 = 0
      omega
    · refine .cons (fun d hd => .inl ?_) h.apart
      have hd := (h.inside d hd).1
      show start + nbytes ≤ d.start
      omega
    · refine forall_mem_cons.mpr ⟨?_, fun d hd => ?_⟩
      · dsimp only
        omega
      · have hd := h.inside d hd
        dsimp only
        omega
    · refine forall_mem_cons.mpr ⟨?_, h.aligned⟩
      dsimp only
      omega
  | insert key pointer =>
    rcases insert_cases address hfits key pointer with ⟨-, heq⟩ | ⟨hroom, heq⟩
    · have hcall : s.toc.call address (.insert key pointer) = (.error "out of shared memory", s.toc) := by
        rw [ShmToc.call, heq]
        rfl
      rw [step_failed hcall]
      exact ⟨h, rfl⟩
    rw [step_insert heq]
    dsimp only
    refine ⟨⟨⟨?_, hfits.size, hfits.aligned⟩, h.segment, ?_, ?_, h.apart, h.inside, h.aligned⟩, rfl⟩
    · rw [ShmToc.tocNentry_append]
      dsimp only
      rw [Nat.succ_mul]
      omega
    · dsimp only
      rw [h.entries, map_append]
      rfl
    · intro x hx
      rcases mem_append.mp hx with hx | hx
      · exact h.pointers x hx
      · rw [mem_singleton.mp hx]
        exact hvalid.2
  | freespace | lookup key noError => exact ⟨h, rfl⟩

theorem run_kept (cmds : List Command) (h : s.Kept address) (hcmds : ∀ c ∈ cmds, c.Valid ∧ c.Alignable) :
    (cmds.foldl (·.step address) s).Kept address ∧
      (cmds.foldl (·.step address) s).toc.tocTotalBytes = s.toc.tocTotalBytes := by
  induction cmds generalizing s with
  | nil => exact ⟨h, rfl⟩
  | cons c cmds ih =>
    obtain ⟨hc, hrest⟩ := forall_mem_cons.mp hcmds
    obtain ⟨hstep, htotal⟩ := step_kept h hc.1 hc.2
    obtain ⟨hrun, htotal'⟩ := ih hstep hrest
    exact ⟨hrun, htotal'.trans htotal⟩

/-- Where the end of the segment is aligned, the space up to the aligned end of the entries is free. -/
theorem freespace_spec (h : toc.Fits) (htotal : toc.tocTotalBytes % 32 = 0) :
    shmTocFreespace toc + toc.tocAllocatedBytes + bufferalign (headerSize + toc.tocNentry * entrySize) =
        toc.tocTotalBytes ∧
      headerSize + toc.tocNentry * entrySize + toc.tocAllocatedBytes + bufferalign (shmTocFreespace toc) ≤
        toc.tocTotalBytes := by
  have hroom := h.room
  have hsize := h.size
  have haligned := h.aligned
  unfold shmTocFreespace bufferalign
  dsimp only
  unfold headerSize entrySize at *
  omega

theorem lookup_spec (h : s.Kept address) (key : Nat) (noError : Bool) :
    shmTocLookup address s.toc key noError =
      match s.inserted.find? (·.1 = key) with
      | some (_, pointer) => .ok (some pointer)
      | none => if noError then .ok none else .error "could not find key in shm TOC" := by
  have hsegment := h.segment
  unfold shmTocLookup
  rw [h.entries, find?_map]
  show (match (s.inserted.find? fun x => x.1 = key).map _ with
    | some entry => Except.ok (some ((address + ShmTocEntry.offset entry) % 2 ^ 64))
    | none => if noError then .ok none else .error "could not find key in shm TOC") = _
  cases hfind : s.inserted.find? (·.1 = key) with
  | none => rfl
  | some x =>
    have hpointer := h.pointers x (mem_of_find?_eq_some hfind)
    show Except.ok (some ((address + (x.2 + 2 ^ 64 - address) % 2 ^ 64) % 2 ^ 64)) = Except.ok (some x.2)
    congr 2
    omega

theorem call_failure (h : toc.Fits) (hend : address + toc.tocTotalBytes < 2 ^ 64) {e : String}
    (hcall : toc.call address c = (.error e, toc')) : toc' = toc := by
  unfold ShmToc.call at hcall
  cases c with
  | allocate nbytes =>
    dsimp only at hcall
    rcases allocate_cases h hend nbytes with ⟨-, heq⟩ | ⟨start, -, -, heq⟩
    · rw [heq] at hcall
      exact (congrArg snd hcall).symm
    · rw [heq] at hcall
      exact nomatch congrArg fst hcall
  | insert key pointer =>
    dsimp only at hcall
    rcases insert_cases address h key pointer with ⟨-, heq⟩ | ⟨-, heq⟩
    · rw [heq] at hcall
      exact (congrArg snd hcall).symm
    · rw [heq] at hcall
      exact nomatch congrArg fst hcall
  | freespace => exact nomatch congrArg fst hcall
  | lookup key noError => exact (congrArg snd hcall).symm

theorem Segment.Kept.sound (h : s.Kept address) (haddress : address % 32 = 0) (htotal : s.toc.tocTotalBytes % 32 = 0) :
    s.Sound address := by
  have hfits := h.fits
  have hroom := hfits.room
  obtain ⟨hfree, hallocate⟩ := freespace_spec hfits htotal
  refine ⟨h.apart, fun c hc => ?_, fun c hc => ?_, hfree, ?_, lookup_spec h,
    fun c e toc hcall => call_failure hfits h.segment hcall⟩
  · have hin := h.inside c hc
    omega
  · have hmod := h.aligned c hc
    omega
  · rcases allocate_cases hfits h.segment (shmTocFreespace s.toc) with ⟨hfull, -⟩ | ⟨start, -, -, heq⟩
    · omega
    · exact ⟨start, _, heq⟩

/-! ### Estimated segments -/

def Command.IsInsert : Command → Bool
  | .insert _ _ => true
  | _ => false

def Command.request : Command → Option Nat
  | .allocate nbytes => some nbytes
  | _ => none

/-- All insertions and allocations succeed. -/
def Accepts (address : Nat) : ShmToc → List Command → Prop
  | _, [] => True
  | toc, c :: cmds =>
    ((c.IsInsert ∨ c.request.isSome) → ∃ result, (toc.call address c).1 = .ok result) ∧
      Accepts address (toc.call address c).2 cmds

theorem addSize_ok {m n r : Nat} (h : addSize m n = .ok r) (hn : n < 2 ^ 64) : r = m + n ∧ r < 2 ^ 64 := by
  unfold addSize at h
  dsimp only at h
  split_ifs at h with hover
  obtain rfl := Except.ok.inj h
  omega

theorem mulSize_ok {m r : Nat} (h : mulSize m entrySize = .ok r) : r = m * entrySize ∧ r < 2 ^ 64 := by
  unfold mulSize at h
  split at h
  next hzero =>
    obtain rfl := Except.ok.inj h
    unfold entrySize at *
    omega
  next hpos =>
    dsimp only at h
    split at h
    · exact nomatch h
    · obtain rfl := Except.ok.inj h
      unfold entrySize at *
      omega

theorem estimateChunks_ok (chunks : List Nat) {e e' : ShmTocEstimator}
    (h : chunks.foldlM shmTocEstimateChunk e = .ok e') (he : e.spaceForChunks < 2 ^ 64) :
    e'.numberOfKeys = e.numberOfKeys ∧ e'.spaceForChunks = e.spaceForChunks + (chunks.map bufferalign).sum ∧
      e'.spaceForChunks < 2 ^ 64 := by
  induction chunks generalizing e with
  | nil =>
    obtain rfl := Except.ok.inj h
    exact ⟨rfl, rfl, he⟩
  | cons sz chunks ih =>
    rw [foldlM_cons] at h
    unfold shmTocEstimateChunk at h
    cases hadd : addSize e.spaceForChunks (bufferalign sz) with
    | error err =>
      rw [hadd] at h
      exact nomatch h
    | ok space =>
      rw [hadd] at h
      obtain ⟨hspace, hlt⟩ := addSize_ok hadd (lt_of_le_of_lt (bufferalign_le sz) (by decide))
      obtain ⟨hkeys, hsum, hlt'⟩ := ih (e := { e with spaceForChunks := space }) h hlt
      refine ⟨hkeys, ?_, hlt'⟩
      rw [hsum, hspace, map_cons, sum_cons, add_assoc]

theorem estimateFor_ok {keys total : Nat} {chunks : List Nat} (h : estimateFor keys chunks = .ok total)
    (hkeys : keys < 2 ^ 64) :
    total = headerSize + keys * entrySize + (chunks.map bufferalign).sum ∧ total < 2 ^ 64 := by
  unfold estimateFor shmTocEstimateKeys shmTocInitializeEstimator at h
  cases hadd : addSize 0 keys with
  | error err =>
    rw [hadd] at h
    exact nomatch h
  | ok number =>
    rw [hadd] at h
    obtain ⟨hnumber, -⟩ := addSize_ok hadd hkeys
    change (chunks.foldlM shmTocEstimateChunk ⟨0, number⟩).bind shmTocEstimate = _ at h
    cases hfold : chunks.foldlM shmTocEstimateChunk ⟨0, number⟩ with
    | error err =>
      rw [hfold] at h
      exact nomatch h
    | ok e =>
      obtain ⟨hsame, hsum, hlt⟩ := estimateChunks_ok chunks hfold (show 0 < 2 ^ 64 by decide)
      rw [hfold] at h
      change shmTocEstimate e = _ at h
      unfold shmTocEstimate at h
      cases hmul : mulSize e.numberOfKeys entrySize with
      | error err =>
        rw [hmul] at h
        exact nomatch h
      | ok entries =>
        rw [hmul] at h
        change (addSize entries e.spaceForChunks).bind (addSize headerSize) = _ at h
        cases hspace : addSize entries e.spaceForChunks with
        | error err =>
          rw [hspace] at h
          exact nomatch h
        | ok space =>
          rw [hspace] at h
          obtain ⟨hentries, -⟩ := mulSize_ok hmul
          obtain ⟨hboth, hlt'⟩ := addSize_ok hspace hlt
          obtain ⟨htotal, hlt''⟩ := addSize_ok (m := headerSize) h hlt'
          refine ⟨?_, hlt''⟩
          dsimp only at hsame hsum
          rw [htotal, hboth, hentries, hsum, hsame, hnumber, zero_add]
          omega

/-- The bytes that a call takes. -/
def Command.growth : Command → Nat
  | .allocate nbytes => bufferalign nbytes
  | .insert _ _ => entrySize
  | _ => 0

theorem growth_sum (cmds : List Command) :
    (cmds.map Command.growth).sum =
      cmds.countP Command.IsInsert * entrySize + ((cmds.filterMap Command.request).map bufferalign).sum := by
  induction cmds with
  | nil => rfl
  | cons c cmds ih =>
    rw [map_cons, sum_cons, ih]
    cases c with
    | allocate nbytes =>
      show bufferalign nbytes + _ = _ + (bufferalign nbytes + _)
      rw [countP_cons_of_neg (by simp [Command.IsInsert])]
      exact Nat.add_left_comm ..
    | insert key pointer =>
      rw [countP_cons_of_pos (by rfl), Nat.succ_mul]
      show entrySize + _ = _
      rw [filterMap_cons_none (by rfl)]
      omega
    | freespace | lookup key noError =>
      rw [countP_cons_of_neg (by simp [Command.IsInsert]), filterMap_cons_none (by rfl)]
      exact zero_add _

/-- While there is room for what is still to come. -/
theorem accepts_of_room (cmds : List Command) (h : toc.Fits) (hend : address + toc.tocTotalBytes < 2 ^ 64)
    (hroom : headerSize + toc.tocNentry * entrySize + toc.tocAllocatedBytes + (cmds.map Command.growth).sum ≤
      toc.tocTotalBytes)
    (hentries : toc.tocNentry + cmds.countP Command.IsInsert ≤ pgUint32Max) : Accepts address toc cmds := by
  induction cmds generalizing toc with
  | nil => trivial
  | cons c cmds ih =>
    rw [map_cons, sum_cons] at hroom
    cases c with
    | allocate nbytes =>
      change _ + (bufferalign nbytes + _) ≤ _ at hroom
      rw [countP_cons_of_neg (by simp [Command.IsInsert])] at hentries
      rcases allocate_cases h hend nbytes with ⟨hfull, -⟩ | ⟨start, hfits, -, heq⟩
      · omega
      have hcall : toc.call address (.allocate nbytes) =
          (.ok (some start), { toc with tocAllocatedBytes := toc.tocAllocatedBytes + bufferalign nbytes }) := by
        rw [ShmToc.call, heq]
        rfl
      have hmod := bufferalign_mod nbytes
      have hold := h.aligned
      unfold Accepts
      rw [hcall]
      refine ⟨fun _ => ⟨_, rfl⟩, ih ⟨?_, h.size, ?_⟩ hend ?_ hentries⟩
      · show headerSize + toc.tocNentry * entrySize + (toc.tocAllocatedBytes + bufferalign nbytes) ≤ toc.tocTotalBytes
        omega
      · show (toc.tocAllocatedBytes + bufferalign nbytes) % 32 = 0
        omega
      · show headerSize + toc.tocNentry * entrySize + (toc.tocAllocatedBytes + bufferalign nbytes) + _ ≤
          toc.tocTotalBytes
        omega
    | insert key pointer =>
      change _ + (entrySize + _) ≤ _ at hroom
      rw [countP_cons_of_pos (by rfl)] at hentries
      rcases insert_cases address h key pointer with ⟨hfull, -⟩ | ⟨hfits, heq⟩
      · omega
      have hcall : toc.call address (.insert key pointer) =
          (.ok none, { toc with tocEntry := toc.tocEntry ++ [⟨key, (pointer + 2 ^ 64 - address) % 2 ^ 64⟩] }) := by
        rw [ShmToc.call, heq]
        rfl
      unfold Accepts
      rw [hcall]
      refine ⟨fun _ => ⟨_, rfl⟩, ih ⟨?_, h.size, h.aligned⟩ hend ?_ ?_⟩
      · rw [ShmToc.tocNentry_append, Nat.succ_mul]
        dsimp only
        omega
      · rw [ShmToc.tocNentry_append, Nat.succ_mul]
        dsimp only
        omega
      · rw [ShmToc.tocNentry_append]
        omega
    | freespace | lookup key noError =>
      exact ⟨fun hno => absurd hno (by simp [Command.IsInsert, Command.request]), ih h hend
        (zero_add (cmds.map Command.growth).sum ▸ hroom) hentries⟩

/-- **The table keeps its promises where the segment's size is aligned** and no request is so large that aligning it
wraps; an estimated segment takes what it was estimated for. -/
theorem shm_toc_keeps (address nbytes : Nat) (cmds : List Command) (haddress : address % 32 = 0)
    (hend : address + nbytes < 2 ^ 64) (hvalid : ∀ c ∈ cmds, c.Valid) :
    (headerSize < nbytes → nbytes % 32 = 0 → (∀ c ∈ cmds, c.Alignable) →
      (Segment.run address nbytes cmds).Sound address) ∧
      ∀ keys chunks, estimateFor keys chunks = .ok nbytes → keys < 2 ^ 32 →
        cmds.countP Command.IsInsert = keys → (cmds.filterMap Command.request).Perm chunks →
        Accepts address (shmTocCreate nbytes) cmds := by
  constructor
  · intro hsize htotal halign
    obtain ⟨hkept, hsame⟩ := run_kept cmds (create_kept (le_of_lt hsize) hend) fun c hc =>
      ⟨hvalid c hc, halign c hc⟩
    refine hkept.sound haddress ?_
    rw [hsame]
    exact htotal
  · intro keys chunks hestimate hkeys hcount hperm
    obtain ⟨htotal, hlt⟩ := estimateFor_ok hestimate (by omega)
    have hsum := growth_sum cmds
    rw [hcount, (hperm.map bufferalign).sum_eq] at hsum
    have hfits := (create_kept (show headerSize ≤ nbytes by omega) hend).fits
    refine accepts_of_room cmds hfits hend ?_ ?_
    · show headerSize + 0 * entrySize + 0 + _ ≤ nbytes
      omega
    · show 0 + _ ≤ 2 ^ 32 - 1
      omega

theorem shm_toc_keeps_run :
    (Segment.run 4096 128 [.allocate 33, .insert 7 4160, .freespace, .lookup 7 true, .allocate 8]).Sound 4096 ∧
      Accepts 4096 (shmTocCreate 88) [.allocate 8, .insert 7 4144] := by
  have hvalid : ∀ c ∈ [Command.allocate 33, .insert 7 4160, .freespace, .lookup 7 true, .allocate 8],
      c.Valid ∧ c.Alignable := by
    simp [Command.Valid, Command.Alignable]
  have hvalid' : ∀ c ∈ [Command.allocate 8, .insert 7 4144], c.Valid := by simp [Command.Valid]
  exact ⟨(shm_toc_keeps 4096 128 _ (by decide) (by decide) fun c hc => (hvalid c hc).1).1 (by decide) (by decide)
      fun c hc => (hvalid c hc).2,
    (shm_toc_keeps 4096 88 _ (by decide) (by decide) hvalid').2 1 [8] (by decide) (by decide) (by decide) (by decide)⟩

/-- A segment that is not aligned at its end: neither is the chunk, and the free space is below zero. -/
theorem shm_toc_fails :
    ∃ s, s = Segment.run 4096 72 [.allocate 32] ∧ (∃ c ∈ s.chunks, c.start % 32 = 8) ∧
      shmTocFreespace s.toc = 2 ^ 64 - 24 ∧ ¬s.Sound 4096 := by
  refine ⟨_, rfl, ⟨⟨4136, 32⟩, ?_, by decide⟩, by decide, fun h => ?_⟩
  · exact mem_singleton.mpr rfl
  · exact absurd h.freespace (by decide)

end PgStorage.ShmToc
