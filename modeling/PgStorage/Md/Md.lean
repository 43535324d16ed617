import PgStorage.Fd.Refine

/-! The magnetic disk storage manager.

A relation is stored in segments of `RELSEG_SIZE` blocks, each in a file of its own. `Md_fdvec`
has a slot for every relation that is open, with the chain of its open segments. The routines
are written against the interface of `fd.c` they use (`FileLayer`), so that they run over the
virtual files as they are and over files that are always open. A call that raises an error does
not return. -/
namespace PgStorage.Md
open Fd

def blcksz : Nat := 8192

/-- 2^31 / 8192 blocks, for a file of 2 GB. -/
def relsegSize : Nat := 262144

/-- What `md.c` uses of `fd.c`: calls on a virtual file, `FileNameOpenFile` on a path, with
`O_CREAT` or without, and `FileClose`. -/
structure FileLayer (S P B : Type) where
  call : S → Nat → FileOp B → Option (S × Int × List B)
  «open» : S → P → Bool → Option (S × Option Nat)
  close : S → Nat → Option S

/-- `MdfdVec`, without the chain. -/
structure MdfdVec where
  vfd : Nat
  dirty : Bool
  lstbcnt : Int

/-- `Md_fdvec` up to `CurFd`, each slot with its chain. -/
structure MdState (S : Type) where
  files : S
  fdvec : List (List MdfdVec)

section Routines
variable {S N B : Type} (L : FileLayer S (N × Nat) B)

/-- `_mdnblocks`. -/
def countSegment (s : S) (vfd : Nat) : Option (S × Int) :=
  (L.call s vfd (.seek 0 .end)).map fun (s, pos, _) => (s, if pos - 1 < 0 then 0 else 1 + (pos - 1) / blcksz)

/-- `_mdfd_openseg`; a relation's files are named after it and the number of the segment. -/
def mdfdOpenseg (s : S) (name : N) (segno : Nat) (create : Bool) : Option (S × Option MdfdVec) :=
  (L.open s (name, segno) create).bind fun
    | (s, none) => some (s, none)
    | (s, some vfd) => (countSegment L s vfd).map fun (s, n) => (s, some ⟨vfd, false, n⟩)

/-- The next segment is opened; an error is raised if that fails. -/
def openNext (s : S) (name : N) (segno : Nat) (create : Bool) : Option (S × MdfdVec) :=
  (mdfdOpenseg L s name segno create).bind fun
    | (_, none) => none
    | (s, some v) => some (s, v)

/-- The walk of `_mdfd_getseg` along a chain, with the number of the next segment; it gives the
chain with the segments it has opened. -/
def mdfdGetseg (name : N) (create : Bool) : Nat → S → Nat → List MdfdVec → Option (S × List MdfdVec)
  | segno + 1, s, i, v :: w :: chain =>
    (mdfdGetseg name create segno s (i + 1) (w :: chain)).map fun (s, chain) => (s, v :: chain)
  | segno + 1, s, i, [v] =>
    (openNext L s name i create).bind fun (s, w) =>
      (mdfdGetseg name create segno s (i + 1) [w]).map fun (s, chain) => (s, v :: chain)
  | _, s, _, chain => some (s, chain)

/-- Whether a segment is full, by the last count of its blocks or a new one; otherwise the number
of its blocks. -/
def segmentFull (s : S) (v : MdfdVec) : Option (S × Option Int) :=
  if v.lstbcnt = relsegSize then some (s, none)
  else (countSegment L s v.vfd).map fun (s, n) => (s, if n = relsegSize then none else some n)

/-- The loop of `mdnblocks` along a chain. -/
def countChain (name : N) : Nat → S → Nat → List MdfdVec → Option (S × List MdfdVec × Int)
  | 0, _, _, _ => none
  | _ + 1, _, _, [] => none
  | fuel + 1, s, segno, v :: chain =>
    (segmentFull L s v).bind fun
      | (s, some n) => some (s, v :: chain, cint (segno * relsegSize + n))
      | (s, none) =>
        let v := {v with lstbcnt := relsegSize}
        match chain with
        | [] =>
          (openNext L s name (segno + 1) true).bind fun (s, w) =>
            (countChain name fuel s (segno + 1) [w]).map fun (s, chain, n) => (s, v :: chain, n)
        | w :: chain =>
          (countChain name fuel s (segno + 1) (w :: chain)).map fun (s, chain, n) => (s, v :: chain, n)

/-- A segment that is opened has room, so the loop ends one segment after the chain. -/
def mdnblocks (m : MdState S) (name : N) (fd : Nat) : Option (MdState S × Int) :=
  m.fdvec[fd]?.bind fun chain =>
    (countChain L name (chain.length + 2) m.files 0 chain).map fun (s, chain, n) => (⟨s, m.fdvec.set fd chain⟩, n)

/-- The segment of a block number, which is passed as an `int`. -/
def segnoOf (blkno : Int) : Nat := ((cint blkno).tdiv relsegSize).toNat

/-- Gives `false` for `SM_FAIL`. -/
def mdextend (m : MdState S) (name : N) (fd : Nat) (buffer : List B) : Option (MdState S × Bool) :=
  (mdnblocks L m name fd).bind fun (m, nblocks) =>
  m.fdvec[fd]?.bind fun chain =>
  (mdfdGetseg L name true (segnoOf nblocks) m.files 1 chain).bind fun (s, chain) =>
  chain[segnoOf nblocks]?.bind fun v =>
  (L.call s v.vfd (.seek 0 .end)).bind fun (s, pos, _) =>
    if pos < 0 then some (⟨s, m.fdvec.set fd chain⟩, false)
    else
      (L.call s v.vfd (.write buffer)).map fun (s, nbytes, _) =>
        if nbytes ≠ blcksz then (⟨s, m.fdvec.set fd chain⟩, false)
        else
          let n := (cint (nblocks + 1)).tmod relsegSize
          let v := {v with dirty := true, lstbcnt := if n = 0 then relsegSize else n}
          (⟨s, m.fdvec.set fd (chain.set (segnoOf nblocks) v)⟩, true)

/-- What `mdread`, `mdwrite` and `mdflush` begin with: the segment is found and its file is moved
to the block. Gives the chain, the segment, and whether the file is there. -/
def mdseek (m : MdState S) (name : N) (fd blocknum : Nat) : Option (S × List MdfdVec × MdfdVec × Bool) :=
  m.fdvec[fd]?.bind fun chain =>
  (mdfdGetseg L name false (segnoOf blocknum) m.files 1 chain).bind fun (s, chain) =>
  chain[segnoOf blocknum]?.bind fun v =>
  (L.call s v.vfd (.seek ((blcksz * (blocknum % relsegSize) : Nat) : Int) .set)).map fun (s, pos, _) =>
    (s, chain, v, decide (pos = (blcksz * (blocknum % relsegSize) : Nat)))

/-- Gives the page as well. -/
def mdread [Zero B] (m : MdState S) (name : N) (fd blocknum : Nat) : Option (MdState S × Bool × List B) :=
  (mdseek L m name fd blocknum).bind fun (s, chain, v, found) =>
    if found = false then some (⟨s, m.fdvec.set fd chain⟩, false, [])
    else
      (L.call s v.vfd (.read blcksz)).map fun (s, nbytes, bytes) =>
        if nbytes = blcksz then (⟨s, m.fdvec.set fd chain⟩, true, bytes)
        else if nbytes = 0 then (⟨s, m.fdvec.set fd chain⟩, true, List.replicate blcksz 0)
        else (⟨s, m.fdvec.set fd chain⟩, false, bytes)

def mdwrite (m : MdState S) (name : N) (fd blocknum : Nat) (buffer : List B) : Option (MdState S × Bool) :=
  (mdseek L m name fd blocknum).bind fun (s, chain, v, found) =>
    if found = false then some (⟨s, m.fdvec.set fd chain⟩, false)
    else
      (L.call s v.vfd (.write buffer)).map fun (s, nbytes, _) =>
        (⟨s, m.fdvec.set fd (chain.set (segnoOf blocknum) {v with dirty := true})⟩, decide (nbytes = blcksz))

def mdflush (m : MdState S) (name : N) (fd blocknum : Nat) (buffer : List B) : Option (MdState S × Bool) :=
  (mdseek L m name fd blocknum).bind fun (s, chain, v, found) =>
    if found = false then some (⟨s, m.fdvec.set fd chain⟩, false)
    else
      (L.call s v.vfd (.write buffer)).bind fun (s, nbytes, _) =>
        let clean := m.fdvec.set fd (chain.set (segnoOf blocknum) {v with dirty := false})
        if nbytes ≠ blcksz then some (⟨s, clean⟩, false)
        else (L.call s v.vfd .sync).map fun (s, r, _) => (⟨s, clean⟩, decide (0 ≤ r))

/-- The first segment is opened; its slot is the next one. -/
def mdopen (m : MdState S) (name : N) : Option (MdState S × Nat) :=
  (openNext L m.files name 0 true).map fun (s, v) => (⟨s, m.fdvec ++ [[v]]⟩, m.fdvec.length)

/-- The loop of `mdclose` along a chain. -/
def closeChain : S → List MdfdVec → Option (S × List MdfdVec)
  | s, [] => some (s, [])
  | s, v :: chain =>
    (L.call s v.vfd .sync).bind fun (s, _) =>
    (L.close s v.vfd).bind fun s =>
    (closeChain s chain).map fun (s, chain) => (s, {v with dirty := false} :: chain)

def mdclose (m : MdState S) (fd : Nat) : Option (MdState S) :=
  m.fdvec[fd]?.bind fun chain => (closeChain L m.files chain).map fun (s, chain) => ⟨s, m.fdvec.set fd chain⟩

/-- The loop of `mdcommit` along a chain; it stops at the first `FileSync` that fails. -/
def commitChain : S → List MdfdVec → Option (S × List MdfdVec × Bool)
  | s, [] => some (s, [], true)
  | s, v :: chain =>
    if v.dirty = true then
      (L.call s v.vfd .sync).bind fun (s, r, _) =>
        if r < 0 then some (s, v :: chain, false)
        else (commitChain s chain).map fun (s, chain, ok) => (s, {v with dirty := false} :: chain, ok)
    else (commitChain s chain).map fun (s, chain, ok) => (s, v :: chain, ok)

def commitSlots : S → List (List MdfdVec) → Option (S × List (List MdfdVec) × Bool)
  | s, [] => some (s, [], true)
  | s, chain :: slots =>
    (commitChain L s chain).bind fun (s, chain, ok) =>
      if ok = false then some (s, chain :: slots, false)
      else (commitSlots s slots).map fun (s, slots, ok) => (s, chain :: slots, ok)

def mdcommit (m : MdState S) : Option (MdState S × Bool) :=
  (commitSlots L m.files m.fdvec).map fun (s, slots, ok) => (⟨s, slots⟩, ok)

end Routines

end PgStorage.Md
