import PgStorage.Hrl.Scan

/-! Mark and restore of a scan (`bmmarkpos` and `bmrestrpos` in `bitmap.c`).

`bmmarkpos` copies the vectors to the mark's own array, and then `*bm_currPos` over
`*bm_markPos`, with the pointers in it. So the mark has the array and the batches of the
current position; only `done` and `bm_result` are its own. -/
namespace PgStorage.Hrl

/-- `BMScanOpaqueData`. `lovBuffers` says whether the vectors' `bm_lovBuffer` are valid;
they are released and set invalid together. -/
structure ScanOpaque where
  currPos : ScanPos
  curPosValid : Bool
  markDone : Bool
  markResult : IterateResult
  markPosValid : Bool
  lovBuffers : Bool

/-- A scan over the vectors that `_bitmap_findbitmaps` finds. -/
def beginScan (idx : Index) (lovs : List (Nat × Nat)) : ScanOpaque :=
  { currPos := findbitmaps idx lovs, curPosValid := false, markDone := false, markResult := ⟨0, 0, 0, [], 0⟩
    markPosValid := false, lovBuffers := true }

/-- `bmmarkpos` -/
def bmmarkpos (so : ScanOpaque) : ScanOpaque :=
  -- the vectors of the old mark are those of the current position
  let so := if so.markPosValid then {so with lovBuffers := false, markPosValid := false} else so
  if so.curPosValid then
    {so with markDone := so.currPos.done, markResult := so.currPos.result, markPosValid := true}
  else so

/-- `bmrestrpos` -/
def bmrestrpos (so : ScanOpaque) : ScanOpaque :=
  let so := if so.curPosValid then {so with lovBuffers := false, curPosValid := false} else so
  if so.markPosValid then
    {so with currPos := {so.currPos with done := so.markDone, result := so.markResult}, curPosValid := true}
  else so

/-- Whether `read_words` reads the LOV item -/
def readsLov (idx : Index) (v : VectorPos) : Bool :=
  v.nextBlockNo == invalidBlockNumber ||
    (idx.page v.nextBlockNo).bitmapNext == invalidBlockNumber &&
      decide ((idx.page v.nextBlockNo).hrlWordsUsed ≤ hrlWordsPerPage - 2)

/-- The next words of the vectors cannot be read: one of them is in an LOV item whose
buffer is not valid. -/
def unreadable (idx : Index) (so : ScanOpaque) : Bool :=
  !so.lovBuffers && drained so.currPos &&
    so.currPos.posvecs.any fun v => v.batchWords.nwords == 0 && !v.readLastWords && readsLov idx v

/-- One pass of the loop of `_bitmap_next`; it leaves with `none` when it cannot read. -/
def markedPass (idx : Index) (so : ScanOpaque) : Pass ScanOpaque (Option (Option Nat × ScanOpaque)) :=
  if unreadable idx so then .leave none
  else
    match nextPass idx so.currPos with
    | .again s => .again {so with currPos := s}
    | .leave (r, s) => .leave (some (r, {so with currPos := s, curPosValid := so.curPosValid || r.isSome}))

/-- `_bitmap_next`; there is no result without enough fuel, or when it cannot read -/
def ScanOpaque.next (idx : Index) (fuel : Nat) (so : ScanOpaque) : Option (Option Nat × ScanOpaque) :=
  if so.currPos.done then some (none, so) else (Loop.iterate (markedPass idx) fuel so).join

/-- A number of calls of `_bitmap_next`. -/
def ScanOpaque.calls (idx : Index) (fuel : Nat) : Nat → ScanOpaque → Option ScanOpaque
  | 0, so => some so
  | n + 1, so =>
    match so.next idx fuel with
    | none => none
    | some (_, so) => so.calls idx fuel n

/-- The locations from a position on: `_bitmap_next` until it returns false. -/
def ScanOpaque.rest (idx : Index) (fuel : Nat) : Nat → ScanOpaque → Option (List Nat)
  | 0, _ => none
  | n + 1, so =>
    match so.next idx fuel with
    | none => none
    | some (none, _) => some []
    | some (some tid, so) => (so.rest idx fuel n).map (tid :: ·)

/-- A scan goes on to return the locations `tids`, and ends. -/
def ScanOpaque.Returns (idx : Index) (so : ScanOpaque) (tids : List Nat) : Prop :=
  ∃ fuel n, so.rest idx fuel n = some tids

/-- The states of a scan; a position is restored after it has been marked. -/
inductive ScanState (idx : Index) (lovs : List (Nat × Nat)) : ScanOpaque → Prop
  | start : ScanState idx lovs (beginScan idx lovs)
  | next {so so' : ScanOpaque} {fuel : Nat} {r : Option Nat} (h : ScanState idx lovs so)
      (hnext : so.next idx fuel = some (r, so')) : ScanState idx lovs so'
  | mark {so : ScanOpaque} (h : ScanState idx lovs so) : ScanState idx lovs (bmmarkpos so)
  | restore {so : ScanOpaque} (h : ScanState idx lovs so) (hmark : so.markPosValid = true) :
      ScanState idx lovs (bmrestrpos so)

end PgStorage.Hrl
