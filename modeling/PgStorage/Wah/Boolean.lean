import PgStorage.Lib.Loop
import PgStorage.Wah.History

/-! AND and OR of compressed bitmaps (`c2_and`, `c2_or`).

The two routines are one loop over two run-length encodings, with a partly
consumed word on each side, and differ in four places: the operation on words,
what two runs combine to, and the run that decides the result whatever the other
side holds. Those four are a `BoolOp`. On groups the loop is `zipWith`, and
`decode` turns that into the pointwise operation on bits. -/
namespace PgStorage.Wah
open Bits

structure BoolOp where
  word : Word → Word → Word
  fills : Bool → Bool → Bool
  /-- The bit whose run decides alone: 0 for AND, 1 for OR. -/
  absorbing : Word

def BoolOp.and : BoolOp := ⟨(· &&& ·), (· && ·), 0⟩
def BoolOp.or : BoolOp := ⟨(· ||| ·), (· || ·), 1⟩

/-- One side of the loop: the index of the next word to load, the word loaded
last, its header and what is left of its count. -/
structure Cursor where
  idx : Word
  word : Word
  head : Word
  count : Word

def Cursor.start : Cursor := ⟨0, 0, 0, 0⟩

/-- Load the next word when the count is used up; `none` is the loop's `break`. -/
def Cursor.fetch (bmp : Bitmap) (c : Cursor) : Option Cursor :=
  if c.count = 0 then
    if bmp.mSize ≤ c.idx then none
    else
      let x := bmp.mVec.getD c.idx.toNat 0
      some ⟨c.idx + 1, x, x >>> 30, x &&& ~~~header1F⟩
  else some c

/-- What one pass does with the two loaded words. -/
def c2Combine (op : BoolOp) (x y : Cursor) (result : Bitmap) : Cursor × Cursor × Bitmap :=
  if x.head < 2 ∧ y.head < 2 then
    ({x with count := 0}, {y with count := 0}, appendWord result (op.word x.word y.word))
  else if 1 < x.head ∧ 1 < y.head then
    let countMin := if y.count < x.count then y.count else x.count
    ({x with count := x.count - countMin}, {y with count := y.count - countMin},
      appendCounter result (if op.fills (x.head == 3) (y.head == 3) then 1 else 0) countMin)
  else if 1 < x.head then
    ({x with count := x.count - 1}, {y with count := 0},
      if x.head = 2 + op.absorbing then appendCounter result op.absorbing 1 else appendWord result y.word)
  else
    ({x with count := 0}, {y with count := y.count - 1},
      if y.head = 2 + op.absorbing then appendCounter result op.absorbing 1 else appendWord result x.word)

def c2Body (op : BoolOp) (bmpa bmpb : Bitmap) : Cursor × Cursor × Bitmap → Pass (Cursor × Cursor × Bitmap) Bitmap
  | (x, y, result) =>
    match x.fetch bmpa with
    | none => .leave result
    | some x =>
      match y.fetch bmpb with
      | none => .leave result
      | some y => .again (c2Combine op x y result)

/-- The active words, combined at the end. -/
def c2Finish (op : BoolOp) (bmpa bmpb result : Bitmap) : Bitmap :=
  if bmpa.active.nbits ≠ 0 then
    {result with active := ⟨op.word bmpa.active.val bmpb.active.val, bmpa.active.nbits⟩}
  else result

/-- `fuel` bounds the passes; messages about leftover words are not modelled. -/
def c2Op (op : BoolOp) (fuel : Nat) (bmpa bmpb : Bitmap) : Option Bitmap :=
  (Loop.iterate (c2Body op bmpa bmpb) fuel (.start, .start, makeBitmap)).map (c2Finish op bmpa bmpb)

def c2And : Nat → Bitmap → Bitmap → Option Bitmap := c2Op .and
def c2Or : Nat → Bitmap → Bitmap → Option Bitmap := c2Op .or

end PgStorage.Wah
