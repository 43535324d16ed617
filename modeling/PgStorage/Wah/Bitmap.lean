import PgStorage.Lib.Bits

/-! WAH bitmaps (`psql-test/src/backend/main/bitmap.c`): storage and appending.

A bitmap is an array of 32-bit words and an active word that collects fewer than
31 bits. A stored word with the top bit clear is a literal of 31 bits; with the
top bit set it is a fill: bit 30 is the bit that is repeated, the low 30 bits
count groups of 31. `m_vec` is the allocated array and `m_size` the number of its
words in use; the routines keep the two apart, and so does the model. Word
arithmetic is the code's, modulo 2^32. -/
namespace PgStorage.Wah

/-- `word_t` -/
abbrev Word := BitVec 32

def maxBits : Word := 31
def header0F : Word := (2 : Word) <<< 30
def header1F : Word := (3 : Word) <<< 30
def allOnes : Word := ~~~((1 : Word) <<< 31)

/-- `(1 << n) - 1` -/
def lowMask (n : Word) : Word := ((1 : Word) <<< n.toNat) - 1

/-- The word being filled; the bits are right-aligned in `val`. -/
structure ActiveWord where
  val : Word
  nbits : Word
  deriving DecidableEq, Repr

structure Bitmap where
  isCompressed : Bool
  /-- Bits in stored words; the active word's are not counted. -/
  nbits : Word
  mVec : List Word
  mSize : Word
  active : ActiveWord
  deriving DecidableEq, Repr

def makeBitmap : Bitmap :=
  { isCompressed := false, nbits := 0, mVec := [], mSize := 0, active := ⟨0, 0⟩ }

def isEmpty (bmp : Bitmap) : Bool := bmp.mSize == 0

def getBitmapTop (bmp : Bitmap) : Word :=
  if isEmpty bmp then 0 else bmp.mVec.getD (bmp.mSize - 1).toNat 0

def setBitmapTop (bmp : Bitmap) (w : Word) : Bitmap :=
  if isEmpty bmp then bmp else {bmp with mVec := bmp.mVec.set (bmp.mSize - 1).toNat w}

/-- The array is reallocated to hold exactly one word more than are in use. -/
def pushBitmap (bmp : Bitmap) (w : Word) : Bitmap :=
  {bmp with mVec := bmp.mVec.take bmp.mSize.toNat ++ [w], mSize := bmp.mSize + 1}

/-! ### Appending -/

/-- The tail that `appendCounter` and `appendActive` share: push `w`, or add `inc`
to the top word when it is a run that `w` continues. -/
def pushOrMerge (bmp : Bitmap) (w : Word) (continues : Word → Bool) (inc : Word) : Bitmap :=
  if isEmpty bmp then pushBitmap bmp w
  else
    let w1 := getBitmapTop bmp
    if continues w1 then setBitmapTop bmp (w1 + inc) else pushBitmap bmp w

/-- `cnt` groups of `val`, for an empty active word. -/
def appendCounter (bmp : Bitmap) (val cnt : Word) : Bitmap :=
  let head := 2 + val
  let w := (head <<< 30) ||| cnt
  let bmp := pushOrMerge bmp w (fun w1 => w1 >>> 30 == head) cnt
  {bmp with nbits := bmp.nbits + cnt * maxBits}

/-- The head and the word that `appendActive` stores for a full active word. -/
def storeActive (w : Word) : Word × Word :=
  if w = 0 then (2, header0F ||| 1)
  else if w = allOnes then (3, header1F ||| 1)
  else (0, w)

/-- Store a full active word and clear it. -/
def appendActive (bmp : Bitmap) : Bitmap :=
  let head := (storeActive bmp.active.val).1
  let w := (storeActive bmp.active.val).2
  let bmp := pushOrMerge bmp w (fun w1 => w1 >>> 30 == head && decide (1 < head)) 1
  {bmp with nbits := bmp.nbits + maxBits, active := ⟨0, 0⟩}

def appendWord (bmp : Bitmap) (w : Word) : Bitmap :=
  let head := w >>> 30
  let b2 := head % 2
  if bmp.active.nbits ≠ 0 then
    let nb1 := bmp.active.nbits
    let nb2 := maxBits - nb1
    let val := bmp.active.val <<< nb2.toNat
    if 1 < head then
      let val := if head = 3 then val ||| lowMask nb2 else val
      let bmp := appendActive {bmp with active := ⟨val, bmp.active.nbits⟩}
      let cnt := (w &&& ~~~header1F) - 1
      let bmp := if 0 < cnt then appendCounter bmp b2 cnt else bmp
      {bmp with active := ⟨lowMask nb1 * b2, nb1⟩}
    else
      let val := val ||| (w >>> nb1.toNat)
      let bmp := appendActive {bmp with active := ⟨val, bmp.active.nbits⟩}
      {bmp with active := ⟨w &&& lowMask nb1, nb1⟩}
  else if 1 < head then
    let cnt := w &&& ~~~header1F
    if 0 < cnt then appendCounter bmp b2 cnt else bmp
  else
    appendActive {bmp with active := ⟨w, bmp.active.nbits⟩}

/-- How many of `n` bits the active word takes. -/
def activeTakes (bmp : Bitmap) (n : Word) : Word :=
  let tmp := maxBits - bmp.active.nbits
  if n < tmp then n else tmp

/-- The part of `appendBits` that fills the active word up; it also returns how
many bits remain to be added. -/
def fillActive (bmp : Bitmap) (val n : Word) : Bitmap × Word :=
  if 0 < bmp.active.nbits then
    let tmp := activeTakes bmp n
    let shifted := bmp.active.val <<< tmp.toNat
    let filled := if val = 1 then shifted ||| lowMask tmp else shifted
    let bmp := {bmp with active := ⟨filled, bmp.active.nbits + tmp⟩}
    (if bmp.active.nbits = maxBits then appendActive bmp else bmp, n - tmp)
  else (bmp, n)

def appendBits (bmp : Bitmap) (val n : Word) : Bitmap :=
  if n = 0 then bmp
  else
    let (bmp, n) := fillActive bmp val n
    let cnt := n / maxBits
    let (bmp, n) :=
      if maxBits ≤ n then (appendCounter bmp val cnt, n - cnt * maxBits) else (bmp, n)
    if 0 < n then {bmp with active := ⟨val * lowMask n, n⟩} else bmp

def appendOneBit (bmp : Bitmap) (val : Word) : Bitmap :=
  let bmp := {bmp with active := ⟨(bmp.active.val <<< 1) ||| val, bmp.active.nbits + 1⟩}
  if bmp.active.nbits = maxBits then appendActive bmp else bmp

def doCnt (bmp : Bitmap) : Word :=
  (bmp.mVec.take bmp.mSize.toNat).foldl
    (fun cnt w => if allOnes < w then cnt + (w &&& ~~~header1F) * maxBits else cnt + maxBits) 0
    + bmp.active.nbits

/-- The smaller of the two counts; the code prints a warning when they differ. -/
def bitmapSize (bmp : Bitmap) : Word :=
  let sz := bmp.nbits + bmp.active.nbits
  let sr := doCnt bmp
  if sz < sr then sz else sr

end PgStorage.Wah
