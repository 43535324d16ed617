import PgStorage.Hrl.BatchProofs

/-! One call of the union, word by word.

Positions count the words of uncompressed vectors from 1, as `nextread` does. A batch contains the positions behind its
`nwordsread` that it has words for. -/
namespace PgStorage.Hrl
open List

/-- The word at a position, if the batch contains it. -/
def Batch.wordAt (b : Batch) (p : Nat) : Option Word :=
  if b.nwordsread.toNat < p then b.words[p - b.nwordsread.toNat - 1]? else none

/-- The OR of the words at a position, of those batches that contain it. -/
def orAt (bs : List Batch) (p : Nat) : Word := (bs.filterMap (·.wordAt p)).foldr (· ||| ·) 0

/-- The batch's words behind as many zeros as it has read words. -/
def Batch.vector (b : Batch) : List Word := List.replicate b.nwordsread.toNat 0 ++ b.words

theorem Batch.vector_length (b : Batch) : b.vector.length = b.nwordsread.toNat + b.words.length := by
  rw [vector, length_append, length_replicate]

theorem Batch.vector_drop (b : Batch) : b.vector.drop b.nwordsread.toNat = b.words :=
  drop_left' length_replicate

theorem Batch.vector_getD (b : Batch) (i : Nat) : b.vector.getD i 0 = (b.wordAt (i + 1)).getD 0 := by
  rw [wordAt, vector, getD_eq_getElem?_getD]
  split
  next hlt =>
    rw [getElem?_append_right (by rw [length_replicate]; omega), length_replicate]
    congr 2
    omega
  next hge =>
    rw [getElem?_append_left (by rw [length_replicate]; omega),
      getElem?_replicate_of_lt (by omega)]
    rfl

theorem Batch.wordAt_of_reads {v : List Word} {pos : Nat} {b : Batch} (h : Reads pos v [] b) {p : Nat} (hp : pos < p) :
    b.wordAt p = v[p - 1]? := by
  have hrest := h.rest
  have hbehind := h.behind
  rw [append_nil] at hrest
  rw [wordAt, if_pos (by omega), hrest, getElem?_drop]
  congr 1
  omega

theorem orStreams_vectors (bs : List Batch) (i : Nat) :
    (orStreams (bs.map fun b => (b.vector, []))).getD i 0 = orAt bs (i + 1) := by
  induction bs with
  | nil => rfl
  | cons b bs ih =>
    rw [map_cons, orStreams_getD, ih, Batch.vector_getD, orAt, orAt, filterMap_cons]
    cases b.wordAt (i + 1) with
    | none => exact BitVec.zero_or
    | some w => rfl

/-! ### The union -/

/-- What the union is called with: fills have a length, no batch is ahead of the word to be read next, and the number of
the word behind a batch's last one is a `uint32`. -/
structure UnionInput (nextread : BitVec 32) (b : Batch) : Prop where
  valid : ∀ c ∈ b.mem, c.Valid
  next : b.nextread = nextread
  behind : b.nwordsread < nextread
  size : b.nwordsread.toNat + b.words.length < 2 ^ 32 - 1

theorem UnionInput.reads {nextread : BitVec 32} {b : Batch} (h : UnionInput nextread b) :
    Reads (nextread.toNat - 1) b.vector [] b := by
  have hbehind : b.nwordsread.toNat < nextread.toNat := h.behind
  exact ⟨h.valid, by rw [append_nil, Batch.vector_drop], by omega⟩

theorem unionInput_allRead {nextread : BitVec 32} {bs : List Batch} (h : ∀ b ∈ bs, UnionInput nextread b) :
    AllRead (nextread.toNat - 1) (bs.map fun b => (b.vector, [])) bs := by
  rw [AllRead, forall₂_map_left_iff, forall₂_same]
  exact fun b hb => (h b hb).reads

/-- A batch of literal words behind a first cell. -/
def unionExample (nextread : BitVec 32) (first : Cell) (literals : List Word) : Batch :=
  { maxNumOfWords := 4, nwordsread := nextread - 1, nextread, firstTid := 0, startNo := 0
    nwords := literals.length + 1, hwords := fun _ => if first.fill then headerBit 0 else 0
    cwords := fun i => (first.word :: literals).getD i 0 }

def onesFirst (nextread : BitVec 32) : Batch := unionExample nextread ⟨true, makeFillWord 1 2⟩ [0]
def literalsOnly (nextread : BitVec 32) : Batch := unionExample nextread ⟨false, 1⟩ [2, 4]

instance (nextread : BitVec 32) (b : Batch) : Decidable (UnionInput nextread b) :=
  decidable_of_iff ((∀ c ∈ b.mem, c.Valid) ∧ b.nextread = nextread ∧ b.nwordsread < nextread ∧
    b.nwordsread.toNat + b.words.length < 2 ^ 32 - 1)
    ⟨fun ⟨valid, next, behind, size⟩ => ⟨valid, next, behind, size⟩,
      fun ⟨valid, next, behind, size⟩ => ⟨valid, next, behind, size⟩⟩

end PgStorage.Hrl
