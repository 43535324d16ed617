import PgStorage.LargeObject.InvApi

/-! A large object as what it stands for: a byte array and a position in it. What the rows of a large object hold, and
what is read from them. -/
namespace PgStorage.LargeObject
open OrderedMap Splice
open List ReadState Nat

structure Plain where
  bytes : Bytes
  pos : Nat
  length_le : bytes.length ≤ maxLargeObjectSize
  pos_le : pos ≤ maxLargeObjectSize

namespace Plain

def seek (a : Plain) (offset : Int) (whence : Int32) : Option (Plain × Reply) := do
  let base : Nat ←
    if whence = 0 then some 0 else if whence = 1 then some a.pos else if whence = 2 then some a.bytes.length else none
  if h : 0 ≤ base + offset ∧ base + offset ≤ maxLargeObjectSize then
    some ({a with pos := (base + offset).toNat, pos_le := by omega}, .position (base + offset))
  else none

def read (a : Plain) (nbytes : Nat) : Plain × Reply :=
  let data := (a.bytes.drop a.pos).take nbytes
  ({a with
    pos := a.pos + data.length
    pos_le := by
      have := a.length_le
      have := a.pos_le
      rw [List.length_take, List.length_drop]
      omega}, .data data)

/-- A gap before the data is filled with zeros. -/
def put (bytes : Bytes) (pos : Nat) (data : Bytes) : Bytes := splice (bytes ++ zeros (pos - bytes.length)) pos data

theorem length_put (bytes : Bytes) (pos : Nat) (data : Bytes) :
    (put bytes pos data).length = max (max bytes.length pos) (pos + data.length) := by
  have hlen : (bytes ++ zeros (pos - bytes.length)).length = max bytes.length pos := by
    rw [length_append, zeros, length_replicate]
    omega
  rw [put, length_splice (by omega), hlen]

def write (a : Plain) (data : Bytes) : Option (Plain × Reply) :=
  if data = [] then some (a, .count 0)
  else if h : a.pos + data.length ≤ maxLargeObjectSize then
    some ({
      bytes := put a.bytes a.pos data
      pos := a.pos + data.length
      length_le := by
        have := a.length_le
        rw [length_put]
        omega
      pos_le := h}, .count data.length)
  else none

def truncate (a : Plain) (len : Int) : Option (Plain × Reply) :=
  if h : 0 ≤ len ∧ len ≤ maxLargeObjectSize then
    some ({a with
      bytes := a.bytes.take len.toNat ++ zeros (len.toNat - a.bytes.length)
      length_le := by
        rw [List.length_append, zeros, List.length_replicate, List.length_take]
        omega}, .done)
  else none

def call (a : Plain) : Call → Option (Plain × Reply)
  | .seek offset whence => a.seek offset.toInt whence
  | .read nbytes => some (a.read nbytes.toInt.toNat)
  | .write buf nbytes => a.write (buf.take nbytes.toInt.toNat)
  | .truncate len => a.truncate len.toInt

/-- A call that is rejected changes nothing. -/
def run (a : Plain) : List Call → List (Option Reply) × Plain
  | [] => ([], a)
  | c :: rest =>
    match a.call c with
    | none => let s := run a rest; (none :: s.1, s.2)
    | some (b, reply) => let s := run b rest; (some reply :: s.1, s.2)

end Plain

/-- The pages are short enough. -/
def Short (l : List Row) : Prop := ∀ r ∈ l, r.2.length ≤ loblksize

/-- The byte at a place. What no row holds is zero. -/
def byteAt (l : List Row) (i : Nat) : UInt8 :=
  ((l.find? fun r => r.1 = i / loblksize).map fun r => r.2.getD (i % loblksize) 0).getD 0

/-- Where the last row ends. -/
def size (l : List Row) : Nat := l.getLast?.elim 0 fun r => r.1 * loblksize + r.2.length

/-- The bytes from a place on. -/
def bytesFrom (l : List Row) (i n : Nat) : Bytes := (List.range' i n).map (byteAt l)

section Rows
variable {l l' : List Row} {p i j n x : Nat} {d : Bytes}

theorem loblksize_pos : 0 < loblksize := by
  rw [loblksize_eq]
  exact succ_pos _

/-- A page ends where the next one begins, at the latest. -/
theorem page_lt {q : Nat} (h : p < q) : p * loblksize + loblksize ≤ q * loblksize := by
  rw [← succ_mul]
  exact mul_le_mul_right _ h

theorem page_split (i : Nat) : i / loblksize * loblksize + i % loblksize = i := div_add_mod' i loblksize

theorem byteAt_mem (hl : l.Pairwise fun a b => a.1 < b.1) (h : (i / loblksize, d) ∈ l) :
    byteAt l i = d.getD (i % loblksize) 0 := by
  have hsome : (l.find? fun r => r.1 = i / loblksize).isSome = true :=
    find?_isSome.mpr ⟨_, h, decide_eq_true rfl⟩
  obtain ⟨r, hr⟩ := Option.isSome_iff_exists.mp hsome
  have hkey : r.1 = i / loblksize := by simpa using find?_some hr
  have hmem : (i / loblksize, r.2) ∈ l := hkey ▸ mem_of_find?_eq_some hr
  rw [byteAt, hr, Option.map_some, Option.getD_some, value_unique hl hmem h]

theorem byteAt_not_mem (h : ∀ d, (i / loblksize, d) ∉ l) : byteAt l i = 0 := by
  have hnone : (l.find? fun r => r.1 = i / loblksize) = none := by
    refine find?_eq_none.mpr fun r hr hkey => ?_
    have hk : r.1 = i / loblksize := of_decide_eq_true hkey
    exact h r.2 (hk ▸ hr)
  rw [byteAt, hnone]
  rfl

theorem byteAt_congr (hl : l.Pairwise fun a b => a.1 < b.1) (hl' : l'.Pairwise fun a b => a.1 < b.1)
    (h : ∀ d, (i / loblksize, d) ∈ l ↔ (i / loblksize, d) ∈ l') : byteAt l i = byteAt l' i := by
  by_cases hex : ∃ d, (i / loblksize, d) ∈ l
  · obtain ⟨d, hd⟩ := hex
    rw [byteAt_mem hl hd, byteAt_mem hl' ((h d).mp hd)]
  · rw [byteAt_not_mem fun d hd => hex ⟨d, hd⟩, byteAt_not_mem fun d hd => hex ⟨d, (h d).mpr hd⟩]

theorem size_le (hl : l.Pairwise fun a b => a.1 < b.1) (hs : Short l) :
    size l ≤ x ↔ ∀ r ∈ l, r.1 * loblksize + r.2.length ≤ x := by
  rw [size]
  cases hlast : l.getLast? with
  | none =>
    rw [getLast?_eq_none_iff] at hlast
    subst hlast
    exact ⟨fun _ => nofun, fun _ => zero_le _⟩
  | some t =>
    obtain ⟨rows, rfl⟩ := getLast?_eq_some_iff.mp hlast
    rw [Option.elim_some]
    refine ⟨fun htx r hr => ?_, fun h => h t (mem_append_right _ mem_cons_self)⟩
    rcases mem_append.mp hr with hr' | hr'
    · have hlt : r.1 < t.1 := (pairwise_append.mp hl).2.2 r hr' t mem_cons_self
      have hlen := hs r hr
      have hpage := page_lt hlt
      omega
    · exact mem_singleton.mp hr' ▸ htx

theorem size_eq (hl : l.Pairwise fun a b => a.1 < b.1) (hs : Short l)
    (hle : ∀ r ∈ l, r.1 * loblksize + r.2.length ≤ x) (hmem : (p, d) ∈ l) (hx : p * loblksize + d.length = x) :
    size l = x :=
  le_antisymm ((size_le hl hs).mpr hle) (hx ▸ (size_le hl hs).mp le_rfl _ hmem)

theorem size_cons {r : Row} (hl : (r :: l).Pairwise fun a b => a.1 < b.1) (hs : Short (r :: l)) :
    size (r :: l) = max (r.1 * loblksize + r.2.length) (size l) := by
  have hs' : Short l := fun t ht => hs t (mem_cons_of_mem _ ht)
  refine eq_of_forall_ge_iff fun x => ?_
  rw [size_le hl hs, max_le_iff, size_le (pairwise_cons.mp hl).2 hs', forall_mem_cons]

theorem byteAt_beyond (hl : l.Pairwise fun a b => a.1 < b.1) (hs : Short l) (h : size l ≤ i) : byteAt l i = 0 := by
  by_cases hex : ∃ d, (i / loblksize, d) ∈ l
  · obtain ⟨d, hd⟩ := hex
    have hle : i / loblksize * loblksize + d.length ≤ i := (size_le hl hs).mp h _ hd
    rw [byteAt_mem hl hd]
    have hout : d.length ≤ i % loblksize := by
      have hi := page_split i
      omega
    rw [getD_eq_getElem?_getD, getElem?_eq_none hout]
    rfl
  · exact byteAt_not_mem fun d hd => hex ⟨d, hd⟩

theorem bytesFrom_append : bytesFrom l i n ++ bytesFrom l (i + n) j = bytesFrom l i (n + j) := by
  rw [bytesFrom, bytesFrom, bytesFrom, ← map_append, range'_append_1]

theorem bytesFrom_congr (h : ∀ k, i ≤ k → k < i + n → byteAt l k = byteAt l' k) :
    bytesFrom l i n = bytesFrom l' i n :=
  map_congr_left fun k hk => h k (mem_range'_1.mp hk).1 (mem_range'_1.mp hk).2

theorem length_bytesFrom : (bytesFrom l i n).length = n := by
  rw [bytesFrom, length_map, length_range']

theorem zeros_eq (h : ∀ k, i ≤ k → k < i + n → byteAt l k = 0) : zeros n = bytesFrom l i n := by
  rw [zeros, bytesFrom, map_congr_left fun k hk => h k (mem_range'_1.mp hk).1 (mem_range'_1.mp hk).2,
    map_const', length_range']

theorem byteAt_cons_ne (h : p ≠ i / loblksize) : byteAt ((p, d) :: l) i = byteAt l i := by
  rw [byteAt, find?_cons_of_neg (by simpa using h)]
  rfl

/-- Where a page is, is told by its number. -/
theorem div_of_page (h : p * loblksize ≤ i) (h' : i < p * loblksize + loblksize) : i / loblksize = p :=
  Nat.div_eq_of_lt_le h (by rw [Nat.succ_mul]; exact h')

theorem byteAt_head (h : p * loblksize ≤ i) (h' : i < p * loblksize + loblksize) :
    byteAt ((p, d) :: l) i = d.getD (i - p * loblksize) 0 := by
  have hp := div_of_page h h'
  have hi := page_split i
  rw [byteAt, find?_cons_of_pos (by simpa using hp.symm), Option.map_some, Option.getD_some]
  rw [hp] at hi
  rw [show i % loblksize = i - p * loblksize by omega]

end Rows

/-! ### Reading -/

section Read
variable {s t : ReadState} {l : List Row} {id nbytes p pageoff n : Nat} {d data : Bytes}

/-- The read goes on where it is, into a buffer that has room. -/
structure Reading (s : ReadState) (nbytes : Nat) : Prop where
  room : s.buf.length ≤ nbytes
  small : nbytes < 2 ^ 31
  offset : s.offset + (nbytes - s.buf.length) < 2 ^ 63

theorem Reading.advance (h : Reading s nbytes) (hd : data.length ≤ nbytes - s.buf.length) :
    s.advance data = .ok ⟨s.offset + data.length, s.buf ++ data⟩ := by
  have hroom := h.room
  have hn := h.small
  have ho := h.offset
  rw [ReadState.advance, int32, fits, if_pos (by omega), uint64, fits, if_pos (by omega)]
  rfl

theorem Reading.moved (h : Reading s nbytes) (hd : data.length ≤ nbytes - s.buf.length) :
    Reading ⟨s.offset + data.length, s.buf ++ data⟩ nbytes := by
  have hroom := h.room
  have ho := h.offset
  have hlen : (s.buf ++ data).length = s.buf.length + data.length := length_append
  refine ⟨?_, h.small, ?_⟩
  · dsimp only
    omega
  · dsimp only
    omega

/-- What is read, up to a place. -/
def ReadState.upTo (s : ReadState) (nbytes : Nat) (l : List Row) (i : Nat) : ReadState :=
  let n := min (nbytes - s.buf.length) (i - s.offset)
  ⟨s.offset + n, s.buf ++ bytesFrom l s.offset n⟩

theorem Reading.upTo (h : Reading s nbytes) (l : List Row) (i : Nat) : Reading (s.upTo nbytes l i) nbytes := by
  have hlen : (bytesFrom l s.offset (min (nbytes - s.buf.length) (i - s.offset))).length =
      min (nbytes - s.buf.length) (i - s.offset) := length_bytesFrom
  have hm := h.moved (hlen.le.trans (min_le_left _ _))
  rw [hlen] at hm
  exact hm

theorem upTo_full (h : nbytes ≤ s.buf.length) (i : Nat) : s.upTo nbytes l i = s := by
  rw [upTo, Nat.sub_eq_zero_of_le h, Nat.zero_min]
  exact congrArg (mk s.offset) (append_nil _)

theorem upTo_past {i : Nat} (h : i ≤ s.offset) : s.upTo nbytes l i = s := by
  rw [upTo, Nat.sub_eq_zero_of_le h, Nat.min_zero]
  exact congrArg (mk s.offset) (append_nil _)

theorem upTo_upTo {i j : Nat} (h : Reading s nbytes) (hij : i ≤ j) :
    (s.upTo nbytes l i).upTo nbytes l j = s.upTo nbytes l j := by
  have hroom := h.room
  have hlen : (bytesFrom l s.offset (min (nbytes - s.buf.length) (i - s.offset))).length =
      min (nbytes - s.buf.length) (i - s.offset) := length_bytesFrom
  simp only [upTo, length_append, hlen, append_assoc, bytesFrom_append, Nat.add_assoc]
  rw [show min (nbytes - s.buf.length) (i - s.offset) + min (nbytes - (s.buf.length + min (nbytes - s.buf.length)
    (i - s.offset))) (j - (s.offset + min (nbytes - s.buf.length) (i - s.offset))) =
      min (nbytes - s.buf.length) (j - s.offset) by omega]

theorem upTo_congr {l' : List Row} {i : Nat} (h : ∀ k, s.offset ≤ k → k < i → byteAt l k = byteAt l' k) :
    s.upTo nbytes l i = s.upTo nbytes l' i := by
  rw [upTo, upTo, bytesFrom_congr fun k hk hk' => h k hk (by omega)]

/-- Before the page nothing is held, and zeros are read. -/
theorem fillHole_eq (h : Reading s nbytes) (hl : ∀ r ∈ l, p ≤ r.1) :
    s.fillHole nbytes (p * loblksize) = .ok (s.upTo nbytes l (p * loblksize)) := by
  rw [fillHole]
  split
  next hlt =>
    have hzero : zeros (min (p * loblksize - s.offset) (nbytes - s.buf.length)) =
        bytesFrom l s.offset (min (nbytes - s.buf.length) (p * loblksize - s.offset)) := by
      rw [min_comm]
      refine zeros_eq fun k hk hk' => byteAt_not_mem fun d hd => ?_
      have hp : p ≤ k / loblksize := hl _ hd
      have := page_split k
      have := mul_le_mul_right loblksize hp
      omega
    have hlen : (bytesFrom l s.offset (min (nbytes - s.buf.length) (p * loblksize - s.offset))).length =
        min (nbytes - s.buf.length) (p * loblksize - s.offset) := length_bytesFrom
    rw [hzero, h.advance (by rw [hlen]; exact Nat.min_le_left _ _), hlen]
    rfl
  next hge => rw [upTo_past (Nat.le_of_not_lt hge)]

theorem copyPage_eq (h : Reading s nbytes) (hoff : s.buf.length < nbytes → p * loblksize ≤ s.offset)
    (hin : s.offset < p * loblksize + loblksize) (hd : d.length ≤ loblksize) :
    s.copyPage id nbytes (p * loblksize) (p, d) =
      .ok (s.upTo nbytes ((p, d) :: l) (p * loblksize + d.length)) := by
  rw [copyPage]
  split
  next hlt =>
    have hle := hoff hlt
    have h1 : assert (p * loblksize ≤ s.offset) = .ok () := if_pos hle
    have h2 : assert (s.offset - p * loblksize < loblksize) = .ok () := if_pos (by omega)
    have h3 : getdatafield id (p, d) = .ok d := if_neg (not_lt.mpr hd)
    simp only [h1, h2, h3, bind, Except.bind]
    split
    next hlen =>
      have hcopy : (d.drop (s.offset - p * loblksize)).take (min (d.length - (s.offset - p * loblksize))
          (nbytes - s.buf.length)) = bytesFrom ((p, d) :: l) s.offset
            (min (nbytes - s.buf.length) (p * loblksize + d.length - s.offset)) := by
        refine ext_getElem? fun i => ?_
        rw [bytesFrom, getElem?_map, getElem?_take, getElem?_drop]
        split
        next hi =>
          rw [getElem?_range' (by omega), Option.map_some, byteAt_head (by omega) (by omega),
            getElem?_eq_getElem (by omega), getD_eq_getElem?_getD, getElem?_eq_getElem (by omega)]
          refine congrArg some (getElem_congr_idx ?_)
          omega
        next hi =>
          rw [getElem?_eq_none (by rw [length_range']; omega)]
          rfl
      have hn : (bytesFrom ((p, d) :: l) s.offset (min (nbytes - s.buf.length)
          (p * loblksize + d.length - s.offset))).length =
            min (nbytes - s.buf.length) (p * loblksize + d.length - s.offset) := length_bytesFrom
      rw [hcopy, h.advance (by rw [hn]; exact min_le_left _ _), hn]
      rfl
    next hlen => rw [upTo_past (by omega)]; rfl
  next hge => rw [upTo_full (Nat.le_of_not_lt hge)]

theorem offset_upTo (s : ReadState) (nbytes : Nat) (l : List Row) (i : Nat) :
    (s.upTo nbytes l i).offset = s.offset + min (nbytes - s.buf.length) (i - s.offset) := rfl

theorem length_upTo (s : ReadState) (nbytes : Nat) (l : List Row) (i : Nat) :
    (s.upTo nbytes l i).buf.length = s.buf.length + min (nbytes - s.buf.length) (i - s.offset) := by
  rw [upTo, length_append, length_bytesFrom]

theorem readPage_eq (h : Reading s nbytes) (hl : ∀ r ∈ l, p < r.1) (hp : p * loblksize < 2 ^ 64)
    (hin : s.offset < p * loblksize + loblksize) (hd : d.length ≤ loblksize) :
    s.readPage id nbytes (p, d) = .ok (s.upTo nbytes ((p, d) :: l) (p * loblksize + d.length)) := by
  have hkeys : ∀ r ∈ (p, d) :: l, p ≤ r.1 := forall_mem_cons.mpr ⟨le_rfl, fun r hr => (hl r hr).le⟩
  have hu : uint64 (p * loblksize) = .ok (p * loblksize) := if_pos hp
  have hfill := fillHole_eq h hkeys
  have ho := offset_upTo s nbytes ((p, d) :: l) (p * loblksize)
  have hb := length_upTo s nbytes ((p, d) :: l) (p * loblksize)
  have hroom := h.room
  have hat : (s.upTo nbytes ((p, d) :: l) (p * loblksize)).buf.length < nbytes →
      p * loblksize ≤ (s.upTo nbytes ((p, d) :: l) (p * loblksize)).offset := fun hlt => by omega
  have hin' : (s.upTo nbytes ((p, d) :: l) (p * loblksize)).offset < p * loblksize + loblksize := by
    have := loblksize_pos
    omega
  rw [readPage]
  simp only [hu, hfill, bind, Except.bind]
  rw [copyPage_eq (h.upTo ((p, d) :: l) (p * loblksize)) hat hin' hd, upTo_upTo h (le_add_right _ _)]

/-- Behind its page, a row holds nothing. -/
theorem byteAt_behind (hl : ∀ r ∈ l, p < r.1) (hi : p * loblksize + d.length ≤ n) :
    byteAt ((p, d) :: l) n = byteAt l n := by
  by_cases hp : p = n / loblksize
  · have hn := page_split n
    rw [← hp] at hn
    rw [byteAt_head (by omega) (by have := mod_lt n loblksize_pos; omega),
      byteAt_not_mem fun d' hd' => (hl _ hd').ne hp, getD_eq_getElem?_getD, getElem?_eq_none (by omega)]
    rfl
  · exact byteAt_cons_ne hp

/-- **The loop over the pages reads up to the end of the last one.** -/
theorem readPages_eq (hl : l.Pairwise fun a b => a.1 < b.1) (hs : Short l) (hkeys : ∀ r ∈ l, r.1 * loblksize < 2 ^ 64)
    (hin : ∀ r ∈ l, s.offset < r.1 * loblksize + loblksize) (h : Reading s nbytes) :
    readPages id nbytes l s = .ok (s.upTo nbytes l (size l)) := by
  induction l generalizing s with
  | nil =>
    have hsize : size ([] : List Row) = 0 := rfl
    rw [hsize, upTo_past (zero_le _)]
    rfl
  | cons r l ih =>
    obtain ⟨p, d⟩ := r
    obtain ⟨hp, hl'⟩ := pairwise_cons.mp hl
    have hd : d.length ≤ loblksize := hs _ mem_cons_self
    have hin' : s.offset < p * loblksize + loblksize := hin _ mem_cons_self
    have hpage : s.readPage id nbytes (p, d) = .ok (s.upTo nbytes ((p, d) :: l) (p * loblksize + d.length)) :=
      readPage_eq h hp (hkeys _ mem_cons_self) hin' hd
    have hsize : size ((p, d) :: l) = max (p * loblksize + d.length) (size l) := size_cons hl hs
    have hread := h.upTo ((p, d) :: l) (p * loblksize + d.length)
    have ho := offset_upTo s nbytes ((p, d) :: l) (p * loblksize + d.length)
    have hb := length_upTo s nbytes ((p, d) :: l) (p * loblksize + d.length)
    rw [readPages]
    simp only [hpage, bind, Except.bind]
    rw [hsize, ← upTo_upTo h (le_max_left _ _)]
    generalize s.upTo nbytes ((p, d) :: l) (p * loblksize + d.length) = t at *
    split
    next hfull => rw [upTo_full hfull]; rfl
    next hmore =>
      have hpast : p * loblksize + d.length ≤ t.offset := by omega
      rw [ih hl' (fun r hr => hs r (mem_cons_of_mem _ hr)) (fun r hr => hkeys r (mem_cons_of_mem _ hr))
        (fun r hr => ?_) hread]
      · by_cases hlast : size l ≤ p * loblksize + d.length
        · rw [Nat.max_eq_left hlast, upTo_past hpast, upTo_past (hlast.trans hpast)]
        · rw [Nat.max_eq_right (Nat.le_of_not_le hlast)]
          exact congrArg _ (upTo_congr fun k hk _ => (byteAt_behind hp (hpast.trans hk)).symm)
      · have hnext : p * loblksize + loblksize ≤ r.1 * loblksize := page_lt (hp r hr)
        have := loblksize_pos
        omega

end Read
end PgStorage.LargeObject
