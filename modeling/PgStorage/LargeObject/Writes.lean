import PgStorage.LargeObject.Refine

/-! Writing and truncating.

Each round of a write puts a piece of the data in its page, whether the page is there or not; the pieces are one
write (`Wrote.trans`). A truncation leaves the pages before the one it falls into, and cuts or makes that one. -/
namespace PgStorage.LargeObject
open OrderedMap Splice
open List

/-- What a page holds, nothing if it is missing. -/
def Held (m : OrderedMap Bytes) (p : Nat) (old : Bytes) : Prop :=
  (p, old) ∈ m.rows ∨ old = [] ∧ ∀ d, (p, d) ∉ m.rows

/-- The data was written at the place, and nothing else. -/
structure Wrote (m m' : OrderedMap Bytes) (o : Nat) (data : Bytes) : Prop where
  short : Short m'.rows
  byte : ∀ i, byteAt m'.rows i = if o ≤ i ∧ i < o + data.length then data.getD (i - o) 0 else byteAt m.rows i
  size : size m'.rows = max (size m.rows) (o + data.length)

section Pages
variable {m m' m'' : OrderedMap Bytes} {old data data' bytes : Bytes} {p o off pos i x : Nat}

theorem getD_zeros (bytes : Bytes) (k i : Nat) : (bytes ++ zeros k).getD i 0 = bytes.getD i 0 := by
  rw [getD_eq_getElem?_getD, getD_eq_getElem?_getD]
  by_cases hi : i < bytes.length
  · rw [getElem?_append_left hi]
  · rw [getElem?_append_right (Nat.le_of_not_lt hi), getElem?_eq_none (Nat.le_of_not_lt hi), zeros,
      getElem?_replicate]
    split <;> rfl

theorem getD_put (bytes : Bytes) (pos : Nat) (data : Bytes) (i : Nat) : (Plain.put bytes pos data).getD i 0 =
    if pos ≤ i ∧ i < pos + data.length then data.getD (i - pos) 0 else bytes.getD i 0 := by
  have hle : pos ≤ (bytes ++ zeros (pos - bytes.length)).length := by
    rw [length_append, zeros, length_replicate]
    omega
  rw [← getD_zeros bytes (pos - bytes.length), Plain.put, getD_eq_getElem?_getD, getElem?_splice hle]
  split
  · rw [getD_eq_getElem?_getD]
  · rw [getD_eq_getElem?_getD]

theorem put_nil (pos : Nat) (data : Bytes) : Plain.put [] pos data = zeros pos ++ data := by
  have hlen : (zeros pos).length = pos := length_replicate
  rw [Plain.put, length_nil, Nat.sub_zero, nil_append, splice, take_of_length_le hlen.le,
    drop_of_length_le (by omega), append_nil]

theorem Held.byte (h : Held m p old) (hi : i / loblksize = p) : byteAt m.rows i = old.getD (i % loblksize) 0 := by
  subst hi
  rcases h with h | ⟨rfl, h⟩
  · exact byteAt_mem m.sorted h
  · rw [byteAt_not_mem h]
    rfl

theorem Held.length (h : Held m p old) (hs : Short m.rows) : old.length ≤ loblksize := by
  rcases h with h | ⟨rfl, -⟩
  · exact hs _ h
  · exact Nat.zero_le _

theorem set_wrote (hs : Short m.rows) (h : Held m p old) (hfit : off + data.length ≤ loblksize)
    (hd : data ≠ []) : Wrote m (m.set p (Plain.put old off data)) (p * loblksize + off) data := by
  have hpos : 0 < data.length := length_pos_iff.mpr hd
  have hlen : (Plain.put old off data).length = max old.length (off + data.length) := by
    rw [Plain.length_put]
    omega
  have hold := h.length hs
  have hshort : Short (m.set p (Plain.put old off data)).rows := by
    intro r hr
    rcases mem_set.mp hr with ⟨-, hw⟩ | ⟨-, hr⟩
    · rw [hw, hlen]
      exact Nat.max_le.mpr ⟨hold, hfit⟩
    · exact hs r hr
  refine ⟨hshort, fun i => ?_, eq_of_forall_ge_iff fun x => ?_⟩
  · have hi := page_split i
    by_cases hp : i / loblksize = p
    · have hnew : (i / loblksize, Plain.put old off data) ∈ (m.set p (Plain.put old off data)).rows :=
        mem_set.mpr (.inl ⟨hp, rfl⟩)
      rw [byteAt_mem (m.set p _).sorted hnew, getD_put, h.byte hp]
      rw [hp] at hi
      by_cases hin : off ≤ i % loblksize ∧ i % loblksize < off + data.length
      · rw [if_pos hin, if_pos (by omega), show i - (p * loblksize + off) = i % loblksize - off by omega]
      · rw [if_neg hin, if_neg (by omega)]
    · have hout : ¬(p * loblksize + off ≤ i ∧ i < p * loblksize + off + data.length) := by
        rintro ⟨h1, h2⟩
        exact hp (div_of_page (by omega) (by omega))
      rw [if_neg hout]
      refine byteAt_congr (m.set p _).sorted m.sorted fun d => mem_set.trans ?_
      exact ⟨fun hx => hx.elim (fun hx => absurd hx.1 hp) And.right, fun hx => .inr ⟨hp, hx⟩⟩
  · rw [size_le (m.set p _).sorted hshort, max_le_iff, size_le m.sorted hs]
    constructor
    · intro hx
      have hnew : p * loblksize + (Plain.put old off data).length ≤ x := hx (p, _) (mem_set.mpr (.inl ⟨rfl, rfl⟩))
      refine ⟨fun r hr => ?_, by omega⟩
      by_cases hp : r.1 = p
      · have hr' : r.2 = old := by
          rcases h with h | ⟨-, h⟩
          · exact value_unique m.sorted (hp ▸ hr : (p, r.2) ∈ m.rows) h
          · exact absurd (hp ▸ hr : (p, r.2) ∈ m.rows) (h r.2)
        rw [hp, hr']
        omega
      · exact hx r (mem_set.mpr (.inr ⟨hp, hr⟩))
    · rintro ⟨hx, hx'⟩ r hr
      rcases mem_set.mp hr with ⟨hq, hw⟩ | ⟨-, hr⟩
      · rw [hq, hw, hlen]
        rcases h with h | ⟨rfl, -⟩
        · have hle : p * loblksize + old.length ≤ x := hx _ h
          omega
        · rw [length_nil]
          omega
      · exact hx r hr

theorem Wrote.trans (h : Wrote m m' o data) (h' : Wrote m' m'' (o + data.length) data') :
    Wrote m m'' o (data ++ data') := by
  refine ⟨h'.short, fun i => ?_, ?_⟩
  · rw [h'.byte, h.byte, length_append, getD_eq_getElem?_getD, getD_eq_getElem?_getD,
      getD_eq_getElem?_getD]
    by_cases h1 : o ≤ i ∧ i < o + data.length
    · rw [if_neg (by omega), if_pos h1, if_pos (by omega), getElem?_append_left (by omega)]
    · by_cases h2 : o + data.length ≤ i ∧ i < o + data.length + data'.length
      · rw [if_pos h2, if_pos (by omega), getElem?_append_right (by omega),
          show i - o - data.length = i - (o + data.length) by omega]
      · rw [if_neg h2, if_neg h1, if_neg (by omega)]
  · rw [h'.size, h.size, length_append]
    omega

end Pages
/-! ### The loop of `inv_write` -/

section Write
variable {s t : WriteState} {buf : Bytes} {nbytes fuel : Nat}

structure Writing (s : WriteState) (buf : Bytes) (nbytes : Nat) : Prop where
  short : Short s.pages.rows
  buf : nbytes ≤ buf.length
  small : nbytes < 2 ^ 31
  nwritten : s.nwritten ≤ nbytes
  offset : s.offset + (nbytes - s.nwritten) ≤ maxLargeObjectSize
  page : s.nwritten < nbytes → s.offset / loblksize = s.pageno
  /-- The rows from the page at hand on are still to come, or at hand. -/
  ahead : s.olddata.toList ++ s.scan = s.pages.scan s.pageno
  fresh : s.neednextpage = true → s.olddata = none
  past : s.neednextpage = false → s.olddata = none → s.scan = []

/-- After this the row at hand is the next one, if there is one. -/
theorem Writing.nextPage (h : Writing s buf nbytes) :
    ∃ t, s.nextPage = .ok t ∧ Writing t buf nbytes ∧ t.neednextpage = false ∧ t.pages = s.pages ∧
      t.offset = s.offset ∧ t.nwritten = s.nwritten ∧ t.pageno = s.pageno := by
  have ha := h.ahead
  rw [WriteState.nextPage]
  by_cases hn : s.neednextpage = true
  · have hold := h.fresh hn
    rw [hold, Option.toList_none, nil_append] at ha
    rw [if_pos hn]
    cases hscan : s.scan with
    | nil =>
      refine ⟨_, rfl, {h with ahead := ?_, fresh := by simp, past := fun _ _ => rfl}, rfl, rfl, rfl, rfl, rfl⟩
      rw [hold, Option.toList_none, nil_append]
      exact hscan.symm.trans ha
    | cons r rest =>
      rw [hscan] at ha
      have hr : (r.1, r.2) ∈ s.pages.scan s.pageno := ha ▸ mem_cons_self
      have hassert : assert (s.pageno ≤ r.1) = .ok () := if_pos (mem_scan.mp hr).1
      simp only [hassert, bind, Except.bind]
      exact ⟨_, rfl, {h with ahead := ha, fresh := by simp, past := by simp}, rfl, rfl, rfl, rfl, rfl⟩
  · rw [if_neg hn]
    exact ⟨s, rfl, h, Bool.eq_false_iff.mpr hn, rfl, rfl, rfl, rfl⟩

/-- The data is put in the page at hand, and the rows behind it are what is ahead. -/
theorem Writing.putPage (h : Writing s buf nbytes) (hn : s.neednextpage = false) (id off : Nat) (data : Bytes) :
    ∃ t old, s.putPage id off data = .ok t ∧ Held s.pages s.pageno old ∧
      t.pages = s.pages.set s.pageno (Plain.put old off data) ∧ t.offset = s.offset ∧ t.nwritten = s.nwritten ∧
      t.pageno = s.pageno ∧ t.olddata.toList ++ t.scan = t.pages.scan (s.pageno + 1) ∧
      (t.neednextpage = true → t.olddata = none) ∧ (t.neednextpage = false → t.olddata = none → t.scan = []) := by
  have ha := h.ahead
  have hset : ∀ d, (s.pages.set s.pageno d).scan (s.pageno + 1) = s.pages.scan (s.pageno + 1) :=
    fun d => scan_set (Nat.lt_succ_self _)
  have hnew : s.olddata.filter (·.1 = s.pageno) = none → (∀ d, (s.pageno, d) ∉ s.pages.rows) →
      ∃ t old, s.putPage id off data = .ok t ∧ Held s.pages s.pageno old ∧
      t.pages = s.pages.set s.pageno (Plain.put old off data) ∧ t.offset = s.offset ∧ t.nwritten = s.nwritten ∧
      t.pageno = s.pageno ∧ t.olddata.toList ++ t.scan = t.pages.scan (s.pageno + 1) ∧
      (t.neednextpage = true → t.olddata = none) ∧ (t.neednextpage = false → t.olddata = none → t.scan = []) := by
    intro hnone hmiss
    rw [WriteState.putPage, hnone]
    refine ⟨_, [], rfl, .inr ⟨rfl, hmiss⟩, ?_, rfl, rfl, rfl, ?_, h.fresh, h.past⟩
    · rw [put_nil]
    · exact (ha.trans (scan_succ hmiss).symm).trans (hset _).symm
  cases hold : s.olddata with
  | none =>
    rw [hold, Option.toList_none, nil_append, h.past hn hold] at ha
    refine hnew (by rw [hold]; rfl) fun d hd => ?_
    have hin : (s.pageno, d) ∈ s.pages.scan s.pageno := mem_scan.mpr ⟨le_rfl, hd⟩
    rw [← ha] at hin
    exact absurd hin not_mem_nil
  | some r =>
    rw [hold, Option.toList_some, singleton_append] at ha
    have hr : (r.1, r.2) ∈ s.pages.scan s.pageno := ha ▸ mem_cons_self
    by_cases hp : r.1 = s.pageno
    · have hmem : (s.pageno, r.2) ∈ s.pages.rows := hp ▸ (mem_scan.mp hr).2
      have hdata : getdatafield id r = .ok r.2 := if_neg (Nat.not_lt.mpr (h.short _ hmem))
      have hfilter : s.olddata.filter (·.1 = s.pageno) = some r := by
        rw [hold, Option.filter_some, if_pos (decide_eq_true hp)]
      have hrest : s.pages.scan (s.pageno + 1) = s.scan := hp ▸ scan_rest ha.symm
      rw [WriteState.putPage, hfilter]
      simp only [hdata, bind, Except.bind]
      refine ⟨_, r.2, rfl, .inl hmem, rfl, rfl, rfl, rfl, ?_, fun _ => rfl, nofun⟩
      exact ((hset _).trans hrest).symm
    · have hfilter : s.olddata.filter (·.1 = s.pageno) = none := by
        rw [hold, Option.filter_some, if_neg (by simpa using hp)]
      refine hnew hfilter fun d hd => ?_
      have hin : (s.pageno, d) ∈ s.pages.scan s.pageno := mem_scan.mpr ⟨le_rfl, hd⟩
      have hsorted : (s.pages.scan s.pageno).Pairwise fun a b => a.1 < b.1 := sorted_scan
      have hle := (mem_scan.mp hr).1
      rw [← ha] at hin hsorted
      rcases mem_cons.mp hin with hx | hx
      · exact hp (congrArg Prod.fst hx).symm
      · exact absurd ((pairwise_cons.mp hsorted).1 _ hx) (Nat.not_lt.mpr hle)

theorem Writing.writePage (h : Writing s buf nbytes) (id : Nat) (hlt : s.nwritten < nbytes) :
    ∃ t n, s.writePage id buf nbytes = .ok t ∧ 0 < n ∧ Writing t buf nbytes ∧ t.nwritten = s.nwritten + n ∧
      t.offset = s.offset + n ∧ Wrote s.pages t.pages s.offset ((buf.drop s.nwritten).take n) := by
  obtain ⟨u, hu, hw, hn, hpages, hoffset, hnwritten, hpageno⟩ := h.nextPage
  have hlt' : u.nwritten < nbytes := hnwritten ▸ hlt
  have hmod := Nat.mod_lt u.offset loblksize_pos
  have hsplit := page_split u.offset
  have hbuf := hw.buf
  have hmax := hw.offset
  have hbound := maxLargeObjectSize_eq
  have hpage := hw.page hlt'
  obtain ⟨k, hk⟩ : ∃ k, k = min (loblksize - u.offset % loblksize) (nbytes - u.nwritten) := ⟨_, rfl⟩
  have hlen : ((buf.drop u.nwritten).take k).length = k := by
    rw [length_take, length_drop]
    omega
  obtain ⟨t, old, ht, hheld, htpages, htoffset, htnwritten, htpageno, hahead, hfresh, hpast⟩ :=
    hw.putPage hn id (u.offset % loblksize) ((buf.drop u.nwritten).take k)
  have hne : (buf.drop u.nwritten).take k ≠ [] := length_pos_iff.mp (by omega)
  have hfit : u.offset % loblksize + ((buf.drop u.nwritten).take k).length ≤ loblksize := by
    rw [hlen]
    omega
  have hwrote := set_wrote hw.short hheld hfit hne
  have h31 : u.pageno + 1 < 2 ^ 31 := by
    have hdiv : u.offset / loblksize < 2147483647 := by
      refine Nat.div_lt_of_lt_mul (mul_comm loblksize _ ▸ ?_)
      rw [maxLargeObjectSize] at hmax
      omega
    omega
  have h1 : int32 (t.nwritten + k) = .ok (t.nwritten + k) := if_pos (by have := hw.small; omega)
  have h2 : uint64 (t.offset + k) = .ok (t.offset + k) := if_pos (by omega)
  have h3 : int32 (t.pageno + 1) = .ok (t.pageno + 1) := if_pos (by omega)
  have hrun : s.writePage id buf nbytes =
      .ok {t with nwritten := t.nwritten + k, offset := t.offset + k, pageno := t.pageno + 1} := by
    rw [WriteState.writePage]
    simp only [hu, ← hk, ht, h1, h2, h3, bind, Except.bind]
    rfl
  refine ⟨_, k, hrun, by omega, ?_, by dsimp only; omega, by dsimp only; omega, ?_⟩
  · constructor
    · rw [htpages]
      exact hwrote.short
    · exact hbuf
    · exact hw.small
    · dsimp only
      omega
    · dsimp only
      omega
    · intro hmore
      dsimp only at hmore ⊢
      refine div_of_page ?_ ?_
      · rw [htpageno, ← hpage, Nat.succ_mul]
        omega
      · rw [htpageno, ← hpage, Nat.succ_mul]
        omega
    · dsimp only
      rw [htpageno]
      exact hahead
    · exact hfresh
    · exact hpast
  · dsimp only
    rw [htpages, ← hpages, ← hoffset, ← hnwritten]
    rw [← hpage, hsplit] at hwrote
    rw [← hpage]
    exact hwrote

theorem Writing.writePages (h : Writing s buf nbytes) (id : Nat) (hlt : s.nwritten < nbytes)
    (hfuel : nbytes - s.nwritten ≤ fuel) :
    ∃ t, WriteState.writePages id buf nbytes fuel s = .ok t ∧ t.nwritten = nbytes ∧
      t.offset = s.offset + (nbytes - s.nwritten) ∧
      Wrote s.pages t.pages s.offset ((buf.drop s.nwritten).take (nbytes - s.nwritten)) := by
  induction fuel generalizing s with
  | zero => omega
  | succ fuel ih =>
    obtain ⟨t, n, ht, hn, hw, hnw, ho, hwrote⟩ := h.writePage id hlt
    have hle := hw.nwritten
    have hbuf := hw.buf
    rw [WriteState.writePages, if_pos hlt]
    simp only [ht, bind, Except.bind]
    by_cases hmore : t.nwritten < nbytes
    · obtain ⟨u, hu, hunw, huo, huwrote⟩ := ih hw hmore (by omega)
      refine ⟨u, hu, hunw, by omega, ?_⟩
      have hlen : ((buf.drop s.nwritten).take n).length = n := by
        rw [length_take, length_drop]
        omega
      rw [ho] at huwrote
      have hall := hwrote.trans (by rw [hlen]; exact huwrote)
      rw [hnw, ← drop_drop, ← take_add] at hall
      rw [show nbytes - s.nwritten = n + (nbytes - (s.nwritten + n)) by omega]
      exact hall
    · refine ⟨t, ?_, by omega, by omega, ?_⟩
      · cases fuel with
        | zero => rfl
        | succ fuel => rw [WriteState.writePages, if_neg hmore]
      · rw [show nbytes - s.nwritten = n by omega]
        exact hwrote

end Write
end PgStorage.LargeObject
