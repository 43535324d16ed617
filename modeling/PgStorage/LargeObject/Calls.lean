import PgStorage.LargeObject.Writes

/-! Any sequence of calls on a large object is one on a byte array. -/
namespace PgStorage.LargeObject
open OrderedMap
open Prod (map_snd fst)

section
variable {obj : LargeObjectDesc} {a : Plain} {m : OrderedMap Bytes} {len : Nat}

theorem write_follows (h : Refines obj a) {buf : Bytes} {nbytes : Int32} (hbuf : nbytes.toInt ≤ buf.length) :
    Follows (call obj (.write buf nbytes)) obj (a.call (.write buf nbytes)) := by
  have hhi := nbytes.toInt_lt
  have hmax := maxLargeObjectSize_eq
  have hpos := a.pos_le
  have ho := h.offset
  rw [call, Plain.call, Plain.write, invWrite]
  by_cases h0 : nbytes ≤ 0
  · rw [if_pos h0, int32_nonpos h0, List.take_zero, if_pos rfl]
    exact ⟨rfl, h⟩
  have hpositive : 0 < nbytes.toInt := Int.not_le.mp fun hle => h0 (Int32.le_iff_toInt_le.mpr hle)
  have hlen : (buf.take nbytes.toInt.toNat).length = nbytes.toInt.toNat := by
    rw [List.length_take]
    omega
  have hne : buf.take nbytes.toInt.toNat ≠ [] := List.length_pos_iff.mp (by omega)
  rw [if_neg h0, if_neg hne]
  by_cases hfit : a.pos + (buf.take nbytes.toInt.toNat).length ≤ maxLargeObjectSize
  · have hpage : int32 (obj.offset / loblksize) = .ok (obj.offset / loblksize) := if_pos (pageno_lt (ho ▸ hpos))
    have hstart : Writing ⟨obj.pages, obj.offset, 0, obj.offset / loblksize,
        obj.pages.scan (obj.offset / loblksize), none, true⟩ buf nbytes.toInt.toNat := by
      refine ⟨h.short, by omega, by omega, Nat.zero_le _, ?_, fun _ => rfl, rfl, fun _ => rfl, by simp⟩
      dsimp only
      omega
    have hmore : 0 < nbytes.toInt.toNat := by omega
    have hfuel : nbytes.toInt.toNat - 0 ≤ nbytes.toInt.toNat := Nat.sub_le _ _
    obtain ⟨t, ht, hnw, hoff, hwrote⟩ := hstart.writePages obj.id hmore hfuel
    dsimp only at hoff hwrote
    rw [Nat.sub_zero, List.drop_zero] at hwrote
    rw [dif_pos hfit, if_neg (by omega)]
    simp only [hpage, ht, bind, Except.bind]
    refine ⟨?_, hwrote.short, ?_, fun i => ?_, ?_⟩
    · rw [hlen, ← hnw]
      rfl
    · dsimp only [map_snd, id]
      rw [hwrote.size, h.size, Plain.length_put]
      omega
    · dsimp only [map_snd, id]
      rw [hwrote.byte, getD_put, h.bytes, ho]
    · dsimp only [map_snd, id]
      omega
  · rw [dif_neg hfit, if_pos (by omega)]
    exact ⟨⟨_, rfl⟩, rfl⟩

/-- The rows that are left: those of the pages before, and the page of the truncation point. -/
theorem truncatePages_eq (id : Nat) (hs : Short m.rows) (hlen : len ≤ maxLargeObjectSize) :
    ∃ m' old, truncatePages id m len = .ok m' ∧ Held m (len / loblksize) old ∧
      ∀ q w, (q, w) ∈ m'.rows ↔ (q < len / loblksize ∧ (q, w) ∈ m.rows) ∨
        (q = len / loblksize ∧ w = (old ++ zeros (len % loblksize - old.length)).take (len % loblksize)) := by
  have hpage : int32 (len / loblksize) = .ok (len / loblksize) := if_pos (pageno_lt hlen)
  have hzeros : ∀ k, (([] : Bytes) ++ zeros (k - ([] : Bytes).length)).take k = zeros k := by
    intro k
    rw [List.nil_append, List.length_nil, Nat.sub_zero]
    exact List.take_of_length_le (List.length_replicate ..).le
  have hcut : ∀ q w d, (q, w) ∈ (m.set (len / loblksize) d).rows ∧ ¬len / loblksize < q ↔
      (q < len / loblksize ∧ (q, w) ∈ m.rows) ∨ (q = len / loblksize ∧ w = d) := by
    intro q w d
    rw [mem_set]
    constructor
    · rintro ⟨⟨hq, hw⟩ | ⟨hq, hm⟩, hle⟩
      · exact .inr ⟨hq, hw⟩
      · exact .inl ⟨by omega, hm⟩
    · rintro (⟨hq, hm⟩ | ⟨hq, hw⟩)
      · exact ⟨.inr ⟨hq.ne, hm⟩, by omega⟩
      · exact ⟨.inl ⟨hq, hw⟩, by omega⟩
  rw [truncatePages]
  simp only [hpage, bind, Except.bind]
  generalize hk : len / loblksize = k at *
  have hin : ∀ q w, k ≤ q → ((q, w) ∈ m.rows ↔ (q, w) ∈ m.scan k) := fun q w hq =>
    (and_iff_right hq).symm.trans mem_scan.symm
  cases hscan : m.scan k with
  | nil =>
    rw [hscan] at hin
    refine ⟨_, [], rfl, .inr ⟨rfl, fun d hd => ?_⟩, fun q w => ?_⟩
    · exact absurd ((hin k d le_rfl).mp hd) List.not_mem_nil
    · rw [hzeros, ← hcut, iff_self_and]
      intro hm hlt
      rcases mem_set.mp hm with ⟨rfl, -⟩ | ⟨-, hm⟩
      · exact lt_irrefl _ hlt
      · exact absurd ((hin q w hlt.le).mp hm) List.not_mem_nil
  | cons r rest =>
    have hsorted : (m.scan k).Pairwise fun a b => a.1 < b.1 := sorted_scan
    have hr : (r.1, r.2) ∈ m.scan k := hscan ▸ List.mem_cons_self
    have hkr : k ≤ r.1 := (mem_scan.mp hr).1
    rw [hscan] at hin hsorted
    have hrest : ∀ t ∈ rest, r.1 < t.1 := (List.pairwise_cons.mp hsorted).1
    have hassert : assert (k ≤ r.1) = .ok () := if_pos hkr
    simp only [hassert]
    by_cases hp : r.1 = k
    · have hheld : (k, r.2) ∈ m.rows := hp ▸ (mem_scan.mp hr).2
      have hdata : getdatafield id r = .ok r.2 := if_neg (Nat.not_lt.mpr (hs _ hheld))
      have hpagecut : truncatePage id m k (len % loblksize) r =
          .ok (m.set k ((r.2 ++ zeros (len % loblksize - r.2.length)).take (len % loblksize))) := by
        rw [truncatePage, if_pos hp]
        simp only [hdata, bind, Except.bind]
        rfl
      simp only [hpagecut]
      refine ⟨_, r.2, rfl, .inl hheld, fun q w => ?_⟩
      rw [mem_foldl_erase, ← hcut]
      refine and_congr_right fun hm => ⟨fun hne hlt => ?_, fun hle t ht heq => ?_⟩
      · rcases mem_set.mp hm with ⟨rfl, -⟩ | ⟨-, hm⟩
        · exact lt_irrefl _ hlt
        · rcases List.mem_cons.mp ((hin q w hlt.le).mp hm) with hx | hx
          · exact hlt.ne' ((congrArg fst hx).trans hp)
          · exact hne _ hx rfl
      · have := hrest t ht
        omega
    · have hpagecut : truncatePage id m k (len % loblksize) r =
          .ok ((m.erase r.1).set k (zeros (len % loblksize))) := if_neg hp
      simp only [hpagecut]
      refine ⟨_, [], rfl, .inr ⟨rfl, fun d hd => ?_⟩, fun q w => ?_⟩
      · rcases List.mem_cons.mp ((hin k d le_rfl).mp hd) with hx | hx
        · exact hp (congrArg fst hx).symm
        · have := hrest _ hx
          dsimp only at this
          omega
      · rw [hzeros, ← hcut, mem_foldl_erase, mem_set, mem_set, mem_erase]
        constructor
        · rintro ⟨hx | ⟨hq, hqr, hm⟩, hne⟩
          · exact ⟨.inl hx, by omega⟩
          · refine ⟨.inr ⟨hq, hm⟩, fun hlt => ?_⟩
            rcases List.mem_cons.mp ((hin q w hlt.le).mp hm) with hx | hx
            · exact hqr (congrArg fst hx)
            · exact hne _ hx rfl
        · rintro ⟨hx | ⟨hq, hm⟩, hle⟩
          · exact ⟨.inl hx, fun t ht => by have := hrest t ht; omega⟩
          · exact ⟨.inr ⟨hq, by omega, hm⟩, fun t ht => by have := hrest t ht; omega⟩


theorem truncate_follows (h : Refines obj a) (len : Int64) :
    Follows (call obj (.truncate len)) obj (a.call (.truncate len)) := by
  have hmax := maxLargeObjectSize_eq
  have hneg : len < 0 ↔ len.toInt < 0 := Int64.lt_iff_toInt_lt
  rw [call, Plain.call, Plain.truncate, invTruncate]
  by_cases hin : 0 ≤ len.toInt ∧ len.toInt ≤ maxLargeObjectSize
  · obtain ⟨k, hk⟩ : ∃ k, k = len.toInt.toNat := ⟨_, rfl⟩
    have hkmax : k ≤ maxLargeObjectSize := by omega
    obtain ⟨m', old, hrun, hheld, hrows⟩ := truncatePages_eq obj.id h.short hkmax
    have hsplit := page_split k
    have hmod := Nat.mod_lt k loblksize_pos
    have hold := hheld.length h.short
    have hlen : ((old ++ zeros (k % loblksize - old.length)).take (k % loblksize)).length = k % loblksize := by
      rw [List.length_take, List.length_append, zeros, List.length_replicate]
      omega
    have hnew : (k / loblksize, (old ++ zeros (k % loblksize - old.length)).take (k % loblksize)) ∈ m'.rows :=
      (hrows _ _).mpr (.inr ⟨rfl, rfl⟩)
    have hshort : Short m'.rows := by
      intro r hr
      rcases (hrows r.1 r.2).mp hr with ⟨-, hr⟩ | ⟨-, hw⟩
      · exact h.short _ hr
      · rw [hw, hlen]
        exact hmod.le
    have hrun' : truncatePages obj.id obj.pages len.toInt.toNat = .ok m' := hk ▸ hrun
    rw [dif_pos hin, if_neg (by rw [hneg]; omega), hrun']
    refine ⟨rfl, hshort, ?_, fun i => ?_, h.offset⟩
    · have hsize : size m'.rows = k := by
        refine size_eq m'.sorted hshort (fun r hr => ?_) hnew (by rw [hlen, hsplit])
        rcases (hrows r.1 r.2).mp hr with ⟨hlt, hr'⟩ | ⟨hq, hw⟩
        · have hshort' := h.short _ hr'
          have hpage := page_lt hlt
          dsimp only at hshort'
          omega
        · rw [hq, hw, hlen, hsplit]
      dsimp only [map_snd, id]
      rw [hsize, ← hk, List.length_append, List.length_take, zeros, List.length_replicate]
      omega
    · dsimp only [map_snd, id]
      have hi := page_split i
      rw [← hk, getD_zeros, List.getD_eq_getElem?_getD, List.getElem?_take]
      rcases lt_trichotomy (i / loblksize) (k / loblksize) with hlt | heq | hgt
      · have hpage := page_lt hlt
        have himod := Nat.mod_lt i loblksize_pos
        rw [if_pos (by omega), ← List.getD_eq_getElem?_getD, h.bytes]
        refine byteAt_congr obj.pages.sorted m'.sorted fun d => ?_
        rw [hrows]
        exact ⟨fun hd => .inl ⟨hlt, hd⟩, fun hd => hd.elim And.right fun hd => absurd hd.1 hlt.ne⟩
      · rw [← heq] at hnew hheld
        rw [heq] at hi
        rw [byteAt_mem m'.sorted hnew, List.getD_eq_getElem?_getD, List.getElem?_take]
        by_cases hik : i < k
        · rw [if_pos hik, if_pos (by omega), ← List.getD_eq_getElem?_getD, ← List.getD_eq_getElem?_getD, getD_zeros,
            h.bytes, hheld.byte rfl]
        · rw [if_neg hik, if_neg (by omega)]
      · have hpage := page_lt hgt
        rw [if_neg (by omega), byteAt_not_mem fun d hd => ?_]
        · rfl
        · rcases (hrows _ _).mp hd with ⟨hlt, -⟩ | ⟨heq, -⟩
          · omega
          · omega
  · rw [dif_neg hin, if_pos (by rw [hneg]; omega)]
    exact ⟨⟨_, rfl⟩, rfl⟩

/-! ### Sequences of calls -/

/-- The caller's buffer is as long as the caller says. -/
def Call.Valid : Call → Prop
  | .write buf nbytes => nbytes.toInt ≤ buf.length
  | _ => True

theorem call_follows (h : Refines obj a) {c : Call} (hc : c.Valid) : Follows (call obj c) obj (a.call c) := by
  cases c with
  | seek offset whence => exact seek_follows h offset whence
  | read nbytes => exact read_follows h nbytes
  | write buf nbytes => exact write_follows h hc
  | truncate len => exact truncate_follows h len

/-- The reply is that of the array, or both reject the call. -/
def Agrees (r : Except Fault Reply) (reply : Option Reply) : Prop :=
  match reply with
  | none => ∃ errmsg, r = .error (.ereport errmsg)
  | some reply => r = .ok reply

theorem run_follows (obj : LargeObjectDesc) (a : Plain) (calls : List Call) (h : Refines obj a)
    (hc : ∀ c ∈ calls, c.Valid) :
    List.Forall₂ Agrees (run obj calls).1 (a.run calls).1 ∧ Refines (run obj calls).2 (a.run calls).2 := by
  induction calls generalizing obj a with
  | nil => exact ⟨.nil, h⟩
  | cons c rest ih =>
    obtain ⟨hcall, hrest⟩ := List.forall_mem_cons.mp hc
    have hfollows := call_follows h hcall
    rw [run, Plain.run]
    cases hplain : a.call c with
    | none =>
      rw [hplain] at hfollows
      obtain ⟨herr, hsame⟩ := hfollows
      obtain ⟨hreplies, hends⟩ := ih obj a h hrest
      rw [← hsame] at hreplies hends
      exact ⟨.cons herr hreplies, hends⟩
    | some x =>
      rw [hplain] at hfollows
      obtain ⟨hok, hb⟩ := hfollows
      obtain ⟨hreplies, hends⟩ := ih _ x.1 hb hrest
      exact ⟨.cons hok hreplies, hends⟩

/-- The array that an object stands for. -/
def LargeObjectDesc.plain (obj : LargeObjectDesc) (hsize : size obj.pages.rows ≤ maxLargeObjectSize)
    (hpos : obj.offset ≤ maxLargeObjectSize) : Plain where
  bytes := bytesFrom obj.pages.rows 0 (size obj.pages.rows)
  pos := obj.offset
  length_le := length_bytesFrom.le.trans hsize
  pos_le := hpos

theorem refines_plain (hshort : Short obj.pages.rows) (hsize : size obj.pages.rows ≤ maxLargeObjectSize)
    (hpos : obj.offset ≤ maxLargeObjectSize) : Refines obj (obj.plain hsize hpos) := by
  refine ⟨hshort, length_bytesFrom.symm, fun i => ?_, rfl⟩
  change (bytesFrom obj.pages.rows 0 (size obj.pages.rows)).getD i 0 = _
  rw [bytesFrom, List.getD_eq_getElem?_getD, List.getElem?_map]
  by_cases hi : i < size obj.pages.rows
  · rw [List.getElem?_range' hi, zero_add, one_mul]
    rfl
  · have hend : (List.range' 0 (size obj.pages.rows)).length ≤ i := by
      rw [List.length_range']
      exact Nat.le_of_not_lt hi
    rw [List.getElem?_eq_none hend, byteAt_beyond obj.pages.sorted hshort (Nat.le_of_not_lt hi)]
    rfl

/-- **A large object is a byte array.** Whatever pages it has, with holes between them or short, the calls reply
what they reply for the array, reject what it rejects, and leave what stands for the array they leave. No page
number and no offset overflows, and no assertion fails. -/
theorem large_object_plain (obj : LargeObjectDesc) (calls : List Call) (hshort : Short obj.pages.rows)
    (hsize : size obj.pages.rows ≤ maxLargeObjectSize) (hpos : obj.offset ≤ maxLargeObjectSize)
    (hc : ∀ c ∈ calls, c.Valid) :
    List.Forall₂ Agrees (run obj calls).1 ((obj.plain hsize hpos).run calls).1 ∧
      Refines (run obj calls).2 ((obj.plain hsize hpos).run calls).2 :=
  run_follows obj _ calls (refines_plain hshort hsize hpos) hc

end

/-- Written at its start and far behind it, and read back. -/
def holed : List Call := [.write [1, 2, 3] 3, .seek 5000 0, .write [4] 1, .truncate 6000, .seek 2 0, .read 10]

theorem large_object_plain_holed :
    List.Forall₂ Agrees (run ⟨0, 0, ⟨[], .nil⟩⟩ holed).1
      ((LargeObjectDesc.plain ⟨0, 0, ⟨[], .nil⟩⟩ (Nat.zero_le _) (Nat.zero_le _)).run holed).1 := by
  refine (large_object_plain _ holed (fun _ hr => absurd hr List.not_mem_nil) (Nat.zero_le _) (Nat.zero_le _) fun c hc => ?_).1
  simp only [holed, List.mem_cons, List.not_mem_nil, or_false] at hc
  rcases hc with rfl | rfl | rfl | rfl | rfl | rfl
  · exact (by decide : (3 : Int32).toInt ≤ ([1, 2, 3] : Bytes).length)
  · trivial
  · exact (by decide : (1 : Int32).toInt ≤ ([4] : Bytes).length)
  · trivial
  · trivial
  · trivial

end PgStorage.LargeObject
