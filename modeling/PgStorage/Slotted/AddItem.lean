import PgStorage.Slotted.Add

/-! What `PageAddItem` does.

A call either adds the item, or refuses to, or finds no room. It does what is asked of it unless there is no room for
the item after the line pointers have been shuffled, or line pointers that it does not write are taken for items. -/
namespace PgStorage.Slotted
open Memory Extent
open List (replicate)

section AddItem
variable {p : Page} {n offsetNumber flags : Nat} {item : List UInt8} {shuffled pageManagerShuffle : Bool}

theorem findUnused_spec (m : Mem) (limit : Nat) (hl : 1 ≤ limit) :
    1 ≤ findUnused m limit ∧ findUnused m limit ≤ limit ∧
      (findUnused m limit < limit → (getItemId m (findUnused m limit)).isUsed = false) := by
  unfold findUnused
  split
  · next n hn =>
    have hp := List.find?_some hn
    have hmem := List.mem_range'_1.mp (List.mem_of_find?_eq_some hn)
    refine ⟨by omega, by omega, fun _ => ?_⟩
    rw [Bool.and_eq_true, Bool.not_eq_true'] at hp
    exact hp.1
  · exact ⟨hl, le_refl _, fun h => absurd h (lt_irrefl _)⟩

/-- The number of the line pointer that the call is about. -/
def Page.place (p : Page) (offsetNumber : Nat) : Nat :=
  if offsetNumberIsValid offsetNumber = true then offsetNumber else findUnused p.mem (p.maxOffsetNumber + 1)

/-- A line pointer in use is not overwritten. -/
def Page.Refuses (p : Page) (pageManagerShuffle : Bool) (offsetNumber : Nat) : Prop :=
  offsetNumberIsValid offsetNumber = true ∧ pageManagerShuffle = false ∧
    ((p.line offsetNumber).isUsed = true ∨ (p.line offsetNumber).lpLen ≠ 0)

theorem toInt32_upper {u a : Nat} (hu : u ≤ 8192) (ha : a ≤ 2 ^ 32) : toInt32 (u + 2 ^ 32 - a % 2 ^ 32) =
    if 2 ^ 31 + u < a then (u : Int) + 2 ^ 32 - a else (u : Int) - a := by
  unfold toInt32
  split_ifs <;> omega

/-- There is room for the item, or there is none, or the size is so large that it goes round in 32 bits. -/
theorem placeItem_cases (hp : p.Formed) (hn : 1 ≤ n) (hlen : item.length < 2 ^ 32) (flags : Nat) (shuffled : Bool) :
    let r := placeItem {p with mem := p.madeRoom n shuffled} item n flags (p.maxOffsetNumber + 1) shuffled
    (p.Fits item.length n shuffled ∧ r = (p.written item n flags shuffled, n)) ∨
    (p.pdUpper < p.lowerFor n shuffled + doubleAlign item.length ∧
      ¬(2 ^ 31 + p.pdUpper < doubleAlign item.length ∧
        p.lowerFor n shuffled + doubleAlign item.length ≤ p.pdUpper + 2 ^ 32) ∧
      r = ({p with mem := p.madeRoom n shuffled}, 0)) ∨
    (2 ^ 31 + p.pdUpper < doubleAlign item.length ∧
      p.lowerFor n shuffled + doubleAlign item.length ≤ p.pdUpper + 2 ^ 32 ∧ r.2 = n ∧
      (r.1.line n).lpLen ≠ item.length) := by
  have hb := hp.bounds
  have hl := (hp.lowerFor n shuffled).1
  have ha : doubleAlign item.length ≤ 2 ^ 32 := doubleAlign_le _ _ (by decide) (le_of_lt hlen)
  have hlower : (if p.maxOffsetNumber + 1 < n then (linpAddr (n + 1) : Int)
      else if n = p.maxOffsetNumber + 1 ∨ shuffled = true then (p.pdLower : Int) + sizeOfItemIdData else p.pdLower) =
      p.lowerFor n shuffled := by
    unfold Page.lowerFor
    split_ifs <;> rfl
  have hupper := toInt32_upper (show p.pdUpper ≤ 8192 by omega) ha
  unfold placeItem
  dsimp only
  rw [hlower, hupper]
  by_cases hround : 2 ^ 31 + p.pdUpper < doubleAlign item.length
  · rw [if_pos hround]
    by_cases hfull : (p.lowerFor n shuffled : Int) > (p.pdUpper : Int) + 2 ^ 32 - doubleAlign item.length
    · rw [if_pos hfull]
      exact .inr (.inl ⟨by omega, by omega, rfl⟩)
    · rw [if_neg hfull]
      refine .inr (.inr ⟨hround, by omega, rfl, ?_⟩)
      -- the length of the item does not fit its field
      have hlt : (getItemId (memcpy (setItemId (p.madeRoom n shuffled) n
          ⟨(((p.pdUpper : Int) + 2 ^ 32 - doubleAlign item.length) % 2 ^ 13).toNat, flags, item.length⟩)
          ((p.pdUpper : Int) + 2 ^ 32 - doubleAlign item.length).toNat item) n).lpLen < 2 ^ 13 := getItemId_len_lt
      have hge := doubleAlign_lt item.length
      exact fun he => absurd (he ▸ hlt) (by omega)
  · rw [if_neg hround]
    by_cases hfull : (p.lowerFor n shuffled : Int) > (p.pdUpper : Int) - doubleAlign item.length
    · rw [if_pos hfull]
      exact .inr (.inl ⟨by omega, by omega, rfl⟩)
    · rw [if_neg hfull]
      have hroom : p.lowerFor n shuffled + doubleAlign item.length ≤ p.pdUpper := by omega
      refine .inl ⟨⟨hp, hn, hroom⟩, ?_⟩
      have hnat : ((p.pdUpper : Int) - doubleAlign item.length).toNat = p.pdUpper - doubleAlign item.length := by omega
      have hmod : (((p.pdUpper : Int) - doubleAlign item.length) % 2 ^ 13).toNat =
          (p.pdUpper - doubleAlign item.length) % 2 ^ 13 := by omega
      have hcast : (p.pdUpper : Int) - doubleAlign item.length = (p.pdUpper - doubleAlign item.length : Nat) := by omega
      have hu16 : toUInt16 ((p.pdUpper : Int) - doubleAlign item.length) = p.pdUpper - doubleAlign item.length := by
        rw [hcast]
        exact toUInt16_natCast (by omega)
      rw [hnat, hmod, hu16, toUInt16_natCast (by omega), Page.written]
      refine congrArg (fun m => (({mem := memcpy m _ item, pdLower := _, pdUpper := _, pdSpecial := _} : Page), n)) ?_
      unfold setItemId ItemId.toWord
      dsimp only
      rw [Nat.mod_mod]

/-! ### What is asked of a call -/

/-- The item has been added: the others keep their bytes and their order. -/
structure Added (p : Page) (item : List UInt8) (offsetNumber flags : Nat) (pageManagerShuffle : Bool) (q : Page)
    (n : Nat) : Prop where
  formed : q.Formed
  given : offsetNumberIsValid offsetNumber = true → n = offsetNumber
  free : (offsetNumberIsValid offsetNumber && pageManagerShuffle) = false → n ≤ p.maxOffsetNumber →
    p.items[n - 1]? = some none
  items : q.items = addAt p.items (offsetNumberIsValid offsetNumber && pageManagerShuffle) n (newItem item flags)
  flags : (q.line n).lpFlags = flags % 2 ^ 6
  reads : (q.line n).lpLen = item.length ∧ bytes q.mem (q.off n) (q.len n) = item

/-- The item has been added, or nothing has changed. -/
def AddOk (p : Page) (item : List UInt8) (offsetNumber flags : Nat) (pageManagerShuffle : Bool) :
    Page × Except String Nat → Prop
  | (q, .error _) => q = p
  | (q, .ok 0) => q = p
  | (q, .ok n) => Added p item offsetNumber flags pageManagerShuffle q n

/-- What a call with a place needs to do that. -/
structure Page.PlaceSafe (p : Page) (size n flags : Nat) (shuffled : Bool) : Prop where
  /-- The aligned size does not go round in 32 bits. -/
  noWrap : ¬(2 ^ 31 + p.pdUpper < doubleAlign size ∧ p.lowerFor n shuffled + doubleAlign size ≤ p.pdUpper + 2 ^ 32)
  /-- If there is no room, the shuffle copies line pointers that are alike. -/
  shuffle : p.pdUpper < p.lowerFor n shuffled + doubleAlign size → shuffled = true →
    ∀ i, n ≤ i → i ≤ p.maxOffsetNumber → p.line (i + 1) = p.line i
  /-- If there is room, the line pointers that are not written are unused, -/
  gap : p.lowerFor n shuffled + doubleAlign size ≤ p.pdUpper → p.GapUnused n
  /-- and the offset of the item fits its field. -/
  offset : p.lowerFor n shuffled + doubleAlign size ≤ p.pdUpper → p.OffsetFits size flags

theorem addOk_succ {q : Page} (hn : 1 ≤ n) :
    AddOk p item offsetNumber flags pageManagerShuffle (q, .ok n) ↔
      Added p item offsetNumber flags pageManagerShuffle q n := by
  cases n with
  | zero => exact absurd hn (Nat.not_succ_le_zero 0)
  | succ n => exact Iff.rfl

/-- Line pointers that were not written must be unused for the items to be those of before and the new one. -/
theorem gapUnused_of_items (h : p.Fits item.length n shuffled) {x : Option (List UInt8)}
    (hitems : (p.written item n flags shuffled).items = addAt p.items shuffled n x) : p.GapUnused n := by
  intro i hmax hin
  have hi : 1 ≤ i := by omega
  have hle := (written_lines_le flags h).1
  have hline := written_line flags h hi (by omega) (Nat.ne_of_lt hin)
  have hsame : oldPlace shuffled n i = i := if_neg (by omega)
  have hget := addAt_getElem? p.items x shuffled h.pos hi
  rw [if_neg (Nat.ne_of_lt hin), Page.length_items, if_pos ⟨hmax, hin⟩, ← hitems, Page.getElem?_items (by omega),
    Nat.sub_add_cancel hi, hline, hsame] at hget
  exact content_eq_none (Option.some_inj.mp hget)

theorem offsetFits_of_formed (h : p.Fits item.length n shuffled) (hf : (p.written item n flags shuffled).Formed) :
    p.OffsetFits item.length flags := by
  intro hsize hupper
  have hpos := h.pos
  have hle := (written_lines_le flags h).1
  have hused := written_isUsed flags h
  have hline := written_line_self flags h
  have h0 : doubleAlign item.length = 0 := by rw [hsize]; rfl
  by_contra hodd
  rw [decide_eq_true (show flags % 2 = 1 by omega)] at hused
  have hin := (hf.used ⟨hpos, hle, hused⟩).1
  rw [hline] at hin
  have hin' : p.pdUpper - doubleAlign item.length ≤ (p.pdUpper - doubleAlign item.length) % 2 ^ 13 := hin
  rw [h0, hupper, blcksz] at hin'
  exact absurd hin' (by decide)

/-- A call with a place does what is asked of it exactly if it is safe. -/
theorem placeItem_ok_iff (p : Page) (item : List UInt8) (offsetNumber flags : Nat) (pageManagerShuffle : Bool)
    (hp : p.Formed) (hlen : item.length < 2 ^ 32)
    (hs : (offsetNumberIsValid offsetNumber && pageManagerShuffle) = shuffled) (hn : p.place offsetNumber = n)
    (hpos : 1 ≤ n)
    (hfree : shuffled = false → n ≤ p.maxOffsetNumber → (p.line n).isUsed = false) :
    AddOk p item offsetNumber flags pageManagerShuffle
        ((placeItem {p with mem := p.madeRoom n shuffled} item n flags (p.maxOffsetNumber + 1) shuffled).map id .ok) ↔
      p.PlaceSafe item.length n flags shuffled := by
  have hgiven : offsetNumberIsValid offsetNumber = true → n = offsetNumber := fun hv => hn.symm.trans (if_pos hv)
  have hcases := placeItem_cases hp hpos hlen flags shuffled
  dsimp only at hcases
  generalize placeItem _ item n flags (p.maxOffsetNumber + 1) shuffled = r at hcases ⊢
  obtain ⟨q, k⟩ := r
  rcases hcases with ⟨hfit, hr⟩ | ⟨hfull, hwrap, hr⟩ | ⟨hround, hwrap, hk, hne⟩
  · -- there is room
    obtain ⟨rfl, rfl⟩ := Prod.mk.inj hr
    have hroom := hfit.room
    refine (addOk_succ hpos).trans ⟨fun h => ⟨by omega, fun hfull => absurd hroom (Nat.not_le_of_lt hfull),
      fun _ => gapUnused_of_items hfit (hs ▸ h.items), fun _ => offsetFits_of_formed hfit h.formed⟩, fun h => ?_⟩
    have hgap := h.gap hroom
    refine ⟨written_formed hfit hgap (h.offset hroom), hgiven, fun hsf hle => ?_,
      by rw [hs]; exact written_items hfit hgap,
      congrArg ItemId.lpFlags (written_line_self flags hfit), congrArg ItemId.lpLen (written_line_self flags hfit),
      written_bytes hfit⟩
    rw [Page.getElem?_items (by omega), Nat.sub_add_cancel hpos, content_of_unused (hfree (hs ▸ hsf) hle)]
  · -- there is none: the page is that of before if the shuffle has changed nothing
    obtain ⟨rfl, rfl⟩ := Prod.mk.inj hr
    have hsame : ({p with mem := p.madeRoom n shuffled} : Page) = p ↔ p.madeRoom n shuffled = p.mem :=
      ⟨fun h => congrArg Page.mem h, fun h => by rw [h]⟩
    refine (hsame.trans (madeRoom_eq_iff hpos)).trans ⟨fun h => ⟨hwrap, fun _ => h, fun hroom => ?_, fun hroom => ?_⟩,
      fun h => h.shuffle hfull⟩
    · exact absurd hroom (Nat.not_le_of_lt hfull)
    · exact absurd hroom (Nat.not_le_of_lt hfull)
  · -- the size went round
    dsimp only at hk
    obtain rfl := hk
    exact (addOk_succ hpos).trans ⟨fun h => absurd h.reads.1 hne, fun h => absurd ⟨hround, hwrap⟩ h.noWrap⟩

/-- **`PageAddItem`** adds the item or changes nothing exactly if it refuses to, or its place is safe. -/
theorem pageAddItem_ok_iff (p : Page) (item : List UInt8) (offsetNumber flags : Nat) (pageManagerShuffle : Bool)
    (hp : p.Formed) (hlen : item.length < 2 ^ 32) :
    AddOk p item offsetNumber flags pageManagerShuffle (pageAddItem pageManagerShuffle p item offsetNumber flags) ↔
      p.Refuses pageManagerShuffle offsetNumber ∨
        p.PlaceSafe item.length (p.place offsetNumber) flags
          (offsetNumberIsValid offsetNumber && pageManagerShuffle) := by
  have hb := hp.bounds
  have hlimit : offsetNumberNext p.maxOffsetNumber = p.maxOffsetNumber + 1 := by
    unfold offsetNumberNext
    omega
  have hfind := findUnused_spec p.mem (p.maxOffsetNumber + 1) (Nat.succ_pos _)
  have hok := placeItem_ok_iff p item offsetNumber flags pageManagerShuffle hp hlen rfl rfl
  unfold pageAddItem
  dsimp only
  rw [hlimit]
  cases hv : offsetNumberIsValid offsetNumber with
  | false =>
    have hplace : p.place offsetNumber = findUnused p.mem (p.maxOffsetNumber + 1) :=
      if_neg (by rw [hv]; exact Bool.false_ne_true)
    have hnot : ¬p.Refuses pageManagerShuffle offsetNumber := fun h => Bool.noConfusion (hv.symm.trans h.1)
    rw [hplace, hv] at hok
    rw [if_neg Bool.false_ne_true, hplace]
    exact (hok hfind.1 fun _ hle => hfind.2.2 (Nat.lt_succ_of_le hle)).trans (or_iff_right hnot).symm
  | true =>
    have hplace : p.place offsetNumber = offsetNumber := if_pos hv
    have hpos : 1 ≤ offsetNumber := Nat.one_le_iff_ne_zero.mpr (of_decide_eq_true hv).1
    rw [hplace, hv] at hok
    rw [if_pos rfl, hplace]
    cases pageManagerShuffle with
    | true =>
      have hnot : ¬p.Refuses true offsetNumber := fun h => Bool.noConfusion h.2.1
      rw [if_pos rfl]
      exact (hok hpos (fun h => Bool.noConfusion h)).trans (or_iff_right hnot).symm
    | false =>
      rw [if_neg Bool.false_ne_true]
      by_cases hused : (getItemId p.mem offsetNumber).isUsed = true ∨ (getItemId p.mem offsetNumber).lpLen ≠ 0
      · rw [if_pos hused]
        exact iff_of_true rfl (.inl ⟨hv, rfl, hused⟩)
      · have hnot : ¬p.Refuses false offsetNumber := fun h => hused h.2.2
        rw [if_neg hused]
        refine (hok hpos fun _ _ => ?_).trans (or_iff_right hnot).symm
        exact Bool.eq_false_iff.mpr fun h => hused (.inl h)

end AddItem

/-- A page that has been initialized is well formed and aligned. -/
theorem pageInit_formed (m : Mem) {specialSize : Nat} (h : doubleAlign specialSize + 8 ≤ blcksz) :
    (pageInit m blcksz specialSize).Formed ∧ (pageInit m blcksz specialSize).Aligned := by
  have hd := dvd_doubleAlign specialSize
  unfold blcksz at h
  have hupper : toUInt16 ((blcksz : Int) - doubleAlign specialSize) = 8192 - doubleAlign specialSize := by
    unfold toUInt16 blcksz
    omega
  have hnone (i : Nat) : ¬(pageInit m blcksz specialSize).Used i := by
    rintro ⟨h1, h2, -⟩
    have hlower : (pageInit m blcksz specialSize).pdLower = 8 := rfl
    have hmax := Page.maxOffsetNumber_eq (le_of_eq hlower.symm) (by omega)
    omega
  refine ⟨⟨le_refl _, ?_, le_refl _, ?_, fun i hi => absurd hi (hnone i), fun i _ hi => absurd hi (hnone i)⟩,
    ⟨?_, ?_, fun i hi => absurd hi (hnone i)⟩⟩
  · show 8 ≤ toUInt16 _
    rw [hupper]
    omega
  · show toUInt16 _ ≤ 8192
    rw [hupper]
    omega
  · show 8 ∣ toUInt16 _
    rw [hupper]
    omega
  · show 8 ∣ toUInt16 _
    rw [hupper]
    omega

/-- A page without items, all bytes zero. -/
def blank : Page := pageInit (fun _ => 0) blcksz 0

theorem blank_formed : blank.Formed := (pageInit_formed _ (by decide)).1

theorem blank_add : AddOk blank [1, 2, 3] 0 1 true (pageAddItem true blank [1, 2, 3] 0 1) ↔
    blank.Refuses true 0 ∨ blank.PlaceSafe 3 (blank.place 0) 1 (offsetNumberIsValid 0 && true) :=
  pageAddItem_ok_iff blank [1, 2, 3] 0 1 true blank_formed (by decide)

/-- Two items, with no room for another one between the line pointers and the special space. -/
def crowded : Page :=
  { mem := memcpy (memcpy (setItemId (setItemId (fun _ => 0) 1 ⟨32, 1, 8⟩) 2 ⟨24, 1, 8⟩) 32 (replicate 8 1)) 24
      (replicate 8 2)
    pdLower := 16
    pdUpper := 24
    pdSpecial := 40 }

theorem crowded_formed : crowded.Formed := by
  have hmax : crowded.maxOffsetNumber = 2 := rfl
  have h1 : crowded.line 1 = ⟨32, 1, 8⟩ := by decide
  have h2 : crowded.line 2 = ⟨24, 1, 8⟩ := by decide
  have hused (i : Nat) (hi : crowded.Used i) : i = 1 ∨ i = 2 := by
    obtain ⟨hi1, hi2, -⟩ := hi
    omega
  refine ⟨by decide, by decide, by decide, by decide, fun i hi => ?_, fun i j hi hj hij => ?_⟩
  · unfold Page.off Page.len
    rcases hused i hi with rfl | rfl
    · rw [h1]
      decide
    · rw [h2]
      decide
  · unfold Page.off Page.len
    rcases hused i hi with rfl | rfl <;> rcases hused j hj with rfl | rfl
    · exact absurd rfl hij
    · rw [h1, h2]
      decide
    · rw [h1, h2]
      decide
    · exact absurd rfl hij

/-- The call finds no room, after it has put the line pointer of the first item over that of the second. -/
theorem crowded_damaged : crowded.Formed ∧ (pageAddItem true crowded (replicate 16 3) 1 1).2 = .ok 0 ∧
    (pageAddItem true crowded (replicate 16 3) 1 1).1.items =
      [some (replicate 8 1), some (replicate 8 1)] ∧
    crowded.items = [some (replicate 8 1), some (replicate 8 2)] :=
  ⟨crowded_formed, by decide +kernel, by decide +kernel, by decide +kernel⟩

end PgStorage.Slotted
