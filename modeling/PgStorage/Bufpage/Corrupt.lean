import PgStorage.Bufpage.MultiDelete

/-! Corrupt pages.

Nothing is known about the bytes of a page or the pointers in its header. The checks of the routines are enough to keep
all writes below `pd_special`. They say nothing about the number of line pointers, so that the arrays in which two of
the routines collect items may be too small. -/
namespace PgStorage.Bufpage
open Memory List Nat

/-- If the routine does not raise an error, it does not write at `pd_special` or behind it. -/
def Contained (page : Page) (r : Option Page) : Prop := ∀ q ∈ r, ∀ a, page.pdSpecial ≤ a → q.mem a = page.mem a

/-- How a loop ends that fills a local array. -/
inductive Fill where
  | done
  | error
  | overrun
deriving DecidableEq

/-- The loop of `PageRepairFragmentation` that fills `itemidbase`, with the number of entries filled. An entry is
written before its offset is checked. -/
def fillStorage (limit : Nat) (bad : ItemIdSort → Bool) : List ItemIdSort → Nat → Fill
  | [], _ => .done
  | it :: rest, k =>
    if limit ≤ k then .overrun
    else if bad it then .error
    else fillStorage limit bad rest (k + 1)

def Page.badItem (page : Page) (it : ItemIdSort) : Bool :=
  decide (it.itemoff < page.pdUpper ∨ page.pdSpecial ≤ it.itemoff)

/-- The items that `PageRepairFragmentation` finds. -/
def Page.repairItems (page : Page) : List ItemIdSort :=
  storageItems (clearUnused page.mem page.maxOffsetNumber) page.maxOffsetNumber

/-- `PageRepairFragmentation` writes behind `itemidbase`. -/
def Page.RepairOverruns (page : Page) : Prop :=
  page.pointersOk = true ∧ page.pdSpecial = maxAlign page.pdSpecial ∧
    fillStorage maxHeapTuplesPerPage page.badItem page.repairItems 0 = .overrun

def Page.badLine (page : Page) (offnum : Nat) : Bool :=
  let lp := getItemId page.mem offnum
  decide (lp.lpOff < page.pdUpper ∨ page.pdSpecial < lp.lpOff + lp.lpLen ∨ lp.lpOff ≠ maxAlign lp.lpOff)

/-- The loop of `PageIndexMultiDelete` that fills `itemidbase` and `newitemids`, with `nused`. -/
def fillKept (limit : Nat) (bad : Nat → Bool) : List Nat → List Nat → Nat → Fill
  | [], _, _ => .done
  | offnum :: rest, itemnos, nused =>
    if bad offnum then .error
    else if itemnos.head? = some offnum then fillKept limit bad rest itemnos.tail nused
    else if limit ≤ nused then .overrun
    else fillKept limit bad rest itemnos (nused + 1)

/-- `PageIndexMultiDelete` writes behind its arrays. -/
def Page.MultiDeleteOverruns (page : Page) (itemnos : List Nat) : Prop :=
  2 < itemnos.length ∧ page.pointersOk = true ∧ page.pdSpecial = maxAlign page.pdSpecial ∧
    fillKept maxIndexTuplesPerPage page.badLine (List.range' 1 page.maxOffsetNumber) itemnos 0 = .overrun

/-- All routines write below `pd_special` and inside their arrays. -/
structure Safe (page : Page) (offnum : Nat) (itemnos : List Nat) (newtup : List UInt8) : Prop where
  repair : Contained page (pageRepairFragmentation page)
  itemidbase : ¬ page.RepairOverruns
  delete : Contained page (pageIndexTupleDelete page offnum)
  multiDelete : Contained page (pageIndexMultiDelete page itemnos)
  newitemids : ¬ page.MultiDeleteOverruns itemnos
  deleteNoCompact : Contained page (pageIndexTupleDeleteNoCompact page offnum)
  overwrite : Contained page ((pageIndexTupleOverwrite page offnum newtup).map Prod.fst)

/-- How many of the listed offset numbers the loop meets. -/
def matched : List Nat → List Nat → Nat
  | [], _ => 0
  | offnum :: rest, itemnos =>
    if itemnos.head? = some offnum then matched rest itemnos.tail + 1 else matched rest itemnos

/-- The header is refused; or there are not too many line pointers with storage, or one of the first ones is corrupt. -/
def Page.RepairFits (page : Page) : Prop :=
  page.pointersOk = true → page.pdSpecial = maxAlign page.pdSpecial →
    page.repairItems.length ≤ maxHeapTuplesPerPage ∨
      ∃ it ∈ page.repairItems.take maxHeapTuplesPerPage, page.badItem it = true

/-- The list is short or the header refused; or not too many line pointers before the first corrupt one are kept. -/
def Page.MultiDeleteFits (page : Page) (itemnos : List Nat) : Prop :=
  2 < itemnos.length → page.pointersOk = true → page.pdSpecial = maxAlign page.pdSpecial →
    let sound := (List.range' 1 page.maxOffsetNumber).takeWhile fun offnum => !page.badLine offnum
    sound.length ≤ maxIndexTuplesPerPage + matched sound itemnos

theorem fillStorage_overrun_iff {limit k : Nat} (bad : ItemIdSort → Bool) (l : List ItemIdSort) (hk : k ≤ limit) :
    fillStorage limit bad l k = .overrun ↔ limit < k + l.length ∧ ∀ it ∈ l.take (limit - k), bad it = false := by
  induction l generalizing k with
  | nil => exact ⟨fun h => (nomatch h), fun h => absurd h.1 (not_lt.mpr hk)⟩
  | cons it l ih =>
    rw [fillStorage, length_cons]
    rcases lt_or_eq_of_le hk with hlt | rfl
    · rw [if_neg (not_le.mpr hlt), show limit - k = limit - (k + 1) + 1 by omega, take_succ_cons]
      cases hbad : bad it with
      | true => exact ⟨fun h => (nomatch h), fun h => absurd (h.2 it mem_cons_self) (by rw [hbad]; decide)⟩
      | false =>
        rw [if_neg Bool.false_ne_true, ih hlt, forall_mem_cons]
        exact ⟨fun h => ⟨by omega, hbad, h.2⟩, fun h => ⟨by omega, h.2.2⟩⟩
    · rw [if_pos (Nat.le_refl k), Nat.sub_self, take_zero]
      exact ⟨fun _ => ⟨by omega, fun _ h => absurd h not_mem_nil⟩, fun _ => rfl⟩

theorem matched_le (lines itemnos : List Nat) : matched lines itemnos ≤ lines.length := by
  induction lines generalizing itemnos with
  | nil => exact le_refl 0
  | cons offnum lines ih =>
    rw [matched, length_cons]
    split_ifs
    · exact succ_le_succ (ih _)
    · exact le_succ_of_le (ih _)

theorem fillKept_overrun_iff {limit nused : Nat} (bad : Nat → Bool) (lines itemnos : List Nat) (hk : nused ≤ limit) :
    fillKept limit bad lines itemnos nused = .overrun ↔
      limit + matched (lines.takeWhile fun t => !bad t) itemnos < nused + (lines.takeWhile fun t => !bad t).length := by
  induction lines generalizing itemnos nused with
  | nil => exact ⟨fun h => (nomatch h), fun h => absurd h (not_lt.mpr (le_trans hk (le_add_right _ _)))⟩
  | cons offnum lines ih =>
    rw [fillKept]
    cases hbad : bad offnum with
    | true =>
      rw [if_pos rfl, takeWhile_cons_of_neg (by rw [hbad]; decide)]
      exact ⟨fun h => (nomatch h), fun h => absurd h (not_lt.mpr (le_trans hk (le_add_right _ _)))⟩
    | false =>
      rw [if_neg Bool.false_ne_true, takeWhile_cons_of_pos (by rw [hbad]; decide), matched, length_cons]
      split_ifs with hhead hfull
      · rw [ih _ hk]
        omega
      · refine ⟨fun _ => ?_, fun _ => rfl⟩
        have := matched_le (lines.takeWhile fun t => !bad t) itemnos
        omega
      · rw [ih _ (by omega)]
        omega

theorem Page.repairOverruns_iff (page : Page) : ¬ page.RepairOverruns ↔ page.RepairFits := by
  unfold RepairOverruns RepairFits
  rw [fillStorage_overrun_iff _ _ (Nat.zero_le _), Nat.zero_add, Nat.sub_zero]
  constructor
  · intro hnot hok hal
    by_contra! hcon
    exact hnot ⟨hok, hal, hcon.1, fun it hit => Bool.eq_false_of_not_eq_true (hcon.2 it hit)⟩
  · rintro hfits ⟨hok, hal, hlen, hall⟩
    rcases hfits hok hal with hle | ⟨it, hit, hbad⟩
    · exact not_lt.mpr hle hlen
    · rw [hall it hit] at hbad
      cases hbad

theorem Page.multiDeleteOverruns_iff (page : Page) (itemnos : List Nat) :
    ¬ page.MultiDeleteOverruns itemnos ↔ page.MultiDeleteFits itemnos := by
  unfold MultiDeleteOverruns MultiDeleteFits
  rw [fillKept_overrun_iff _ _ _ (Nat.zero_le _), Nat.zero_add]
  constructor
  · intro hnot hlong hok hal
    exact not_lt.mp fun hlt => hnot ⟨hlong, hok, hal, hlt⟩
  · rintro hfits ⟨hlong, hok, hal, hlt⟩
    exact not_lt.mpr (hfits hlong hok hal) hlt

/-! ### The writes -/

section Writes
variable {page p q : Page} {m : Mem} {u a : Nat}

theorem pointersOk_iff : page.pointersOk = true ↔
    24 ≤ page.pdLower ∧ page.pdLower ≤ page.pdUpper ∧ page.pdUpper ≤ page.pdSpecial ∧ page.pdSpecial ≤ 8192 :=
  decide_eq_true_iff

/-- The line pointers are below `pd_lower`. -/
theorem lines_below (h : page.pointersOk = true) : 24 + 4 * page.maxOffsetNumber ≤ page.pdLower :=
  Page.lines_le (pointersOk_iff.mp h).1

/-- What the checks of a line pointer promise. -/
theorem targetOk_bounds {offnum : Nat} (h : page.targetOk offnum = true) :
    page.pointersOk = true ∧ 1 ≤ offnum ∧ offnum ≤ page.maxOffsetNumber ∧
      page.pdUpper ≤ (getItemId page.mem offnum).lpOff ∧
      (getItemId page.mem offnum).lpOff + maxAlign (getItemId page.mem offnum).lpLen ≤ page.pdSpecial := by
  unfold Page.targetOk at h
  simp only [Bool.and_eq_true, decide_eq_true_iff] at h
  obtain ⟨⟨⟨hok, hal⟩, h1, hn⟩, hup, hend, hoff⟩ := h
  have hal := eq_maxAlign_iff.mp hal
  have hoff := eq_maxAlign_iff.mp hoff
  have := maxAlign_le (a := page.pdSpecial - (getItemId page.mem offnum).lpOff)
    (n := (getItemId page.mem offnum).lpLen) (by omega) (by omega)
  exact ⟨hok, h1, hn, hup, by omega⟩

/-- Compacting writes line pointers, and tuples from `pd_special` down. -/
theorem compactify_frame (l : List ItemIdSort) (hidx : ∀ it ∈ l, 28 + 4 * it.offsetindex ≤ a) (hu : u ≤ a)
    (hsum : (l.map ItemIdSort.alignedlen).sum ≤ u) : (l.foldl compactifyTuple (m, u)).1 a = m a := by
  induction l generalizing m u with
  | nil => rfl
  | cons it l ih =>
    rw [map_cons, sum_cons] at hsum
    have hit := hidx it mem_cons_self
    rw [foldl_cons]
    have hrest := ih (fun x hx => hidx x (mem_cons_of_mem it hx)) (u := u - it.alignedlen)
      (m := (compactifyTuple (m, u) it).1) (by omega) (by omega)
    refine hrest.trans ?_
    unfold compactifyTuple
    dsimp only
    rw [setItemId_of_le (by omega) (by omega), memmove_of_not_mem (by omega)]

theorem compactifyTuples_frame (items : List ItemIdSort) (hidx : ∀ it ∈ items, 28 + 4 * it.offsetindex ≤ page.pdSpecial)
    (hsum : (items.map ItemIdSort.alignedlen).sum ≤ page.pdSpecial) (ha : page.pdSpecial ≤ a) :
    (compactifyTuples page items).mem a = page.mem a := by
  have hperm := sortItems_perm items
  refine compactify_frame _ (fun it hit => le_trans (hidx it (hperm.mem_iff.mp hit)) ha) ha ?_
  rw [(hperm.map ItemIdSort.alignedlen).sum_nat]
  exact hsum

theorem repair_contained (page : Page) : Contained page (pageRepairFragmentation page) := by
  intro q hq a ha
  unfold pageRepairFragmentation at hq
  split at hq
  · next hok =>
    obtain ⟨h1, h2, h3, h4⟩ := pointersOk_iff.mp hok.1
    have hlines := lines_below hok.1
    have hclear := (clearUnused_spec page.mem page.maxOffsetNumber).2 a (by omega)
    dsimp only at hq
    split at hq
    · cases hq
      exact hclear
    · split at hq
      · cases hq
      · split at hq
        · cases hq
        · split at hq
          · cases hq
          · next htotal =>
            cases hq
            refine Eq.trans ?_ hclear
            refine compactifyTuples_frame _ (fun it hit => ?_) ?_ ha
            · have := (mem_storageItems.mp hit).1
              dsimp only
              omega
            · dsimp only
              omega
  · cases hq

/-- The tuples in front of the target are moved up to its end at most. -/
theorem moved_frame {offnum : Nat} (hok : page.targetOk offnum = true) (m : Mem) (ha : page.pdSpecial ≤ a) :
    memmove m (page.pdUpper + maxAlign (getItemId page.mem offnum).lpLen) page.pdUpper
      ((getItemId page.mem offnum).lpOff - page.pdUpper) a = m a := by
  obtain ⟨-, -, -, hup, hend⟩ := targetOk_bounds hok
  exact memmove_of_not_mem (by omega)

theorem adjust_frame (h : page.pointersOk = true) (m : Mem) {nline : Nat} (hn : nline ≤ page.maxOffsetNumber)
    (moved : ItemId → Bool) (delta : Int) (ha : page.pdSpecial ≤ a) : adjustLines m nline moved delta a = m a := by
  obtain ⟨h1, h2, h3, h4⟩ := pointersOk_iff.mp h
  have hlines := lines_below h
  exact (adjustLines_spec m nline moved delta).2 a (by omega)

theorem set_frame {offnum : Nat} (hok : page.targetOk offnum = true) (m : Mem) (lp : ItemId)
    (ha : page.pdSpecial ≤ a) : setItemId m offnum lp a = m a := by
  obtain ⟨hp, ht1, htn, -⟩ := targetOk_bounds hok
  obtain ⟨h1, h2, h3, h4⟩ := pointersOk_iff.mp hp
  have hlines := lines_below hp
  exact setItemId_of_le ht1 (by omega)

theorem delete_contained {offnum : Nat} (h : pageIndexTupleDelete page offnum = some q) :
    q.pdSpecial = page.pdSpecial ∧ ∀ a, page.pdSpecial ≤ a → q.mem a = page.mem a := by
  unfold pageIndexTupleDelete at h
  split at h
  · next hok =>
    obtain ⟨hp, ht1, htn, -⟩ := targetOk_bounds hok
    obtain ⟨h1, h2, h3, h4⟩ := pointersOk_iff.mp hp
    have hlines := lines_below hp
    have haddr := linpAddr_eq ht1
    have haddr' := linpAddr_succ offnum
    have hline (a : Nat) (ha : page.pdSpecial ≤ a) : memmove page.mem (linpAddr offnum) (linpAddr (offnum + 1))
        (page.pdLower - linpAddr (offnum + 1)) a = page.mem a := memmove_of_not_mem (by omega)
    dsimp only at h
    split_ifs at h <;> cases h <;> refine ⟨rfl, fun a ha => ?_⟩ <;>
      simp only [adjust_frame hp _ (sub_le _ _) _ _ ha, moved_frame hok _ ha, hline a ha]
  · cases h

theorem retail_contained (l : List Nat) (h : l.foldlM pageIndexTupleDelete page = some q) :
    ∀ a, page.pdSpecial ≤ a → q.mem a = page.mem a := by
  induction l generalizing page with
  | nil =>
    cases h
    exact fun _ _ => rfl
  | cons t l ih =>
    obtain ⟨p, hp, hq⟩ := Option.bind_eq_some_iff.mp h
    obtain ⟨hspecial, hmem⟩ := delete_contained hp
    exact fun a ha => (ih hq a (hspecial ▸ ha)).trans (hmem a ha)

theorem deleteNoCompact_contained (page : Page) (offnum : Nat) :
    Contained page (pageIndexTupleDeleteNoCompact page offnum) := by
  intro q hq a ha
  unfold pageIndexTupleDeleteNoCompact at hq
  split at hq
  · next hok =>
    obtain ⟨hp, -⟩ := targetOk_bounds hok
    dsimp only at hq
    split_ifs at hq <;> cases hq <;>
      simp only [adjust_frame hp _ (sub_le _ _) _ _ ha, adjust_frame hp _ (le_refl _) _ _ ha,
        moved_frame hok _ ha, set_frame hok _ _ ha]
  · cases hq

theorem scanItems_length {lines itemnos rest : List Nat} {ks : List ItemId}
    (h : scanItems page lines itemnos = some (ks, rest)) : ks.length ≤ lines.length := by
  induction lines generalizing itemnos ks with
  | nil =>
    cases h
    exact le_refl 0
  | cons offnum lines ih =>
    rw [scanItems] at h
    split_ifs at h
    · exact le_succ_of_le (ih h)
    · obtain ⟨⟨ks', rest'⟩, hr, heq⟩ := Option.map_eq_some_iff.mp h
      cases heq
      exact succ_le_succ (ih hr)

theorem multiDelete_contained (page : Page) (itemnos : List Nat) :
    Contained page (pageIndexMultiDelete page itemnos) := by
  intro q hq a ha
  unfold pageIndexMultiDelete at hq
  split at hq
  · exact retail_contained _ hq a ha
  · split at hq
    · next hok =>
      obtain ⟨h1, h2, h3, h4⟩ := pointersOk_iff.mp hok.1
      have hlines := lines_below hok.1
      split at hq
      · cases hq
      · next ks rest hscan =>
        have hlen := scanItems_length hscan
        rw [length_range'] at hlen
        have hwrite : writeLines page.mem ks a = page.mem a := (writeFrom_spec page.mem 0 ks).2 a (by omega)
        dsimp only at hq
        split at hq
        · cases hq
        · split at hq
          · cases hq
          · split at hq
            · cases hq
            · next htotal =>
              cases hq
              refine Eq.trans ?_ hwrite
              refine compactifyTuples_frame _ (fun it hit => ?_)
                (le_trans (not_lt.mp htotal) (sub_le _ _)) ha
              obtain ⟨e, he, rfl⟩ := List.mem_map.mp hit
              have hidx := List.mem_zipIdx_iff_getElem?.mp he
              have := (List.getElem?_eq_some_iff.mp hidx).1
              dsimp only
              omega
    · cases hq

theorem overwrite_contained (page : Page) (offnum : Nat) (newtup : List UInt8) :
    Contained page ((pageIndexTupleOverwrite page offnum newtup).map Prod.fst) := by
  intro q hq a ha
  obtain ⟨⟨q, _⟩, hq, rfl⟩ := Option.map_eq_some_iff.mp hq
  unfold pageIndexTupleOverwrite at hq
  split at hq
  · next hok =>
    obtain ⟨hp, ht1, htn, hup, hend⟩ := targetOk_bounds hok
    obtain ⟨h1, h2, h3, h4⟩ := pointersOk_iff.mp hp
    dsimp only at hq
    split at hq
    · cases hq
      rfl
    · next hfits =>
      have hnew := le_maxAlign newtup.length
      have h32 : toInt32 (maxAlign newtup.length) = maxAlign newtup.length := toInt32_of_lt (by omega)
      rw [h32] at hq
      generalize hd : (maxAlign (getItemId page.mem offnum).lpLen : Int) - maxAlign newtup.length = d at hq
      have hoff : (((getItemId page.mem offnum).lpOff : Int) + d).toNat + newtup.length ≤ page.pdSpecial ∧
          (((getItemId page.mem offnum).lpOff : Int) + d).toNat < 2 ^ 15 := by omega
      have hcopy (m : Mem) : memcpy (setItemId m offnum ⟨((getItemId page.mem offnum).lpOff + d).toNat, lpNormal,
          newtup.length⟩) (getItemId (setItemId m offnum ⟨((getItemId page.mem offnum).lpOff + d).toNat, lpNormal,
          newtup.length⟩) offnum).lpOff newtup a = m a := by
        have hset := set_frame hok m ⟨((getItemId page.mem offnum).lpOff + d).toNat, lpNormal, newtup.length⟩ ha
        rw [getItemId_setItemId_self, memcpy_of_not_mem, hset]
        show a < (((getItemId page.mem offnum).lpOff : Int) + d).toNat % 2 ^ 15 ∨
          (((getItemId page.mem offnum).lpOff : Int) + d).toNat % 2 ^ 15 + newtup.length ≤ a
        rw [mod_eq_of_lt hoff.2]
        omega
      have hmove : memmove page.mem (page.pdUpper + d).toNat page.pdUpper
          ((getItemId page.mem offnum).lpOff - page.pdUpper) a = page.mem a := memmove_of_not_mem (by omega)
      split_ifs at hq
      · cases hq
        refine (hcopy _).trans (Eq.trans ?_ hmove)
        exact adjust_frame hp _ (le_refl page.maxOffsetNumber)
          (fun lp => lp.hasStorage && decide (lp.lpOff ≤ (getItemId page.mem offnum).lpOff)) d ha
      · cases hq
        exact hcopy _
  · cases hq

end Writes

/-- **Corrupt pages are contained exactly when the arrays are large enough** for what the line pointers ask for. -/
theorem safe_iff (page : Page) (offnum : Nat) (itemnos : List Nat) (newtup : List UInt8) :
    Safe page offnum itemnos newtup ↔ page.RepairFits ∧ page.MultiDeleteFits itemnos := by
  constructor
  · intro h
    exact ⟨page.repairOverruns_iff.mp h.itemidbase, (page.multiDeleteOverruns_iff itemnos).mp h.newitemids⟩
  · rintro ⟨hrepair, hmulti⟩
    exact ⟨repair_contained page, page.repairOverruns_iff.mpr hrepair, fun q hq => (delete_contained hq).2,
      multiDelete_contained page itemnos, (page.multiDeleteOverruns_iff itemnos).mpr hmulti,
      deleteNoCompact_contained page offnum, overwrite_contained page offnum newtup⟩

/-- A page of 500 line pointers for the same bytes. -/
def repeatedPage : Page where
  mem a := if 24 ≤ a ∧ a < 2024 then store32 (fun _ => 0) (a / 4 * 4) (ItemId.toWord ⟨8184, lpNormal, 1⟩) a else 0
  pdLower := 2024
  pdUpper := 8184
  pdSpecial := 8192
  hasFreeLines := false

theorem repeatedPage_line : ∀ i < 500, repeatedPage.line (i + 1) = ⟨8184, lpNormal, 1⟩ := by decide +kernel

theorem clearUnused_self {m : Mem} {n : Nat} (h : ∀ i, 1 ≤ i → i ≤ n → (getItemId m i).isUsed = true) :
    clearUnused m n = m := by
  induction n with
  | zero => rfl
  | succ n ih =>
    have hprev := ih fun i hi hin => h i hi (le_succ_of_le hin)
    unfold clearUnused at hprev ⊢
    rw [range'_1_concat, foldl_append, hprev, foldl_cons, foldl_nil,
      if_pos (h (1 + n) (by omega) (by omega))]

theorem repeatedPage_overruns : repeatedPage.RepairOverruns ∧ ¬ Safe repeatedPage 1 [] [] := by
  have hmax : repeatedPage.maxOffsetNumber = 500 := rfl
  have hline : ∀ i, 1 ≤ i → i ≤ 500 → getItemId repeatedPage.mem i = ⟨8184, lpNormal, 1⟩ := by
    intro i hi hin
    have := repeatedPage_line (i - 1) (by omega)
    rwa [Nat.sub_add_cancel hi] at this
  have hitems : repeatedPage.repairItems = (range 500).map fun i => ⟨i, 8184, 8⟩ := by
    rw [Page.repairItems, hmax, clearUnused_self fun i hi hin => by rw [hline i hi hin]; rfl, storageItems,
      ← filterMap_eq_map]
    refine filterMap_congr fun i hi => ?_
    rw [hline (i + 1) (by omega) (by have := mem_range.mp hi; omega)]
    rfl
  have hrepair : repeatedPage.RepairOverruns := by
    refine ⟨by decide, by decide, (fillStorage_overrun_iff _ _ (zero_le _)).mpr ?_⟩
    rw [hitems]
    refine ⟨by rw [length_map, length_range]; decide, fun it hit => ?_⟩
    obtain ⟨i, -, rfl⟩ := mem_map.mp (mem_of_mem_take hit)
    rfl
  exact ⟨hrepair, fun h => h.itemidbase hrepair⟩

end PgStorage.Bufpage
