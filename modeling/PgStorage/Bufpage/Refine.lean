import PgStorage.Lib.Trace
import PgStorage.Bufpage.Add
import PgStorage.Bufpage.Repair

/-! A page as an array of optional byte strings.

Over any sequence of the routines the page stays well formed, and each does to the array what it is
for, or is refused for lack of space and does nothing. The routines are used as they are meant to
be: an item that is removed or replaced has storage, and the fragmentation is repaired only on pages
with no more stored items than a heap page can have. -/
namespace PgStorage.Bufpage
open Memory
open Option (map)

inductive Op
  | add (item : List UInt8) (offsetNumber : Nat) (isOverwrite isHeap : Bool)
  | delete (t : Nat)
  | deleteNoCompact (t : Nat)
  | overwrite (t : Nat) (newtup : List UInt8)
  | repair

inductive Answer
  | done
  | offset (n : Nat)
  | flag (b : Bool)

/-- `InvalidOffsetNumber`, or `false`. -/
def Answer.refused : Answer → Bool
  | .done => false
  | .offset n => n == 0
  | .flag b => !b

def Op.run (p : Page) : Op → Option (Page × Answer)
  | .add item n isOverwrite isHeap => (pageAddItemExtended p item n isOverwrite isHeap).map fun r => (r.1, .offset r.2)
  | .delete t => (pageIndexTupleDelete p t).map fun q => (q, .done)
  | .deleteNoCompact t => (pageIndexTupleDeleteNoCompact p t).map fun q => (q, .done)
  | .overwrite t newtup => (pageIndexTupleOverwrite p t newtup).map fun r => (r.1, .flag r.2)
  | .repair => (pageRepairFragmentation p).map fun q => (q, .done)

/-- How the routines may be called. -/
def Op.Valid (p : Page) : Op → Prop
  | .add item _ _ _ => item.length ≤ maxAllocSize
  | .delete t | .deleteNoCompact t | .overwrite t _ => p.HasItem t
  | .repair => p.nstorage ≤ maxHeapTuplesPerPage

/-- The operations on the array. Places are numbered from 1. -/
inductive ArrayStep (l : List (Option (List UInt8))) : Op → Answer → List (Option (List UInt8)) → Prop
  | append {item : List UInt8} {n : Nat} {isOverwrite isHeap : Bool} :
      (offsetNumberIsValid n = true → n = l.length + 1) →
      ArrayStep l (.add item n isOverwrite isHeap) (.offset (l.length + 1)) (l ++ [some item])
  | fill {item : List UInt8} {n i : Nat} {isOverwrite isHeap : Bool} :
      (offsetNumberIsValid n = true → n = i + 1 ∧ isOverwrite = true) → l[i]? = some none →
      ArrayStep l (.add item n isOverwrite isHeap) (.offset (i + 1)) (l.set i (some item))
  | insert {item : List UInt8} {i : Nat} {isHeap : Bool} :
      offsetNumberIsValid (i + 1) = true → i < l.length →
      ArrayStep l (.add item (i + 1) false isHeap) (.offset (i + 1)) (l.insertIdx i (some item))
  | remove {t : Nat} : ArrayStep l (.delete t) .done (l.eraseIdx (t - 1))
  | clear {t : Nat} : ArrayStep l (.deleteNoCompact t) .done (clearAt l (t - 1))
  | replace {t : Nat} {newtup : List UInt8} :
      ArrayStep l (.overwrite t newtup) (.flag true) (l.set (t - 1) (some newtup))
  | same : ArrayStep l .repair .done l

/-- What a call does to a page and to the array it stands for. -/
structure Refines (p : Page) (op : Op) (ans : Answer) (q : Page) : Prop where
  wellFormed : q.WellFormed
  refused : ans.refused = true → q.items = p.items ∧ q.pdLower = p.pdLower ∧ q.pdUpper = p.pdUpper
  step : ans.refused = false → ArrayStep p.items op ans q.items
  /-- The place that is chosen for an item is the first free one. -/
  first : ∀ item n isOverwrite isHeap i, op = .add item n isOverwrite isHeap → ans = .offset i →
    offsetNumberIsValid n = false → i ≤ p.maxOffsetNumber →
    ∀ j, 1 ≤ j → j < i → (p.line j).isUsed = true ∨ (p.line j).hasStorage = true

section Refine
variable {p q : Page} {op : Op}

theorem Added.step {item : List UInt8} {n off : Nat} {isOverwrite isHeap : Bool} (h : Added p off isOverwrite n) :
    ArrayStep p.items (.add item off isOverwrite isHeap) (.offset n)
      (addAt p.items (offsetNumberIsValid off && !isOverwrite) n item) := by
  obtain ⟨i, rfl⟩ : ∃ i, n = i + 1 := ⟨n - 1, (Nat.sub_add_cancel h.pos).symm⟩
  unfold addAt
  rw [Nat.add_sub_cancel]
  split_ifs with happ hins
  · -- behind the last
    have hi : i = p.items.length := by
      have := h.le
      rw [Page.length_items] at happ ⊢
      omega
    subst hi
    exact .append fun hv => (h.given hv).symm
  · rw [Bool.and_eq_true, Bool.not_eq_true'] at hins
    obtain ⟨hv, rfl⟩ := hins
    obtain rfl := h.given hv
    exact .insert hv (Nat.lt_of_succ_le (Nat.le_of_not_lt happ))
  · have hfree : offsetNumberIsValid off = false ∨ isOverwrite = true := by
      cases hv : offsetNumberIsValid off with
      | false => exact .inl rfl
      | true =>
        cases isOverwrite with
        | true => exact .inr rfl
        | false => exact absurd (by rw [hv]; rfl) hins
    refine .fill (fun hv => ⟨(h.given hv).symm, hfree.resolve_left fun hf => Bool.noConfusion (hv.symm.trans hf)⟩) ?_
    exact h.free (by rw [Page.length_items] at happ; omega) hfree

/-- A valid call returns, and refines the operation on the array. -/
theorem Op.run_refines (h : p.WellFormed) (hv : op.Valid p) : ∃ q ans, op.run p = some (q, ans) ∧ Refines p op ans q := by
  cases op with
  | add item off isOverwrite isHeap =>
    rcases add_spec h off isOverwrite isHeap hv with ⟨q, hq, hw, hi, hl, hu⟩ | ⟨q, n, hq, hw, hadd, hi⟩
    · refine ⟨q, .offset 0, congrArg (map _) hq, hw, fun _ => ⟨hi, hl, hu⟩, fun h0 => Bool.noConfusion h0, ?_⟩
      rintro _ _ _ _ i - he - - j - hj
      cases he
      exact absurd hj (Nat.not_lt_zero j)
    · refine ⟨q, .offset n, congrArg (map _) hq, hw, fun h0 => ?_, fun _ => ?_, ?_⟩
      · have h0' : n = 0 := by simpa [Answer.refused] using h0
        have := hadd.pos
        omega
      · rw [hi]
        exact hadd.step
      · rintro _ _ _ _ i ho he hoff hle
        cases he
        cases ho
        exact hadd.first hoff hle
  | delete t =>
    obtain ⟨q, hq, hw, hi⟩ := delete_spec h hv
    refine ⟨q, .done, congrArg (map _) hq, hw, fun h0 => Bool.noConfusion h0, fun _ => ?_, by rintro _ _ _ _ _ ⟨⟩⟩
    rw [hi]
    exact .remove
  | deleteNoCompact t =>
    obtain ⟨q, hq, hw, hi⟩ := deleteNoCompact_spec h hv
    refine ⟨q, .done, congrArg (map _) hq, hw, fun h0 => Bool.noConfusion h0, fun _ => ?_, by rintro _ _ _ _ _ ⟨⟩⟩
    rw [hi]
    exact .clear
  | overwrite t newtup =>
    rcases overwrite_spec h hv newtup with hq | ⟨q, hq, hw, hi⟩
    · exact ⟨p, .flag false, congrArg (map _) hq, h, fun _ => ⟨rfl, rfl, rfl⟩, fun h0 => Bool.noConfusion h0,
        by rintro _ _ _ _ _ ⟨⟩⟩
    · refine ⟨q, .flag true, congrArg (map _) hq, hw, fun h0 => Bool.noConfusion h0, fun _ => ?_,
        by rintro _ _ _ _ _ ⟨⟩⟩
      rw [hi]
      exact .replace
  | repair =>
    obtain ⟨q, hq, hw, hi⟩ := repair_spec h hv
    refine ⟨q, .done, congrArg (map _) hq, hw, fun h0 => Bool.noConfusion h0, fun _ => ?_, by rintro _ _ _ _ _ ⟨⟩⟩
    rw [hi]
    exact .same

/-- One call in a sequence. -/
def Op.next (p : Page) (op : Op) : Option Page := (op.run p).map Prod.fst

theorem wellFormed_reaches (hr : Trace.Reaches Op.next (fun p op => op.Valid p) p q) (h : p.WellFormed) :
    q.WellFormed := by
  refine hr.keeps h fun s op t hv hs hw => ?_
  obtain ⟨r, ans, hrun, href⟩ := Op.run_refines hw hv
  rw [Op.next, hrun] at hs
  cases hs
  exact href.wellFormed

/-- **A page refines an array of optional byte strings.** -/
theorem page_refines_array (h : p.WellFormed) (hr : Trace.Reaches Op.next (fun p op => op.Valid p) p q) :
    q.WellFormed ∧ ∀ op : Op, op.Valid q → ∃ r ans, op.run q = some (r, ans) ∧ Refines q op ans r :=
  ⟨wellFormed_reaches hr h, fun _ hv => Op.run_refines (wellFormed_reaches hr h) hv⟩

/-! ### Pages as they must not be -/

/-- A page without items, as `PageInit` leaves it but for its special space. -/
def emptyPage (special : Nat) : Page := ⟨fun _ => 0, sizeOfPageHeaderData, special, special, false⟩

theorem emptyPage_formed {special : Nat} (h1 : sizeOfPageHeaderData ≤ special) (h2 : special ≤ blcksz) :
    (emptyPage special).Formed :=
  have hno : ∀ i, 1 ≤ i → ¬ i ≤ (emptyPage special).maxOffsetNumber :=
    fun _ hi hin => absurd (le_trans hi hin) (Nat.not_succ_le_zero 0)
  ⟨le_rfl, h1, le_rfl, h2, fun i hi hin => absurd hin (hno i hi), fun i hi hin => absurd hin (hno i hi),
    fun i _ hi hin => absurd hin (hno i hi)⟩

theorem emptyPage_wellFormed : (emptyPage blcksz).WellFormed :=
  ⟨emptyPage_formed (by decide) le_rfl, ⟨by decide, by decide⟩⟩

theorem page_refines_array_empty : (emptyPage blcksz).WellFormed ∧
    ∃ r ans, (Op.add [7, 7] 0 false false).run (emptyPage blcksz) = some (r, ans) ∧
      Refines (emptyPage blcksz) (.add [7, 7] 0 false false) ans r :=
  have h := page_refines_array emptyPage_wellFormed .start
  have hv : (Op.add [7, 7] 0 false false).Valid (emptyPage blcksz) := show 2 ≤ maxAllocSize by decide
  ⟨h.1, h.2 _ hv⟩

/-- The array of `PageRepairFragmentation` is written behind its end. -/
theorem repair_overrun (h : p.WellFormed) (hn : maxHeapTuplesPerPage < p.nstorage) : pageRepairFragmentation p = none := by
  have hc := cleared p
  unfold pageRepairFragmentation
  rw [if_pos ⟨h.formed.pointersOk, eq_maxAlign_iff.mpr h.aligned.special⟩]
  dsimp only
  have h0 : ¬ ((List.range' 1 p.maxOffsetNumber).countP fun n =>
      (getItemId p.mem n).isUsed && (getItemId p.mem n).hasStorage) = 0 := by
    have : 0 < p.nstorage := Nat.zero_lt_of_lt hn
    exact Nat.pos_iff_ne_zero.mp this
  rw [if_neg h0, if_pos (by rw [hc.length_storageItems]; exact hn)]

/-- A page with more small items than a heap page can have. -/
def crowdedPage : Page where
  mem a := if 24 ≤ a ∧ a < 24 + 4 * 292 then
      store32 (fun _ => 0) (a / 4 * 4) (ItemId.toWord ⟨8184 - 2 * (a / 4 * 4 - 24), lpNormal, 8⟩) a
    else 0
  pdLower := 24 + 4 * 292
  pdUpper := 8192 - 8 * 292
  pdSpecial := 8192
  hasFreeLines := false

theorem crowdedPage_line : ∀ i < 292, crowdedPage.line (i + 1) = ⟨8184 - 8 * i, lpNormal, 8⟩ := by decide +kernel

theorem crowdedPage_wellFormed : crowdedPage.WellFormed := by
  have hmax : crowdedPage.maxOffsetNumber = 292 := rfl
  have hline : ∀ i, 1 ≤ i → i ≤ 292 → crowdedPage.line i = ⟨8192 - 8 * i, lpNormal, 8⟩ := by
    intro i hi hin
    have := crowdedPage_line (i - 1) (by omega)
    rw [Nat.sub_add_cancel hi] at this
    rw [this, ItemId.mk.injEq]
    omega
  refine ⟨⟨by decide, by decide, by decide, by decide, ?_⟩, ⟨by decide, by decide⟩⟩
  rw [hmax]
  refine ⟨fun i hi hin _ => ?_, fun i hi hin _ => ?_, fun i j hi hin hj hjn hij _ _ => ?_⟩
  · rw [hline i hi hin]
    dsimp only
    omega
  · rw [hline i hi hin]
    show 8192 - 8 * 292 ≤ 8192 - 8 * i ∧ 8192 - 8 * i + 8 ≤ 8192
    omega
  · rw [hline i hi hin, hline j hj hjn]
    dsimp only
    omega

/-- An item of eight bytes, one of no bytes, and the first one taken out. -/
def stalePage : Option Page :=
  Trace.follow Op.next (fun _ _ => True) (emptyPage blcksz)
    [.add [1, 2, 3, 4, 5, 6, 7, 8] 0 false false, .add [] 0 false false, .deleteNoCompact 1]

theorem stalePage_delete : stalePage.map (fun q => (q.maxOffsetNumber, (pageIndexTupleDelete q 2).isNone)) =
    some (2, true) := by
  decide +kernel

/-- An item is not aligned if the start of the tuple space is not; a page may have more items than
the array of `PageRepairFragmentation`; and an item without bytes is left behind when others move. -/
theorem page_not_refines_array :
    (∃ p q n, p.Formed ∧ pageAddItemExtended p [1, 2, 3, 4, 5, 6, 7, 8] 0 false false = some (q, n) ∧ n ≠ 0 ∧
      ¬ q.Formed) ∧
    (∃ p : Page, p.Formed ∧ pageRepairFragmentation p = none) ∧
    ∃ p q, p.Formed ∧ Trace.Reaches Op.next (fun _ _ => True) p q ∧ 2 ≤ q.maxOffsetNumber ∧
      pageIndexTupleDelete q 2 = none := by
  refine ⟨?_, ⟨crowdedPage, crowdedPage_wellFormed.formed, repair_overrun crowdedPage_wellFormed (by decide +kernel)⟩, ?_⟩
  · have hrun : (pageAddItemExtended (emptyPage 8191) [1, 2, 3, 4, 5, 6, 7, 8] 0 false false).map
        (fun r => (r.2, r.1.maxOffsetNumber, r.1.line 1)) = some (1, 1, ⟨8183, lpNormal, 8⟩) := by
      decide +kernel
    obtain ⟨⟨q, n⟩, hq, he⟩ := Option.map_eq_some_iff.mp hrun
    rw [Prod.mk.injEq, Prod.mk.injEq] at he
    refine ⟨_, q, n, emptyPage_formed (by decide) (by decide), hq, by omega, fun hf => ?_⟩
    have := hf.layout.aligned 1 le_rfl (by dsimp only at he; omega)
    dsimp only at he
    rw [he.2.2] at this
    exact absurd (this rfl) (by decide)
  · obtain ⟨q, hq, he⟩ := Option.map_eq_some_iff.mp stalePage_delete
    rw [Prod.mk.injEq] at he
    exact ⟨_, q, emptyPage_formed (by decide) le_rfl, .of_follow .start hq, by omega, Option.isNone_iff_eq_none.mp he.2⟩

end Refine
end PgStorage.Bufpage
