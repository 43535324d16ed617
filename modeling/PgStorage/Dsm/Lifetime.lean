import PgStorage.Dsm.Moves
import PgStorage.Lib.Trace

/-! The lifetime of dynamic shared memory segments over any run.

Two exits of the code break it. When no slot is left `dsm_create` raises its error with the segment still there, and no
one destroys it; and a slot that is going away hides a later one that has drawn its handle again, as the search ends
there. `ok` says that a step takes neither, and where no step does `Lifetime` holds in every state. -/
namespace PgStorage.Dsm
open Option List

/-- The segment finds a slot, or NULL may be returned; and no slot in front of its own has its handle. -/
def entered (s : State) (d : DsmSegment) (nullIfMax : Bool) : Bool :=
  match findFree s.items with
  | some i => (s.items.take i).all fun it => it.handle ≠ d.handle
  | none => if s.items.length ≥ s.maxitems then nullIfMax else s.items.all fun it => it.handle ≠ d.handle

def ok (s : State) : Action → Bool
  | .register k =>
    match s.segs[k]? with
    | some d =>
      match d.stage with
      | .creating nullIfMax => entered s d nullIfMax
      | _ => true
    | none => true
  | _ => true

/-- The stages of `dsm_create` in which the segment has no slot. -/
def unplaced : Stage → Bool
  | .creating _ => true
  | .refused => true
  | _ => false

structure Lifetime (s : State) : Prop where
  refcnt : ∀ i it, s.items[i]? = some it → it.refcnt ≠ 0 → it.refcnt = 1 + attachedTo s.segs i + pinCount it
  /-- No segment is destroyed twice, or destroyed and there. -/
  once : s.destroyed.Nodup ∧ ∀ g ∈ s.destroyed, ∀ h, s.os h ≠ some g
  attached : ∀ d ∈ s.segs, ∀ i, d.controlSlot = some i → s.os d.handle = some d.segment
  pinned : ∀ (i : Nat) (it : DsmControlItem), s.items[i]? = some it → it.refcnt ≠ 0 → it.pinned = true →
    s.os it.handle = some it.segment
  /-- One call sees to each slot that is going away. -/
  moribund : ∀ i it, s.items[i]? = some it → it.refcnt = 1 → destroyersOf s.destroyers i = 1
  recorded : ∀ h g, s.os h = some g →
    (∃ (i : Nat) (it : DsmControlItem), s.items[i]? = some it ∧ 1 ≤ it.refcnt ∧ it.handle = h ∧ it.segment = g ∧
      ∀ (j : Nat) (jt : DsmControlItem), s.items[j]? = some jt → 1 ≤ jt.refcnt → jt.segment = g → j = i) ∨
      ∃ d ∈ s.segs, unplaced d.stage = true ∧ d.handle = h ∧ d.segment = g
  found : ∀ i it, s.items[i]? = some it → 2 ≤ it.refcnt → search s.items it.handle = some i

/-- A descriptor in a stage that fits its slot, and not of a call that failed. -/
def Fine (d : DsmSegment) : Prop := d.stage ≠ .failed ∧ (unplaced d.stage = true ↔ d.controlSlot = none)

structure Kept (s : State) : Prop where
  inv : Inv s
  fine : ∀ d ∈ s.segs, Fine d

variable {s s' : State} {k i : Nat} {d : DsmSegment} {it : DsmControlItem} {a : Action}

theorem findFree_some (h : findFree s.items = some i) : i ≤ s.items.length ∧
    (∀ it, s.items[i]? = some it → it.refcnt = 0) := by
  obtain ⟨hi, h0, -⟩ := findIdx?_eq_some_iff_getElem.mp h
  refine ⟨hi.le, fun it hit => ?_⟩
  rw [getElem?_eq_getElem hi, some.injEq] at hit
  exact hit ▸ of_decide_eq_true h0

theorem search_some {h : Nat} (hs : search s.items h = some i) :
    ∃ it, s.items[i]? = some it ∧ it.refcnt ≠ 0 ∧ it.handle = h := by
  obtain ⟨hi, hp, -⟩ := findIdx?_eq_some_iff_getElem.mp hs
  rw [Bool.and_eq_true, decide_eq_true_eq, decide_eq_true_eq] at hp
  exact ⟨_, getElem?_eq_getElem hi, hp⟩

/-- The slot of a descriptor is active. -/
theorem Inv.active_of_attached (h : Inv s) (hd : d ∈ s.segs) (hslot : d.controlSlot = some i) :
    ∃ it, s.items[i]? = some it ∧ 2 ≤ it.refcnt ∧ it.handle = d.handle ∧ it.segment = d.segment := by
  obtain ⟨it, hit, hrest⟩ := h.attached hd hslot
  have hpos : 0 < attachedTo s.segs i := countP_pos_iff.mpr ⟨d, hd, decide_eq_true hslot⟩
  refine ⟨it, hit, ?_, hrest⟩
  by_cases h0 : it.refcnt = 0
  · have hfree := h.free hit h0
    omega
  · have hcount := h.refcnt hit h0
    omega

/-! ### The steps as moves -/

theorem kept_register (h : Kept s) (hk : s.segs[k]? = some d) {n : Bool} (hstage : d.stage = .creating n)
    (hok : entered s d n = true) : Kept (register s k d n) := by
  have hslot : d.controlSlot = none := by
    refine (h.fine d (mem_of_getElem? hk)).2.mp ?_
    rw [hstage]
    rfl
  have hfine : ∀ d', Fine d' → ∀ x ∈ s.segs.set k d', Fine x := fun d' hd' x hx => by
    rcases mem_set_or hx with rfl | hx
    · exact hd'
    · exact h.fine x hx
  have hfront : ∀ {i}, (s.items.take i).all (fun it => it.handle ≠ d.handle) = true →
      ∀ j < i, ∀ jt, s.items[j]? = some jt → jt.handle ≠ d.handle := fun hall j hj jt hjt => by
    refine of_decide_eq_true (all_eq_true.mp hall jt (mem_of_getElem? (i := j) ?_))
    rw [getElem?_take, if_pos hj, hjt]
  rw [register]
  rw [entered] at hok
  split
  next i hfree =>
    rw [hfree] at hok
    obtain ⟨hlen, h0⟩ := findFree_some hfree
    exact ⟨h.inv.enter .ready hk hslot hlen h0 (hfront hok), hfine _ ⟨nofun, nofun, nofun⟩⟩
  next hfree =>
    rw [hfree] at hok
    dsimp only at hok
    split
    next hmax =>
      rw [if_pos hmax] at hok
      rw [if_pos hok]
      exact ⟨h.inv.stage hk .refused, hfine _ ⟨nofun, fun _ => hslot, fun _ => rfl⟩⟩
    next hmax =>
      rw [if_neg hmax] at hok
      refine ⟨h.inv.enter .ready hk hslot le_rfl (fun it hit => ?_) (hfront (by rwa [take_length])),
        hfine _ ⟨nofun, nofun, nofun⟩⟩
      rw [getElem?_eq_none le_rfl] at hit
      exact absurd hit nofun

theorem kept_attach (h : Kept s) {backend handle : Nat} : Kept (attach s backend handle) := by
  rw [attach]
  split
  next => exact h
  next i hsearch =>
    obtain ⟨it, hit, hne, hhandle⟩ := search_some hsearch
    rw [hit]
    dsimp only
    split
    next => exact h
    next h1 =>
      have hadjust := h.inv.adjust { it with refcnt := it.refcnt + 1 }
        (⟨backend, handle, some i, .attaching, it.segment⟩ :: s.segs) backend hit (by omega) (Nat.succ_ne_zero _) rfl rfl
        ?_ ?_ ?_ ?_ ?_
      · rw [if_neg (by simpa using hne)] at hadjust
        refine ⟨hadjust, fun d hd => ?_⟩
        rcases mem_cons.mp hd with rfl | hd
        · exact ⟨by rintro ⟨⟩, by rintro ⟨⟩, by rintro ⟨⟩⟩
        · exact h.fine d hd
      · have hcons : attachedTo (⟨backend, handle, some i, .attaching, it.segment⟩ :: s.segs) i =
            attachedTo s.segs i + 1 :=
          countP_cons_of_pos (p := fun d : DsmSegment => decide (d.controlSlot = some i)) (decide_eq_true rfl)
        rw [hcons]
        show it.refcnt + 1 + attachedTo s.segs i + pinCount it = it.refcnt + (attachedTo s.segs i + 1) + pinCount it
        omega
      · exact fun j hj => countP_cons_of_neg fun hP => hj (some.inj (of_decide_eq_true hP)).symm
      · exact fun g => countP_cons_of_neg fun hP => absurd (of_decide_eq_true hP).1 (by simp)
      · intro d hd
        rcases mem_cons.mp hd with rfl | hd
        · exact .inr ⟨rfl, hhandle, rfl⟩
        · exact .inl hd
      · exact fun d hd _ => mem_cons_of_mem _ hd

theorem kept_unpin (h : Kept s) {backend handle : Nat} : Kept (unpin s backend handle) := by
  rw [unpin]
  split
  next => exact h
  next i hsearch =>
    obtain ⟨it, hit, hne, rfl⟩ := search_some hsearch
    rw [hit]
    dsimp only
    split
    next hpin =>
      have hcount := h.inv.refcnt hit hne
      rw [pinCount, if_pos hpin] at hcount
      have hadjust := h.inv.adjust { it with refcnt := it.refcnt - 1, pinned := false } s.segs backend hit
        (by omega) (show it.refcnt - 1 ≠ 0 by omega) rfl rfl ?_ (fun _ _ => rfl) (fun _ => rfl)
        (fun _ hd => .inl hd) fun _ hd _ => hd
      · exact ⟨hadjust, h.fine⟩
      · show it.refcnt - 1 + attachedTo s.segs i + pinCount it = it.refcnt + attachedTo s.segs i + 0
        rw [pinCount, if_pos hpin]
        omega
    next => exact h

theorem kept_release (h : Kept s) (hk : s.segs[k]? = some d) (hslot : d.controlSlot = some i)
    (hit : s.items[i]? = some it) : Kept { decrement s d.backend d.handle i it with segs := s.segs.eraseIdx k } := by
  have hmem : d ∈ s.segs := mem_of_getElem? hk
  obtain ⟨it', hit', h2, hhandle, -⟩ := h.inv.active_of_attached hmem hslot
  obtain rfl : it = it' := some.inj (hit.symm.trans hit')
  have hplace := countP_place (P := fun d : DsmSegment => decide (d.controlSlot = some i)) hk
  rw [if_pos (decide_eq_true hslot)] at hplace
  have hother : ∀ P : DsmSegment → Bool, P d = false → (s.segs.eraseIdx k).countP P = s.segs.countP P := fun P hP => by
    have hplace := countP_place (P := P) hk
    rwa [hP] at hplace
  have hadjust := h.inv.adjust { it with refcnt := it.refcnt - 1 } (s.segs.eraseIdx k) d.backend hit h2
    (show it.refcnt - 1 ≠ 0 by omega) rfl rfl ?_ ?_ ?_ ?_ ?_
  · rw [decrement, ← hhandle]
    exact ⟨hadjust, fun d' hd' => h.fine d' (mem_of_mem_eraseIdx hd')⟩
  · show it.refcnt - 1 + attachedTo s.segs i + pinCount it = it.refcnt + attachedTo (s.segs.eraseIdx k) i + pinCount it
    rw [attachedTo, attachedTo, ← hplace]
    omega
  · exact fun j hj => hother _ (decide_eq_false fun hd => hj (some.inj (hd.symm.trans hslot)))
  · exact fun g => hother _ (decide_eq_false fun hd => absurd (hd.1.symm.trans hslot) nofun)
  · exact fun d' hd' => .inl (mem_of_mem_eraseIdx hd')
  · intro d' hd' hs'
    refine (mem_of_ne_place hk hd').resolve_left ?_
    rintro rfl
    exact absurd (hs'.symm.trans hslot) nofun

theorem kept_pin (h : Kept s) (hk : s.segs[k]? = some d) (hslot : d.controlSlot = some i)
    (hit : s.items[i]? = some it) (hpin : it.pinned = false) :
    Kept { s with items := s.items.set i { it with pinned := true, refcnt := it.refcnt + 1 } } := by
  obtain ⟨it', hit', h2, -⟩ := h.inv.active_of_attached (mem_of_getElem? hk) hslot
  obtain rfl : it = it' := some.inj (hit.symm.trans hit')
  have hadjust := h.inv.adjust { it with pinned := true, refcnt := it.refcnt + 1 } s.segs 0 hit h2
    (Nat.succ_ne_zero _) rfl rfl ?_ (fun _ _ => rfl) (fun _ => rfl) (fun _ hd => .inl hd) fun _ hd _ => hd
  · rw [if_neg (show ¬ it.refcnt + 1 = 1 by omega)] at hadjust
    exact ⟨hadjust, h.fine⟩
  · show it.refcnt + 1 + attachedTo s.segs i + pinCount it = it.refcnt + attachedTo s.segs i + 1
    rw [pinCount, hpin]
    simp only [Bool.false_eq_true, if_false]
    omega

theorem kept_step (h : Kept s) (hok : ok s a = true) (heq : step s a = some s') : Kept s' := by
  have hset : ∀ {k d'}, Fine d' → ∀ x ∈ s.segs.set k d', Fine x := fun hd' x hx => by
    rcases mem_set_or hx with rfl | hx
    · exact hd'
    · exact h.fine x hx
  cases a with
  | create backend handle n =>
    obtain ⟨⟨-, -, hos⟩, heq⟩ := ite_none_right_eq_some.mp heq
    obtain rfl := some.inj heq
    refine ⟨h.inv.create (d := ⟨backend, handle, none, .creating n, s.next⟩) hos rfl rfl, fun x hx => ?_⟩
    rcases mem_cons.mp hx with rfl | hx
    · exact ⟨nofun, fun _ => rfl, fun _ => rfl⟩
    · exact h.fine x hx
  | register k =>
    rw [step] at heq
    rw [ok] at hok
    split at heq
    next d hk =>
      rw [hk] at hok
      dsimp only at hok
      split at heq
      next n hstage =>
        rw [hstage] at hok
        obtain rfl := some.inj heq
        exact kept_register h hk hstage hok
      next => exact absurd heq nofun
    next => exact absurd heq nofun
  | destroyRefused k =>
    rw [step] at heq
    split at heq
    next d hk =>
      obtain ⟨hstage, heq⟩ := ite_none_right_eq_some.mp heq
      obtain rfl := some.inj heq
      have hslot : d.controlSlot = none := (h.fine d (mem_of_getElem? hk)).2.mp (by rw [hstage]; rfl)
      exact ⟨h.inv.drop hk hslot, fun x hx => h.fine x (mem_of_mem_eraseIdx hx)⟩
    next => exact absurd heq nofun
  | detachFailed k =>
    rw [step] at heq
    split at heq
    next d hk =>
      obtain ⟨hstage, -⟩ := ite_none_right_eq_some.mp heq
      exact absurd hstage (h.fine d (mem_of_getElem? hk)).1
    next => exact absurd heq nofun
  | attach backend handle =>
    obtain ⟨-, heq⟩ := ite_none_right_eq_some.mp heq
    obtain rfl := some.inj heq
    exact kept_attach h
  | map k =>
    rw [step] at heq
    split at heq
    next d hk =>
      obtain ⟨⟨hstage, -⟩, heq⟩ := ite_none_right_eq_some.mp heq
      obtain rfl := some.inj heq
      have hfine := (h.fine d (mem_of_getElem? hk)).2
      rw [hstage] at hfine
      exact ⟨h.inv.stage hk .ready, hset ⟨nofun, hfine⟩⟩
    next => exact absurd heq nofun
  | unmap k =>
    rw [step] at heq
    split at heq
    next d hk =>
      obtain ⟨⟨hstage, -⟩, heq⟩ := ite_none_right_eq_some.mp heq
      obtain rfl := some.inj heq
      have hfine := (h.fine d (mem_of_getElem? hk)).2
      rw [hstage] at hfine
      exact ⟨h.inv.stage hk .detaching, hset ⟨nofun, hfine⟩⟩
    next => exact absurd heq nofun
  | release k =>
    rw [step] at heq
    split at heq
    next d hk =>
      split at heq
      next i hslot =>
        split at heq
        next it hit =>
          obtain ⟨-, heq⟩ := ite_none_right_eq_some.mp heq
          obtain rfl := some.inj heq
          exact kept_release h hk hslot hit
        next => exact absurd heq nofun
      next => exact absurd heq nofun
    next => exact absurd heq nofun
  | pin k =>
    rw [step] at heq
    split at heq
    next d hk =>
      split at heq
      next i hslot =>
        split at heq
        next it hit =>
          obtain ⟨⟨-, -, hpin⟩, heq⟩ := ite_none_right_eq_some.mp heq
          obtain rfl := some.inj heq
          exact kept_pin h hk hslot hit hpin
        next => exact absurd heq nofun
      next => exact absurd heq nofun
    next => exact absurd heq nofun
  | unpin backend handle =>
    obtain ⟨-, heq⟩ := ite_none_right_eq_some.mp heq
    obtain rfl := some.inj heq
    exact kept_unpin h
  | destroy k =>
    rw [step] at heq
    split at heq
    next e hk =>
      obtain ⟨hdone, heq⟩ := ite_none_right_eq_some.mp heq
      obtain rfl := some.inj heq
      exact ⟨h.inv.destroy hk hdone, h.fine⟩
    next => exact absurd heq nofun
  | clear k =>
    rw [step] at heq
    split at heq
    next e hk =>
      split at heq
      next it hit =>
        obtain ⟨hdone, heq⟩ := ite_none_right_eq_some.mp heq
        obtain rfl := some.inj heq
        exact ⟨h.inv.clear hk hdone hit, h.fine⟩
      next => exact absurd heq nofun
    next => exact absurd heq nofun

theorem kept_start {maxitems : Nat} : Kept (start maxitems) where
  inv := {
    refcnt := nofun, free := nofun, moribund := nofun, attached := nofun, doomed := nofun, live := nofun, held := nofun
    gone := nofun, destroyed := nofun, once := .nil, owner := nofun, oneItem := nofun, oneHeld := fun _ => Nat.zero_le _
    apart := nofun, freshItem := nofun, freshOs := nofun, freshDestroyed := nofun, visible := fun _ => nofun }
  fine := nofun

theorem Kept.lifetime (h : Kept s) : Lifetime s where
  refcnt _ _ hi hne := h.inv.refcnt hi hne
  once := ⟨h.inv.once, fun _ hg _ => h.inv.destroyed hg⟩
  attached d hd i hslot := by
    obtain ⟨it, hit, h2, hn, hg⟩ := h.inv.active_of_attached hd hslot
    rw [← hn, ← hg]
    exact h.inv.active hit h2
  pinned i it hit hne hpin := by
    have hcount := h.inv.refcnt hit hne
    rw [pinCount, if_pos hpin] at hcount
    exact h.inv.active hit (by omega)
  moribund i it hit h1 := by
    rw [h.inv.moribund hit, if_pos h1]
  recorded n g ho := by
    rcases h.inv.owner ho with ⟨i, it, hit, hne, hn, hg⟩ | ⟨d, hd, hslot, hn, hg⟩
    · refine .inl ⟨i, it, hit, Nat.pos_of_ne_zero hne, hn, hg, fun j jt hjt hpos hg' => ?_⟩
      exact h.inv.oneItem hjt hit (by omega) hne (hg'.trans hg.symm)
    · exact .inr ⟨d, hd, (h.fine d hd).2.mpr hslot, hn, hg⟩
  found i it hit h2 := by
    obtain ⟨hi, rfl⟩ := List.getElem?_eq_some_iff.mp hit
    refine List.findIdx?_eq_some_iff_getElem.mpr ⟨hi, ?_, fun j hj hp => ?_⟩
    · rw [decide_eq_true (show (s.items[i]).refcnt ≠ 0 by omega), decide_eq_true rfl, Bool.and_true]
    · rw [Bool.and_eq_true, decide_eq_true_eq, decide_eq_true_eq] at hp
      exact h.inv.visible hj (getElem?_eq_getElem (hj.trans hi)) hit hp.1 h2 hp.2

/-- **Segments live as long as they are used**: in every run without a failure for lack of slots and without a segment
entered behind one of its name, every state meets `Lifetime`. -/
theorem dsm_lifetime (maxitems : Nat) (s : State)
    (hrun : Trace.Reaches step (fun s a => ok s a = true) (start maxitems) s) : Lifetime s :=
  (hrun.keeps (P := Kept) kept_start fun _ _ _ hok heq h => kept_step h hok heq).lifetime

/-- A segment created, pinned, attached by another backend, unpinned and given up by both. -/
def sharedActions : List Action :=
  [.create 0 7 false, .register 0, .pin 0, .attach 1 7, .map 0, .unpin 2 7, .unmap 1, .release 1, .unmap 0, .release 0,
    .destroy 0, .clear 0]

theorem shared_runs : (Trace.follow step (fun s a => ok s a = true) (start 70) sharedActions).isSome = true := by decide

theorem dsm_lifetime_shared : ∃ s, Trace.Reaches step (fun s a => ok s a = true) (start 70) s ∧ Lifetime s ∧
    s.destroyed = [0] := by
  have hrun := Trace.Reaches.of_follow .start (some_get shared_runs).symm
  exact ⟨_, hrun, dsm_lifetime 70 _ hrun, by decide⟩

/-- As many segments as there are slots, and one more. -/
def overfull (maxitems : Nat) : List Action :=
  ((List.range (maxitems + 1)).flatMap fun n => [.create 0 (n + 1) false, .register 0]) ++ [.detachFailed 0]

/-- A segment is gone but not its slot when its handle is drawn again. -/
def drawnAgain : List Action :=
  [.create 0 7 false, .register 0, .unmap 0, .release 0, .destroy 0, .create 1 7 false, .register 0]

theorem overfull_runs : (Trace.follow step (fun _ _ => True) (start 70) (overfull 70)).isSome = true := by
  decide +kernel

theorem drawnAgain_runs : (Trace.follow step (fun _ _ => True) (start 70) drawnAgain).isSome = true := by decide

/-- The segment of the failed call is left behind, and that of a handle drawn again is not found. -/
theorem dsm_lifetime_fails :
    (∃ s, Trace.Reaches step (fun _ _ => True) (start 70) s ∧ s.os 71 = some 70 ∧
      (∀ it ∈ s.items, it.handle ≠ 71) ∧ (∀ d ∈ s.segs, d.handle ≠ 71) ∧ ¬ Lifetime s) ∧
    ∃ s, Trace.Reaches step (fun _ _ => True) (start 70) s ∧ (∃ it, s.items[1]? = some it ∧ it.handle = 7 ∧ it.refcnt = 2) ∧
      search s.items 7 = some 0 ∧ ¬ Lifetime s := by
  constructor
  · have hrun := Trace.Reaches.of_follow .start (some_get overfull_runs).symm
    have hos : (get _ overfull_runs).os 71 = some 70 := by decide +kernel
    have hitems : ∀ it ∈ (get _ overfull_runs).items, it.handle ≠ 71 := by decide +kernel
    have hsegs : ∀ d ∈ (get _ overfull_runs).segs, d.handle ≠ 71 := by decide +kernel
    refine ⟨_, hrun, hos, hitems, hsegs, fun h => ?_⟩
    rcases h.recorded 71 70 hos with ⟨i, it, hit, -, hn, -⟩ | ⟨d, hd, -, hn, -⟩
    · exact hitems it (mem_of_getElem? hit) hn
    · exact hsegs d hd hn
  · have hrun := Trace.Reaches.of_follow .start (some_get drawnAgain_runs).symm
    have hsearch : search (get _ drawnAgain_runs).items 7 = some 0 := by decide
    have hitem : (get _ drawnAgain_runs).items[1]? = some ⟨7, 2, false, 1⟩ := rfl
    refine ⟨_, hrun, ⟨_, hitem, rfl, rfl⟩, hsearch, fun h => ?_⟩
    exact absurd (hsearch.symm.trans (h.found 1 _ hitem le_rfl)) (by decide)

end PgStorage.Dsm
