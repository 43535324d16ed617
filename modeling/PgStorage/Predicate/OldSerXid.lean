import PgStorage.Procarray.Procarray

/-! The summary of old serializable transactions.

Pages are kept in a store: a page that was never zeroed, or that was truncated, cannot be read. Ids are 32 bits wide. The
history of a run counts them, and pages, without wrapping. -/
namespace PgStorage.OldSerXid
open Function Option Procarray

def entriesPerPage : Nat := 1024

/-- `OLDSERXID_MAX_PAGE` -/
def maxPage : Nat := 2097151

def oldSerXidNextPage (page : Nat) : Nat := if maxPage ≤ page then 0 else page + 1

def oldSerXidPage (xid : Nat) : Nat := xid / entriesPerPage % (maxPage + 1)

def oldSerXidPagePrecedesLogically (p q : Nat) : Bool :=
  let half : Int := ((maxPage + 1) / 2 : Nat)
  let diff : Int := p - q
  let diff := if half ≤ diff then diff - (maxPage + 1) else if diff < -half then diff + (maxPage + 1) else diff
  decide (diff < 0)

def transactionIdFollows (id1 id2 : Nat) : Bool :=
  if transactionIdIsNormal id1 = true ∧ transactionIdIsNormal id2 = true then
    decide (0 < (id1 + 2 ^ 32 - id2) % 2 ^ 32 ∧ (id1 + 2 ^ 32 - id2) % 2 ^ 32 < 2 ^ 31)
  else decide (id2 < id1)

abbrev Pages := Nat → Option (Nat → Nat)

/-- `SimpleLruZeroPage` -/
def zeroPage (pages : Pages) (page : Nat) : Pages := update pages page (some fun _ => 0)

/-- `SimpleLruTruncate` -/
def truncate (pages : Pages) (cutoffPage : Nat) : Pages := fun page =>
  if oldSerXidPagePrecedesLogically page cutoffPage then none else pages page

/-- The loop over the intervening pages. -/
def zeroPages : Nat → Nat → Nat → Pages → Pages
  | 0, _, _, pages => pages
  | n + 1, firstZeroPage, targetPage, pages =>
    if firstZeroPage = targetPage then pages
    else zeroPages n (oldSerXidNextPage firstZeroPage) targetPage (zeroPage pages firstZeroPage)

/-- `OldSerXidControlData`; an invalid id is 0. -/
structure OldSerXidControl where
  headPage : Int
  headXid : Nat
  tailXid : Nat
  warningIssued : Bool

structure State where
  control : OldSerXidControl
  pages : Pages

def oldSerXidInit : State := ⟨⟨-1, 0, 0, false⟩, fun _ => none⟩

/-- An id so far behind `tailXid`. -/
def watermark (tailXid distance : Nat) : Nat := max firstNormalTransactionId ((tailXid + distance) % 2 ^ 32)

def warning (c : OldSerXidControl) (xid : Nat) : Bool :=
  if c.warningIssued then !transactionIdPrecedes xid (watermark c.tailXid 800000000)
  else transactionIdFollows xid (watermark c.tailXid 1000000000)

/-- The value of an id in a page that is there. -/
def writeValue (pages : Pages) (page xid value : Nat) : Except String Pages :=
  match pages page with
  | none => .error "could not access status of transaction"
  | some entries => .ok (update pages page (some (update entries (xid % entriesPerPage) value)))

/-- The first page to be zeroed, and whether the target is a new page. -/
def firstZeroPage (c : OldSerXidControl) (targetPage : Nat) : Nat × Bool :=
  if c.headPage < 0 then (oldSerXidPage c.tailXid, true)
  else (oldSerXidNextPage c.headPage.toNat, oldSerXidPagePrecedesLogically c.headPage.toNat targetPage)

def oldSerXidAdd (s : State) (xid minConflictCommitSeqNo : Nat) : Except String State :=
  let c := s.control
  let targetPage := oldSerXidPage xid
  let (firstZeroPage, isNewPage) := firstZeroPage c targetPage
  let control : OldSerXidControl :=
    { headPage := if isNewPage then targetPage else c.headPage
      headXid := if c.headXid = 0 ∨ transactionIdFollows xid c.headXid then xid else c.headXid
      tailXid := c.tailXid
      warningIssued := warning c xid }
  let pages :=
    if isNewPage then zeroPage (zeroPages (maxPage + 1) firstZeroPage targetPage s.pages) targetPage else s.pages
  (writeValue pages targetPage xid minConflictCommitSeqNo).map fun pages => ⟨control, pages⟩

def oldSerXidGetMinConflictCommitSeqNo (s : State) (xid : Nat) : Except String Nat :=
  let c := s.control
  if c.headXid = 0 then .ok 0
  else if transactionIdPrecedes xid c.tailXid || transactionIdFollows xid c.headXid then .ok 0
  else
    match s.pages (oldSerXidPage xid) with
    | none => .error "could not access status of transaction"
    | some entries => .ok (entries (xid % entriesPerPage))

def oldSerXidSetActiveSerXmin (recoveryInProgress : Bool) (s : State) (xid : Nat) : State :=
  let c := s.control
  if xid = 0 then { s with control := { c with tailXid := 0, headXid := 0 } }
  else if recoveryInProgress then
    if c.tailXid = 0 ∨ transactionIdPrecedes xid c.tailXid then { s with control := { c with tailXid := xid } } else s
  else { s with control := { c with tailXid := xid } }

def checkPointPredicate (s : State) : State :=
  let c := s.control
  if c.headPage < 0 then s
  else if c.tailXid ≠ 0 then { s with pages := truncate s.pages (oldSerXidPage c.tailXid) }
  else ⟨{ c with headPage := -1 }, truncate s.pages c.headPage.toNat⟩

/-! ### Runs -/

/-- Ids are numbers that do not toXid. -/
inductive Event where
  | setXmin (xid : Option Nat)
  | add (xid value : Nat)
  | get (xid : Nat)
  | checkPoint

/-- An event, with the value that is returned. -/
def State.step (s : State) : Event → Except String (State × Option Nat)
  | .setXmin xid => .ok (oldSerXidSetActiveSerXmin false s ((xid.map toXid).getD 0), none)
  | .add xid value => (oldSerXidAdd s (toXid xid) value).map fun s => (s, none)
  | .get xid => (oldSerXidGetMinConflictCommitSeqNo s (toXid xid)).map fun value => (s, some value)
  | .checkPoint => .ok (checkPointPredicate s, none)

/-- What a run has done. -/
structure History where
  tail : Option Nat
  /-- The values added while serializable transactions were active. -/
  added : Nat → Nat
  /-- The last xmin. -/
  floor : Nat
  headXid : Option Nat
  headPage : Option Nat
  /-- The values added since the head page was given up. -/
  written : Nat → Nat

def History.start : History := ⟨none, fun _ => 0, 0, none, none, fun _ => 0⟩

def History.step (g : History) : Event → History
  | .setXmin none => { g with tail := none, added := fun _ => 0, headXid := none }
  | .setXmin (some xid) => { g with tail := some xid, floor := xid }
  | .add xid value =>
    { g with
      added := update g.added xid value
      headXid := some (g.headXid.elim xid (max xid))
      headPage := some (g.headPage.elim (xid / entriesPerPage) (max (xid / entriesPerPage)))
      written := update g.written xid value }
  | .get _ => g
  | .checkPoint => if g.tail = none then { g with headPage := none, written := fun _ => 0 } else g

/-- What an event should return. -/
def History.answer (g : History) : Event → Option Nat
  | .get xid => some (g.tail.elim 0 fun tail => if xid < tail then 0 else g.added xid)
  | _ => none

/-- A number with the value of a normal id. -/
def Normal (xid : Nat) : Prop := transactionIdIsNormal (toXid xid) = true

instance (xid : Nat) : Decidable (Normal xid) := inferInstanceAs (Decidable (_ = _))

/-- The calls of the server: xmin goes forward, ids are added from the tail on, and fewer than `2 ^ 30` ids are between
the tail and the newest one. -/
def History.Proper (g : History) : Event → Prop
  | .setXmin none => True
  | .setXmin (some xid) => Normal xid ∧ g.floor ≤ xid
  | .add xid _ => Normal xid ∧ ∃ tail, g.tail = some tail ∧ tail ≤ xid ∧ xid < tail + 2 ^ 30
  | .get xid => Normal xid ∧ ∀ tail, g.tail = some tail → xid < tail + 2 ^ 30 ∧ tail < xid + 2 ^ 31
  | .checkPoint => True

/-- The head page and the head id that are remembered are not too far behind, and a new xmin is behind the ids of the
pages that are left. -/
def History.Near (g : History) : Event → Prop
  | .setXmin (some xmin) => g.tail = none → ∀ xid, xmin ≤ xid → g.written xid = 0
  | .add xid _ =>
    xid / entriesPerPage < g.floor / entriesPerPage + 2 ^ 20 ∧
      ∀ page, g.headPage = some page → xid / entriesPerPage < page + 2 ^ 20
  | .get xid => ∀ head, g.headXid = some head → xid < head + 2 ^ 31
  | _ => True

/-- The runs all of whose events are `ok`. -/
inductive Reaches (ok : History → Event → Prop) : State → History → Prop where
  | start : Reaches ok oldSerXidInit .start
  | step {s s' : State} {g : History} {e : Event} {result : Option Nat} (h : Reaches ok s g) (hok : ok g e)
      (hs : s.step e = .ok (s', result)) : Reaches ok s' (g.step e)

variable {s : State} {g : History} {e : Event} {x y P Q k : Nat} {pages : Pages}

theorem page_toXid (x : Nat) : oldSerXidPage (toXid x) = x / entriesPerPage % (maxPage + 1) := by
  unfold oldSerXidPage toXid entriesPerPage maxPage
  omega

theorem entry_toXid (x : Nat) : toXid x % entriesPerPage = x % entriesPerPage := by
  unfold toXid entriesPerPage
  omega

theorem precedes_page (h : P < Q + 2 ^ 20) (h' : Q < P + 2 ^ 20) :
    oldSerXidPagePrecedesLogically (P % (maxPage + 1)) (Q % (maxPage + 1)) = decide (P < Q) := by
  unfold oldSerXidPagePrecedesLogically maxPage
  dsimp only
  rw [decide_eq_decide]
  split
  · omega
  · split <;> omega

theorem nextPage_page (P : Nat) : oldSerXidNextPage (P % (maxPage + 1)) = (P + 1) % (maxPage + 1) := by
  unfold oldSerXidNextPage maxPage
  split <;> omega

theorem precedes_toXid (hx : Normal x) (hy : Normal y) (h : x < y + 2 ^ 31) (h' : y < x + 2 ^ 31) :
    transactionIdPrecedes (toXid x) (toXid y) = decide (x < y) := by
  rw [transactionIdPrecedes, if_pos ⟨hx, hy⟩, decide_eq_decide]
  unfold toXid
  omega

theorem follows_toXid (hx : Normal x) (hy : Normal y) (h : x < y + 2 ^ 31) (h' : y < x + 2 ^ 31) :
    transactionIdFollows (toXid x) (toXid y) = decide (y < x) := by
  rw [transactionIdFollows, if_pos ⟨hx, hy⟩, decide_eq_decide]
  unfold toXid
  omega

theorem page_ne (h : P ≠ Q) (hPQ : P < Q + (maxPage + 1)) (hQP : Q < P + (maxPage + 1)) :
    P % (maxPage + 1) ≠ Q % (maxPage + 1) := by
  unfold maxPage at *
  omega

/-- The pages from `P` on are zeroed, and those behind are left. -/
theorem zeroPages_spec (n : Nat) {T : Nat} (hn : T ≤ P + n) (hPT : P ≤ T) (hT : T < P + (maxPage + 1)) (hk : k < T)
    (hkT : T < k + (maxPage + 1)) :
    zeroPages n (P % (maxPage + 1)) (T % (maxPage + 1)) pages (k % (maxPage + 1)) =
      if k < P then pages (k % (maxPage + 1)) else some fun _ => 0 := by
  induction n generalizing P pages with
  | zero =>
    rw [if_pos (by omega)]
    rfl
  | succ n ih =>
    unfold zeroPages
    rcases Nat.eq_or_lt_of_le hPT with rfl | hlt
    · rw [if_pos rfl, if_pos hk]
    · rw [if_neg (page_ne (by omega) (by omega) (by omega)), nextPage_page,
        ih (by omega) hlt (by omega)]
      unfold zeroPage
      rcases lt_trichotomy k P with hbefore | rfl | hafter
      · rw [if_pos (by omega), if_pos hbefore, update_of_ne (page_ne (by omega) (by omega) (by omega))]
      · rw [if_pos (by omega), if_neg (by omega), update_self]
      · rw [if_neg (by omega), if_neg (by omega)]

/-! ### Invariant -/

def encode (xid : Option Nat) : Nat := (xid.map toXid).getD 0

/-- The pages up to `P` hold what was written from `floor` on. -/
def Stored (pages : Pages) (written : Nat → Nat) (floor P : Nat) : Prop :=
  ∀ k, floor / entriesPerPage ≤ k → k ≤ P → ∃ entries, pages (k % (maxPage + 1)) = some entries ∧
    ∀ x, x / entriesPerPage = k → floor ≤ x → entries (x % entriesPerPage) = written x

/-- Pages from the tail to the head page hold what was written, and what is active was written. -/
structure Good (s : State) (g : History) : Prop where
  tail : s.control.tailXid = encode g.tail
  head : s.control.headXid = encode g.headXid
  page : s.control.headPage = g.headPage.elim (-1 : Int) fun P => ((P % (maxPage + 1) : Nat) : Int)
  normal : (∀ t, g.tail = some t → Normal t) ∧ ∀ h, g.headXid = some h → Normal h
  floor : ∀ t, g.tail = some t → g.floor = t
  active : ∀ h, g.headXid = some h → ∃ t P, g.tail = some t ∧ g.headPage = some P ∧ h / entriesPerPage ≤ P ∧
    P < h / entriesPerPage + 2 ^ 20
  span : ∀ P, g.headPage = some P → P < g.floor / entriesPerPage + 2 ^ 20
  store : ∀ P, g.headPage = some P → Stored s.pages g.written g.floor P
  clean : g.headPage = none → ∀ x, g.written x = 0
  last : ∀ x, g.written x ≠ 0 → ∀ P, g.headPage = some P → x / entriesPerPage ≤ P
  added : ∀ t, g.tail = some t → ∀ x, t ≤ x → g.added x = g.written x
  before : ∀ x, g.added x ≠ 0 → ∃ h, g.headXid = some h ∧ x ≤ h

theorem good_start : Good oldSerXidInit .start :=
  ⟨rfl, rfl, rfl, ⟨nofun, nofun⟩, nofun, nofun, nofun, nofun, fun _ _ => rfl, fun _ h => absurd rfl h, nofun,
    fun _ h => absurd rfl h⟩

theorem Good.added_none (h : Good s g) (ht : g.tail = none) (x : Nat) : g.added x = 0 := by
  by_contra hne
  obtain ⟨head, hhead, -⟩ := h.before x hne
  obtain ⟨t, P, htail, -⟩ := h.active head hhead
  cases ht.symm.trans htail

theorem encode_none : encode none = 0 := rfl

theorem encode_some_ne (hx : Normal x) : encode (some x) ≠ 0 := by
  have hle : 3 ≤ toXid x := of_decide_eq_true hx
  show toXid x ≠ 0
  omega

theorem Good.setXmin {xid : Option Nat} (h : Good s g) (hp : g.Proper (.setXmin xid)) (hn : g.Near (.setXmin xid)) :
    Good (oldSerXidSetActiveSerXmin false s (encode xid)) (g.step (.setXmin xid)) := by
  unfold oldSerXidSetActiveSerXmin
  cases xid with
  | none =>
    exact ⟨rfl, rfl, h.page, ⟨nofun, nofun⟩, nofun, nofun, h.span, h.store, h.clean, h.last, nofun,
      fun _ hne => absurd rfl hne⟩
  | some xmin =>
    obtain ⟨hnormal, hfloor⟩ := hp
    rw [if_neg (encode_some_ne hnormal), if_neg Bool.false_ne_true]
    have hpage := Nat.div_le_div_right (c := entriesPerPage) hfloor
    refine ⟨rfl, h.head, h.page, ⟨fun t ht => some.inj ht ▸ hnormal, h.normal.2⟩, fun t ht => some.inj ht,
      fun head hhead => ?_, fun P hP => ?_, fun P hP k hk hkP => ?_, h.clean, h.last, fun t ht x hx => ?_, h.before⟩
    · obtain ⟨t, P, -, hP⟩ := h.active head hhead
      exact ⟨xmin, P, rfl, hP⟩
    · exact lt_of_lt_of_le (h.span P hP) (Nat.add_le_add_right hpage _)
    · obtain ⟨entries, hentries, hvalues⟩ := h.store P hP k (le_trans hpage hk) hkP
      exact ⟨entries, hentries, fun x hx hle => hvalues x hx (le_trans hfloor hle)⟩
    · obtain rfl := some.inj ht
      cases htail : g.tail with
      | none => exact (h.added_none htail x).trans (hn htail x hx).symm
      | some t => exact h.added t htail x (le_trans (h.floor t htail ▸ hfloor) hx)

theorem Good.checkPoint (h : Good s g) : Good (checkPointPredicate s) (g.step .checkPoint) := by
  unfold checkPointPredicate
  cases hP : g.headPage with
  | none =>
    have hpage := h.page
    rw [hP] at hpage
    rw [if_pos (by rw [hpage]; decide)]
    have hsame : g.step .checkPoint = g := by
      unfold History.step
      dsimp only
      split
      · have hclean : g.written = fun _ => 0 := funext (h.clean hP)
        obtain ⟨tail, added, floor, headXid, headPage, written⟩ := g
        dsimp only at hP hclean
        rw [hP, hclean]
      · rfl
    rw [hsame]
    exact h
  | some P =>
    have hpage := h.page
    rw [hP] at hpage
    rw [if_neg (by rw [hpage]; exact Int.not_lt.mpr (Int.natCast_nonneg _))]
    cases htail : g.tail with
    | none =>
      have hzero := h.tail
      rw [htail, encode_none] at hzero
      rw [if_neg (not_not.mpr hzero)]
      have hhead : g.headXid = none := by
        by_contra hne
        obtain ⟨head, hhead⟩ := ne_none_iff_exists'.mp hne
        obtain ⟨t, -, ht, -⟩ := h.active head hhead
        cases htail.symm.trans ht
      unfold History.step
      dsimp only
      rw [if_pos htail]
      exact ⟨h.tail, h.head, rfl, h.normal, h.floor, fun head hh => (by cases hhead.symm.trans hh), by simp, by simp,
        fun _ _ => rfl, fun _ hne => absurd rfl hne, fun t ht => (by cases htail.symm.trans ht), h.before⟩
    | some t =>
      have hne := h.tail
      rw [htail] at hne
      rw [if_pos (hne ▸ encode_some_ne (h.normal.1 t htail))]
      have hsame : g.step .checkPoint = g := by
        unfold History.step
        dsimp only
        rw [if_neg (by rw [htail]; rintro ⟨⟩)]
      rw [hsame]
      refine ⟨h.tail, h.head, h.page, h.normal, h.floor, h.active, h.span, fun Q hQ k hk hkQ => ?_, h.clean, h.last,
        h.added, h.before⟩
      obtain ⟨entries, hentries, hvalues⟩ := h.store Q hQ k hk hkQ
      have hspan := h.span Q hQ
      refine ⟨entries, ?_, hvalues⟩
      show truncate s.pages (oldSerXidPage s.control.tailXid) (k % (maxPage + 1)) = _
      unfold truncate
      rw [hne, show encode (some t) = toXid t from rfl, page_toXid, ← h.floor t htail,
        precedes_page (by omega) (by omega), if_neg (by simpa using hk)]
      exact hentries

theorem Good.get (h : Good s g) (hp : g.Proper (.get x)) (hn : g.Near (.get x)) :
    oldSerXidGetMinConflictCommitSeqNo s (toXid x) =
      .ok (g.tail.elim 0 fun tail => if x < tail then 0 else g.added x) := by
  unfold oldSerXidGetMinConflictCommitSeqNo
  dsimp only
  rw [h.head, h.tail]
  cases hhead : g.headXid with
  | none =>
    rw [encode_none, if_pos rfl]
    have hadded : g.added x = 0 := by
      by_contra hne
      obtain ⟨head, hh, -⟩ := h.before x hne
      cases hhead.symm.trans hh
    cases g.tail with
    | none => rfl
    | some t =>
      rw [elim_some, hadded, ite_self]
  | some head =>
    obtain ⟨t, P, htail, hP, hhP, -⟩ := h.active head hhead
    obtain ⟨hnormal, hrange⟩ := hp
    obtain ⟨hnew, hold⟩ := hrange t htail
    have hfloor := h.floor t htail
    have hspan := h.span P hP
    have hhnormal := h.normal.2 head hhead
    have hnear : head < x + 2 ^ 31 ∨ x < t := by
      unfold entriesPerPage at hhP hspan
      omega
    rw [if_neg (encode_some_ne hhnormal), htail, elim_some]
    show (if transactionIdPrecedes (toXid x) (toXid t) || transactionIdFollows (toXid x) (toXid head) then _ else _) = _
    rw [precedes_toXid hnormal (h.normal.1 t htail) (by omega) hold]
    rcases Nat.lt_or_ge x t with hlt | hge
    · rw [decide_eq_true hlt, Bool.true_or, if_pos rfl, if_pos hlt]
    rw [decide_eq_false (Nat.not_lt.mpr hge), Bool.false_or, if_neg (Nat.not_lt.mpr hge),
      follows_toXid hnormal hhnormal (hn head hhead) (by omega)]
    rcases Nat.lt_or_ge head x with hafter | hbefore
    · rw [decide_eq_true hafter, if_pos rfl]
      by_contra hne
      obtain ⟨head', hh, hle⟩ := h.before x fun hzero => hne (by rw [hzero])
      obtain rfl := some.inj (hhead.symm.trans hh)
      omega
    · rw [decide_eq_false (Nat.not_lt.mpr hbefore), if_neg Bool.false_ne_true, page_toXid, entry_toXid]
      obtain ⟨entries, hentries, hvalues⟩ := h.store P hP (x / entriesPerPage)
        (Nat.div_le_div_right (hfloor ▸ hge)) (le_trans (Nat.div_le_div_right hbefore) hhP)
      rw [hentries]
      show Except.ok (entries _) = _
      rw [hvalues x rfl (hfloor ▸ hge), h.added t htail x hge]

/-- The store after an addition: from the tail to the target, what is written. -/
theorem store_write {written : Nat → Nat} {floor T value : Nat} {pages pages' : Pages} (hT : x / entriesPerPage = T)
    (hfloor : floor ≤ x) (hP : T ≤ P) (hspan : P < floor / entriesPerPage + 2 ^ 20)
    (hstore : Stored pages written floor P)
    (hwrite : writeValue pages (T % (maxPage + 1)) (toXid x) value = .ok pages') :
    Stored pages' (update written x value) floor P := by
  intro k hk hkP
  have hTfloor : floor / entriesPerPage ≤ T := hT ▸ Nat.div_le_div_right hfloor
  obtain ⟨target, htarget, -⟩ := hstore T hTfloor hP
  obtain ⟨entries, hentries, hvalues⟩ := hstore k hk hkP
  unfold writeValue at hwrite
  rw [htarget, entry_toXid] at hwrite
  obtain rfl := Except.ok.inj hwrite
  rcases eq_or_ne k T with rfl | hne
  · obtain rfl := some.inj (htarget.symm.trans hentries)
    refine ⟨_, update_self .., fun y hy hle => ?_⟩
    rcases eq_or_ne y x with rfl | hyx
    · rw [update_self, update_self]
    · have hentry : y % entriesPerPage ≠ x % entriesPerPage := by
        unfold entriesPerPage at *
        omega
      rw [update_of_ne hentry, update_of_ne hyx]
      exact hvalues y hy hle
  · refine ⟨entries, ?_, fun y hy hle => ?_⟩
    · rw [update_of_ne (page_ne hne (by unfold maxPage; omega) (by unfold maxPage; omega))]
      exact hentries
    · rw [update_of_ne (fun heq => hne (by rw [← hy, heq, hT]))]
      exact hvalues y hy hle

theorem writeValue_ok {pages : Pages} {page : Nat} {entries : Nat → Nat} (xid value : Nat)
    (h : pages page = some entries) :
    ∃ pages', writeValue pages page xid value = .ok pages' := by
  unfold writeValue
  rw [h]
  exact ⟨_, rfl⟩

/-- The pages when the target is new, from the first page to be zeroed on. -/
theorem store_zeroed {T : Nat} (hPT : P ≤ T) (hT : T < Q + 2 ^ 20) (hfirst : T < P + 2 ^ 20) (hk : Q ≤ k) (hkT : k ≤ T) :
    zeroPage (zeroPages (maxPage + 1) (P % (maxPage + 1)) (T % (maxPage + 1)) pages) (T % (maxPage + 1))
        (k % (maxPage + 1)) = if k < P then pages (k % (maxPage + 1)) else some fun _ => 0 := by
  unfold zeroPage
  rcases Nat.eq_or_lt_of_le hkT with rfl | hlt
  · rw [update_self, if_neg (Nat.not_lt.mpr hPT)]
  · rw [update_of_ne (page_ne (by omega) (by unfold maxPage; omega) (by unfold maxPage; omega)),
      zeroPages_spec _ (by unfold maxPage; omega) hPT (by unfold maxPage; omega) hlt (by unfold maxPage; omega)]

/-- The pages as they are before the value is written, and the new head page. -/
theorem Good.newPages {t first : Nat} {isNew : Bool} (h : Good s g) (htail : g.tail = some t) (hle : t ≤ x)
    (hn : g.Near (.add x y)) (hfirst : firstZeroPage s.control (x / entriesPerPage % (maxPage + 1)) = (first, isNew)) :
    let T := x / entriesPerPage
    let P' := g.headPage.elim T (max T)
    (if isNew then ((T % (maxPage + 1) : Nat) : Int) else s.control.headPage) = ((P' % (maxPage + 1) : Nat) : Int) ∧
      Stored (if isNew then zeroPage (zeroPages (maxPage + 1) first (T % (maxPage + 1)) s.pages) (T % (maxPage + 1))
        else s.pages) g.written g.floor P' := by
  intro T P'
  obtain rfl := h.floor t htail
  have hT : g.floor / entriesPerPage ≤ T := Nat.div_le_div_right hle
  obtain ⟨hnear, hhead⟩ := hn
  have hpage := h.page
  unfold firstZeroPage at hfirst
  cases hP : g.headPage with
  | none =>
    rw [hP] at hpage
    rw [if_pos (by rw [hpage]; decide), h.tail, htail] at hfirst
    obtain ⟨rfl, rfl⟩ := Prod.mk.inj hfirst
    rw [show P' = T by unfold P'; rw [hP]; rfl, if_pos rfl, if_pos rfl, show encode (some g.floor) = toXid g.floor from rfl, page_toXid]
    refine ⟨rfl, fun k hk hkT => ⟨fun _ => 0, ?_, fun y _ _ => (h.clean hP y).symm⟩⟩
    rw [store_zeroed hT hnear hnear hk hkT, if_neg (Nat.not_lt.mpr hk)]
  | some P =>
    rw [hP, elim_some] at hpage
    have hspan := h.span P hP
    have hnext := hhead P hP
    rw [if_neg (by rw [hpage]; exact Int.not_lt.mpr (Int.natCast_nonneg _)), hpage, Int.toNat_natCast, nextPage_page,
      precedes_page (by omega) hnext] at hfirst
    obtain ⟨rfl, rfl⟩ := Prod.mk.inj hfirst
    rw [show P' = max T P by unfold P'; rw [hP]; rfl]
    rcases Nat.lt_or_ge P T with hlt | hge
    · rw [decide_eq_true hlt, if_pos rfl, if_pos rfl, max_eq_left (le_of_lt hlt)]
      refine ⟨rfl, fun k hk hkT => ?_⟩
      rw [store_zeroed hlt hnear (by omega) hk hkT]
      split
      next hbefore => exact h.store P hP k hk (Nat.le_of_lt_succ hbefore)
      next hafter =>
        refine ⟨_, rfl, fun y hy _ => ?_⟩
        by_contra hne
        have hlast := h.last y (Ne.symm hne) P hP
        omega
    · rw [decide_eq_false (Nat.not_lt.mpr hge), if_neg Bool.false_ne_true, if_neg Bool.false_ne_true, max_eq_right hge]
      exact ⟨hpage, fun k hk hkP => h.store P hP k hk hkP⟩

theorem Good.newHead {t : Nat} (h : Good s g) (htail : g.tail = some t) (hle : t ≤ x) (hnormal : Normal x)
    (hn : g.Near (.add x y)) :
    (if s.control.headXid = 0 ∨ transactionIdFollows (toXid x) s.control.headXid then toXid x else s.control.headXid) =
      encode (some (g.headXid.elim x (max x))) := by
  obtain ⟨-, hnext⟩ := hn
  rw [h.head]
  cases hhead : g.headXid with
  | none => exact if_pos (.inl rfl)
  | some head =>
    obtain ⟨t', P, ht', hP, hhP, hPh⟩ := h.active head hhead
    have hspan := h.span P hP
    have hnear := hnext P hP
    obtain rfl := h.floor t htail
    have hhnormal := h.normal.2 head hhead
    have hin : x < head + 2 ^ 31 ∧ head < x + 2 ^ 31 := by
      unfold entriesPerPage at *
      omega
    show (if encode (some head) = 0 ∨ transactionIdFollows (toXid x) (toXid head) then _ else _) = toXid (max x head)
    rw [follows_toXid hnormal hhnormal hin.1 hin.2]
    rcases Nat.lt_or_ge head x with hlt | hge
    · rw [if_pos (.inr (decide_eq_true hlt)), max_eq_left (le_of_lt hlt)]
    · rw [if_neg (not_or.mpr ⟨encode_some_ne hhnormal, by simpa using hge⟩), max_eq_right hge]
      rfl

theorem Good.add {value : Nat} (h : Good s g) (hp : g.Proper (.add x value)) (hn : g.Near (.add x value)) :
    ∃ s', oldSerXidAdd s (toXid x) value = .ok s' ∧ Good s' (g.step (.add x value)) := by
  obtain ⟨hnormal, t, htail, hle, -⟩ := hp
  obtain rfl := h.floor t htail
  rcases hfirst : firstZeroPage s.control (x / entriesPerPage % (maxPage + 1)) with ⟨first, isNew⟩
  obtain ⟨hpage, hstore⟩ := h.newPages htail hle hn hfirst
  have hhead := h.newHead htail hle hnormal hn
  obtain ⟨hnear, hnext⟩ := hn
  generalize hP : g.headPage.elim (x / entriesPerPage) (max (x / entriesPerPage)) = P at hpage hstore
  have hstep : (g.step (.add x value)).headPage = some P := congrArg some hP
  have hTP : x / entriesPerPage ≤ P ∧ ∀ Q, g.headPage = some Q → Q ≤ P := by
    rw [← hP]
    cases g.headPage with
    | none => exact ⟨le_refl _, nofun⟩
    | some Q => exact ⟨le_max_left .., fun Q' hQ' => some.inj hQ' ▸ le_max_right ..⟩
  have hspan : P < g.floor / entriesPerPage + 2 ^ 20 := by
    rw [← hP]
    cases hold : g.headPage with
    | none => exact hnear
    | some Q => exact Nat.max_lt.mpr ⟨hnear, h.span Q hold⟩
  have hfloor : g.floor / entriesPerPage ≤ x / entriesPerPage := Nat.div_le_div_right hle
  obtain ⟨target, htarget, -⟩ := hstore (x / entriesPerPage) hfloor hTP.1
  obtain ⟨pages', hwrite⟩ := writeValue_ok (toXid x) value htarget
  have hadd : oldSerXidAdd s (toXid x) value =
      .ok ⟨⟨if isNew then ((x / entriesPerPage % (maxPage + 1) : Nat) : Int) else s.control.headPage,
        if s.control.headXid = 0 ∨ transactionIdFollows (toXid x) s.control.headXid then toXid x else s.control.headXid,
        s.control.tailXid, warning s.control (toXid x)⟩, pages'⟩ := by
    unfold oldSerXidAdd
    rw [page_toXid]
    dsimp only
    rw [hfirst]
    dsimp only
    rw [hwrite]
    rfl
  refine ⟨_, hadd, h.tail, hhead, hpage.trans (by rw [hstep]; rfl), ⟨h.normal.1, fun head hh => ?_⟩, h.floor, fun head hh => ?_,
    fun Q hQ => ?_, fun Q hQ => ?_, fun hQ => (nomatch hstep.symm.trans hQ), fun y hy Q hQ => ?_, fun t ht y hy => ?_,
    fun y hy => ?_⟩
  · obtain rfl := some.inj hh
    cases hold : g.headXid with
    | none => exact hnormal
    | some head =>
      show Normal (max x head)
      rcases Nat.le_total x head with hafter | hbefore
      · rw [max_eq_right hafter]
        exact h.normal.2 head hold
      · rw [max_eq_left hbefore]
        exact hnormal
  · obtain rfl := some.inj hh
    refine ⟨g.floor, P, htail, hstep, ?_⟩
    cases hold : g.headXid with
    | none => exact ⟨hTP.1, by rw [elim_none]; omega⟩
    | some head =>
      obtain ⟨-, Q, -, hQ, hbefore, hafter⟩ := h.active head hold
      have hQP := hTP.2 Q hQ
      have hor : P = Q ∨ P = x / entriesPerPage := by
        rw [← hP, hQ, elim_some]
        omega
      rw [elim_some]
      unfold entriesPerPage at *
      omega
  · obtain rfl := some.inj (hstep.symm.trans hQ)
    exact hspan
  · obtain rfl := some.inj (hstep.symm.trans hQ)
    exact store_write rfl hle hTP.1 hspan hstore hwrite
  · obtain rfl := some.inj (hstep.symm.trans hQ)
    rcases Decidable.eq_or_ne y x with rfl | hne
    · exact hTP.1
    · have hold : g.written y ≠ 0 := by
        rwa [show (g.step (.add x value)).written y = g.written y from update_of_ne hne ..] at hy
      cases hhp : g.headPage with
      | none => exact absurd (h.clean hhp y) hold
      | some Q => exact le_trans (h.last y hold Q hhp) (hTP.2 Q hhp)
  · show update g.added x value y = update g.written x value y
    rcases Decidable.eq_or_ne y x with rfl | hne
    · rw [update_self, update_self]
    · rw [update_of_ne hne, update_of_ne hne]
      exact h.added t ht y hy
  · refine ⟨_, rfl, ?_⟩
    rcases Decidable.eq_or_ne y x with rfl | hne
    · cases g.headXid with
      | none => exact le_refl _
      | some head => exact le_max_left ..
    · have hold : g.added y ≠ 0 := by
        rwa [show (g.step (.add x value)).added y = g.added y from update_of_ne hne ..] at hy
      obtain ⟨head, hh, hyh⟩ := h.before y hold
      rw [hh]
      exact le_trans hyh (le_max_right ..)

theorem Good.step (h : Good s g) (hp : g.Proper e) (hn : g.Near e) :
    ∃ s', s.step e = .ok (s', g.answer e) ∧ Good s' (g.step e) := by
  cases e with
  | setXmin xid => exact ⟨_, rfl, h.setXmin hp hn⟩
  | add xid value =>
    obtain ⟨s', hadd, hgood⟩ := h.add hp hn
    exact ⟨s', by rw [State.step, hadd]; rfl, hgood⟩
  | get xid => exact ⟨s, by rw [State.step, h.get hp hn]; rfl, h⟩
  | checkPoint => exact ⟨_, rfl, h.checkPoint⟩

theorem reaches_good (h : Reaches (fun g e => g.Proper e ∧ g.Near e) s g) : Good s g := by
  induction h with
  | start => exact good_start
  | step _ hok hs ih =>
    obtain ⟨s', heq, hgood⟩ := ih.step hok.1 hok.2
    obtain rfl := congrArg Prod.fst (Except.ok.inj (hs.symm.trans heq))
    exact hgood

end PgStorage.OldSerXid
