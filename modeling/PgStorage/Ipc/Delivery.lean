import PgStorage.Ipc.Sinvaladt
import PgStorage.Lib.Links
import PgStorage.Lib.Trace

/-! Delivery of shared invalidations.

The segment is a queue of the messages that have been registered last. A backend has seen all
messages up to its last call; its limit is what it has seen of the queue. When a full segment
drops a message that some backends have not seen, they are marked, and the next call of each
resets its caches instead of processing messages: the reset stands for the messages that are
still in the queue as well. -/
namespace PgStorage.Ipc
open Links Trace
open Function List ProcState
open Option (map_some bind_some)

section Queue
variable {M : Type} {s : SISeg M} {used free : List Nat} {chain : List M}

structure SegInv (s : SISeg M) (used free : List Nat) : Prop where
  linked : Linked s.next s.startEntryChain used
  spare : Linked s.next s.startFreeSpace free
  perm : (used ++ free).Perm (List.range maxNumMessages)
  last : s.endEntryChain = used.getLast?
  count : s.numEntries = used.length
  isfree : ∀ e ∈ free, s.isfree e = true
  inUse : ∀ e ∈ used, s.isfree e = false

/-- The messages in the segment. -/
def Queues (s : SISeg M) (chain : List M) : Prop := ∃ used free, SegInv s used free ∧ used.map s.entryData = chain

theorem SegInv.disjoint (h : SegInv s used free) : ∀ e ∈ used, e ∉ free :=
  fun e hu hf => (nodup_append.mp (h.perm.nodup_iff.mpr nodup_range)).2.2 e hu e hf rfl

theorem SegInv.room (h : SegInv s used free) : used.length + free.length = maxNumMessages := by
  have hlen := h.perm.length_eq
  rwa [length_append, length_range] at hlen

theorem Queues.length (h : Queues s chain) : s.numEntries = chain.length := by
  obtain ⟨used, free, h, rfl⟩ := h
  rw [length_map]
  exact h.count

theorem Queues.length_le (h : Queues s chain) : chain.length ≤ maxNumMessages := by
  obtain ⟨used, free, h, rfl⟩ := h
  have hroom := h.room
  rw [length_map]
  omega

/-- The states of the backends are not part of the queue. -/
theorem Queues.congr {p : Fin maxBackendId → ProcState} (h : Queues s chain) : Queues {s with procState := p} chain := by
  obtain ⟨used, free, h, hc⟩ := h
  exact ⟨used, free, ⟨h.linked, h.spare, h.perm, h.last, h.count, h.isfree, h.inUse⟩, hc⟩

theorem siSetDataEntry_full (h : Queues s chain) (hfull : chain.length = maxNumMessages) (data : M) :
    siSetDataEntry s data = some (s, false) := by
  rw [siSetDataEntry, if_neg (by rw [h.length]; omega)]

theorem siSetDataEntry_spec (h : Queues s chain) (hroom : chain.length < maxNumMessages) (data : M) :
    ∃ t, siSetDataEntry s data = some (t, true) ∧ Queues t (chain ++ [data]) ∧ t.procState = s.procState := by
  have hlen := h.length
  obtain ⟨used, free, h, rfl⟩ := h
  rw [length_map] at hroom hlen
  cases free with
  | nil => exact absurd h.room (by rw [length_nil]; omega)
  | cons e free =>
    have hstart := h.spare.1
    have heu : e ∉ used := fun hm => h.disjoint e hm mem_cons_self
    have hef : e ∉ free := (nodup_cons.mp (linked_nodup h.spare)).1
    have hperm : ((used ++ [e]) ++ free).Perm (range maxNumMessages) := by simpa using h.perm
    have hdata : (used ++ [e]).map (update s.entryData e data) = used.map s.entryData ++ [data] := by
      rw [map_append, map_singleton, update_self]
      congr 1
      exact map_congr_left fun y hy => update_of_ne (fun he => heu (by rwa [← he])) ..
    have hfreed : ∀ y ∈ free, update s.isfree e false y = true := fun y hy => by
      rw [update_of_ne fun he => hef (by rwa [← he])]
      exact h.isfree y (mem_cons_of_mem e hy)
    have hused : ∀ y ∈ used ++ [e], update s.isfree e false y = false := fun y hy => by
      by_cases he : y = e
      · rw [he, update_self]
      · rw [update_of_ne he]
        exact h.inUse y ((mem_append.mp hy).resolve_right fun hm => he (mem_singleton.mp hm))
    have hcount : s.numEntries + 1 = (used ++ [e]).length := by simp [hlen]
    rw [siSetDataEntry, if_pos (by omega), hstart, map_some]
    dsimp only
    rcases eq_nil_or_concat used with rfl | ⟨init, last, hu⟩
    · rw [show s.endEntryChain = none from h.last]
      refine ⟨_, rfl, ⟨[e], free, ⟨⟨rfl, ?_⟩, linked_rest h.spare, hperm, rfl, hcount, hfreed, hused⟩, hdata⟩, rfl⟩
      exact update_self ..
    · rw [concat_eq_append] at hu
      subst hu
      have hlast : last ∉ free := fun hm => h.disjoint last (by simp) (mem_cons_of_mem e hm)
      rw [show s.endEntryChain = some last by rw [h.last, getLast?_concat]]
      rw [show init ++ [last] ++ [e] = init ++ [last, e] by simp] at hperm hdata hused hcount
      refine ⟨_, rfl, ⟨init ++ [last, e], free, ⟨linked_snoc h.linked heu, ?_, hperm, ?_, hcount, hfreed, hused⟩, hdata⟩,
        rfl⟩
      · exact path_congr (fun y hy => update_of_ne (fun he => hlast (by rwa [← he])) ..) (linked_rest h.spare)
      · simp

/-- What deleting `n` messages does to the state of a backend. -/
def ProcState.lower (n : Nat) (p : ProcState) : ProcState :=
  {p with limit := if p.limit ≤ 0 then p.limit else max 0 (p.limit - n)}

theorem siDelDataEntry_spec {m : M} (h : Queues s (m :: chain)) :
    ∃ t, siDelDataEntry s = some (t, true) ∧ Queues t chain ∧ ∀ i, t.procState i = (s.procState i).lower 1 := by
  have hlen := h.length
  obtain ⟨used, free, h, hc⟩ := h
  cases used with
  | nil => cases hc
  | cons e used =>
    have hstart := h.linked.1
    have heu : e ∉ used := (nodup_cons.mp (linked_nodup h.linked)).1
    have hef : e ∉ free := h.disjoint e mem_cons_self
    have hfree := linked_push h.spare hef
    have hperm : (used ++ e :: free).Perm (range maxNumMessages) := perm_middle.trans h.perm
    have hrest := linked_rest (v := s.startFreeSpace) h.linked
    have hend : (if s.next e = none then none else s.endEntryChain) = used.getLast? := by
      cases used with
      | nil => exact if_pos h.linked.2
      | cons x used => rw [if_neg (by rw [h.linked.2.1]; nofun), h.last, getLast?_cons_cons]
    have hcount : s.numEntries - 1 = used.length := by rw [h.count]; rfl
    have hfreed : ∀ y ∈ e :: free, update s.isfree e true y = true := fun y hy => by
      by_cases he : y = e
      · rw [he, update_self]
      · rw [update_of_ne he]
        exact h.isfree y ((mem_cons.mp hy).resolve_left he)
    have hused : ∀ y ∈ used, update s.isfree e true y = false := fun y hy => by
      rw [update_of_ne fun he => heu (by rwa [← he])]
      exact h.inUse y (mem_cons_of_mem e hy)
    rw [siDelDataEntry, if_pos (by rw [hlen]; simp), hstart, map_some]
    refine ⟨_, rfl, Queues.congr ⟨used, e :: free, ⟨hrest, hfree, hperm, hend, hcount, hfreed, hused⟩, ?_⟩, fun i => ?_⟩
    · exact (cons.inj hc).2
    · simp only [siDecProcLimit, lower]
      by_cases hl : 0 < (s.procState i).limit
      · rw [if_pos hl, if_neg (by omega), if_neg (by omega), max_eq_right (by omega)]
        rfl
      · rw [if_neg hl, if_pos (by omega)]

variable {n : Nat} {i : Fin maxBackendId}

theorem deleteEntries_spec (h : Queues s chain) (hn : n ≤ chain.length) :
    ∃ t, deleteEntries n s = some t ∧ Queues t (chain.drop n) ∧ ∀ i, t.procState i = (s.procState i).lower n := by
  induction n generalizing s chain with
  | zero =>
    refine ⟨s, rfl, h, fun i => ?_⟩
    simp only [lower]
    split_ifs with hl
    · rfl
    · rw [max_eq_right (by omega)]
      exact congrArg (mk · _ _) (Int.sub_zero _).symm
  | succ n ih =>
    cases chain with
    | nil => exact absurd hn (Nat.not_succ_le_zero n)
    | cons m chain =>
      obtain ⟨t, ht, hq, hp⟩ := siDelDataEntry_spec h
      obtain ⟨u, hu, hq', hp'⟩ := ih hq (Nat.le_of_succ_le_succ hn)
      refine ⟨u, by rw [deleteEntries, ht, bind_some]; exact hu, hq', fun i => ?_⟩
      rw [hp', hp]
      simp only [lower]
      congr 1
      split_ifs <;> omega

/-! ### Reading -/

theorem readEntries_spec (fuel : Nat) {o : Option Nat} {l : List Nat} (h : Linked s.next o l) (hl : l.length ≤ fuel) :
    readEntries s fuel o = some (l.map s.entryData) := by
  induction l generalizing o fuel with
  | nil =>
    cases h
    cases fuel <;> rfl
  | cons e l ih =>
    cases h.1
    cases fuel with
    | zero => exact absurd hl (Nat.not_succ_le_zero _)
    | succ fuel =>
      rw [readEntries, ih _ h.2 (Nat.le_of_succ_le_succ hl)]
      rfl

theorem skipEntries_spec {o : Option Nat} {l : List Nat} (h : Linked s.next o l) (hn : n ≤ l.length) :
    ∃ d, skipEntries s n o = some d ∧ Linked s.next d (l.drop n) := by
  induction n generalizing o l with
  | zero => exact ⟨o, rfl, h⟩
  | succ n ih =>
    cases l with
    | nil => exact absurd hn (Nat.not_succ_le_zero n)
    | cons e l =>
      cases h.1
      exact ih h.2 (Nat.le_of_succ_le_succ hn)

/-- A backend that has read `n` messages of the queue reads the others. -/
theorem siReadEntryData_inval (h : Queues s chain) (hr : (s.procState i).resetState = false)
    (hl : (s.procState i).limit = n) (hn : n ≤ chain.length) :
    siReadEntryData s i = some (s.setProcState i {s.procState i with limit := chain.length}, .inval (chain.drop n)) := by
  have hlen := h.length_le
  obtain ⟨used, free, h, rfl⟩ := h
  rw [length_map] at hn hlen
  obtain ⟨d, hd, hlinked⟩ := skipEntries_spec h.linked hn
  have hnth : siGetNthDataEntry s (n + 1) = some d := by
    rw [siGetNthDataEntry, if_neg (by omega), show ((n : Int) + 1 - 1).toNat = n by omega]
    exact hd
  have hread := readEntries_spec maxNumMessages hlinked (by rw [length_drop]; omega)
  simp only [siReadEntryData]
  rw [if_pos hr, hl, hnth, bind_some, hread, map_some, map_drop]
  simp only [length_drop, length_map]
  rw [show (n : Int) + ((used.length - n : Nat) : Int) = (used.length : Int) by omega]

theorem siReadEntryData_reset (h : Queues s chain) (hr : (s.procState i).resetState = true) :
    siReadEntryData s i =
      some (s.setProcState i {s.procState i with resetState := false, limit := chain.length}, .reset) := by
  simp only [siReadEntryData]
  rw [if_neg (by rw [hr]; nofun), h.length]

theorem minLimit_spec (s : SISeg M) :
    0 ≤ minLimit s ∧ ∀ i, 0 ≤ (s.procState i).limit → minLimit s ≤ (s.procState i).limit := by
  have hfold (l : List (Fin maxBackendId)) (k : Int) (hk : 0 ≤ k) :
      let r := l.foldl (fun min i => if 0 ≤ (s.procState i).limit ∧ (s.procState i).limit < min then
        (s.procState i).limit else min) k
      0 ≤ r ∧ r ≤ k ∧ ∀ i ∈ l, 0 ≤ (s.procState i).limit → r ≤ (s.procState i).limit := by
    induction l generalizing k with
    | nil => exact ⟨hk, Int.le_refl k, nofun⟩
    | cons j l ih =>
      rw [foldl_cons]
      split_ifs with hj
      · obtain ⟨h0, hle, hall⟩ := ih _ hj.1
        refine ⟨h0, by omega, fun i hi hl => ?_⟩
        rcases mem_cons.mp hi with rfl | hi
        · exact hle
        · exact hall i hi hl
      · obtain ⟨h0, hle, hall⟩ := ih k hk
        refine ⟨h0, hle, fun i hi hl => ?_⟩
        rcases mem_cons.mp hi with rfl | hi
        · omega
        · exact hall i hi hl
  obtain ⟨h0, -, hall⟩ := hfold (finRange maxBackendId) 9999999 (by decide)
  exact ⟨h0, fun i => hall i (mem_finRange i)⟩

/-- What all active backends have read is deleted. -/
theorem siDelExpiredDataEntries_spec (h : Queues s chain) (h0 : 0 ≤ (s.procState i).limit)
    (hl : (s.procState i).limit ≤ chain.length) : ∃ (t : SISeg M) (n : Nat), siDelExpiredDataEntries s = some t ∧
      n ≤ chain.length ∧ (∀ j, 0 ≤ (s.procState j).limit → n ≤ (s.procState j).limit) ∧ Queues t (chain.drop n) ∧
      ∀ j, t.procState j = (s.procState j).lower n := by
  obtain ⟨hmin, hle⟩ := minLimit_spec s
  have hn : (minLimit s).toNat ≤ chain.length := by
    have := hle i h0
    omega
  have hbound := h.length_le
  obtain ⟨t, ht, hq, hp⟩ := deleteEntries_spec h hn
  refine ⟨t, _, ?_, hn, fun j hj => ?_, hq, hp⟩
  · rw [siDelExpiredDataEntries, if_pos]
    · exact ht
    · have := hle i h0
      simp only [maxNumMessages] at hbound
      omega
  · have := hle j hj
    omega

end Queue

/-! ### Backends -/

/-- A call of `InvalidateSharedInvalid`: how many messages had been registered, and how many of
them deleted, and what the call did. -/
structure Call (M : Type) where
  sent : Nat
  dropped : Nat
  heard : Heard M

/-- The segment and its history: all messages, and for each backend when it became active and its
calls since then. -/
structure Delivery (M : Type) where
  seg : SISeg M
  log : List M
  since : Fin maxBackendId → Nat
  calls : Fin maxBackendId → List (Call M)

inductive SiAct (M : Type) where
  | activate (tag : Int)
  | exit (i : Fin maxBackendId)
  | register (message : M)
  | invalidate (i : Fin maxBackendId)

section Runs
variable {M : Type}

def SISeg.Active (s : SISeg M) (i : Fin maxBackendId) : Prop := (s.procState i).tag ≠ invalidBackendTag

instance (s : SISeg M) (i : Fin maxBackendId) : Decidable (s.Active i) := inferInstanceAs (Decidable (_ ≠ _))

def siStep (s : Delivery M) : SiAct M → Option (Delivery M)
  | .activate tag => (siBackendInit s.seg tag).map fun (seg, i) =>
    {s with seg := seg, since := Function.update s.since i s.log.length, calls := Function.update s.calls i []}
  | .exit i => if s.seg.Active i then some {s with seg := siSetDeadProcess s.seg i} else none
  | .register message => (registerSharedInvalid s.seg message).map fun seg =>
    {s with seg := seg, log := s.log ++ [message]}
  | .invalidate i =>
    if s.seg.Active i then
      (invalidateSharedInvalid s.seg i).map fun (seg, heard) =>
        let call := ⟨s.log.length, s.log.length - s.seg.numEntries, heard⟩
        {s with seg := seg, calls := Function.update s.calls i (s.calls i ++ [call])}
    else none

instance : NeZero maxBackendId := ⟨by decide⟩

def Delivery.start (entryData : Nat → M) : Delivery M where
  seg := siSegInit entryData
  log := []
  since _ := 0
  calls _ := []

/-- The calls of a backend that had seen the first `seen` messages: each processes all messages
registered since then, in their order, or, when some of them have been deleted, resets once. -/
def Answered (log : List M) : Nat → List (Call M) → Prop
  | _, [] => True
  | seen, c :: calls => seen ≤ c.sent ∧
    c.heard = (if c.dropped ≤ seen then .inval ((log.take c.sent).drop seen) else .reset) ∧ Answered log c.sent calls

/-- What a backend has seen after its calls. -/
def seenAfter (seen : Nat) (calls : List (Call M)) : Nat := calls.foldl (fun _ c => c.sent) seen

variable {log : List M} {seen d : Nat} {calls : List (Call M)} {p : ProcState}

theorem Answered.le (h : Answered log seen calls) : seen ≤ seenAfter seen calls := by
  induction calls generalizing seen with
  | nil => exact le_refl seen
  | cons c calls ih => exact le_trans h.1 (ih h.2.2)

theorem answered_append {more : List M} (h : Answered log seen calls) (hs : seenAfter seen calls ≤ log.length) :
    Answered (log ++ more) seen calls := by
  induction calls generalizing seen with
  | nil => trivial
  | cons c calls ih =>
    have hc : c.sent ≤ log.length := le_trans h.2.2.le hs
    refine ⟨h.1, ?_, ih h.2.2 hs⟩
    rw [take_append_of_le_length hc]
    exact h.2.1

theorem answered_snoc {c : Call M} (h : Answered log seen calls) (hle : seenAfter seen calls ≤ c.sent)
    (hc : c.heard = if c.dropped ≤ seenAfter seen calls then .inval ((log.take c.sent).drop (seenAfter seen calls))
      else .reset) : Answered log seen (calls ++ [c]) := by
  induction calls generalizing seen with
  | nil => exact ⟨hle, hc, trivial⟩
  | cons d calls ih => exact ⟨h.1, h.2.1, ih h.2.2 hle hc⟩

theorem seenAfter_snoc {c : Call M} : seenAfter seen (calls ++ [c]) = c.sent := by
  rw [seenAfter, foldl_append]
  rfl

/-- The state of an active backend, when the first `d` messages have been deleted. -/
structure Tracked (log : List M) (d : Nat) (p : ProcState) (since : Nat) (calls : List (Call M)) : Prop where
  answered : Answered log since calls
  seen_le : seenAfter since calls ≤ log.length
  state : (d ≤ seenAfter since calls ∧ p.resetState = false ∧ p.limit = ((seenAfter since calls - d : Nat) : Int)) ∨
    (seenAfter since calls < d ∧ p.resetState = true ∧ p.limit = 0)

structure DeliveryInv (s : Delivery M) (d : Nat) : Prop where
  le : d ≤ s.log.length
  queues : Queues s.seg (s.log.drop d)
  tracked : ∀ i, s.seg.Active i → Tracked s.log d (s.seg.procState i) (s.since i) (s.calls i)
  dead : ∀ i, ¬ s.seg.Active i → (s.seg.procState i).limit < 0

variable {s t : Delivery M} {since : Nat}

section
variable (h : Tracked log d p since calls)
include h

theorem Tracked.limit : 0 ≤ p.limit ∧ p.limit ≤ ((log.length - d : Nat) : Int) := by
  have hle := h.seen_le
  rcases h.state with ⟨-, -, hl⟩ | ⟨-, -, hl⟩ <;> omega

theorem Tracked.register {message : M} :
    Tracked (log ++ [message]) d p since calls :=
  ⟨answered_append h.answered h.seen_le, by rw [length_append]; exact Nat.le_add_right_of_le h.seen_le, h.state⟩

/-- Deleting messages that the backend has read. -/
theorem Tracked.lower {n : Nat} (hn : n ≤ p.limit) :
    Tracked log (d + n) (p.lower n) since calls := by
  refine ⟨h.answered, h.seen_le, ?_⟩
  rcases h.state with ⟨hle, hr, hl⟩ | ⟨hlt, hr, hl⟩
  · refine .inl ⟨by omega, hr, ?_⟩
    simp only [ProcState.lower]
    split_ifs <;> omega
  · refine .inr ⟨by omega, hr, ?_⟩
    simp only [ProcState.lower]
    rw [if_pos (by omega)]
    exact hl

/-- Deleting the first message after the backends that have not read it have been marked. -/
theorem Tracked.drop :
    Tracked log (d + 1) ((if p.limit = 0 then {p with resetState := true} else p).lower 1) since calls := by
  refine ⟨h.answered, h.seen_le, ?_⟩
  by_cases hl : p.limit = 0
  · refine .inr ⟨?_, ?_, ?_⟩
    · rcases h.state with ⟨hle, -, hl'⟩ | ⟨hlt, -, -⟩ <;> omega
    · rw [if_pos hl]
      rfl
    · rw [if_pos hl]
      simp only [ProcState.lower]
      rw [if_pos (by omega)]
      exact hl
  · rw [if_neg hl]
    have hle : ((1 : Nat) : Int) ≤ p.limit := by
      have := h.limit.1
      omega
    exact (h.lower hle).state

end

theorem DeliveryInv.numEntries (h : DeliveryInv s d) : s.seg.numEntries = s.log.length - d := by
  rw [h.queues.length, length_drop]

theorem deliveryInv_start (entryData : Nat → M) : DeliveryInv (.start entryData) 0 := by
  have hfree (n k : Nat) (hn : n + k = maxNumMessages) (hk : k ≠ 0) :
      Linked (siSegInit entryData).next (some n) (range' n k) := by
    induction k generalizing n with
    | zero => exact absurd rfl hk
    | succ k ih =>
      refine ⟨rfl, ?_⟩
      simp only [siSegInit]
      cases k with
      | zero =>
        rw [if_neg (by omega)]
        rfl
      | succ k =>
        rw [if_pos (by omega)]
        exact ih (n + 1) (by omega) (Nat.succ_ne_zero k)
  refine ⟨le_refl 0, ⟨[], range maxNumMessages, ⟨rfl, ?_, by rw [nil_append], rfl, rfl, fun _ _ => rfl, nofun⟩, rfl⟩,
    fun i hi => absurd rfl hi, fun i _ => ?_⟩
  · rw [range_eq_range']
    exact hfree 0 maxNumMessages rfl (by decide)
  · show (-1 : Int) < 0
    decide

theorem deliveryInv_activate {tag : Int} (h : DeliveryInv s d) (hs : siStep s (.activate tag) = some t) :
    DeliveryInv t d := by
  obtain ⟨⟨seg, i⟩, hinit, he⟩ := Option.map_eq_some_iff.mp hs
  cases he
  rw [siBackendInit] at hinit
  split_ifs at hinit with htag
  obtain ⟨⟨u, j⟩, hassign, he⟩ := Option.map_eq_some_iff.mp hinit
  cases he
  obtain ⟨k, -, hassign⟩ := Option.bind_eq_some_iff.mp hassign
  split_ifs at hassign with htwice
  cases hassign
  have hq : Queues (siSetActiveProcess (s.seg.setProcState i {s.seg.procState i with tag := tag}) i) (s.log.drop d) :=
    h.queues.congr
  refine ⟨h.le, hq, fun j hj => ?_, fun j hj => ?_⟩
  · by_cases hji : j = i
    · subst hji
      have hself : (siSetActiveProcess (s.seg.setProcState j {s.seg.procState j with tag := tag}) j).procState j =
          ⟨s.seg.numEntries, false, tag⟩ := by
        simp only [siSetActiveProcess, SISeg.setProcState, update_self]
      dsimp only
      rw [hself, update_self, update_self, h.numEntries]
      exact ⟨trivial, le_refl _, .inl ⟨h.le, rfl, rfl⟩⟩
    · have hother : (siSetActiveProcess (s.seg.setProcState i {s.seg.procState i with tag := tag}) i).procState j =
          s.seg.procState j := by
        simp only [siSetActiveProcess, SISeg.setProcState, update_of_ne hji]
      dsimp only
      rw [hother, update_of_ne hji, update_of_ne hji]
      refine h.tracked j ?_
      rw [SISeg.Active, ← hother]
      exact hj
  · by_cases hji : j = i
    · subst hji
      refine absurd ?_ hj
      simp only [SISeg.Active, siSetActiveProcess, SISeg.setProcState, update_self, invalidBackendTag]
      omega
    · have hother : (siSetActiveProcess (s.seg.setProcState i {s.seg.procState i with tag := tag}) i).procState j =
          s.seg.procState j := by
        simp only [siSetActiveProcess, SISeg.setProcState, update_of_ne hji]
      dsimp only
      rw [hother]
      refine h.dead j ?_
      rw [SISeg.Active, ← hother]
      exact hj

theorem deliveryInv_exit {i : Fin maxBackendId} (h : DeliveryInv s d) (hs : siStep s (.exit i) = some t) :
    DeliveryInv t d := by
  simp only [siStep] at hs
  split_ifs at hs with hact
  cases hs
  have hself : (siSetDeadProcess s.seg i).procState i = ⟨-1, false, invalidBackendTag⟩ := update_self ..
  have hother {j : Fin maxBackendId} (hji : j ≠ i) : (siSetDeadProcess s.seg i).procState j = s.seg.procState j :=
    update_of_ne hji ..
  refine ⟨h.le, h.queues.congr, fun j hj => ?_, fun j hj => ?_⟩
  · by_cases hji : j = i
    · subst hji
      exact absurd (congrArg tag hself) hj
    · dsimp only [SISeg.Active] at hj ⊢
      rw [hother hji] at hj ⊢
      exact h.tracked j hj
  · by_cases hji : j = i
    · subst hji
      dsimp only
      rw [hself]
      decide
    · dsimp only [SISeg.Active] at hj ⊢
      rw [hother hji] at hj ⊢
      exact h.dead j hj

/-- A message is put at the end of the queue; a full queue loses its first one. -/
theorem registerSharedInvalid_spec {seg : SISeg M} {chain : List M} (h : Queues seg chain) (message : M) :
    ∃ u, registerSharedInvalid seg message = some u ∧
      ((chain.length < maxNumMessages ∧ Queues u (chain ++ [message]) ∧ u.procState = seg.procState) ∨
        (chain.length = maxNumMessages ∧ Queues u (chain.drop 1 ++ [message]) ∧ ∀ i, u.procState i =
          (if (seg.procState i).limit = 0 then {seg.procState i with resetState := true} else seg.procState i).lower 1)) := by
  have hle := h.length_le
  by_cases hroom : chain.length < maxNumMessages
  · obtain ⟨u, hset, hq, hp⟩ := siSetDataEntry_spec h hroom message
    refine ⟨u, ?_, .inl ⟨hroom, hq, hp⟩⟩
    rw [registerSharedInvalid, hset]
    rfl
  · have hfull : chain.length = maxNumMessages := by omega
    cases chain with
    | nil =>
      rw [length_nil] at hfull
      exact absurd hfull (by decide)
    | cons m chain =>
      have hmark : Queues (siSetProcStateInvalid seg) (m :: chain) := h.congr
      obtain ⟨u, hdel, hq, hp⟩ := siDelDataEntry_spec hmark
      obtain ⟨v, hset, hq', hp'⟩ := siSetDataEntry_spec hq (by rw [length_cons] at hfull; omega) message
      refine ⟨v, ?_, .inr ⟨hfull, hq', fun i => ?_⟩⟩
      · rw [registerSharedInvalid, siSetDataEntry_full h hfull, bind_some]
        dsimp only
        rw [if_neg (by decide), hdel, bind_some]
        dsimp only
        rw [if_pos rfl, hset]
        rfl
      · rw [hp', hp]
        rfl

theorem deliveryInv_register {message : M} (h : DeliveryInv s d) (hs : siStep s (.register message) = some t) :
    ∃ d', DeliveryInv t d' := by
  obtain ⟨u, hu, he⟩ := Option.map_eq_some_iff.mp hs
  subst he
  obtain ⟨v, hv, hcases⟩ := registerSharedInvalid_spec h.queues message
  rw [hv] at hu
  cases hu
  have hlen : (s.log ++ [message]).length = s.log.length + 1 := length_append
  rcases hcases with ⟨hroom, hq, hp⟩ | ⟨hfull, hq, hp⟩
  · refine ⟨d, by show d ≤ (s.log ++ [message]).length; have := h.le; omega, ?_, fun i hi => ?_, fun i hi => ?_⟩
    · dsimp only
      rw [drop_append_of_le_length h.le]
      exact hq
    · dsimp only [SISeg.Active] at hi ⊢
      rw [hp] at hi ⊢
      exact (h.tracked i hi).register
    · dsimp only [SISeg.Active] at hi ⊢
      rw [hp] at hi ⊢
      exact h.dead i hi
  · have hlt : d < s.log.length := by
      rw [length_drop] at hfull
      simp only [maxNumMessages] at hfull
      omega
    have htag (i : Fin maxBackendId) : (u.procState i).tag = (s.seg.procState i).tag := by
      rw [hp]
      split_ifs <;> rfl
    refine ⟨d + 1, by show d + 1 ≤ (s.log ++ [message]).length; omega, ?_, fun i hi => ?_, fun i hi => ?_⟩
    · dsimp only
      rw [drop_append_of_le_length hlt]
      rw [drop_drop] at hq
      exact hq
    · dsimp only [SISeg.Active] at hi ⊢
      rw [htag] at hi
      rw [hp]
      exact (h.tracked i hi).register.drop
    · dsimp only [SISeg.Active] at hi ⊢
      rw [htag] at hi
      have hneg := h.dead i hi
      rw [hp, if_neg (by omega)]
      simp only [lower]
      rw [if_pos (by omega)]
      exact hneg

/-- An active backend processes what it has not seen of the queue, or resets; what all active
backends have seen is then deleted. -/
theorem deliveryInv_invalidate {i : Fin maxBackendId} (h : DeliveryInv s d) (hact : s.seg.Active i) :
    ∃ t d' heard, siStep s (.invalidate i) = some t ∧ DeliveryInv t d' ∧ t.log = s.log ∧ t.since = s.since ∧
      t.calls = update s.calls i (s.calls i ++ [⟨s.log.length, d, heard⟩]) ∧
      (∀ j, s.seg.Active j → t.seg.Active j) ∧
      heard = if d ≤ seenAfter (s.since i) (s.calls i) then
        .inval ((s.log.take s.log.length).drop (seenAfter (s.since i) (s.calls i))) else .reset := by
  have htracked := h.tracked i hact
  have hnum := h.numEntries
  have hdrop : s.log.length - s.seg.numEntries = d := by
    have := h.le
    omega
  obtain ⟨heard, hread, hheard⟩ : ∃ heard, siReadEntryData s.seg i = some (s.seg.setProcState i
        {s.seg.procState i with resetState := false, limit := ((s.log.length - d : Nat) : Int)}, heard) ∧
      heard = if d ≤ seenAfter (s.since i) (s.calls i) then
        .inval ((s.log.take s.log.length).drop (seenAfter (s.since i) (s.calls i))) else .reset := by
    rw [take_length]
    rcases htracked.state with ⟨hle, hr, hl⟩ | ⟨hlt, hr, hl⟩
    · rw [if_pos hle]
      refine ⟨_, ?_, rfl⟩
      have hseen := htracked.seen_le
      rw [siReadEntryData_inval h.queues hr hl (by rw [length_drop]; omega), drop_drop, length_drop,
        show d + (seenAfter (s.since i) (s.calls i) - d) = seenAfter (s.since i) (s.calls i) by omega]
      rw [← hr]
    · rw [if_neg (by omega)]
      refine ⟨_, ?_, rfl⟩
      rw [siReadEntryData_reset h.queues hr, length_drop]
  have hq : Queues (s.seg.setProcState i
      {s.seg.procState i with resetState := false, limit := ((s.log.length - d : Nat) : Int)}) (s.log.drop d) :=
    h.queues.congr
  generalize hu : s.seg.setProcState i
      {s.seg.procState i with resetState := false, limit := ((s.log.length - d : Nat) : Int)} = u at hread hq
  have hself : u.procState i =
      {s.seg.procState i with resetState := false, limit := ((s.log.length - d : Nat) : Int)} := by
    rw [← hu]
    exact update_self ..
  have hother {j : Fin maxBackendId} (hji : j ≠ i) : u.procState j = s.seg.procState j := by
    rw [← hu]
    exact update_of_ne hji ..
  have htag (j : Fin maxBackendId) : (u.procState j).tag = (s.seg.procState j).tag := by
    by_cases hji : j = i
    · rw [hji, hself]
    · rw [hother hji]
  have hcalls (j : Fin maxBackendId) (hj : s.seg.Active j) : Tracked s.log d (u.procState j) (s.since j)
      (update s.calls i (s.calls i ++ [⟨s.log.length, d, heard⟩]) j) := by
    by_cases hji : j = i
    · subst hji
      rw [update_self, hself]
      refine ⟨answered_snoc htracked.answered htracked.seen_le hheard, by rw [seenAfter_snoc], .inl ⟨?_, rfl, ?_⟩⟩
      · rw [seenAfter_snoc]
        exact h.le
      · rw [seenAfter_snoc]
    · rw [update_of_ne hji, hother hji]
      exact h.tracked j hj
  have hlimit (j : Fin maxBackendId) (hj : s.seg.Active j) : 0 ≤ (u.procState j).limit := (hcalls j hj).limit.1
  obtain ⟨v, n, hdel, hn, hle, hq', hp⟩ := siDelExpiredDataEntries_spec hq (hlimit i hact) (by
    rw [length_drop]
    exact (hcalls i hact).limit.2)
  rw [length_drop] at hn
  have htag' (j : Fin maxBackendId) : (v.procState j).tag = (s.seg.procState j).tag := by
    rw [hp]
    exact htag j
  refine ⟨{s with seg := v, calls := update s.calls i (s.calls i ++ [⟨s.log.length, d, heard⟩])}, d + n, heard,
    ?_, ?_, rfl, rfl, rfl, fun j hj => ?_, hheard⟩
  · simp only [siStep]
    rw [if_pos hact, invalidateSharedInvalid, hread, bind_some]
    dsimp only
    rw [hdel, hdrop]
    rfl
  · have hle' := h.le
    refine ⟨by show d + n ≤ s.log.length; omega, ?_, fun j hj => ?_, fun j hj => ?_⟩
    · dsimp only
      rw [← drop_drop]
      exact hq'
    · dsimp only [SISeg.Active] at hj ⊢
      rw [htag'] at hj
      rw [hp]
      exact (hcalls j hj).lower (hle j (hlimit j hj))
    · dsimp only [SISeg.Active] at hj ⊢
      rw [htag'] at hj
      have hji : j ≠ i := fun e => hj (by rw [e]; exact hact)
      have hneg := h.dead j hj
      rw [hp, hother hji]
      simp only [lower]
      rw [if_pos (by omega)]
      exact hneg
  · dsimp only [SISeg.Active] at hj ⊢
    rwa [htag']

theorem deliveryInv_step {a : SiAct M} (h : ∃ d, DeliveryInv s d) (hs : siStep s a = some t) : ∃ d, DeliveryInv t d := by
  obtain ⟨d, h⟩ := h
  cases a with
  | activate tag => exact ⟨d, deliveryInv_activate h hs⟩
  | exit i => exact ⟨d, deliveryInv_exit h hs⟩
  | register message => exact deliveryInv_register h hs
  | invalidate i =>
    by_cases hact : s.seg.Active i
    · obtain ⟨u, d', -, hu, h', -⟩ := deliveryInv_invalidate h hact
      rw [hu] at hs
      cases hs
      exact ⟨d', h'⟩
    · simp only [siStep] at hs
      rw [if_neg hact] at hs
      cases hs

theorem deliveryInv_reaches {entryData : Nat → M} (h : Reaches siStep (fun _ _ => True) (.start entryData) s) :
    ∃ d, DeliveryInv s d :=
  h.keeps (P := fun s => ∃ d, DeliveryInv s d) ⟨0, deliveryInv_start entryData⟩ fun _ _ _ _ hs hinv => deliveryInv_step hinv hs

/-- What holds of the segment and of the calls of the active backends. -/
structure Delivers (s : Delivery M) : Prop where
  chains : ∃ used free, Linked s.seg.next s.seg.startEntryChain used ∧ Linked s.seg.next s.seg.startFreeSpace free ∧
    (used ++ free).Perm (List.range maxNumMessages) ∧ s.seg.numEntries = used.length ∧
    used.map s.seg.entryData = s.log.drop (s.log.length - s.seg.numEntries)
  limit : ∀ i, s.seg.Active i → 0 ≤ (s.seg.procState i).limit ∧ (s.seg.procState i).limit ≤ s.seg.numEntries
  answered : ∀ i, s.seg.Active i → Answered s.log (s.since i) (s.calls i)
  registers : ∀ message, ∃ t, siStep s (.register message) = some t
  invalidates : ∀ i, s.seg.Active i → ∃ t, siStep s (.invalidate i) = some t

/-- **In every run, the two chains share the entries, and each call of an active backend processes
all messages registered since its previous one, in their order, or, when one of them has been
deleted, resets once in their place.** -/
theorem shared_invalidations_delivered (entryData : Nat → M)
    (h : Reaches siStep (fun _ _ => True) (.start entryData) s) : Delivers s := by
  obtain ⟨d, hinv⟩ := deliveryInv_reaches h
  have hnum := hinv.numEntries
  have hle := hinv.le
  refine ⟨?_, fun i hi => ?_, fun i hi => (hinv.tracked i hi).answered, fun message => ?_, fun i hi => ?_⟩
  · obtain ⟨used, free, hseg, hdata⟩ := hinv.queues
    refine ⟨used, free, hseg.linked, hseg.spare, hseg.perm, hseg.count, ?_⟩
    rw [hdata, show s.log.length - s.seg.numEntries = d by omega]
  · rw [hnum]
    exact (hinv.tracked i hi).limit
  · obtain ⟨u, hu, -⟩ := registerSharedInvalid_spec hinv.queues message
    exact ⟨_, by simp only [siStep]; rw [hu]; rfl⟩
  · obtain ⟨t, -, -, ht, -⟩ := deliveryInv_invalidate hinv hi
    exact ⟨t, ht⟩

end Runs

theorem shared_invalidations_delivered_two : ∃ s : Delivery Nat,
    Reaches siStep (fun _ _ => True) (.start fun _ => 0) s ∧ (s.calls 0).map Call.heard = [.inval [5, 6]] ∧ Delivers s := by
  have hr : ∃ s : Delivery Nat, Reaches siStep (fun _ _ => True) (.start fun _ => 0) s ∧
      (s.calls 0).map Call.heard = [.inval [5, 6]] :=
    ⟨_, .of_follow (l := [.activate 7, .register 5, .activate 8, .register 6, .invalidate 0]) .start rfl, rfl⟩
  obtain ⟨s, hr, hc⟩ := hr
  exact ⟨s, hr, hc, shared_invalidations_delivered _ hr⟩

/-- The messages 0, 1, … are registered, and the only backend makes no call. -/
theorem exists_registered (n : Nat) : ∃ s : Delivery Nat, Reaches siStep (fun _ _ => True) (.start fun _ => 0) s ∧
    s.log = range n ∧ s.seg.Active 0 ∧ s.since 0 = 0 ∧ s.calls 0 = [] ∧ s.seg.numEntries = min n maxNumMessages := by
  induction n with
  | zero => exact ⟨_, .of_follow (l := [.activate 7]) .start rfl, rfl, by decide, rfl, rfl, rfl⟩
  | succ n ih =>
    obtain ⟨s, hr, hlog, hact, hsince, hcalls, hnum⟩ := ih
    obtain ⟨d, hinv⟩ := deliveryInv_reaches hr
    obtain ⟨u, hu, hcases⟩ := registerSharedInvalid_spec hinv.queues n
    have hlen := hinv.queues.length
    have hs : siStep s (.register n) = some {s with seg := u, log := s.log ++ [n]} := by
      simp only [siStep]
      rw [hu]
      rfl
    refine ⟨_, hr.snoc trivial hs, ?_, ?_, hsince, hcalls, ?_⟩
    · dsimp only
      rw [hlog, range_succ]
    · have htag : (u.procState 0).tag = (s.seg.procState 0).tag := by
        rcases hcases with ⟨-, -, hp⟩ | ⟨-, -, hp⟩
        · rw [hp]
        · rw [hp]
          split_ifs <;> rfl
      dsimp only [SISeg.Active] at hact ⊢
      rwa [htag]
    · dsimp only
      rcases hcases with ⟨hroom, hq, -⟩ | ⟨hfull, hq, -⟩
      · rw [hq.length, length_append, length_singleton]
        omega
      · rw [hq.length, length_append, length_drop, length_singleton]
        simp only [maxNumMessages] at hfull hnum ⊢
        omega

/-- A reset also stands for messages that have not been deleted: they are never processed. -/
theorem reset_skips_messages : ¬ ∀ s : Delivery Nat, Reaches siStep (fun _ _ => True) (.start fun _ => 0) s →
    ∀ i, s.seg.Active i → ∀ c ∈ s.calls i, ∀ n, s.since i ≤ n → c.dropped ≤ n → n < c.sent →
      ∃ c' ∈ s.calls i, ∃ l, c'.heard = .inval l ∧ ∃ m ∈ l, s.log[n]? = some m := by
  intro h
  obtain ⟨s, hr, hlog, hact, hsince, hcalls, hnum⟩ := exists_registered (maxNumMessages + 1)
  obtain ⟨d, hinv⟩ := deliveryInv_reaches hr
  have hd : s.seg.numEntries = s.log.length - d := hinv.numEntries
  rw [hlog, length_range] at hd
  simp only [maxNumMessages] at hlog hnum hd
  obtain ⟨t, d', heard, ht, -, hlog', hsince', hcalls', hact', hheard⟩ := deliveryInv_invalidate hinv hact
  rw [hcalls, nil_append] at hcalls'
  rw [hcalls, hsince, if_neg (by show ¬ d ≤ 0; omega)] at hheard
  have hcall : t.calls 0 = [⟨s.log.length, d, heard⟩] := by rw [hcalls', update_self]
  obtain ⟨c', hc', l, hl, -⟩ := h t (hr.snoc trivial ht) 0 (hact' 0 hact) ⟨s.log.length, d, heard⟩
    (by rw [hcall]; exact mem_cons_self) d (by rw [hsince', hsince]; exact Nat.zero_le d) (le_refl d)
    (by show d < s.log.length; rw [hlog, length_range]; omega)
  rw [hcall] at hc'
  rw [mem_singleton.mp hc', hheard] at hl
  cases hl

end PgStorage.Ipc
