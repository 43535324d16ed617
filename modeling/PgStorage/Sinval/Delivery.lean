import PgStorage.Sinval.Renumber

/-! No invalidation message is lost.

What the invariant says of conceptual message numbers is said of the counters of the code, by
following a run of the code with the run that does not renumber. -/
namespace PgStorage.Sinval

section Delivery
variable {M : Type} {s t : Sys M} {base : Int} {p k since : Nat} {log l : List M} {told : List (Event M)}

theorem Delivered.init {e : Event M} (h : Delivered log since (told ++ [e]) k) : ∃ j, Delivered log since told j := by
  generalize hx : told ++ [e] = x at h
  cases h with
  | start => exact absurd hx (by simp)
  | message hd _ | reset hd _ _ _ =>
    obtain ⟨rfl, -⟩ := List.append_inj' hx rfl
    exact ⟨_, hd⟩

/-- What has been taken but not returned can be left out. -/
theorem Delivered.returned (h : Delivered log since (told ++ l.map .message) k) :
    ∃ j, Delivered log since told j := by
  induction l using List.reverseRecOn generalizing k with
  | nil => exact ⟨k, by simpa using h⟩
  | append_singleton l m ih =>
    rw [List.map_append, ← List.append_assoc] at h
    obtain ⟨j, hj⟩ := h.init
    exact ih hj

/-- What an active backend that receives can rely on. `k` is how far it has been told; it is
behind the last message by as much as its counter is behind `maxMsgNum`. -/
structure Informed (s : Sys M) (p : Nat) : Prop where
  entry : (s.own p).procPid = p
  counters : (s.own p).resetState = false →
    s.seg.minMsgNum ≤ (s.own p).nextMsgNum ∧ (s.own p).nextMsgNum ≤ s.seg.maxMsgNum
  told : ∃ k : Nat, Delivered s.log (s.since p) (s.heard p) k ∧
    ((s.pc p).reading = false → (k : Int) + (s.seg.maxMsgNum - (s.own p).nextMsgNum) = s.log.length) ∧
    ((s.pc p).getting = false → k < s.completed ∨ (s.own p).resetState = true → (s.own p).hasMessages = true)

theorem Pc.reading_of_not_getting {c : Pc M} (h : c.getting = false) : c.reading = false := by
  cases c <;> first | rfl | exact h

theorem informed (h : Shifted base s t) (hi : Inv t) (hp : s.pc p ≠ .absent) (hs : (s.own p).sendOnly = false) :
    Informed s p := by
  have hown := h.own p
  have hpc := h.pc p
  have hlive : t.pc p ≠ .absent := by
    rw [hpc]
    cases hc : s.pc p <;> simp_all [Pc.shift]
  have hreading : (t.pc p).reading = (s.pc p).reading := by
    rw [hpc]
    cases s.pc p <;> rfl
  have hr := hi.receiver p hlive (hown.send.trans hs)
  obtain ⟨-, hpid, hne⟩ := hi.slotted.own p hlive
  have hpid' : (s.own p).procPid = p := hown.pid.symm.trans hpid
  have hnext := hown.next (by rw [hpid']; exact hne)
  have hmin := h.seg.min
  have hmax := h.seg.max
  have hlog := hi.stored.log
  rw [h.log] at hlog
  refine ⟨hpid', fun hreset => ?_, ?_⟩
  · have habove := hr.above (hown.reset.trans hreset)
    have hbelow := hr.below
    omega
  · obtain ⟨k, hd, -, heq⟩ := hr.told
    rw [h.log, h.since, h.heard] at hd
    by_cases hread : (s.pc p).reading = true
    · obtain ⟨j, hj⟩ := hd.returned
      refine ⟨j, hj, fun hn => absurd hread (by simp [hn]), fun hn => ?_⟩
      exact absurd hread (by simp [Pc.reading_of_not_getting hn])
    · have hview : (t.pc p).view = {} := Pc.view_of_not_reading (by rw [hreading]; simpa using hread)
      rw [hview] at hd heq
      have hk := heq rfl
      refine ⟨k, by simpa using hd, fun _ => by omega, fun _ hor => ?_⟩
      refine hown.flag.symm.trans (hr.flagged (by rw [hview]) ?_)
      rcases hor with hlt | hreset
      · -- every flag tells of the completed messages
        have hcomp : t.completed ≤ notified t (t.slot p) := by
          have hle := hi.stored.completed
          unfold notified
          split
          · split_ifs
            · exact hle
            · exact le_refl _
          · exact hle
        rw [h.completed] at hcomp
        refine .inl ?_
        rw [← hk]
        exact_mod_cast lt_of_lt_of_le hlt hcomp
      · exact .inr (hown.reset.trans hreset)

/-- **Nothing is lost.** In every state that is reached, each active backend that receives has
been told every message since its start, once and in order, or a reset in place of messages
already inserted; its counter is in range; and unless it is inside `SIGetDataEntries`, its flag is
set when there is a completed message it has not been told or a reset it has not been given. The
counters stay small, and without the renumbering the same steps lead to the same state but for a
common offset of the counters. -/
theorem invalidation_loses_nothing (maxBackends : Nat) (buffer : Int → M) (acts : List (Nat × Act M)) :
    (∀ s, siRun true (Sys.start maxBackends buffer) acts = some s →
      (0 ≤ s.seg.minMsgNum ∧ s.seg.minMsgNum < msgNumWraparound ∧ s.seg.minMsgNum ≤ s.seg.maxMsgNum ∧
        s.seg.maxMsgNum ≤ s.seg.minMsgNum + maxNumMessages) ∧
      ∀ p, s.pc p ≠ .absent → (s.own p).sendOnly = false → Informed s p) ∧
    Matches (siRun true (Sys.start maxBackends buffer) acts) (siRun false (Sys.start maxBackends buffer) acts) := by
  have hm := run_matches acts (shifted_start maxBackends buffer) (inv_start maxBackends buffer)
  refine ⟨fun s hs => ?_, hm⟩
  have hinv : ∀ t, siRun false (Sys.start maxBackends buffer) acts = some t → Inv t :=
    fun _ => inv_run (inv_start maxBackends buffer)
  rw [hs] at hm
  revert hm hinv
  generalize siRun false (Sys.start maxBackends buffer) acts = y
  intro hm hinv
  obtain ⟨base, hsh⟩ := hm
  have hi := hinv _ rfl
  have hmin := hsh.seg.min
  have hmax := hsh.seg.max
  have hle := hi.stored.le
  have hroom := hi.stored.room
  exact ⟨⟨hsh.nonneg, hsh.small, by omega, by omega⟩, fun p hp hs => informed hsh hi hp hs⟩

/-- Two backends start, the first inserts a message and the second reads it. -/
def oneMessage : List (Nat × Act Nat) :=
  [(1, .init false), (2, .init false), (1, .insert [7])] ++ List.replicate 8 (1, .step) ++
    [(2, .get 5)] ++ List.replicate 7 (2, .step)

theorem invalidation_loses_nothing_one : ∃ s, siRun true (Sys.start 2 fun _ => 0) oneMessage = some s ∧
    s.heard 2 = [.message 7] ∧ Informed s 2 := by
  refine ⟨_, rfl, rfl, ((invalidation_loses_nothing 2 (fun _ => 0) oneMessage).1 _ rfl).2 2 ?_ rfl⟩
  exact nofun

end Delivery
end PgStorage.Sinval
