-- The law of the boundaries. However late the loop wakes up, row `j` carries boundary
-- `j` of the start time, and the next boundary is the one after the last row.
import LogicStateCoverage.Reporting

namespace lscov.daemon.reporting

open runs

/-! ## Turns without a signal -/

/-- No signal comes, and the time since the start fits a `u32`. -/
def Quiet (s : State) : Act → Prop
  | .signal => False
  | .tick seconds =>
    s.shared.phase ≠ .boot → s.shared.now + seconds - s.shared.times.start_time < 2 ^ 32
  | _ => True

instance (s : State) : DecidablePred (Quiet s)
  | .signal => inferInstanceAs (Decidable False)
  | .tick seconds => inferInstanceAs (Decidable (s.shared.phase ≠ .boot →
      s.shared.now + seconds - s.shared.times.start_time < 2 ^ 32))
  | .start => inferInstanceAs (Decidable True)
  | .schedule => inferInstanceAs (Decidable True)
  | .exec => inferInstanceAs (Decidable True)
  | .set _ => inferInstanceAs (Decidable True)
  | .due => inferInstanceAs (Decidable True)
  | .run _ => inferInstanceAs (Decidable True)

/-- Each report runs to completion before the loop goes on. -/
def InTurn (s : State) (a : Act) : Prop := NoOverlap s a ∧ Quiet s a

instance (s : State) (a : Act) : Decidable (InTurn s a) := inferInstanceAs (Decidable (_ ∧ _))

variable {p : Params} {s t : Shared} {r r' : Option ReportPc} {a : Act} {pc pc' : ReportPc}

/-- The first update, from a due time of 0. -/
theorem update_first {period : Nat} {t : Times} (h : t.next_tallying_time = 0) :
    (tally_update_next_time period t).2 =
      ⟨t.start_time, t.start_time + period, t.start_time + period⟩ := by
  unfold tally_update_next_time
  simp [h]

/-! ## The invariant -/

/-- The row to come carries the boundary after the last row, and the clock is past it. -/
def NextBoundary (p : Params) (s : Shared) (time : Nat) : Prop :=
  time = (s.rows.length + 1) * p.tallying_period ∧ s.times.start_time + time < s.now

/-- What a report holds on its way. -/
def OnItsWay (p : Params) (s : Shared) : ReportPc → Prop
  | .created => s.times.next_tallying_time < s.now
  | .updated prev_next_time =>
    ∃ time, prev_next_time = s.times.start_time + time ∧ NextBoundary p s time
  | .timed prev_time => NextBoundary p s prev_time.toNat
  | .tallied prev_time _ _ => NextBoundary p s prev_time.toNat
  | .computed row => NextBoundary p s row.time.toNat
  | _ => True

/-- The rows that are still to come from updates that were made. -/
def pending : Option ReportPc → Nat
  | some (.updated _) => 1
  | some (.timed _) => 1
  | some (.tallied _ _ _) => 1
  | some (.computed _) => 1
  | _ => 0

structure OnSchedule (p : Params) (s : Shared) (r : Option ReportPc) : Prop where
  quiet : s.stop_soon = false
  elapsed : s.now - s.times.start_time < 2 ^ 32
  rows : ∀ j row, s.rows[j]? = some row →
    row.time.toNat = (j + 1) * p.tallying_period ∧
      s.times.start_time + (j + 1) * p.tallying_period < s.now
  next : s.times.next_tallying_time =
    s.times.start_time + (s.rows.length + 1 + pending r) * p.tallying_period
  timeout : s.times.loop_timeout = s.times.next_tallying_time
  report : ∀ pc, r = some pc → OnItsWay p s pc

/-- The whole invariant: before the loop there is no report and no row, and without a start
time there is nothing to keep. -/
inductive Steady (p : Params) (s : Shared) (r : Option ReportPc) : Prop
  | before (hp : s.phase ≠ .looping) (hr : r = none) (hrows : s.rows = [])
      (hquiet : s.stop_soon = false) (hnext : s.times.next_tallying_time = 0)
      (hel : s.phase ≠ .boot → s.now - s.times.start_time < 2 ^ 32)
  | unset (hp : s.phase = .looping) (h0 : s.times.start_time = 0)
  | going (hp : s.phase = .looping) (h : OnSchedule p s r)

/-! ## The steps -/

theorem NextBoundary.tick {time : Nat} (seconds : Nat) (h : NextBoundary p s time) :
    NextBoundary p { s with now := s.now + seconds } time :=
  ⟨h.1, Nat.lt_add_right seconds h.2⟩

theorem OnItsWay.tick (seconds : Nat) (h : OnItsWay p s pc) :
    OnItsWay p { s with now := s.now + seconds } pc := by
  cases pc with
  | created => exact Nat.lt_add_right seconds h
  | updated prev_next_time =>
    obtain ⟨time, heq, hb⟩ := h
    exact ⟨time, heq, hb.tick seconds⟩
  | timed prev_time => exact NextBoundary.tick seconds h
  | tallied prev_time num_1s cov => exact NextBoundary.tick seconds h
  | computed row => exact NextBoundary.tick seconds h
  | _ => trivial

theorem OnSchedule.tick {seconds : Nat} (h : OnSchedule p s r)
    (he : s.now + seconds - s.times.start_time < 2 ^ 32) :
    OnSchedule p { s with now := s.now + seconds } r := by
  refine ⟨h.quiet, he, ?_, h.next, h.timeout, ?_⟩
  · intro j row hj
    obtain ⟨ht, hlt⟩ := h.rows j row hj
    exact ⟨ht, Nat.lt_add_right seconds hlt⟩
  · intro pc hpc
    exact (h.report pc hpc).tick seconds

theorem steady_tick {seconds : Nat} (h : Steady p s r)
    (he : s.phase ≠ .boot → s.now + seconds - s.times.start_time < 2 ^ 32) :
    Steady p { s with now := s.now + seconds } r := by
  cases h with
  | before hp hr hrows hquiet hnext hel => exact .before hp hr hrows hquiet hnext he
  | unset hp h0 => exact .unset hp h0
  | going hp h => exact .going hp (h.tick (he (by simp [hp])))

/-- The loop begins, with the first boundary one period after the start. -/
theorem steady_schedule (h : Steady p s r) (hp : s.phase = .starting) :
    Steady p { s with
      phase := .looping, times := (tally_update_next_time p.tallying_period s.times).2 } r := by
  cases h with
  | before _ hr hrows hquiet hnext hel =>
    rw [update_first hnext]
    refine .going rfl ⟨hquiet, hel (by simp [hp]), ?_, ?_, rfl, ?_⟩
    · intro j row hj
      simp [hrows] at hj
    · simp [hrows, hr, pending]
    · intro pc hpc
      rw [hr] at hpc
      cases hpc
  | unset hp' _ =>
    rw [hp] at hp'
    cases hp'
  | going hp' _ =>
    rw [hp] at hp'
    cases hp'

/-- The counters and the filter have no part in the schedule. -/
theorem steady_other {exec_count exec_count_in_period : UInt32} {b : Bfilter} (h : Steady p s r) :
    Steady p { s with
      bfilter := b, exec_count := exec_count, exec_count_in_period := exec_count_in_period } r := by
  cases h with
  | before hp hr hrows hquiet hnext hel => exact .before hp hr hrows hquiet hnext hel
  | unset hp h0 => exact .unset hp h0
  | going hp h =>
    exact .going hp ⟨h.quiet, h.elapsed, h.rows, h.next, h.timeout, h.report⟩

theorem steady_main (h : Steady p s r)
    (htick : ∀ seconds, a = .tick seconds → s.phase ≠ .boot →
      s.now + seconds - s.times.start_time < 2 ^ 32)
    (hm : MainMoves p s a t) : Steady p t r := by
  cases hm with
  | tick seconds => exact steady_tick h (htick seconds rfl)
  | start hp =>
    cases h with
    | before _ hr hrows hquiet hnext _ =>
      exact .before (by simp) hr hrows hquiet hnext (fun _ => by simp)
    | unset hp' _ =>
      rw [hp] at hp'
      cases hp'
    | going hp' _ =>
      rw [hp] at hp'
      cases hp'
  | schedule hp => exact steady_schedule h hp
  | exec hp => exact steady_other h
  | set hp hb => exact steady_other h
  | wait hp hd => exact h

theorem steady_spawn (h : Steady p s none) (hd : tally_is_next_time s.times s.now = true)
    (hp : s.phase = .looping) : Steady p s (some .created) := by
  cases h with
  | before hp' => exact absurd hp hp'
  | unset hp h0 => exact .unset hp h0
  | going hp h =>
    refine .going hp ⟨h.quiet, h.elapsed, h.rows, h.next, h.timeout, ?_⟩
    rintro pc ⟨⟩
    have hlt : s.times.next_tallying_time < s.now := of_decide_eq_true hd
    exact hlt

/-! ## The steps of a report -/

/-- The report takes the boundary that is due, and moves the due time to the one after. -/
theorem onSchedule_update (h : OnSchedule p s (some .created)) :
    OnSchedule p { s with times := (tally_update_next_time p.tallying_period s.times).2 }
      (some (.updated s.times.next_tallying_time)) := by
  have hdue : s.times.next_tallying_time < s.now := h.report _ rfl
  have hnext := h.next
  have hel := h.elapsed
  simp only [pending, Nat.add_zero] at hnext
  have hle : s.rows.length + 1 ≤ (s.rows.length + 1) * p.tallying_period :=
    Nat.le_mul_of_pos_right _ p.period_pos
  have hup := update_eq p.period_pos (show 1 ≤ s.rows.length + 1 by omega) (by omega) hnext
  rw [hup]
  refine ⟨h.quiet, hel, h.rows, rfl, rfl, ?_⟩
  rintro pc ⟨⟩
  exact ⟨_, hnext, rfl, by rw [← hnext]; exact hdue⟩

theorem onSchedule_move (h : OnSchedule p s (some pc)) (h0 : s.times.start_time ≠ 0)
    (hm : Moves p s pc t pc') : OnSchedule p t pc'.going := by
  cases hm with
  | leave hz => exact absurd hz h0
  | update _ => exact onSchedule_update h
  | time prev_next_time =>
    obtain ⟨time, rfl, htime, hlt⟩ := h.report _ rfl
    have hel := h.elapsed
    refine ⟨h.quiet, hel, h.rows, h.next, h.timeout, ?_⟩
    rintro pc ⟨⟩
    simp only [h.quiet, Bool.false_eq_true, if_false, OnItsWay]
    rw [toNat_ofInt_sub (by omega), Nat.add_sub_cancel_left, Nat.mod_eq_of_lt (by omega)]
    exact ⟨htime, hlt⟩
  | tally prev_time =>
    have hb := h.report _ rfl
    refine ⟨h.quiet, h.elapsed, h.rows, h.next, h.timeout, ?_⟩
    rintro pc ⟨⟩
    exact hb
  | trap num_1s cov =>
    obtain ⟨htime, -⟩ := h.report _ rfl
    have hpos := Nat.mul_pos (Nat.succ_pos s.rows.length) p.period_pos
    rw [← htime] at hpos
    exact absurd hpos (Nat.lt_irrefl 0)
  | compute num_1s cov hz =>
    have hb := h.report _ rfl
    refine ⟨h.quiet, h.elapsed, h.rows, h.next, h.timeout, ?_⟩
    rintro pc ⟨⟩
    exact hb
  | append row =>
    obtain ⟨htime, hlt⟩ := h.report _ rfl
    refine ⟨h.quiet, h.elapsed, ?_, ?_, h.timeout, ?_⟩
    · intro j row' hj
      rw [List.getElem?_append] at hj
      split at hj
      · exact h.rows j row' hj
      · next hge =>
        obtain ⟨hlast, rfl⟩ := List.getElem?_eq_some_iff.mp hj
        rw [List.length_singleton] at hlast
        obtain rfl : j = s.rows.length := by omega
        simp only [List.getElem_singleton]
        exact ⟨htime, htime ▸ hlt⟩
    · have hnext := h.next
      simp only [pending] at hnext
      show _ = _ + ((s.rows ++ [row]).length + 1 + 0) * _
      rw [List.length_append]
      exact hnext
    · rintro pc ⟨⟩
      trivial
  | clear cov =>
    refine ⟨h.quiet, h.elapsed, h.rows, h.next, h.timeout, ?_⟩
    rintro pc ⟨⟩
    trivial
  | write cov =>
    refine ⟨h.quiet, h.elapsed, h.rows, h.next, h.timeout, ?_⟩
    rintro pc ⟨⟩

theorem steady_move (h : Steady p s (some pc)) (hm : Moves p s pc t pc') :
    Steady p t pc'.going := by
  obtain ⟨hphase, hstart⟩ := hm.frame
  cases h with
  | before _ hr => cases hr
  | unset hp h0 => exact .unset (hphase.trans hp) (hstart.trans h0)
  | going hp h =>
    by_cases h0 : s.times.start_time = 0
    · exact .unset (hphase.trans hp) (hstart.trans h0)
    · exact .going (hphase.trans hp) (onSchedule_move h h0 hm)

/-! ## The run -/

theorem steady_solo (h : Steady p s r)
    (htick : ∀ seconds, a = .tick seconds → s.phase ≠ .boot →
      s.now + seconds - s.times.start_time < 2 ^ 32)
    (hsig : a ≠ .signal) (hd : SoloDid p s r a t r') : Steady p t r' := by
  cases hd with
  | main hm => exact steady_main h htick hm
  | spawn hs =>
    cases hs with
    | due hp hd => exact steady_spawn h hd hp
    | signal => exact absurd rfl hsig
  | run hm => exact steady_move h hm

theorem steady_reached {now : Nat} {s : State} (h : Reach (step p) InTurn (boot now) s) :
    s.active.length ≤ 1 ∧ Steady p s.shared s.busy := by
  apply h.inv (P := fun s => s.active.length ≤ 1 ∧ Steady p s.shared s.busy)
  · exact ⟨Nat.zero_le 1, .before (by simp [boot]) rfl rfl rfl rfl (by simp [boot])⟩
  · rintro t u a ⟨hsolo, hsteady⟩ he hu
    obtain ⟨hsolo', hdid, -⟩ := solo_did hsolo he.1.spawnsAlone (did_of_step hu)
    refine ⟨hsolo', steady_solo hsteady ?_ ?_ hdid⟩
    · rintro seconds rfl
      exact he.2
    · rintro rfl
      exact he.2

/-! ## The law -/

/-- Row `j` carries boundary `j` and was written after it, and the next boundary is the one
after the last row. -/
theorem the_schedule_does_not_drift (p : Params) (now : Nat) (s : State)
    (h : Reach (step p) InTurn (boot now) s) (hloop : s.shared.phase = .looping)
    (hstart : 0 < s.shared.times.start_time) :
    (∀ j row, s.shared.rows[j]? = some row →
      row.time.toNat = (j + 1) * p.tallying_period ∧
        s.shared.times.start_time + (j + 1) * p.tallying_period < s.shared.now) ∧
    (s.busy = none →
      s.shared.times.next_tallying_time =
        s.shared.times.start_time + (s.shared.rows.length + 1) * p.tallying_period ∧
      s.shared.times.loop_timeout = s.shared.times.next_tallying_time) := by
  cases (steady_reached h).2 with
  | before hp => exact absurd hloop hp
  | unset _ h0 => omega
  | going _ h =>
    refine ⟨h.rows, fun hidle => ⟨?_, h.timeout⟩⟩
    have hnext := h.next
    rw [hidle] at hnext
    exact hnext

/-- The loop wakes up 25 seconds after the start, and the row is for second 10. -/
theorem a_late_report_carries_its_boundary :
    ∃ s row, Reach (step small) InTurn (boot 100) s ∧ s.shared.phase = .looping ∧
      0 < s.shared.times.start_time ∧ s.shared.rows[0]? = some row ∧ row.time.toNat = 10 := by
  have hrun : (checkedRun (step small) InTurn (boot 100)
      ([Act.start, .schedule, .tick 25, .due] ++ List.replicate 7 (Act.run 0))).map
        (fun s => (s.shared.phase, s.shared.times.start_time, s.shared.rows.length)) =
      some (.looping, 100, 1) := rfl
  obtain ⟨s, hs, heq⟩ := Option.map_eq_some_iff.mp hrun
  simp only [Prod.mk.injEq] at heq
  obtain ⟨hp, hstart, hlen⟩ := heq
  obtain ⟨row, hrow⟩ : ∃ row, s.shared.rows[0]? = some row :=
    ⟨_, List.getElem?_eq_getElem (by omega)⟩
  have hreach := reach_of_checkedRun hs
  have hlaw := the_schedule_does_not_drift small 100 s hreach hp (by omega)
  exact ⟨s, row, hreach, hp, by omega, hrow, (hlaw.1 0 row hrow).1⟩

end lscov.daemon.reporting
