-- The law of the divisor. A report divides by the seconds from the start to the boundary
-- that it carries, or to the clock when the daemon stops. That is 0 when the daemon stops
-- in the second in which it started, and when the seconds wrap around to 0.
import LogicStateCoverage.Reporting

namespace lscov.daemon.reporting

open runs

/-! ## The divisor -/

/-- `prev_time`, once the report has it. -/
def ReportPc.divisor : ReportPc → Option UInt32
  | .timed prev_time => some prev_time
  | .tallied prev_time _ _ => some prev_time
  | .computed row => some row.time
  | _ => none

/-- No report divides by zero. -/
def DivisorsNonzero (s : State) : Prop :=
  ∀ pc ∈ s.reports, ∀ prev_time, pc.divisor = some prev_time → prev_time ≠ 0

/-- A record of a run: how often the due time was updated, and how often it was before each
report updated it. -/
structure Turns where
  updates : Nat
  before : Nat → Nat

def Turns.empty : Turns := ⟨0, fun _ => 0⟩

/-- An update of the due time by report `k`. -/
def Turns.take (h : Turns) (k : Nat) : Turns :=
  ⟨h.updates + 1, Function.update h.before k h.updates⟩

theorem Turns.take_self (h : Turns) (k : Nat) : (h.take k).before k = h.updates := by
  simp [Turns.take]

theorem Turns.take_of_ne (h : Turns) {j k : Nat} (hjk : j ≠ k) :
    (h.take k).before j = h.before j := by
  simp [Turns.take, hjk]

def turns (s : State) (a : Act) (h : Turns) : Turns :=
  match a with
  | .schedule => { h with updates := h.updates + 1 }
  | .run k =>
    match s.reports[k]? with
    | some .created => if s.shared.times.start_time = 0 then h else h.take k
    | _ => h
  | _ => h

/-- The clock of a daemon that stops is not a multiple of 2^32 seconds after the start, and
neither is the boundary of any other report. -/
def TimeMovedOn (p : Params) (o : Observed State Turns) : Act → Prop
  | .run k => ∀ prev_next_time, o.state.reports[k]? = some (.updated prev_next_time) →
      if o.state.shared.stop_soon then
        ¬ 2 ^ 32 ∣ o.state.shared.now - o.state.shared.times.start_time
      else ¬ 2 ^ 32 ∣ o.hist.before k % 2 ^ 32 * p.tallying_period
  | _ => True

/-! ## The boundaries of the reports -/

variable {p : Params} {s t : State} {h : Turns} {a : Act} {pc pc' : ReportPc}

/-- The update moves the due time to the next boundary, as far as `prev_iter_num` goes. -/
theorem update_wraps {period k : Nat} {t : Times} (hp : 0 < period) (h0 : t.start_time ≠ 0)
    (hk : k < 2 ^ 32) (hnext : t.next_tallying_time = t.start_time + k * period) :
    (tally_update_next_time period t).2.next_tallying_time =
      t.start_time + (k + 1) % 2 ^ 32 * period := by
  have hdiv : (t.start_time + k * period - t.start_time) / period = k := by
    rw [Nat.add_sub_cancel_left, Nat.mul_div_cancel k hp]
  have hiter : (UInt32.ofNat k + 1).toNat = (k + 1) % 2 ^ 32 := by
    rw [UInt32.toNat_add, UInt32.toNat_ofNat', Nat.mod_eq_of_lt hk]
    rfl
  unfold tally_update_next_time
  simp only [hnext, if_neg (show ¬ t.start_time + k * period = 0 by omega), hdiv, hiter]

/-- The due time after so many updates. -/
def DueTime (p : Params) (times : Times) (updates : Nat) : Prop :=
  updates = 0 ∧ times.next_tallying_time = 0 ∨
    0 < updates ∧
      times.next_tallying_time = times.start_time + updates % 2 ^ 32 * p.tallying_period

theorem DueTime.update {times : Times} {updates : Nat} (h : DueTime p times updates)
    (h0 : times.start_time ≠ 0) :
    DueTime p (tally_update_next_time p.tallying_period times).2 (updates + 1) := by
  refine .inr ⟨Nat.succ_pos _, ?_⟩
  rcases h with ⟨rfl, hnext⟩ | ⟨-, hnext⟩
  · unfold tally_update_next_time
    simp [hnext]
  · rw [update_wraps p.period_pos h0 (Nat.mod_lt _ (by decide)) hnext, Nat.mod_add_mod]
    rfl

structure Turned (p : Params) (s : State) (h : Turns) : Prop where
  boot : s.shared.phase = .boot →
    s.shared.times.start_time = 0 ∧ s.shared.times.next_tallying_time = 0 ∧ h.updates = 0
  clock : s.shared.times.start_time ≤ s.shared.now
  quiet : s.shared.stop_soon = false → s.shared.phase ≠ .looping → s.reports = []
  loop : s.shared.phase = .looping → 0 < h.updates
  due : s.shared.times.start_time ≠ 0 → DueTime p s.shared.times h.updates
  carries : s.shared.stop_soon = false → ∀ k prev_next_time,
    s.reports[k]? = some (.updated prev_next_time) →
      prev_next_time = s.shared.times.start_time + h.before k % 2 ^ 32 * p.tallying_period

theorem turned_boot (p : Params) (now : Nat) : Turned p (boot now) .empty := by
  refine ⟨fun _ => ⟨rfl, rfl, rfl⟩, Nat.zero_le _, fun _ _ => rfl, ?_, ?_, ?_⟩
  · intro hp
    cases hp
  · intro h0
    exact absurd rfl h0
  · intro _ k prev hk
    cases hk

theorem turned_main {t : Shared} (hs : Turned p s h) (hm : MainMoves p s.shared a t) :
    Turned p ⟨t, s.reports⟩ (turns s a h) := by
  cases hm with
  | tick seconds =>
    exact ⟨hs.boot, Nat.le_add_right_of_le hs.clock, hs.quiet, hs.loop, hs.due, hs.carries⟩
  | start hp =>
    obtain ⟨h0, hnext, hup⟩ := hs.boot hp
    refine ⟨by simp, le_refl _, ?_, by simp, fun _ => .inl ⟨hup, hnext⟩, ?_⟩
    · intro hq _
      exact hs.quiet hq (by simp [hp])
    · intro hq k prev hk
      rw [hs.quiet hq (by simp [hp])] at hk
      cases hk
  | schedule hp =>
    refine ⟨by simp, hs.clock, by simp, fun _ => Nat.succ_pos _, ?_, hs.carries⟩
    exact fun h0 => (hs.due h0).update h0
  | exec hp => exact ⟨hs.boot, hs.clock, hs.quiet, hs.loop, hs.due, hs.carries⟩
  | set hp hb => exact ⟨hs.boot, hs.clock, hs.quiet, hs.loop, hs.due, hs.carries⟩
  | wait hp hd => exact hs

theorem turned_spawn {t : Shared} (hs : Turned p s h) (hsp : Spawns s.shared a t) :
    Turned p ⟨t, s.reports ++ [.created]⟩ (turns s a h) := by
  cases hsp with
  | due hp hd =>
    refine ⟨hs.boot, hs.clock, fun _ hne => absurd hp hne, hs.loop, hs.due, ?_⟩
    intro hq k prev hk
    rw [List.getElem?_append] at hk
    split at hk
    · exact hs.carries hq k prev hk
    · cases List.mem_singleton.mp (List.mem_of_getElem? hk)
  | signal =>
    exact ⟨hs.boot, hs.clock, by simp, hs.loop, hs.due, by simp⟩

/-- A step of a report that takes no boundary. -/
theorem turned_set {rows : List ExactRow} {exec_count_in_period prev_cov : UInt32} {k : Nat}
    (hs : Turned p s h) (hpc : ∀ prev_next_time, pc' ≠ .updated prev_next_time) :
    Turned p ⟨{ s.shared with
      rows := rows
      exec_count_in_period := exec_count_in_period
      prev_cov := prev_cov }, s.reports.set k pc'⟩ h := by
  refine ⟨hs.boot, hs.clock, ?_, hs.loop, hs.due, ?_⟩
  · intro hq hne
    show s.reports.set k pc' = []
    rw [hs.quiet hq hne]
    rfl
  · intro hq j prev hj
    rw [List.getElem?_set] at hj
    split at hj
    · split at hj
      · cases hj
        exact absurd rfl (hpc prev)
      · cases hj
    · exact hs.carries hq j prev hj

/-- A report takes the boundary that is due. -/
theorem turned_update {k : Nat} (hs : Turned p s h) (hk : s.reports[k]? = some .created)
    (h0 : s.shared.times.start_time ≠ 0) :
    Turned p
      ⟨{ s.shared with times := (tally_update_next_time p.tallying_period s.shared.times).2 },
        s.reports.set k (.updated s.shared.times.next_tallying_time)⟩ (h.take k) := by
  have hphase : s.shared.stop_soon = false → s.shared.phase = .looping := by
    intro hq
    by_contra hne
    rw [hs.quiet hq hne] at hk
    cases hk
  refine ⟨?_, hs.clock, ?_, fun _ => Nat.succ_pos _, fun _ => (hs.due h0).update h0, ?_⟩
  · intro hb
    exact absurd (hs.boot hb).1 h0
  · intro hq hne
    exact absurd (hphase hq) hne
  · intro hq j prev hj
    show prev = s.shared.times.start_time + (h.take k).before j % 2 ^ 32 * p.tallying_period
    rw [List.getElem?_set] at hj
    split at hj
    · next hkj =>
      subst hkj
      split at hj
      · cases hj
        rcases hs.due h0 with ⟨hzero, -⟩ | ⟨-, hnext⟩
        · have := hs.loop (hphase hq)
          omega
        · rw [hnext, Turns.take_self]
      · cases hj
    · next hkj =>
      rw [Turns.take_of_ne h (Ne.symm hkj)]
      exact hs.carries hq j prev hj

theorem turned_move {t : Shared} {k : Nat} (hs : Turned p s h) (hk : s.reports[k]? = some pc)
    (hm : Moves p s.shared pc t pc') :
    Turned p ⟨t, s.reports.set k pc'⟩ (turns s (.run k) h) := by
  have hsame : (∀ h0 : pc = .created, s.shared.times.start_time = 0) → turns s (.run k) h = h := by
    intro hc
    unfold turns
    simp only [hk]
    split
    · next heq =>
      rw [if_pos (hc (Option.some.inj heq))]
    · rfl
  cases hm with
  | leave h0 =>
    rw [hsame fun _ => h0]
    exact turned_set hs (by simp)
  | update h0 =>
    have htake : turns s (.run k) h = h.take k := by
      unfold turns
      simp only [hk]
      rw [if_neg h0]
    rw [htake]
    exact turned_update hs hk h0
  | _ =>
    rw [hsame (by simp)]
    exact turned_set hs (by simp)

theorem turned_step (hs : Turned p s h) (hstep : step p s a = some t) :
    Turned p t (turns s a h) := by
  cases did_of_step hstep with
  | main hm => exact turned_main hs hm
  | spawn hsp => exact turned_spawn hs hsp
  | run hk hm => exact turned_move hs hk hm

/-! ## The look at the clock -/

/-- The difference is 0 as a `u32` just when it is a multiple of 2^32. -/
theorem ofInt_sub_eq_zero_iff {x y : Nat} (h : y ≤ x) :
    UInt32.ofInt ((x : Int) - y) = 0 ↔ 2 ^ 32 ∣ x - y := by
  rw [← UInt32.toNat_inj, toNat_ofInt_sub h, Nat.dvd_iff_mod_eq_zero]
  rfl

/-- The divisor that the report gets is zero just when the time has not moved on. -/
theorem divisor_eq_zero_iff {k prev_next_time : Nat} (hs : Turned p s h)
    (hk : s.reports[k]? = some (.updated prev_next_time)) :
    UInt32.ofInt (((if s.shared.stop_soon then s.shared.now else prev_next_time : Nat) : Int) -
        s.shared.times.start_time) ≠ 0 ↔
      TimeMovedOn p ⟨s, h⟩ (.run k) := by
  simp only [TimeMovedOn, hk, Option.some.injEq, ReportPc.updated.injEq, forall_eq', ne_eq]
  cases hstop : s.shared.stop_soon with
  | true =>
    simp only [if_true]
    rw [ofInt_sub_eq_zero_iff hs.clock]
  | false =>
    have hprev := hs.carries hstop k prev_next_time hk
    simp only [Bool.false_eq_true, if_false]
    rw [ofInt_sub_eq_zero_iff (by omega), hprev, Nat.add_sub_cancel_left]

/-! ## The run -/

/-- The divisor of a report is the one that it had, or the one that it gets from the clock. -/
theorem moves_divisor {s t : Shared} {prev_time : UInt32} (hm : Moves p s pc t pc')
    (hd : pc'.divisor = some prev_time) :
    pc.divisor = some prev_time ∨ ∃ prev_next_time, pc = .updated prev_next_time ∧
      prev_time = UInt32.ofInt (((if s.stop_soon then s.now else prev_next_time : Nat) : Int) -
        s.times.start_time) := by
  cases hm with
  | time prev_next_time =>
    cases hd
    exact .inr ⟨prev_next_time, rfl, rfl⟩
  | tally _ => exact .inl hd
  | compute _ _ _ => exact .inl hd
  | _ => cases hd

theorem nonzero_step (hs : Turned p s h) (hno : DivisorsNonzero s)
    (hmoved : TimeMovedOn p ⟨s, h⟩ a) (hstep : step p s a = some t) : DivisorsNonzero t := by
  intro q hq prev_time hd
  cases did_of_step hstep with
  | main hm => exact hno q hq prev_time hd
  | spawn hsp =>
    rcases List.mem_append.mp hq with hq | hq
    · exact hno q hq prev_time hd
    · rw [List.mem_singleton.mp hq] at hd
      cases hd
  | run hk hm =>
    rcases List.mem_or_eq_of_mem_set hq with hq | rfl
    · exact hno q hq prev_time hd
    · rcases moves_divisor hm hd with hold | ⟨prev_next_time, rfl, rfl⟩
      · exact hno _ (List.mem_of_getElem? hk) prev_time hold
      · exact (divisor_eq_zero_iff hs hk).mpr hmoved

/-- A report that looks at the clock too early, or carries a boundary that wraps around,
divides by zero. -/
theorem zero_of_notMoved (hs : Turned p s h) (hnot : ¬ TimeMovedOn p ⟨s, h⟩ a)
    (hstep : step p s a = some t) : ¬ DivisorsNonzero t := by
  cases did_of_step hstep with
  | main hm => cases hm <;> exact absurd trivial hnot
  | spawn hsp => cases hsp <;> exact absurd trivial hnot
  | @run k t pc pc' hk hm =>
    obtain ⟨prev_next_time, rfl⟩ : ∃ prev_next_time, pc = .updated prev_next_time := by
      by_contra hne
      apply hnot
      intro prev_next_time hprev
      rw [hk, Option.some.injEq] at hprev
      exact absurd ⟨prev_next_time, hprev⟩ hne
    cases hm with
    | time _ =>
      intro hno
      apply hnot
      apply (divisor_eq_zero_iff hs hk).mp
      obtain ⟨hlt, -⟩ := List.getElem?_eq_some_iff.mp hk
      exact hno _ (List.mem_set hlt _) _ rfl

theorem turned_reached {now : Nat} {env : Observed State Turns → Act → Prop}
    {o : Observed State Turns} (hr : Reach (observe (step p) turns) env ⟨boot now, .empty⟩ o) :
    Turned p o.state o.hist := by
  apply hr.inv (P := fun o => Turned p o.state o.hist) (turned_boot p now)
  intro o o' a hs _ hstep
  obtain ⟨hs', hh⟩ := observe_eq_some.mp hstep
  rw [hh]
  exact turned_step hs hs'

theorem nonzero_reached {now : Nat} {o : Observed State Turns}
    (hr : Reach (observe (step p) turns) (fun o a => True ∧ TimeMovedOn p o a)
      ⟨boot now, .empty⟩ o) : DivisorsNonzero o.state := by
  have hboth : Turned p o.state o.hist ∧ DivisorsNonzero o.state := by
    apply hr.inv (P := fun o => Turned p o.state o.hist ∧ DivisorsNonzero o.state)
    · refine ⟨turned_boot p now, ?_⟩
      intro pc hpc
      cases hpc
    · rintro o o' a ⟨hs, hno⟩ he hstep
      obtain ⟨hs', hh⟩ := observe_eq_some.mp hstep
      exact ⟨hh ▸ turned_step hs hs', nonzero_step hs hno he.2 hs'⟩
  exact hboth.2

/-! ## The law -/

/-- No report of a run divides by zero just when the time has moved on for each of them. -/
theorem no_division_by_zero_iff (p : Params) (now : Nat) (acts : List Act)
    (hr : run (observe (step p) turns) ⟨boot now, .empty⟩ acts ≠ none) :
    (∀ pre, pre <+: acts → ∀ o, run (observe (step p) turns) ⟨boot now, .empty⟩ pre = some o →
        DivisorsNonzero o.state) ↔
      Allowed (observe (step p) turns) (TimeMovedOn p) ⟨boot now, .empty⟩ acts := by
  have hiff := never_bad_iff (fun o : Observed State Turns => ¬ DivisorsNonzero o.state)
    (fun o o' a ho _ hnot hs =>
      zero_of_notMoved (turned_reached ho) hnot (observe_eq_some.mp hs).1)
    (fun o ho => not_not.mpr (nonzero_reached ho)) (allowed_all acts) hr
  simpa only [not_not] using hiff

/-- The daemon is stopped one second after its start, and reports. -/
theorem a_stop_after_a_second_divides_iff :
    let acts := [Act.start, .schedule, .tick 1, .signal] ++ List.replicate 7 (Act.run 0)
    run (observe (step small) turns) ⟨boot 100, .empty⟩ acts ≠ none ∧
      ((∀ pre, pre <+: acts →
          ∀ o, run (observe (step small) turns) ⟨boot 100, .empty⟩ pre = some o →
            DivisorsNonzero o.state) ↔
        Allowed (observe (step small) turns) (TimeMovedOn small) ⟨boot 100, .empty⟩ acts) := by
  intro acts
  have hr : run (observe (step small) turns) ⟨boot 100, .empty⟩ acts ≠ none := by decide +kernel
  exact ⟨hr, no_division_by_zero_iff small 100 acts hr⟩

/-- The daemon is stopped in the second of its start: its report divides by zero, and the
process is dead. -/
theorem a_stop_within_a_second_divides_by_zero :
    ∃ o, run (observe (step small) turns) ⟨boot 100, .empty⟩
      [Act.start, .schedule, .signal, .run 0, .run 0] = some o ∧ ¬ DivisorsNonzero o.state ∧
      ∃ s, run (step small) o.state [.run 0, .run 0] = some s ∧ s.dead = true := by
  refine ⟨_, rfl, ?_, _, rfl, rfl⟩
  intro hno
  exact hno (.timed 0) (List.mem_singleton_self _) 0 rfl rfl

end lscov.daemon.reporting
