-- The law of the schedule. The main loop tests the due time of a report, and the report
-- thread moves it on. While the loop spawns reports only for boundaries that the clock
-- has passed, each of them is reported once and never ahead of time. A report spawned
-- too soon can carry a boundary that lies ahead.
import LogicStateCoverage.Runs
import Mathlib.Data.UInt
import Mathlib.Algebra.GroupWithZero.Nat

namespace lscov.daemon

open runs

/-! ## The tallying times -/

/-- The times of the daemon, in unix time. -/
structure Times where
  start_time : Nat
  next_tallying_time : Nat
  /-- `loop_timeout.tv_sec` -/
  loop_timeout : Nat

def tally_is_next_time (t : Times) (now : Nat) : Bool := t.next_tallying_time < now

/-- The time before the update, and the times after it. `prev_iter_num` is a `u32`. -/
def tally_update_next_time (tallying_period : Nat) (t : Times) : Nat × Times :=
  let prev_next_time := t.next_tallying_time
  let next := if t.next_tallying_time = 0 then t.start_time else t.next_tallying_time
  let prev_iter_num := UInt32.ofNat ((next - t.start_time) / tallying_period)
  let next := t.start_time + (prev_iter_num + 1).toNat * tallying_period
  (prev_next_time, { t with next_tallying_time := next, loop_timeout := next })

def tally_init (tallying_period now : Nat) : Times :=
  (tally_update_next_time tallying_period ⟨now, 0, 0⟩).2

/-! ## The loop and its report threads -/

/-- Where a spawned `lscov_report` is. -/
inductive ReportAt where
  /-- The thread has not run `tally_update_next_time` yet. -/
  | created
  /-- The thread found `start_time` unset and returned. -/
  | left
  /-- The `prev_next_time` that the report carries. -/
  | carries (prev_next_time : Nat)

structure Periodic where
  /-- The clock when the loop spawned the report. -/
  spawned : Nat
  place : ReportAt

structure Clockwork where
  now : Nat
  times : Times
  reports : List Periodic

inductive ClockAct where
  /-- Time passes. -/
  | tick (seconds : Nat)
  /-- One iteration of `lscov_loop`. -/
  | iterate
  /-- Report thread `k` starts to run. -/
  | report (k : Nat)

/-- The thread is created and still has to run `tally_update_next_time`. -/
def Periodic.waits (r : Periodic) : Bool :=
  match r.place with
  | .created => true
  | _ => false

/-- The number of reports that still have to run `tally_update_next_time`. -/
def Clockwork.waiting (s : Clockwork) : Nat := s.reports.countP Periodic.waits

/-- A new report thread. -/
def Clockwork.spawn (s : Clockwork) : Clockwork :=
  { s with reports := s.reports ++ [⟨s.now, .created⟩] }

section machine

variable (tallying_period : Nat)

/-- The first lines of `lscov_report`, as far as the time it carries. -/
def lscov_report_time (t : Times) : ReportAt × Times :=
  if t.start_time = 0 then (.left, t)
  else
    let (prev_next_time, t) := tally_update_next_time tallying_period t
    (.carries prev_next_time, t)

def clock_step (s : Clockwork) : ClockAct → Option Clockwork
  | .tick seconds => some { s with now := s.now + seconds }
  | .iterate =>
    if tally_is_next_time s.times s.now then some s.spawn else some s
  | .report k =>
    match s.reports[k]? with
    | some ⟨spawned, .created⟩ =>
      let (place, times) := lscov_report_time tallying_period s.times
      some { s with times := times, reports := s.reports.set k ⟨spawned, place⟩ }
    | _ => none

/-- The daemon after `tally_init` at time `start`. -/
def clock_boot (start : Nat) : Clockwork := ⟨start, tally_init tallying_period start, []⟩

/-- Each report carries a boundary that the clock had passed when the loop spawned it,
and no two carry the same one. -/
def OnTime (s : Clockwork) : Prop :=
  (∀ r ∈ s.reports, ∀ time, r.place = .carries time →
    ∃ k ≥ 1, time = s.times.start_time + k * tallying_period ∧ time < r.spawned) ∧
  ∀ (i j : Nat) (r r' : Periodic) (time : Nat), s.reports[i]? = some r →
    s.reports[j]? = some r' → r.place = .carries time → r'.place = .carries time → i = j

/-- The last boundary that the waiting reports can take, when a new one joins them. -/
def lastBoundary (s : Clockwork) : Nat :=
  s.times.next_tallying_time + s.waiting * tallying_period

/-- The loop spawns a report only when the new report and all those that wait were spawned
after the last boundary that they can take, and `prev_iter_num` does not wrap around. -/
def Timely (s : Clockwork) : ClockAct → Prop
  | .iterate => tally_is_next_time s.times s.now →
      lastBoundary tallying_period s < s.now ∧
      (∀ r ∈ s.reports, r.place = .created → lastBoundary tallying_period s < r.spawned) ∧
      lastBoundary tallying_period s + tallying_period <
        s.times.start_time + 2 ^ 32 * tallying_period
  | _ => True

end machine

/-! ## The invariant -/

variable {period k : Nat} {s s' : Clockwork}

/-- The due time is boundary `k`, and every waiting report was spawned after the last
boundary that it can take. The boundaries before `k` are those that the reports carry. -/
structure Regular (period k : Nat) (s : Clockwork) : Prop where
  first : 1 ≤ k
  fits : k + s.waiting < 2 ^ 32
  next : s.times.next_tallying_time = s.times.start_time + k * period
  due : ∀ r ∈ s.reports, r.place = .created → lastBoundary period s < r.spawned + period
  carried : ∀ r ∈ s.reports, ∀ time, r.place = .carries time →
    ∃ j, 1 ≤ j ∧ j < k ∧ time = s.times.start_time + j * period ∧ time < r.spawned
  once : ∀ (i j : Nat) (r r' : Periodic) (time : Nat), s.reports[i]? = some r →
    s.reports[j]? = some r' → r.place = .carries time → r'.place = .carries time → i = j

/-- The update moves the due time from boundary `k` to boundary `k + 1`. -/
theorem update_eq {t : Times} (hp : 0 < period) (hk : 1 ≤ k) (hfits : k + 1 < 2 ^ 32)
    (hnext : t.next_tallying_time = t.start_time + k * period) :
    tally_update_next_time period t =
      (t.next_tallying_time,
        ⟨t.start_time, t.start_time + (k + 1) * period, t.start_time + (k + 1) * period⟩) := by
  have hpos : 0 < k * period := Nat.mul_pos hk hp
  have hdiv : (t.start_time + k * period - t.start_time) / period = k := by
    rw [Nat.add_sub_cancel_left, Nat.mul_div_cancel k hp]
  have hiter : (UInt32.ofNat k + 1).toNat = k + 1 := by
    rw [UInt32.toNat_add, UInt32.toNat_ofNat', show UInt32.toNat 1 = 1 by decide]
    omega
  unfold tally_update_next_time
  simp only [hnext, if_neg (show ¬ t.start_time + k * period = 0 by omega), hdiv, hiter]

theorem regular_boot (period start : Nat) : Regular period 1 (clock_boot period start) := by
  have hboot : (clock_boot period start).times.next_tallying_time = start + 1 * period := by
    unfold clock_boot tally_init tally_update_next_time
    simp
  refine ⟨le_refl 1, (show 1 + 0 < 2 ^ 32 by decide), hboot, ?_, ?_, ?_⟩
  · intro r hr
    cases hr
  · intro r hr
    cases hr
  · intro i j r r' time hr
    cases hr

theorem getElem?_set_cases {l : List Periodic} {n i : Nat} {q r : Periodic}
    (h : (l.set n q)[i]? = some r) : i = n ∧ r = q ∨ i ≠ n ∧ l[i]? = some r := by
  rw [List.getElem?_set] at h
  split at h
  · rename_i hni
    split at h <;> cases h
    exact Or.inl ⟨hni.symm, rfl⟩
  · rename_i hni
    exact Or.inr ⟨Ne.symm hni, h⟩

theorem waiting_pos {n spawned : Nat} (hn : s.reports[n]? = some ⟨spawned, .created⟩) :
    0 < s.waiting :=
  List.countP_pos_iff (p := Periodic.waits).mpr ⟨_, List.mem_of_getElem? hn, rfl⟩

/-- A report that stops waiting. -/
theorem waiting_set {n spawned : Nat} (hn : s.reports[n]? = some ⟨spawned, .created⟩)
    (q : Periodic) (hq : q.waits = false) :
    (s.reports.set n q).countP Periodic.waits + 1 = s.waiting := by
  obtain ⟨hlt, hget⟩ := List.getElem?_eq_some_iff.mp hn
  have hwaits : (⟨spawned, .created⟩ : Periodic).waits = true := rfl
  have hpos := waiting_pos hn
  rw [List.countP_set hlt, hget, hwaits, hq]
  unfold Clockwork.waiting at hpos ⊢
  simp only [if_true, Bool.false_eq_true, if_false]
  omega

theorem regular_tick (seconds : Nat) (h : Regular period k s) :
    Regular period k { s with now := s.now + seconds } :=
  ⟨h.first, h.fits, h.next, h.due, h.carried, h.once⟩

theorem waiting_spawn (s : Clockwork) : s.spawn.waiting = s.waiting + 1 := by
  unfold Clockwork.waiting Clockwork.spawn
  rw [List.countP_append]
  rfl

/-- There is room for one more boundary in `prev_iter_num`. -/
theorem fits_of_last (h : Regular period k s)
    (hfits : lastBoundary period s + period < s.times.start_time + 2 ^ 32 * period) :
    k + s.waiting + 1 < 2 ^ 32 := by
  have hlt : (k + s.waiting + 1) * period < 2 ^ 32 * period := by
    have hnext := h.next
    unfold lastBoundary at hfits
    rw [Nat.add_mul, Nat.add_mul, Nat.one_mul]
    omega
  exact Nat.lt_of_mul_lt_mul_right hlt

theorem regular_spawn (h : Regular period k s)
    (hnow : lastBoundary period s < s.now)
    (hdue : ∀ r ∈ s.reports, r.place = .created → lastBoundary period s < r.spawned)
    (hfits : lastBoundary period s + period < s.times.start_time + 2 ^ 32 * period) :
    Regular period k s.spawn := by
  have hlast : lastBoundary period s.spawn = lastBoundary period s + period := by
    unfold lastBoundary
    rw [waiting_spawn, Nat.add_mul, Nat.one_mul, Nat.add_assoc]
    rfl
  refine ⟨h.first, ?_, h.next, ?_, ?_, ?_⟩
  · rw [waiting_spawn]
    exact fits_of_last h hfits
  · intro r hr hc
    rw [hlast]
    apply Nat.add_lt_add_right
    rcases List.mem_append.mp hr with hr | hr
    · exact hdue r hr hc
    · rw [List.mem_singleton.mp hr]
      exact hnow
  · intro r hr time ht
    rcases List.mem_append.mp hr with hr | hr
    · exact h.carried r hr time ht
    · rw [List.mem_singleton.mp hr] at ht
      cases ht
  · intro i j r r' time hr hr' ht ht'
    have hold : ∀ (i : Nat) (r : Periodic), s.spawn.reports[i]? = some r →
        r.place = .carries time → s.reports[i]? = some r := by
      intro i r hr ht
      unfold Clockwork.spawn at hr
      rw [List.getElem?_append] at hr
      split at hr
      · exact hr
      · rw [List.mem_singleton.mp (List.mem_of_getElem? hr)] at ht
        cases ht
    exact h.once i j r r' time (hold i r hr ht) (hold j r' hr' ht') ht ht'

/-- Report `n` carries the due time, and the next one is `next`. -/
def Clockwork.carry (s : Clockwork) (n spawned next : Nat) : Clockwork :=
  ⟨s.now, ⟨s.times.start_time, next, next⟩,
    s.reports.set n ⟨spawned, .carries s.times.next_tallying_time⟩⟩

theorem report_eq {n spawned : Nat} (hp : 0 < period) (hk : 1 ≤ k) (hfits : k + 1 < 2 ^ 32)
    (hnext : s.times.next_tallying_time = s.times.start_time + k * period)
    (hn : s.reports[n]? = some ⟨spawned, .created⟩) (hstart : s.times.start_time ≠ 0) :
    clock_step period s (.report n) =
      some (s.carry n spawned (s.times.start_time + (k + 1) * period)) := by
  simp only [clock_step, hn, lscov_report_time, if_neg hstart, update_eq hp hk hfits hnext]
  rfl

/-- A waiting report takes boundary `k` and moves the due time on. -/
theorem regular_carry {n spawned next : Nat} (hp : 0 < period) (h : Regular period k s)
    (hn : s.reports[n]? = some ⟨spawned, .created⟩)
    (hnext : next = s.times.start_time + (k + 1) * period) :
    Regular period (k + 1) (s.carry n spawned next) := by
  have hdue : lastBoundary period s < spawned + period := h.due _ (List.mem_of_getElem? hn) rfl
  have hwait := waiting_set hn ⟨spawned, .carries s.times.next_tallying_time⟩ rfl
  have hfits := h.fits
  -- The waiting reports have the same last boundary as before.
  have hlast : next + (s.reports.set n
      ⟨spawned, .carries s.times.next_tallying_time⟩).countP Periodic.waits * period =
        lastBoundary period s := by
    unfold lastBoundary
    rw [← hwait, Nat.add_mul, Nat.one_mul, hnext, Nat.add_mul, Nat.one_mul]
    have := h.next
    omega
  -- No report carries the boundary that this one takes.
  have hfresh : ∀ (i : Nat) (r : Periodic), s.reports[i]? = some r →
      r.place ≠ .carries s.times.next_tallying_time := by
    intro i r hr ht
    obtain ⟨j, -, hj, heq, -⟩ := h.carried r (List.mem_of_getElem? hr) _ ht
    rw [h.next] at heq
    have := Nat.eq_of_mul_eq_mul_right hp (Nat.add_left_cancel heq)
    omega
  unfold Clockwork.carry
  refine ⟨by omega, ?_, hnext, ?_, ?_, ?_⟩
  · unfold Clockwork.waiting at hwait hfits ⊢
    dsimp only
    omega
  · intro r hr hc
    unfold lastBoundary Clockwork.waiting
    dsimp only
    rw [hlast]
    rcases List.mem_or_eq_of_mem_set hr with hr | rfl
    · exact h.due r hr hc
    · cases hc
  · intro r hr time ht
    rcases List.mem_or_eq_of_mem_set hr with hr | rfl
    · obtain ⟨j, hj, hlt, heq, hpast⟩ := h.carried r hr time ht
      exact ⟨j, hj, by omega, heq, hpast⟩
    · cases ht
      have hone : period ≤ s.waiting * period := Nat.le_mul_of_pos_left period (by omega)
      unfold lastBoundary at hdue
      refine ⟨k, h.first, by omega, h.next, ?_⟩
      dsimp only
      omega
  · intro i j r r' time hr hr' ht ht'
    rcases getElem?_set_cases hr with ⟨hi, rfl⟩ | ⟨-, hr⟩
    · cases ht
      rcases getElem?_set_cases hr' with ⟨hj, -⟩ | ⟨-, hr'⟩
      · rw [hi, hj]
      · exact absurd ht' (hfresh j r' hr')
    · rcases getElem?_set_cases hr' with ⟨-, rfl⟩ | ⟨-, hr'⟩
      · cases ht'
        exact absurd ht (hfresh i r hr)
      · exact h.once i j r r' time hr hr' ht ht'

/-- A report that finds `start_time` unset changes nothing. -/
theorem regular_leave {n spawned : Nat} (h : Regular period k s)
    (hn : s.reports[n]? = some ⟨spawned, .created⟩) :
    Regular period k ⟨s.now, s.times, s.reports.set n ⟨spawned, .left⟩⟩ := by
  have hwait := waiting_set hn ⟨spawned, .left⟩ rfl
  have hfits := h.fits
  refine ⟨h.first, ?_, h.next, ?_, ?_, ?_⟩
  · unfold Clockwork.waiting at hwait hfits ⊢
    dsimp only
    omega
  · intro r hr hc
    rcases List.mem_or_eq_of_mem_set hr with hr | rfl
    · have hdue := h.due r hr hc
      unfold lastBoundary at hdue ⊢
      rw [← hwait, Nat.add_mul] at hdue
      unfold Clockwork.waiting
      dsimp only
      omega
    · cases hc
  · intro r hr time ht
    rcases List.mem_or_eq_of_mem_set hr with hr | rfl
    · exact h.carried r hr time ht
    · cases ht
  · intro i j r r' time hr hr' ht ht'
    rcases getElem?_set_cases hr with ⟨-, rfl⟩ | ⟨-, hr⟩
    · cases ht
    · rcases getElem?_set_cases hr' with ⟨-, rfl⟩ | ⟨-, hr'⟩
      · cases ht'
      · exact h.once i j r r' time hr hr' ht ht'

/-! ## The step and the run -/

theorem regular_step (hp : 0 < period) (a : ClockAct) (h : Regular period k s)
    (ha : Timely period s a) (hs : clock_step period s a = some s') :
    ∃ k', Regular period k' s' := by
  cases a with
  | tick seconds =>
    cases hs
    exact ⟨k, regular_tick seconds h⟩
  | iterate =>
    simp only [clock_step] at hs
    split at hs
    · rename_i hdue
      cases hs
      obtain ⟨hnow, hwaiting, hfits⟩ := ha hdue
      exact ⟨k, regular_spawn h hnow hwaiting hfits⟩
    · cases hs
      exact ⟨k, h⟩
  | report n =>
    have hs' := hs
    simp only [clock_step] at hs
    split at hs
    · rename_i spawned hn
      by_cases hstart : s.times.start_time = 0
      · simp only [lscov_report_time, if_pos hstart, Option.some.injEq] at hs
        subst hs
        exact ⟨k, regular_leave h hn⟩
      · have hfits : k + 1 < 2 ^ 32 :=
          lt_of_le_of_lt (Nat.add_le_add_left (waiting_pos hn) k) h.fits
        rw [report_eq hp h.first hfits h.next hn hstart, Option.some.injEq] at hs'
        subst hs'
        exact ⟨k + 1, regular_carry hp h hn rfl⟩
    · cases hs

theorem Regular.onTime (h : Regular period k s) : OnTime period s := by
  refine ⟨?_, h.once⟩
  intro r hr time ht
  obtain ⟨j, hj, -, heq, hpast⟩ := h.carried r hr time ht
  exact ⟨j, hj, heq, hpast⟩

theorem regular_reached {start : Nat} (hp : 0 < period)
    (h : Reach (clock_step period) (Timely period) (clock_boot period start) s) :
    ∃ k, Regular period k s := by
  apply h.inv
  · exact ⟨1, regular_boot period start⟩
  · rintro t u a ⟨k, hk⟩ ha hu
    exact regular_step hp a hk ha hu

/-- In every run in which the loop spawns reports only for boundaries that the clock has
passed, each boundary is reported at most once and never ahead of time. -/
theorem timely_reports_are_on_time (period start : Nat) (hp : 0 < period) (s : Clockwork)
    (h : Reach (clock_step period) (Timely period) (clock_boot period start) s) :
    OnTime period s := by
  obtain ⟨k, hk⟩ := regular_reached hp h
  exact hk.onTime

/-! ## Reports that are spawned too soon -/

/-- A waiting report with another waiting report besides. -/
theorem exists_other {n spawned : Nat} (hn : s.reports[n]? = some ⟨spawned, .created⟩)
    (hwait : 2 ≤ s.waiting) :
    ∃ m spawned', m ≠ n ∧ s.reports[m]? = some ⟨spawned', .created⟩ := by
  have hset := waiting_set hn ⟨spawned, .left⟩ rfl
  have hpos : 0 < (s.reports.set n ⟨spawned, .left⟩).countP Periodic.waits := by
    omega
  obtain ⟨⟨spawned', place⟩, hmem, hw⟩ := List.countP_pos_iff.mp hpos
  have hplace : place = .created := by
    cases place with
    | created => rfl
    | left => cases hw
    | carries time => cases hw
  subst hplace
  obtain ⟨m, hm⟩ := List.getElem?_of_mem hmem
  rcases getElem?_set_cases hm with ⟨-, heq⟩ | ⟨hne, hm⟩
  · cases heq
  · exact ⟨m, spawned', hne, hm⟩

/-- A waiting report that was spawned before the last boundary that it can take: when it
runs last, it carries a boundary that the clock had not passed. -/
theorem ahead_of_time (hp : 0 < period) (p : Nat) {n spawned : Nat}
    (hstart : s.times.start_time ≠ 0) (hk : 1 ≤ k) (hfits : k + p + 1 < 2 ^ 32)
    (hnext : s.times.next_tallying_time = s.times.start_time + k * period)
    (hn : s.reports[n]? = some ⟨spawned, .created⟩) (hwait : s.waiting = p + 1)
    (hsoon : spawned ≤ s.times.next_tallying_time + p * period) :
    ∃ t, Reach (clock_step period) (fun _ _ => True) s t ∧ ¬ OnTime period t := by
  -- By induction on the number of the other waiting reports, which run first.
  induction p generalizing s k with
  | zero =>
    have hstep := report_eq hp hk (by omega) hnext hn hstart
    refine ⟨_, Reach.one (a := .report n) trivial hstep, ?_⟩
    intro h
    have hmem := List.mem_set (List.getElem?_eq_some_iff.mp hn).1
      ⟨spawned, .carries s.times.next_tallying_time⟩
    obtain ⟨j, -, -, hpast⟩ := h.1 _ hmem _ rfl
    dsimp only at hpast
    omega
  | succ p ih =>
    obtain ⟨m, spawned', hne, hm⟩ := exists_other hn (by omega)
    have hstep := report_eq hp hk (by omega) hnext hm hstart
    have hset := waiting_set hm ⟨spawned', .carries s.times.next_tallying_time⟩ rfl
    have hn' : (s.reports.set m ⟨spawned', .carries s.times.next_tallying_time⟩)[n]? =
        some ⟨spawned, .created⟩ := by
      rw [List.getElem?_set_ne hne]
      exact hn
    have hwait' : (s.carry m spawned' (s.times.start_time + (k + 1) * period)).waiting = p + 1 := by
      unfold Clockwork.waiting at hset hwait ⊢
      unfold Clockwork.carry
      dsimp only
      omega
    have hsoon' : spawned ≤ s.times.start_time + (k + 1) * period + p * period := by
      rw [hnext, Nat.add_mul p, Nat.one_mul] at hsoon
      rw [Nat.add_mul, Nat.one_mul]
      omega
    obtain ⟨t, ht, hbad⟩ := ih (s := s.carry m spawned' (s.times.start_time + (k + 1) * period))
      (k := k + 1) hstart (by omega) (by omega) rfl hn' hwait' hsoon'
    exact ⟨t, (Reach.one (a := .report m) trivial hstep).trans ht, hbad⟩

/-- A spawn that is not timely can end in a report that is ahead of its time, when the
report threads run in a bad order. -/
theorem an_untimely_spawn_can_be_ahead_of_time (period start : Nat) (hp : 0 < period)
    (s : Clockwork) (h : Reach (clock_step period) (Timely period) (clock_boot period start) s)
    (hstart : s.times.start_time ≠ 0) (hdue : tally_is_next_time s.times s.now = true)
    (hfits : lastBoundary period s + period < s.times.start_time + 2 ^ 32 * period)
    (hsoon : s.now ≤ lastBoundary period s ∨
      ∃ r ∈ s.reports, r.place = .created ∧ r.spawned ≤ lastBoundary period s) :
    ∃ u t, clock_step period s .iterate = some u ∧
      Reach (clock_step period) (fun _ _ => True) u t ∧ ¬ OnTime period t := by
  obtain ⟨k, hk⟩ := regular_reached hp h
  have hk' : k + s.waiting + 1 < 2 ^ 32 := fits_of_last hk hfits
  obtain ⟨n, spawned, hn, hle⟩ : ∃ (n spawned : Nat),
      s.spawn.reports[n]? = some ⟨spawned, .created⟩ ∧ spawned ≤ lastBoundary period s := by
    rcases hsoon with hnow | ⟨⟨spawned, place⟩, hr, hc, hle⟩
    · exact ⟨s.reports.length, s.now, List.getElem?_concat_length, hnow⟩
    · dsimp only at hc
      subst hc
      obtain ⟨n, hn⟩ := List.getElem?_of_mem hr
      refine ⟨n, spawned, ?_, hle⟩
      unfold Clockwork.spawn
      rw [List.getElem?_append_left (List.getElem?_eq_some_iff.mp hn).1]
      exact hn
  obtain ⟨t, ht, hbad⟩ :=
    ahead_of_time (s := s.spawn) hp s.waiting hstart hk.first hk' hk.next hn (waiting_spawn s) hle
  refine ⟨s.spawn, t, ?_, ht, hbad⟩
  simp only [clock_step, hdue, if_true]

/-- The clock at which the loop finds its first report due. -/
def dueState : Clockwork := ⟨111, ⟨100, 110, 110⟩, []⟩

theorem reached_due (env : Clockwork → ClockAct → Prop) (h : ∀ s n, env s (.tick n)) :
    Reach (clock_step 10) env (clock_boot 10 100) dueState :=
  Reach.one (a := .tick 11) (h _ _) rfl

/-- One report that runs at once. -/
theorem one_report_is_on_time :
    ∃ s, Reach (clock_step 10) (Timely 10) (clock_boot 10 100) s ∧
      s.reports = [⟨111, .carries 110⟩] ∧ OnTime 10 s := by
  have hspawn : Timely 10 dueState .iterate :=
    fun _ => ⟨by decide, fun r hr => absurd hr List.not_mem_nil, by decide⟩
  have hiter := (reached_due (Timely 10) fun _ _ => trivial).step (a := .iterate) hspawn rfl
  have hrun : Reach (clock_step 10) (Timely 10) (clock_boot 10 100)
      ⟨111, ⟨100, 120, 120⟩, [⟨111, .carries 110⟩]⟩ :=
    hiter.step (a := .report 0) trivial rfl
  exact ⟨_, hrun, rfl, timely_reports_are_on_time 10 100 (by decide) _ hrun⟩

/-- Two iterations before the first report runs: the second report carries a boundary
that the clock had not passed. -/
theorem a_late_report_sends_the_next_one_ahead_of_time :
    ∃ s, Reach (clock_step 10) (fun _ _ => True) (clock_boot 10 100) s ∧
      s.reports = [⟨111, .carries 110⟩, ⟨111, .carries 120⟩] ∧ ¬ OnTime 10 s := by
  have hdue := reached_due (fun _ _ => True) fun _ _ => trivial
  have htwo := (hdue.step (a := .iterate) trivial rfl).step (a := .iterate) trivial rfl
  have hrun : Reach (clock_step 10) (fun _ _ => True) (clock_boot 10 100)
      ⟨111, ⟨100, 130, 130⟩, [⟨111, .carries 110⟩, ⟨111, .carries 120⟩]⟩ :=
    (htwo.step (a := .report 0) trivial rfl).step (a := .report 1) trivial rfl
  refine ⟨_, hrun, rfl, ?_⟩
  intro h
  obtain ⟨k, -, -, hpast⟩ := h.1 _ (List.mem_cons_of_mem _ (List.mem_singleton_self _)) 120 rfl
  exact absurd hpast (by decide)

end lscov.daemon
