-- The labels of the time axis of `cov-to-fig.py`. The formatter cuts a time down to whole
-- units. The law says what is lost by it: no two ticks share a label, but for some runs the
-- labels in minutes are not the times of their ticks.
import LogicStateCoverage.Ticks

namespace lscov.plot

/-! ## Ticks and labels -/

def time_unit_in_fmt (max_time : Nat) : Nat :=
  match axis max_time with
  | .sec => 1
  | .min => 60
  | .hr => 3600

/-- `time_fmt`: the label of a time. -/
def time_fmt (max_time ms : Nat) : Nat := ms / time_unit_in_fmt max_time

/-- The runs of six to eight, of ten to twelve and of thirty to forty minutes. -/
def Askew (max_time : Nat) : Prop :=
  360 ≤ max_time ∧ max_time < 480 ∨ 600 ≤ max_time ∧ max_time < 720 ∨
    1800 ≤ max_time ∧ max_time < 2400

/-- Three of the units in minutes are not whole minutes. -/
theorem min_units : ∀ u ∈ minUnits, ∃ nx ∈ minUnits ++ [4500], next_unit .min u = .ok (some nx) ∧
    (60 ∣ u ∧ (nx ≤ 90 ∨ 120 ≤ u ∧ nx ≤ 150 ∨ 180 ≤ u ∧ nx ≤ 450 ∨ 600 ≤ u) ∨
      ¬ 60 ∣ u ∧ (u = 90 ∧ nx = 120 ∨ u = 150 ∧ nx = 180 ∨ u = 450 ∧ nx = 600)) := by
  decide +kernel

/-- The loop stops at a unit with enough ticks, just before one with too few. -/
def Stops (max_time : Nat) : Search → Prop
  | .running unit _ => Reached max_time unit ∧ (unit = 1 ∨ 4 ≤ max_time / unit)
  | .finished unit =>
    Reached max_time unit ∧ (unit = 1 ∨ 4 ≤ max_time / unit) ∧
      ∃ nx, next_unit (axis max_time) unit = .ok (some nx) ∧ max_time / nx ≤ 3
  | .raised _ => False

variable {max_time unit : Nat}

theorem stops_turn (s : Search) (h : Stops max_time s) : Stops max_time (turn max_time s) := by
  cases s with
  | running unit next =>
    obtain ⟨nx, hrung, hreach⟩ := h.1.rung
    rw [turn_of_rung next hrung]
    split
    · next hstop => exact ⟨h.1, h.2, nx, hrung.1, hstop⟩
    · next hstop => exact ⟨hreach (by omega), .inr (by omega)⟩
  | finished unit => exact h
  | raised e => exact h

theorem stops_start (max_time : Nat) : Stops max_time start := ⟨.start max_time, .inl rfl⟩

/-- The unit is at least a minute or an hour where the labels are in them, and whole ones,
but for three ranges of runs, each with one unit. -/
theorem unit_of_stops (h : Stops max_time (.finished unit)) :
    0 < time_unit_in_fmt max_time ∧ time_unit_in_fmt max_time ≤ unit ∧
      (time_unit_in_fmt max_time ∣ unit ↔ ¬ Askew max_time) ∧
      (360 ≤ max_time ∧ max_time < 480 → unit = 90) ∧
      (600 ≤ max_time ∧ max_time < 720 → unit = 150) ∧
      (1800 ≤ max_time ∧ max_time < 2400 → unit = 450) := by
  obtain ⟨hreach, hticks, nx, hnext, hstop⟩ := h
  unfold Reached at hreach
  unfold time_unit_in_fmt Askew
  rcases axis_cases max_time with ⟨hax, hm⟩ | ⟨hax, hm0, hm⟩ | ⟨hax, hm⟩
  · simp only [hax] at hreach ⊢
    have hpos : ∀ u ∈ secUnits, 0 < u := by decide
    have := hpos unit hreach
    simp only [isUnit_one, IsUnit.dvd, true_iff]
    omega
  · simp only [hax] at hreach hnext ⊢
    rcases hreach with rfl | hmem
    · -- there are four minutes, so the loop goes on
      cases hnext
      omega
    · obtain ⟨nx', hmem', hnext', htable⟩ := min_units unit hmem
      rw [hnext', Except.ok.injEq, Option.some.injEq] at hnext
      subst hnext
      have hle : ∀ u ∈ minUnits ++ [4500], 60 ≤ u := by decide
      have hunit := hle unit (List.mem_append_left _ hmem)
      have hnx := hle nx' hmem'
      have hmany : 4 * unit ≤ max_time :=
        (Nat.le_div_iff_mul_le (by omega)).mp (hticks.resolve_left (by omega))
      have hfew : max_time < 4 * nx' := by
        rw [← Nat.div_lt_iff_lt_mul (by omega)]
        omega
      exact ⟨by decide, hunit, by omega⟩
  · simp only [hax] at hreach hnext ⊢
    rcases hreach with rfl | ⟨k, hk, rfl⟩
    · cases hnext
      omega
    · refine ⟨by decide, by omega, ?_⟩
      omega

/-- A step of a whole unit of the labels takes the label up. -/
theorem time_fmt_lt (hpos : 0 < time_unit_in_fmt max_time) (hle : time_unit_in_fmt max_time ≤ unit)
    {j k : Nat} (hjk : j < k) : time_fmt max_time (j * unit) < time_fmt max_time (k * unit) := by
  have hstep : j * unit + time_unit_in_fmt max_time ≤ k * unit := by
    have := Nat.mul_le_mul_right unit hjk
    rw [Nat.succ_mul] at this
    omega
  calc time_fmt max_time (j * unit) < j * unit / time_unit_in_fmt max_time + 1 :=
        Nat.lt_succ_self _
    _ = (j * unit + time_unit_in_fmt max_time) / time_unit_in_fmt max_time :=
        (Nat.add_div_right _ hpos).symm
    _ ≤ time_fmt max_time (k * unit) := Nat.div_le_div_right hstep

/-- The first tick is on the axis. -/
theorem unit_le (hticks : unit = 1 ∨ 4 ≤ max_time / unit) (h : 0 < max_time) : unit ≤ max_time := by
  rcases hticks with rfl | hticks
  · exact h
  · have hmul := Nat.mul_le_mul_right unit hticks
    have := Nat.div_mul_le_self max_time unit
    omega

/-- The search ends on a unit with which the labels of the ticks go up. Each label is the time
of its tick just when the run is in none of three ranges, where the unit is not whole minutes. -/
theorem the_labels_are_exact_off_three_ranges (max_time : Nat) :
    ∃ n unit, (turn max_time)^[n] start = .finished unit ∧
      (∀ j k, j < k → time_fmt max_time (j * unit) < time_fmt max_time (k * unit)) ∧
      ((∀ k, k * unit ≤ max_time →
        time_fmt max_time (k * unit) * time_unit_in_fmt max_time = k * unit) ↔
          ¬ Askew max_time) ∧
      (360 ≤ max_time ∧ max_time < 480 → unit = 90) ∧
      (600 ≤ max_time ∧ max_time < 720 → unit = 150) ∧
      (1800 ≤ max_time ∧ max_time < 2400 → unit = 450) := by
  obtain ⟨n, hn⟩ := runs.iterate_ends (Search.left max_time) good_turn turn_goes_up
    (good_start max_time)
  have hstops := runs.iterate_inv (P := Stops max_time) stops_turn (stops_start max_time) n
  match hs : (turn max_time)^[n] start with
  | .running unit next =>
    rw [hs] at hn
    exact hn.elim
  | .raised e =>
    rw [hs] at hn
    exact hn.elim
  | .finished unit =>
    rw [hs] at hstops
    obtain ⟨hpos, hle, hexact, hunits⟩ := unit_of_stops hstops
    refine ⟨n, unit, hs, fun j k => time_fmt_lt hpos hle, ⟨fun h haskew => ?_, fun h k _ => ?_⟩,
      hunits⟩
    · have hmax : 0 < max_time := by
        unfold Askew at haskew
        omega
      have hlabel := h 1 (by rw [Nat.one_mul]; exact unit_le hstops.2.1 hmax)
      rw [Nat.one_mul] at hlabel
      exact hexact.mp ⟨_, by rw [Nat.mul_comm]; exact hlabel.symm⟩ haskew
    · exact Nat.div_mul_cancel ((hexact.mpr h).mul_left k)

end lscov.plot
