-- The time axis of `cov-to-fig.py`. The laws say that the search for a time unit
-- ends, that no turn of it uses a stale value, and that the axis has between four
-- and nine ticks.
import Mathlib.Algebra.GroupWithZero.Nat
import Mathlib.Analysis.SpecialFunctions.Log.Base
import LogicStateCoverage.Runs

namespace lscov.plot

/-! ## The test -/

/-- `round(math.log(x, 10), 3).is_integer()` in exact arithmetic, for `x > 0`: the
logarithm is less than 1/2000 from some `n`. Both sides are raised to powers, so that
only whole numbers are compared. -/
def log10_is_integer (x : Nat) : Bool :=
  (List.range (x.log2 + 2)).any fun n =>
    10 ^ (2000 * n) < 10 * x ^ 2000 ∧ x ^ 2000 < 10 * 10 ^ (2000 * n)

/-- Only powers of ten with an exponent that 2000 divides are 2000th powers. So the logarithm
never lies halfway between two values that `round` gives. -/
theorem ne_ten_pow {x k : Nat} (hk : ¬ 2000 ∣ k) : x ^ 2000 ≠ 10 ^ k := by
  intro h
  apply hk
  have hf := congrArg (fun n => n.factorization 2) h
  have h10 : Nat.factorization 10 2 = 1 := by
    rw [show 10 = 2 * 5 by rfl, Nat.factorization_mul (by decide) (by decide)]
    simp [Nat.Prime.factorization_self Nat.prime_two, Nat.factorization_eq_zero_of_not_dvd]
  simp only [Nat.factorization_pow, Finsupp.smul_apply, smul_eq_mul, h10, mul_one] at hf
  exact ⟨_, hf.symm⟩

theorem logb_pow_lt_iff {a b x y : Nat} (hx : 0 < x) (hy : 0 < y) :
    10 ^ a * x ^ 2000 < 10 ^ b * y ^ 2000 ↔
      a + 2000 * Real.logb 10 x < b + 2000 * Real.logb 10 y := by
  have hlog (c z : Nat) (hz : 0 < z) :
      Real.logb 10 ((10 ^ c * z ^ 2000 : Nat) : ℝ) = c + 2000 * Real.logb 10 z := by
    have hz' : (z : ℝ) ≠ 0 := by positivity
    push_cast
    rw [Real.logb_mul (by positivity) (by positivity), Real.logb_pow, Real.logb_pow,
      Real.logb_self_eq_one (by norm_num)]
    push_cast
    ring
  rw [← hlog a x hx, ← hlog b y hy, Real.logb_lt_logb_iff (by norm_num), Nat.cast_lt]
  · exact_mod_cast Nat.mul_pos (Nat.pow_pos (by decide)) (Nat.pow_pos hx)
  · exact_mod_cast Nat.mul_pos (Nat.pow_pos (by decide)) (Nat.pow_pos hy)

/-- The two comparisons of the test are the two sides of the rounding. -/
theorem near_iff {x : Nat} (hx : 0 < x) (n : Nat) :
    (10 ^ (2000 * n) < 10 * x ^ 2000 ∧ x ^ 2000 < 10 * 10 ^ (2000 * n)) ↔
      round (1000 * Real.logb 10 x) = 1000 * (n : ℤ) := by
  have hhigh := logb_pow_lt_iff (a := 0) (b := 2000 * n + 1) hx Nat.one_pos
  have hlow := logb_pow_lt_iff (a := 1) (b := 2000 * n) hx Nat.one_pos
  simp only [one_pow, mul_one, pow_one, Nat.cast_one, Real.logb_one, mul_zero, add_zero, pow_zero,
    one_mul, zero_add, Nat.cast_zero] at hlow hhigh
  -- the lower side is strict, because there is no tie
  have hne : 10 * x ^ 2000 ≠ 10 ^ (2000 * n) := by
    intro h
    cases n with
    | zero =>
      rw [Nat.mul_zero, Nat.pow_zero] at h
      omega
    | succ n =>
      have h10 : 10 ^ (2000 * (n + 1)) = 10 * 10 ^ (2000 * n + 1999) := by
        rw [← pow_succ' 10 (2000 * n + 1999)]
        rfl
      rw [h10] at h
      have hx10 := Nat.eq_of_mul_eq_mul_left (show 0 < 10 by decide) h
      exact ne_ten_pow (by omega) hx10
  have hlow' : 10 ^ (2000 * n) < 10 * x ^ 2000 ↔ ¬ 10 * x ^ 2000 < 10 ^ (2000 * n) := by
    generalize 10 * x ^ 2000 = p at hne ⊢
    omega
  have hhigh' : x ^ 2000 < 10 * 10 ^ (2000 * n) ↔ x ^ 2000 < 10 ^ (2000 * n + 1) := by
    rw [pow_succ' 10 (2000 * n)]
  rw [hlow', hlow, hhigh', hhigh, round_eq, Int.floor_eq_iff]
  push_cast
  constructor
  · rintro ⟨h1, h2⟩
    constructor <;> linarith
  · rintro ⟨h1, h2⟩
    constructor
    · intro h
      linarith
    · linarith

/-- The test is what Python computes, with the logarithm and the rounding exact. -/
theorem log10_is_integer_iff {x : Nat} (hx : 0 < x) :
    log10_is_integer x = true ↔ ∃ n : ℤ, round (1000 * Real.logb 10 x) = 1000 * n := by
  simp only [log10_is_integer, List.any_eq_true, List.mem_range, decide_eq_true_eq, near_iff hx]
  constructor
  · rintro ⟨n, -, hn⟩
    exact ⟨n, hn⟩
  · rintro ⟨n, hn⟩
    have hpos : 0 ≤ Real.logb 10 x := Real.logb_nonneg (by norm_num) (by exact_mod_cast hx)
    have hlt : Real.logb 10 x < x.log2 + 1 := by
      rw [Real.logb_lt_iff_lt_rpow (by norm_num) (by exact_mod_cast hx)]
      calc (x : ℝ) < 2 ^ (x.log2 + 1) := by exact_mod_cast Nat.lt_log2_self
        _ ≤ 10 ^ (x.log2 + 1) := by gcongr; norm_num
        _ = 10 ^ ((x.log2 : ℝ) + 1) := by rw [← Real.rpow_natCast]; push_cast; rfl
    have hbounds := hn
    rw [round_eq, Int.floor_eq_iff] at hbounds
    push_cast at hbounds
    have h0 : -1 < n := by
      have h : (-1 : ℝ) < n := by linarith [hbounds.2]
      exact_mod_cast h
    have h1 : n < x.log2 + 2 := by
      have h : (n : ℝ) < x.log2 + 2 := by linarith [hbounds.1]
      exact_mod_cast h
    obtain ⟨m, rfl⟩ := Int.eq_ofNat_of_zero_le (show 0 ≤ n by omega)
    exact ⟨m, by omega, hn⟩

/-! ## The search -/

inductive Axis where
  | sec
  | min
  | hr
  deriving DecidableEq

inductive UnitError where
  | valueError           -- `math.log` of 0
  | nameError            -- `next_time_unit_in_sec` was never assigned
  | zeroDivisionError
  deriving DecidableEq

/-- `time_unit_in_str`, from `_max_time`. -/
def axis (max_time : Nat) : Axis :=
  if max_time > 4 * 60 * 60 then .hr
  else if max_time > 4 * 60 then .min
  else .sec

/-- A cascade of tests. A rule `(d, q, f)` tests `time_unit_in_sec // d`, and assigns
`(time_unit_in_sec // q) * f`. Where no test succeeds, nothing is assigned. -/
def cascade (unit : Nat) : List (Nat × Nat × Nat) → Except UnitError (Option Nat)
  | [] => .ok none
  | (d, q, f) :: rules =>
    if unit / d = 0 then .error .valueError
    else if log10_is_integer (unit / d) then .ok (some (unit / q * f))
    else cascade unit rules

/-- What the `if` at the head of the loop assigns to `next_time_unit_in_sec`. -/
def next_unit (ax : Axis) (unit : Nat) : Except UnitError (Option Nat) :=
  match ax with
  | .sec =>
    if unit = 1 then .ok (some 2)
    else if unit = 2 then .ok (some 5)
    else if unit = 5 then .ok (some 10)
    else cascade unit [(1, 1, 2), (2, 2, 5), (5, 1, 2)]
  | .min =>
    if unit = 1 then .ok (some 60)
    else
      cascade unit [(6, 2, 3), (9, 3, 4), (12, 4, 5), (15, 5, 6), (18, 3, 4), (24, 4, 5),
        (30, 2, 3), (45, 3, 4)]
  | .hr =>
    if unit = 1 then .ok (some 3600)
    else .ok (some ((unit / 3600 + 1) * 3600))

/-- The loop: `time_unit_in_sec`, and `next_time_unit_in_sec` once it is assigned. -/
inductive Search where
  | running (unit : Nat) (next : Option Nat)
  | finished (unit : Nat)
  | raised (e : UnitError)

/-- One turn of the `while` loop. A turn that assigns nothing goes on with the value of the
turn before it. -/
def turn (max_time : Nat) : Search → Search
  | .running unit next =>
    match next_unit (axis max_time) unit with
    | .error e => .raised e
    | .ok assigned =>
      match assigned.or next with
      | none => .raised .nameError
      | some nx =>
        if nx = 0 then .raised .zeroDivisionError
        else if max_time / nx ≤ 3 then .finished unit
        else .running nx (some nx)
  | s => s

def start : Search := .running 1 none

/-! ## The ladders -/

/-- From `unit`, the loop goes to `nx`. It is at most two and a half times as far, or there
are at least four ticks there. -/
def Rung (max_time unit nx : Nat) : Prop :=
  next_unit (axis max_time) unit = .ok (some nx) ∧ unit < nx ∧
    (2 * nx ≤ 5 * unit ∨ 4 ≤ max_time / nx)

def secUnits : List Nat := [1, 2, 5, 10, 20, 50]

def minUnits : List Nat :=
  [60, 90, 120, 150, 180, 240, 300, 450, 600, 900, 1200, 1500, 1800, 2400, 3000]

/-- The units that the loop reaches. -/
def Reached (max_time unit : Nat) : Prop :=
  match axis max_time with
  | .sec => unit ∈ secUnits
  | .min => unit = 1 ∨ unit ∈ minUnits
  | .hr => unit = 1 ∨ ∃ k, 0 < k ∧ unit = k * 3600

theorem sec_rungs : ∀ u ∈ secUnits, ∃ nx ∈ secUnits ++ [100],
    next_unit .sec u = .ok (some nx) ∧ u < nx ∧ 2 * nx ≤ 5 * u := by
  decide +kernel

theorem min_rungs : ∀ u ∈ minUnits, ∃ nx ∈ minUnits ++ [4500],
    next_unit .min u = .ok (some nx) ∧ u < nx ∧ 2 * nx ≤ 5 * u := by
  decide +kernel

variable {max_time unit nx : Nat}

theorem axis_cases (max_time : Nat) :
    (axis max_time = .sec ∧ max_time ≤ 240) ∨
    (axis max_time = .min ∧ 240 < max_time ∧ max_time ≤ 14400) ∨
    (axis max_time = .hr ∧ 14400 < max_time) := by
  unfold axis
  split
  · exact .inr (.inr ⟨rfl, by omega⟩)
  · split
    · exact .inr (.inl ⟨rfl, by omega, by omega⟩)
    · exact .inl ⟨rfl, by omega⟩

theorem four_le_div (hpos : 0 < nx) (h : 4 * nx ≤ max_time) : 4 ≤ max_time / nx :=
  (Nat.le_div_iff_mul_le hpos).mpr h

theorem Reached.start (max_time : Nat) : Reached max_time 1 := by
  unfold Reached
  rcases axis_cases max_time with ⟨hax, -⟩ | ⟨hax, -⟩ | ⟨hax, -⟩
  · rw [hax]
    decide
  · rw [hax]
    exact .inl rfl
  · rw [hax]
    exact .inl rfl

/-- From every unit that the loop reaches there is a rung up, and it ends on a unit that
the loop reaches, or on one with too few ticks. -/
theorem Reached.rung (h : Reached max_time unit) :
    ∃ nx, Rung max_time unit nx ∧ (4 ≤ max_time / nx → Reached max_time nx) := by
  unfold Reached Rung at *
  rcases axis_cases max_time with ⟨hax, hm⟩ | ⟨hax, hm0, hm⟩ | ⟨hax, hm⟩
  · simp only [hax] at h ⊢
    obtain ⟨nx, hmem, hnext, hlt, hratio⟩ := sec_rungs unit h
    refine ⟨nx, ⟨hnext, hlt, .inl hratio⟩, fun hticks => ?_⟩
    rcases List.mem_append.mp hmem with hmem | hmem
    · exact hmem
    · rw [List.mem_singleton.mp hmem] at hticks
      omega
  · simp only [hax] at h ⊢
    rcases h with rfl | h
    · exact ⟨60, ⟨rfl, by decide, .inr (four_le_div (by decide) (by omega))⟩,
        fun _ => .inr (by decide)⟩
    · obtain ⟨nx, hmem, hnext, hlt, hratio⟩ := min_rungs unit h
      refine ⟨nx, ⟨hnext, hlt, .inl hratio⟩, fun hticks => .inr ?_⟩
      rcases List.mem_append.mp hmem with hmem | hmem
      · exact hmem
      · rw [List.mem_singleton.mp hmem] at hticks
        omega
  · simp only [hax] at h ⊢
    rcases h with rfl | ⟨k, hk, rfl⟩
    · exact ⟨3600, ⟨rfl, by decide, .inr (four_le_div (by decide) (by omega))⟩,
        fun _ => .inr ⟨1, by decide, rfl⟩⟩
    · refine ⟨(k + 1) * 3600, ⟨?_, by omega, .inl (by omega)⟩, fun _ => .inr ⟨k + 1, by omega, rfl⟩⟩
      rw [next_unit, if_neg (by omega), Nat.mul_div_cancel k (by decide)]

/-! ## The loop -/

/-- What every turn of the loop keeps. -/
def Good (max_time : Nat) : Search → Prop
  | .running unit _ => Reached max_time unit ∧ (unit = 1 ∨ 4 ≤ max_time / unit)
  | .finished unit => 0 < unit ∧ max_time / unit ≤ 9 ∧ (4 ≤ max_time → 4 ≤ max_time / unit)
  | .raised _ => False

theorem turn_of_rung (next : Option Nat) (h : Rung max_time unit nx) :
    turn max_time (.running unit next) =
      if max_time / nx ≤ 3 then .finished unit else .running nx (some nx) := by
  have hnx : nx ≠ 0 := by
    have := h.2.1
    omega
  simp only [turn, h.1, Option.some_or, if_neg hnx]

/-- A unit on which the loop stops gives a readable axis. -/
theorem good_finished (h : Rung max_time unit nx) (hu : unit = 1 ∨ 4 ≤ max_time / unit)
    (hstop : max_time / nx ≤ 3) : Good max_time (.finished unit) := by
  obtain ⟨-, hlt, hratio⟩ := h
  have hpos : 0 < unit := by
    rcases hu with rfl | hu
    · decide
    · by_contra h0
      rw [show unit = 0 by omega, Nat.div_zero] at hu
      omega
  have hmax : max_time < 4 * nx := by
    rw [← Nat.div_lt_iff_lt_mul (by omega)]
    omega
  refine ⟨hpos, ?_, ?_⟩
  · have : max_time / unit < 10 := by
      rw [Nat.div_lt_iff_lt_mul hpos]
      omega
    omega
  · intro h4
    rcases hu with rfl | hu
    · rwa [Nat.div_one]
    · exact hu

theorem good_turn (s : Search) (h : Good max_time s) : Good max_time (turn max_time s) := by
  cases s with
  | running unit next =>
    obtain ⟨nx, hrung, hreach⟩ := h.1.rung
    rw [turn_of_rung next hrung]
    split
    · next hstop => exact good_finished hrung h.2 hstop
    · next hstop => exact ⟨hreach (by omega), .inr (by omega)⟩
  | finished unit => exact h
  | raised e => exact h

theorem good_start (max_time : Nat) : Good max_time start := ⟨.start max_time, .inl rfl⟩

/-- How far the unit is from the end of the axis. -/
def Search.left (max_time : Nat) : Search → Nat
  | .running unit _ => max_time - unit
  | _ => 0

def Search.isFinished : Search → Prop
  | .finished _ => True
  | _ => False

theorem turn_goes_up (s : Search) (h : Good max_time s) :
    (turn max_time s).isFinished ∨ (turn max_time s).left max_time < s.left max_time := by
  cases s with
  | running unit next =>
    obtain ⟨nx, hrung, -⟩ := h.1.rung
    rw [turn_of_rung next hrung]
    split
    · exact .inl trivial
    · next hstop =>
      have hlt := hrung.2.1
      have hle : 4 * nx ≤ max_time := (Nat.le_div_iff_mul_le (by omega)).mp (by omega)
      exact .inr (show max_time - nx < max_time - unit by omega)
  | finished unit => exact .inl trivial
  | raised e => exact h.elim

/-! ## The laws -/

/-- The search ends for every `_max_time`, with at most nine ticks, and at least four where
there is time for four. Every turn assigns a larger unit. -/
theorem the_time_axis_is_readable (max_time : Nat) :
    (∃ n unit, (turn max_time)^[n] start = .finished unit ∧ 0 < unit ∧ max_time / unit ≤ 9 ∧
      (4 ≤ max_time → 4 ≤ max_time / unit)) ∧
    ∀ n unit next, (turn max_time)^[n] start = .running unit next →
      ∃ nx, next_unit (axis max_time) unit = .ok (some nx) ∧ unit < nx := by
  have hgood := runs.iterate_inv (P := Good max_time) good_turn (good_start max_time)
  constructor
  · obtain ⟨n, hn⟩ := runs.iterate_ends (Search.left max_time) good_turn turn_goes_up
      (good_start max_time)
    have hg := hgood n
    match hs : (turn max_time)^[n] start with
    | .finished unit =>
      rw [hs] at hg
      exact ⟨n, unit, hs, hg⟩
    | .running unit next =>
      rw [hs] at hn
      exact hn.elim
    | .raised e =>
      rw [hs] at hn
      exact hn.elim
  · intro n unit next hs
    have hg := hgood n
    rw [hs] at hg
    obtain ⟨nx, hrung, -⟩ := hg.1.rung
    exact ⟨nx, hrung.1, hrung.2.1⟩

end lscov.plot
