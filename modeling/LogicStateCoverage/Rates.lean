-- The law of the rates. Both percentages of a row are guarded the wrong way round, so a row
-- carries the rates that it names only where they are all zero.
import LogicStateCoverage.Reporting

namespace lscov.daemon.reporting

open runs

/-! ## What a row should say -/

/-- What a row is about: the executions so far, those since the row before it, and the
filter. -/
structure Facts where
  total : Nat
  since : Nat
  bfilter : Bfilter

/-- The row carries the rates that its columns name. `prev` is the coverage of the row
before it. -/
structure RowRight (p : Params) (prev : UInt32) (f : Facts) (row : ExactRow) : Prop where
  rate_ins : (row.rate_ins.toNat : ℤ) =
    ⌊((row.cov.toNat : ℚ) - prev.toNat) / p.tallying_period⌋
  rate_per : row.rate_per =
    some (if f.since = 0 then 0 else 100 * ((row.cov.toNat : ℚ) - prev.toNat) / f.since)
  rate_avg : row.time ≠ 0 → (row.rate_avg.toNat : ℤ) = ⌊(row.cov.toNat : ℚ) / row.time.toNat⌋
  rate_per_avg : row.rate_per_avg =
    some (if f.total = 0 then 0 else 100 * (row.cov.toNat : ℚ) / f.total)

/-- Both counters of the row are off zero, and there is no coverage yet. -/
def NothingToRate (p : Params) (prev : UInt32) (f : Facts) : Prop :=
  f.since % 2 ^ 32 ≠ 0 ∧ f.total % 2 ^ 32 ≠ 0 ∧ estimate p f.bfilter = 0 ∧ prev = 0

variable {p : Params} {prev : UInt32} {f : Facts} {row : ExactRow}

theorem ofNat_eq_zero_iff {n : Nat} : UInt32.ofNat n = 0 ↔ n % 2 ^ 32 = 0 := by
  rw [← UInt32.toNat_inj, UInt32.toNat_ofNat']
  rfl

/-- A percentage with the guard the wrong way round is right just where the count is off
zero and the rate is zero. -/
theorem guarded_percent_iff (x : UInt32) (n : Nat) (y : ℚ) :
    (if UInt32.ofNat n = 0 then percent x (UInt32.ofNat n) else some 0) =
        some (if n = 0 then 0 else 100 * y / n) ↔
      n % 2 ^ 32 ≠ 0 ∧ y = 0 := by
  by_cases hz : UInt32.ofNat n = 0
  · rw [if_pos hz, percent, if_pos hz]
    constructor
    · intro h
      cases h
    · intro h
      exact absurd (ofNat_eq_zero_iff.mp hz) h.1
  · have hmod : n % 2 ^ 32 ≠ 0 := fun h => hz (ofNat_eq_zero_iff.mpr h)
    have hn : n ≠ 0 := by
      rintro rfl
      exact hmod rfl
    have hnq : (n : ℚ) ≠ 0 := Nat.cast_ne_zero.mpr hn
    rw [if_neg hz, if_neg hn, Option.some.injEq, eq_comm, div_eq_zero_iff, or_iff_left hnq,
      mul_eq_zero, or_iff_right (by norm_num), and_iff_right hmod]

/-- A row of the rates that `lscov_report` computes. -/
theorem rates_right_iff {s : Shared} {prev_time : UInt32} (num_1s : UInt32)
    (hcount : s.exec_count = UInt32.ofNat f.total)
    (hperiod : s.exec_count_in_period = UInt32.ofNat f.since) (hprev : s.prev_cov = prev) :
    RowRight p prev f (rates p s prev_time num_1s (estimate p f.bfilter)) ↔
      NothingToRate p prev f := by
  have hper := guarded_percent_iff (estimate p f.bfilter - prev) f.since
    ((estimate p f.bfilter).toNat - prev.toNat)
  have havg := guarded_percent_iff (estimate p f.bfilter) f.total (estimate p f.bfilter).toNat
  constructor
  · intro h
    have h1 := h.rate_per
    have h2 := h.rate_per_avg
    simp only [rates, hcount, hperiod, hprev] at h1 h2
    obtain ⟨hsince, heq⟩ := hper.mp h1
    obtain ⟨htotal, hzero⟩ := havg.mp h2
    have hcov : (estimate p f.bfilter).toNat = 0 := Nat.cast_eq_zero.mp hzero
    rw [hzero, zero_sub, neg_eq_zero, Nat.cast_eq_zero] at heq
    exact ⟨hsince, htotal, UInt32.toNat_inj.mp hcov, UInt32.toNat_inj.mp heq⟩
  · rintro ⟨hsince, htotal, hcov, rfl⟩
    have hzero : (estimate p f.bfilter).toNat = 0 := by
      rw [hcov]
      rfl
    refine ⟨?_, ?_, ?_, ?_⟩
    · simp [rates, hprev, hcov]
    · simp only [rates, hperiod, hprev]
      rw [hcov] at hper ⊢
      exact hper.mpr ⟨hsince, by simp⟩
    · intro _
      simp [rates, hcov]
    · simp only [rates, hcount]
      exact havg.mpr ⟨htotal, by rw [hzero]; rfl⟩

/-! ## The facts of a run -/

/-- A record of a run: the executions so far, those since the last row, and what each row
is about. -/
structure Diary where
  total : Nat
  since : Nat
  facts : List Facts

def Diary.empty : Diary := ⟨0, 0, []⟩

/-- A report that appends its row. -/
def Diary.append (d : Diary) (s : Shared) : ReportPc → Diary
  | .computed _ => ⟨d.total, 0, d.facts ++ [⟨d.total, d.since, s.bfilter⟩]⟩
  | _ => d

def write (s : State) (a : Act) (d : Diary) : Diary :=
  match a with
  | .exec => ⟨d.total + 1, d.since + 1, d.facts⟩
  | .run k =>
    match s.reports[k]? with
    | some pc => d.append s.shared pc
    | none => d
  | _ => d

/-- The coverage of the last row, and 0 before the first one. -/
def lastCov (rows : List ExactRow) : UInt32 :=
  match rows.getLast? with
  | some row => row.cov
  | none => 0

/-- Each row has its facts, and it is right just where there is nothing to rate. -/
def RowsRated (p : Params) (rows : List ExactRow) (facts : List Facts) : Prop :=
  facts.length = rows.length ∧ ∀ j row f, rows[j]? = some row → facts[j]? = some f →
    row.cov = estimate p f.bfilter ∧
      (RowRight p (lastCov (rows.take j)) f row ↔ NothingToRate p (lastCov (rows.take j)) f)

theorem RowsRated.append {rows : List ExactRow} {facts : List Facts} (h : RowsRated p rows facts)
    (hcov : row.cov = estimate p f.bfilter)
    (hiff : RowRight p (lastCov rows) f row ↔ NothingToRate p (lastCov rows) f) :
    RowsRated p (rows ++ [row]) (facts ++ [f]) := by
  obtain ⟨hlen, hrows⟩ := h
  refine ⟨by simp [hlen], ?_⟩
  intro j row' f' hj hf
  by_cases hlt : j < rows.length
  · rw [List.getElem?_append_left hlt] at hj
    rw [List.getElem?_append_left (hlen ▸ hlt)] at hf
    rw [List.take_append_of_le_length hlt.le]
    exact hrows j row' f' hj hf
  · obtain rfl : j = rows.length := by
      have := (List.getElem?_eq_some_iff.mp hj).1
      simp at this
      omega
    rw [List.getElem?_append_right (le_refl _), Nat.sub_self] at hj
    rw [List.getElem?_append_right (le_of_eq hlen), hlen, Nat.sub_self] at hf
    cases hj
    cases hf
    rw [List.take_left]
    exact ⟨hcov, hiff⟩

theorem lastCov_append (rows : List ExactRow) (row : ExactRow) :
    lastCov (rows ++ [row]) = row.cov := by
  simp [lastCov]

/-! ## The invariant -/

/-- What holds while a report is at its place. -/
def AtPlace (p : Params) (s : Shared) (d : Diary) : Option ReportPc → Prop
  | some (.tallied _ _ cov) =>
    s.exec_count_in_period = UInt32.ofNat d.since ∧ s.prev_cov = lastCov s.rows ∧
      cov = estimate p s.bfilter
  | some (.computed row) =>
    s.prev_cov = lastCov s.rows ∧ row.cov = estimate p s.bfilter ∧
      (RowRight p (lastCov s.rows) ⟨d.total, d.since, s.bfilter⟩ row ↔
        NothingToRate p (lastCov s.rows) ⟨d.total, d.since, s.bfilter⟩)
  | some (.appended cov) => d.since = 0 ∧ cov = lastCov s.rows
  | some (.cleared cov) =>
    s.exec_count_in_period = UInt32.ofNat d.since ∧ cov = lastCov s.rows
  | _ => s.exec_count_in_period = UInt32.ofNat d.since ∧ s.prev_cov = lastCov s.rows

structure Rated (p : Params) (d : Diary) (s : Shared) (r : Option ReportPc) : Prop where
  count : s.exec_count = UInt32.ofNat d.total
  rows : RowsRated p s.rows d.facts
  place : AtPlace p s d r

variable {s t : Shared} {d : Diary} {r r' : Option ReportPc} {a : Act} {pc pc' : ReportPc}

theorem rated_exec (h : Rated p d s none) :
    Rated p ⟨d.total + 1, d.since + 1, d.facts⟩
      { s with
        exec_count := s.exec_count + 1
        exec_count_in_period := s.exec_count_in_period + 1 } none := by
  refine ⟨?_, h.rows, ?_, h.place.2⟩
  · show s.exec_count + 1 = _
    rw [h.count, UInt32.ofNat_add]
    rfl
  · show s.exec_count_in_period + 1 = _
    rw [h.place.1, UInt32.ofNat_add]
    rfl

theorem rated_move (h : Rated p d s (some pc)) (hm : Moves p s pc t pc') :
    Rated p (d.append s pc) t pc'.going := by
  cases hm with
  | tally prev_time => exact ⟨h.count, h.rows, h.place.1, h.place.2, rfl⟩
  | trap num_1s cov => exact ⟨h.count, h.rows, h.place.1, h.place.2.1⟩
  | compute num_1s cov h0 =>
    obtain ⟨hperiod, hprev, rfl⟩ := h.place
    exact ⟨h.count, h.rows, hprev, rfl, rates_right_iff num_1s h.count hperiod hprev⟩
  | append row =>
    obtain ⟨hprev, hcov, hiff⟩ := h.place
    exact ⟨h.count, h.rows.append hcov hiff, rfl, (lastCov_append s.rows row).symm⟩
  | clear cov =>
    obtain ⟨hsince, hcov⟩ := h.place
    refine ⟨h.count, h.rows, ?_, hcov⟩
    show 0 = UInt32.ofNat d.since
    rw [hsince]
    rfl
  | write cov => exact ⟨h.count, h.rows, h.place.1, h.place.2⟩
  | _ => exact ⟨h.count, h.rows, h.place⟩

/-! ## The step and the run -/

/-- What is written into the diary, from the report that is going. -/
def soloWrite (s : Shared) (r : Option ReportPc) (a : Act) (d : Diary) : Diary :=
  match a, r with
  | .exec, _ => ⟨d.total + 1, d.since + 1, d.facts⟩
  | .run _, some pc => d.append s pc
  | _, _ => d

theorem write_eq {s : State} (hrun : ∀ k, a = .run k → s.reports[k]? = s.busy) :
    write s a d = soloWrite s.shared s.busy a d := by
  cases a with
  | run k =>
    unfold write
    simp only [hrun k rfl]
    cases s.busy <;> rfl
  | _ => rfl

theorem rated_solo (h : Rated p d s r)
    (hidle : (∀ k, a ≠ .run k) → (∀ seconds, a ≠ .tick seconds) → r = none)
    (hd : SoloDid p s r a t r') : Rated p (soloWrite s r a d) t r' := by
  cases hd with
  | main hm =>
    cases hm with
    | tick seconds => exact ⟨h.count, h.rows, h.place⟩
    | start hp =>
      obtain rfl := hidle (by simp) (by simp)
      exact ⟨h.count, h.rows, h.place⟩
    | schedule hp =>
      obtain rfl := hidle (by simp) (by simp)
      exact ⟨h.count, h.rows, h.place⟩
    | exec hp =>
      obtain rfl := hidle (by simp) (by simp)
      exact rated_exec h
    | set hp hb =>
      obtain rfl := hidle (by simp) (by simp)
      exact ⟨h.count, h.rows, h.place⟩
    | wait hp hd => exact h
  | spawn hs =>
    cases hs with
    | due hp hd => exact ⟨h.count, h.rows, h.place⟩
    | signal => exact ⟨h.count, h.rows, h.place⟩
  | run hm => exact rated_move h hm

/-- The states that the daemon reaches when its main thread and its reports take turns. -/
def InDiary (p : Params) (now : Nat) (o : Observed State Diary) : Prop :=
  Reach (observe (step p) write) (fun o a => NoOverlap o.state a) ⟨boot now, .empty⟩ o

theorem rated_reached {now : Nat} {o : Observed State Diary} (h : InDiary p now o) :
    Rated p o.hist o.state.shared o.state.busy := by
  refine (solo_reached (Q := Rated p) h ?_ ?_ ?_).2
  · exact fun _ _ he => he.spawnsAlone
  · exact ⟨rfl, ⟨rfl, by simp [boot]⟩, rfl, rfl⟩
  · intro o t a _ hrated he hsolo hrun
    rw [write_eq hrun]
    refine rated_solo hrated ?_ hsolo
    intro hnotRun hnotTick
    cases a with
    | run k => exact absurd rfl (hnotRun k)
    | tick seconds => exact absurd rfl (hnotTick seconds)
    | _ => exact he

/-! ## The law -/

/-- Row `j` of every run has its facts. It carries the rates that it names just when both
counts of it are off zero, and the coverage is 0 in it and in the row before. -/
theorem a_row_carries_its_rates_iff (p : Params) (now : Nat) (o : Observed State Diary)
    (h : InDiary p now o) (j : Nat) (row : ExactRow) (hj : o.state.shared.rows[j]? = some row) :
    ∃ f, o.hist.facts[j]? = some f ∧ row.cov = estimate p f.bfilter ∧
      (RowRight p (lastCov (o.state.shared.rows.take j)) f row ↔
        NothingToRate p (lastCov (o.state.shared.rows.take j)) f) := by
  obtain ⟨hlen, hrows⟩ := (rated_reached h).rows
  have hlt : j < o.hist.facts.length := hlen ▸ (List.getElem?_eq_some_iff.mp hj).1
  have hf := List.getElem?_eq_getElem hlt
  exact ⟨_, hf, hrows j row _ hj hf⟩

/-- One execution, which sets the bits, and the report that is due after it. -/
def firstPeriod (bits : List UInt32) : List Act :=
  [Act.start, .schedule, .exec] ++ bits.map Act.set ++ [Act.tick 11, .due] ++
    List.replicate 7 (Act.run 0)

/-- What the run leaves: coverage and percentage of each row, and the counts it is about. -/
def rowsAfter (acts : List Act) : Option (List (UInt32 × Option ℚ) × List (Nat × Nat)) :=
  (checkedRun (observe (step small) write) (fun o a => NoOverlap o.state a)
    ⟨boot 100, .empty⟩ acts).map fun o =>
      (o.state.shared.rows.map fun row => (row.cov, row.rate_per),
        o.hist.facts.map fun f => (f.total, f.since))

/-- A run with one row, and the facts of the row. -/
theorem exists_firstRow {acts : List Act} {cov : UInt32} {rate_per : Option ℚ} {total since : Nat}
    (h : rowsAfter acts = some ([(cov, rate_per)], [(total, since)])) :
    ∃ o row f, InDiary small 100 o ∧ o.state.shared.rows = [row] ∧ o.hist.facts = [f] ∧
      row.cov = cov ∧ row.rate_per = rate_per ∧ f.total = total ∧ f.since = since := by
  obtain ⟨o, ho, heq⟩ := Option.map_eq_some_iff.mp h
  simp only [Prod.mk.injEq, List.map_eq_singleton_iff] at heq
  obtain ⟨⟨row, hrow, hcov, hper⟩, f, hf, htotal, hsince⟩ := heq
  exact ⟨o, row, f, reach_of_checkedRun ho, hrow, hf, hcov, hper, htotal, hsince⟩

/-- An execution that sets three bits, one of them twice. There is no coverage yet: every rate
is 0, and the row is right. -/
theorem a_row_without_coverage_is_right :
    ∃ o row f, InDiary small 100 o ∧ o.state.shared.rows[0]? = some row ∧
      o.hist.facts[0]? = some f ∧ f.total = 1 ∧ RowRight small 0 f row := by
  have hrun : rowsAfter (firstPeriod [5, 6, 7, 5]) = some ([(0, some 0)], [(1, 1)]) := by
    decide +kernel
  obtain ⟨o, row, f, hreach, hrows, hfacts, hcov, -, htotal, hsince⟩ := exists_firstRow hrun
  have hrow : o.state.shared.rows[0]? = some row := by rw [hrows]; rfl
  have hfact : o.hist.facts[0]? = some f := by rw [hfacts]; rfl
  obtain ⟨f', hf', hest, hiff⟩ := a_row_carries_its_rates_iff small 100 o hreach 0 row hrow
  obtain rfl : f = f' := Option.some.inj (hfact.symm.trans hf')
  refine ⟨o, row, f, hreach, hrow, hfact, htotal, hiff.mpr ⟨?_, ?_, ?_, rfl⟩⟩
  · rw [hsince]
    decide
  · rw [htotal]
    decide
  · rw [← hest, hcov]

/-- An execution that covers one logic state: 100 percent, and the row says 0. -/
theorem a_row_with_coverage_is_wrong :
    ∃ o row f, InDiary small 100 o ∧ o.state.shared.rows[0]? = some row ∧
      o.hist.facts[0]? = some f ∧ row.cov = 1 ∧ f.since = 1 ∧
      ¬ RowRight small (lastCov (o.state.shared.rows.take 0)) f row := by
  have hrun : rowsAfter (firstPeriod [5, 6, 7, 8]) = some ([(1, some 0)], [(1, 1)]) := by
    decide +kernel
  obtain ⟨o, row, f, hreach, hrows, hfacts, hcov, hper, htotal, hsince⟩ := exists_firstRow hrun
  refine ⟨o, row, f, hreach, by rw [hrows]; rfl, by rw [hfacts]; rfl, hcov, hsince, ?_⟩
  intro hright
  have h := hright.rate_per
  rw [hper, hsince, hcov] at h
  simp [lastCov] at h

end lscov.daemon.reporting
