-- The law of the periods. Each execution is counted in the period that its report uses,
-- but one that comes between the use of the counter and its reset is counted in none.
import LogicStateCoverage.Reporting

namespace lscov.daemon.reporting

open runs

/-! ## The ledger -/

/-- The report has used `exec_count_in_period`, and has not reset it yet. -/
def ReportPc.between : ReportPc → Bool
  | .computed _ => true
  | .appended _ => true
  | _ => false

def State.between (s : State) : Bool := s.reports.any ReportPc.between

/-- A record of a run: the values of `exec_count_in_period` that the reports used, the
number of executions, and how many of them came between a use and its reset. -/
structure Ledger where
  used : List UInt32
  total : Nat
  dropped : Nat

def Ledger.empty : Ledger := ⟨[], 0, 0⟩

def Ledger.sum (l : Ledger) : Nat := (l.used.map UInt32.toNat).sum

/-- The use of the counter, in the step that computes the rates. -/
def Ledger.use (l : Ledger) (s : Shared) : ReportPc → Ledger
  | .tallied prev_time _ _ =>
    if prev_time = 0 then l else { l with used := l.used ++ [s.exec_count_in_period] }
  | _ => l

def book (s : State) (a : Act) (l : Ledger) : Ledger :=
  match a with
  | .exec => { l with total := l.total + 1, dropped := l.dropped + if s.between then 1 else 0 }
  | .run k =>
    match s.reports[k]? with
    | some pc => l.use s.shared pc
    | none => l
  | _ => l

/-- Every execution is in the period of one report, or in the current one. -/
def Attributed (o : Observed State Ledger) : Prop :=
  o.hist.sum + o.state.shared.exec_count_in_period.toNat = o.state.shared.exec_count.toNat

/-! ## The invariant -/

variable {p : Params} {s t : Shared} {l : Ledger} {r r' : Option ReportPc} {a : Act}
  {pc pc' : ReportPc}

/-- A report between its use and its reset, where there is a report. -/
def betweenIn : Option ReportPc → Bool
  | some pc => pc.between
  | none => false

/-- While the counters do not wrap around, the books balance. What the counter holds between
a use and its reset is in the books already: as used, or as dropped. -/
structure Balanced (l : Ledger) (s : Shared) (r : Option ReportPc) : Prop where
  count : s.exec_count.toNat = l.total
  period : s.exec_count_in_period.toNat ≤ l.total
  books : l.sum + (if betweenIn r then 0 else s.exec_count_in_period.toNat) + l.dropped = l.total

theorem toNat_add_one {x : UInt32} (h : x.toNat + 1 < 2 ^ 32) : (x + 1).toNat = x.toNat + 1 := by
  rw [UInt32.toNat_add, show UInt32.toNat 1 = 1 by decide]
  exact Nat.mod_eq_of_lt h

theorem balanced_exec (h : Balanced l s r) (hfit : l.total + 1 < 2 ^ 32) :
    Balanced ⟨l.used, l.total + 1, l.dropped + if betweenIn r then 1 else 0⟩
      { s with
        exec_count := s.exec_count + 1
        exec_count_in_period := s.exec_count_in_period + 1 } r := by
  obtain ⟨hcount, hperiod, hbooks⟩ := h
  have hup : (s.exec_count_in_period + 1).toNat = s.exec_count_in_period.toNat + 1 :=
    toNat_add_one (by omega)
  refine ⟨?_, ?_, ?_⟩
  · exact (toNat_add_one (by omega)).trans (congrArg (· + 1) hcount)
  · exact hup ▸ Nat.add_le_add_right hperiod 1
  · show l.sum + (if betweenIn r then 0 else (s.exec_count_in_period + 1).toNat) +
      (l.dropped + if betweenIn r then 1 else 0) = l.total + 1
    rw [hup]
    cases hb : betweenIn r with
    | true =>
      simp only [hb, if_true] at hbooks ⊢
      omega
    | false =>
      simp only [hb, Bool.false_eq_true, if_false] at hbooks ⊢
      omega

theorem sum_use (x : UInt32) :
    Ledger.sum { l with used := l.used ++ [x] } = l.sum + x.toNat := by
  simp [Ledger.sum]

theorem balanced_move (h : Balanced l s (some pc)) (hm : Moves p s pc t pc') :
    Balanced (l.use s pc) t pc'.going := by
  obtain ⟨hcount, hperiod, hbooks⟩ := h
  cases hm with
  | leave _ => exact ⟨hcount, hperiod, hbooks⟩
  | update _ => exact ⟨hcount, hperiod, hbooks⟩
  | time prev_next_time => exact ⟨hcount, hperiod, hbooks⟩
  | tally prev_time => exact ⟨hcount, hperiod, hbooks⟩
  | trap num_1s cov => exact ⟨hcount, hperiod, hbooks⟩
  | compute num_1s cov h0 =>
    simp only [Ledger.use, if_neg h0]
    refine ⟨hcount, hperiod, ?_⟩
    rw [sum_use]
    exact hbooks
  | append row => exact ⟨hcount, hperiod, hbooks⟩
  | clear cov => exact ⟨hcount, Nat.zero_le _, hbooks⟩
  | write cov => exact ⟨hcount, hperiod, hbooks⟩

/-! ## The step and the run -/

/-- With one report at a time, the report that is going tells whether one is between. -/
theorem between_eq {s : State} (h1 : s.active.length ≤ 1) : s.between = betweenIn s.busy := by
  unfold State.between
  cases hb : betweenIn s.busy with
  | true =>
    obtain ⟨pc, hpc⟩ : ∃ pc, s.busy = some pc := by
      cases hr : s.busy with
      | none =>
        rw [hr] at hb
        cases hb
      | some pc => exact ⟨pc, rfl⟩
    rw [hpc] at hb
    have hmem : pc ∈ s.active := List.mem_of_mem_head? hpc
    exact List.any_eq_true.mpr ⟨pc, (List.mem_filter.mp hmem).1, hb⟩
  | false =>
    rw [List.any_eq_false]
    intro pc hpc hbetween
    have hactive : pc ∈ s.active := by
      refine List.mem_filter.mpr ⟨hpc, ?_⟩
      cases pc <;> first | rfl | cases hbetween
    obtain ⟨x, hx⟩ := List.length_eq_one_iff.mp
      (Nat.le_antisymm h1 (List.length_pos_of_mem hactive))
    rw [State.busy, hx] at hb
    rw [hx, List.mem_singleton] at hactive
    subst hactive
    exact absurd hbetween (by simpa [betweenIn] using hb)

/-- What is written into the ledger, from the report that is going. -/
def soloBook (s : Shared) (r : Option ReportPc) (a : Act) (l : Ledger) : Ledger :=
  match a, r with
  | .exec, r => ⟨l.used, l.total + 1, l.dropped + if betweenIn r then 1 else 0⟩
  | .run _, some pc => l.use s pc
  | _, _ => l

theorem book_eq {s : State} (h1 : s.active.length ≤ 1)
    (hrun : ∀ k, a = .run k → s.reports[k]? = s.busy) :
    book s a l = soloBook s.shared s.busy a l := by
  cases a with
  | exec =>
    unfold book soloBook
    rw [between_eq h1]
  | run k =>
    unfold book
    simp only [hrun k rfl]
    cases s.busy <;> rfl
  | _ => rfl

theorem total_use (l : Ledger) (s : Shared) (pc : ReportPc) : (l.use s pc).total = l.total := by
  unfold Ledger.use
  split
  · split <;> rfl
  · rfl

/-- The ledger only grows. -/
theorem total_soloBook (s : Shared) (r : Option ReportPc) (a : Act) (l : Ledger) :
    l.total ≤ (soloBook s r a l).total := by
  unfold soloBook
  split
  · exact Nat.le_succ _
  · exact le_of_eq (total_use l s _).symm
  · exact le_refl _

theorem balanced_solo (h : Balanced l s r) (hfit : (soloBook s r a l).total < 2 ^ 32)
    (hd : SoloDid p s r a t r') : Balanced (soloBook s r a l) t r' := by
  cases hd with
  | main hm =>
    cases hm with
    | exec hp => exact balanced_exec h hfit
    | tick seconds => exact ⟨h.count, h.period, h.books⟩
    | start hp => exact ⟨h.count, h.period, h.books⟩
    | schedule hp => exact ⟨h.count, h.period, h.books⟩
    | set hp hb => exact ⟨h.count, h.period, h.books⟩
    | wait hp hd => exact h
  | spawn hs =>
    cases hs with
    | due hp hd => exact ⟨h.count, h.period, h.books⟩
    | signal => exact ⟨h.count, h.period, h.books⟩
  | run hm => exact balanced_move h hm

/-- The states that a daemon with one report at a time reaches, with its ledger. -/
def Booked (p : Params) (now : Nat) (o : Observed State Ledger) : Prop :=
  Reach (observe (step p) book) (fun o a => SpawnsAlone o.state a) ⟨boot now, .empty⟩ o

theorem balanced_reached {now : Nat} {o : Observed State Ledger} (h : Booked p now o) :
    o.state.active.length ≤ 1 ∧
      (o.hist.total < 2 ^ 32 → Balanced o.hist o.state.shared o.state.busy) := by
  apply solo_reached (Q := fun l s r => l.total < 2 ^ 32 → Balanced l s r) h
  · exact fun _ _ he => he
  · exact fun _ => ⟨rfl, le_refl 0, rfl⟩
  · intro o t a h1 hbal _ hsolo hrun hfit
    rw [book_eq h1 hrun] at hfit ⊢
    have hle := total_soloBook o.state.shared o.state.busy a o.hist
    exact balanced_solo (hbal (by omega)) hfit hsolo

/-! ## The law -/

/-- Until 2^32 executions, the books balance in a state without a report between its use and
its reset just when no execution ever came between the two. -/
theorem every_execution_is_attributed_iff (p : Params) (now : Nat) (o : Observed State Ledger)
    (h : Booked p now o) (hrest : o.state.between = false) (hfit : o.hist.total < 2 ^ 32) :
    Attributed o ↔ o.hist.dropped = 0 := by
  obtain ⟨h1, hbal⟩ := balanced_reached h
  obtain ⟨hcount, -, hbooks⟩ := hbal hfit
  rw [between_eq h1] at hrest
  rw [hrest] at hbooks
  simp only [Bool.false_eq_true, if_false] at hbooks
  unfold Attributed
  omega

/-- The acts of one execution, and of the report that is due after it. The first four steps
of the report end with the use of the counter, and `late` comes right after that. -/
def oneReport (late : List Act) : List Act :=
  [Act.start, .schedule, .exec, .tick 11, .due, .run 0, .run 0, .run 0, .run 0] ++ late ++
    [Act.run 0, .run 0, .run 0]

/-- What the run leaves: the ledger, and both counters. -/
def balanceAfter (acts : List Act) : Option (Bool × Nat × Nat × Nat × Nat × Nat) :=
  (checkedRun (observe (step small) book) (fun o a => SpawnsAlone o.state a)
    ⟨boot 100, .empty⟩ acts).map fun o =>
      (o.state.between, o.hist.sum, o.hist.total, o.hist.dropped,
        o.state.shared.exec_count_in_period.toNat, o.state.shared.exec_count.toNat)

theorem an_execution_before_the_report_is_attributed :
    ∃ o, Booked small 100 o ∧ o.state.between = false ∧ o.hist.total < 2 ^ 32 ∧
      o.hist.total = 1 ∧ Attributed o := by
  have hrun : balanceAfter (oneReport []) = some (false, 1, 1, 0, 0, 1) := rfl
  obtain ⟨o, ho, heq⟩ := Option.map_eq_some_iff.mp hrun
  simp only [Prod.mk.injEq] at heq
  obtain ⟨hrest, -, htotal, hdropped, -⟩ := heq
  have hreach : Booked small 100 o := reach_of_checkedRun ho
  have hlaw := every_execution_is_attributed_iff small 100 o hreach hrest (by omega)
  exact ⟨o, hreach, hrest, by omega, htotal, hlaw.mpr hdropped⟩

/-- The second execution comes while the report writes its row, and is in no period. -/
theorem an_execution_during_the_report_is_dropped :
    ∃ o, Booked small 100 o ∧ o.state.between = false ∧ ¬ Attributed o := by
  have hrun : balanceAfter (oneReport [.exec]) = some (false, 1, 2, 1, 0, 2) := rfl
  obtain ⟨o, ho, heq⟩ := Option.map_eq_some_iff.mp hrun
  simp only [Prod.mk.injEq] at heq
  obtain ⟨hrest, hsum, -, -, hperiod, hcount⟩ := heq
  refine ⟨o, reach_of_checkedRun ho, hrest, ?_⟩
  unfold Attributed
  omega

end lscov.daemon.reporting
