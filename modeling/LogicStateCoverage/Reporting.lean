-- The reports of the daemon: `tally_init`, the counters and the filter updates of
-- `lscov_loop`, the report threads that it spawns, and the report of `lscov_stop`.
-- Every statement of `lscov_report` that reads or writes what others share is a step
-- of its own, and the steps of all threads may come in any order.
import LogicStateCoverage.Schedule
import LogicStateCoverage.Tallies
import Mathlib.Data.Rat.Floor

namespace lscov.daemon.reporting

open bitmaps runs

/-! ## Rows -/

/-- `(float)a / b * 100` in exact arithmetic. A division by zero gives no number. -/
def percent (a b : UInt32) : Option ℚ :=
  if b = 0 then none else some ((a.toNat : ℚ) / (b.toNat : ℚ) * 100)

/-- What `out_append` is given, with the `float` columns in exact arithmetic. The error
bounds are always 0. -/
structure ExactRow where
  time : UInt32
  cov : UInt32
  density : Option ℚ
  rate_ins : UInt32
  rate_per : Option ℚ
  rate_avg : UInt32
  rate_per_avg : Option ℚ

/-! ## The state -/

/-- The parameters of the daemon. `bfilter_calc_cardinality` is a parameter too, for its
logarithms are not modelled. -/
structure Params where
  tallying_period : Nat
  period_pos : 0 < tallying_period
  size : FilterSize
  bfilter_calc_cardinality : UInt32 → UInt32

/-- A daemon with a filter of one word. While few of its bits are set, the estimate is the
number of 1s by the number of hashes. -/
def small : Params where
  tallying_period := 10
  period_pos := by decide
  size := ⟨8, by decide, by decide, by decide⟩
  bfilter_calc_cardinality := fun num_1s => num_1s / 4

/-- Where a call of `lscov_report` is, with the local variables that it still uses. -/
inductive ReportPc where
  | created
  | updated (prev_next_time : Nat)            -- after `tally_update_next_time`
  | timed (prev_time : UInt32)                -- after the look at `stop_soon`
  | tallied (prev_time num_1s cov : UInt32)
  | computed (row : ExactRow)                 -- after all the rates
  | appended (cov : UInt32)
  | cleared (cov : UInt32)                    -- after `exec_count_in_period = 0`
  | returned
  | trapped                                   -- the division by `prev_time` trapped

/-- How far the main thread is. -/
inductive Phase where
  | boot
  | starting                                  -- between the statements of `tally_init`
  | looping
  deriving DecidableEq

/-- What the main thread and the reports share. -/
structure Shared where
  now : Nat
  phase : Phase
  times : Times
  stop_soon : Bool
  bfilter : Bfilter
  exec_count : UInt32
  exec_count_in_period : UInt32
  prev_cov : UInt32
  rows : List ExactRow

structure State where
  shared : Shared
  reports : List ReportPc

/-- The daemon at its start, with the clock at `now`. -/
def boot (now : Nat) : State where
  shared :=
    { now := now
      phase := .boot
      times := ⟨0, 0, 0⟩
      stop_soon := false
      bfilter := Bfilter.zero
      exec_count := 0
      exec_count_in_period := 0
      prev_cov := 0
      rows := [] }
  reports := []

/-! ## The steps -/

inductive Act where
  /-- Time passes. -/
  | tick (seconds : Nat)
  /-- `start_time = time(NULL)` -/
  | start
  /-- The call of `tally_update_next_time` in `tally_init`. -/
  | schedule
  /-- The loop counts an execution. -/
  | exec
  /-- The loop sets a bit of the filter. -/
  | set (idx : UInt32)
  /-- The loop tests whether a report is due, and spawns it. -/
  | due
  /-- A signal calls `lscov_stop`. Another thread may have taken it, so the loop may go on. A run
  need not end with the `exit` after the report. -/
  | signal
  /-- Report `k` takes its next step. -/
  | run (k : Nat)

section machine

variable (p : Params)

/-- The estimate of the filter as it is. -/
def estimate (b : Bfilter) : UInt32 :=
  p.bfilter_calc_cardinality (bfilter_get_num_1s p.size.bytes b)

/-- The rates of a row, in the order of the source. Both guards of the percentages test for a
count of 0, and divide by it. -/
def rates (s : Shared) (prev_time num_1s cov : UInt32) : ExactRow where
  time := prev_time
  cov := cov
  density := percent num_1s (bfilter_size_bits p.size.bytes)
  rate_ins := UInt32.ofNat ((cov - s.prev_cov).toNat / p.tallying_period)
  rate_per :=
    if s.exec_count_in_period = 0 then percent (cov - s.prev_cov) s.exec_count_in_period
    else some 0
  rate_avg := cov / prev_time
  rate_per_avg := if s.exec_count = 0 then percent cov s.exec_count else some 0

/-- One step of `lscov_report`: the shared state after it, and where the report is then. -/
def lscov_report (s : Shared) : ReportPc → Option (Shared × ReportPc)
  | .created =>
    if s.times.start_time = 0 then some (s, .returned)
    else
      let (prev_next_time, times) := tally_update_next_time p.tallying_period s.times
      some ({ s with times := times }, .updated prev_next_time)
  | .updated prev_next_time =>
    let prev_next_time := if s.stop_soon then s.now else prev_next_time
    some (s, .timed (UInt32.ofInt ((prev_next_time : Int) - s.times.start_time)))
  | .timed prev_time =>
    let num_1s := bfilter_get_num_1s p.size.bytes s.bfilter
    some (s, .tallied prev_time num_1s (p.bfilter_calc_cardinality num_1s))
  | .tallied prev_time num_1s cov =>
    if prev_time = 0 then some (s, .trapped)
    else some (s, .computed (rates p s prev_time num_1s cov))
  | .computed row => some ({ s with rows := s.rows ++ [row] }, .appended row.cov)
  | .appended cov => some ({ s with exec_count_in_period := 0 }, .cleared cov)
  | .cleared cov => some ({ s with prev_cov := cov }, .returned)
  | .returned => none
  | .trapped => none

/-- The clock, and the statements of the main thread that spawn nothing. -/
def main_step (s : Shared) : Act → Option Shared
  | .tick seconds => some { s with now := s.now + seconds }
  | .start =>
    if s.phase = .boot then
      some { s with phase := .starting, times := { s.times with start_time := s.now } }
    else none
  | .schedule =>
    if s.phase = .starting then
      some { s with
        phase := .looping, times := (tally_update_next_time p.tallying_period s.times).2 }
    else none
  | .exec =>
    if s.phase = .looping then
      some { s with
        exec_count := s.exec_count + 1, exec_count_in_period := s.exec_count_in_period + 1 }
    else none
  | .set idx =>
    if s.phase = .looping then
      (bfilter_set_1_by_index p.size.bytes s.bfilter idx).map fun b => { s with bfilter := b }
    else none
  | _ => none

/-- One step of the process while it is alive. -/
def alive_step (s : State) : Act → Option State
  | .due =>
    if s.shared.phase = .looping then
      if tally_is_next_time s.shared.times s.shared.now then
        some { s with reports := s.reports ++ [.created] }
      else some s
    else none
  | .signal =>
    some { shared := { s.shared with stop_soon := true }, reports := s.reports ++ [.created] }
  | .run k =>
    match s.reports[k]? with
    | none => none
    | some pc =>
      (lscov_report p s.shared pc).map fun (t, pc') =>
        { shared := t, reports := s.reports.set k pc' }
  | a => (main_step p s.shared a).map fun t => { s with shared := t }

def ReportPc.isTrapped : ReportPc → Bool
  | .trapped => true
  | _ => false

/-- A division by zero has ended the process. -/
def State.dead (s : State) : Bool := s.reports.any ReportPc.isTrapped

def step (s : State) (a : Act) : Option State := if s.dead then none else alive_step p s a

end machine

/-! ## What a step can do -/

/-- The steps of `lscov_report`, one case for each. -/
inductive Moves (p : Params) (s : Shared) : ReportPc → Shared → ReportPc → Prop
  | leave (h0 : s.times.start_time = 0) : Moves p s .created s .returned
  | update (h0 : s.times.start_time ≠ 0) :
      Moves p s .created
        { s with times := (tally_update_next_time p.tallying_period s.times).2 }
        (.updated s.times.next_tallying_time)
  | time (prev_next_time : Nat) :
      Moves p s (.updated prev_next_time) s
        (.timed (UInt32.ofInt
          (((if s.stop_soon then s.now else prev_next_time : Nat) : Int) - s.times.start_time)))
  | tally (prev_time : UInt32) :
      Moves p s (.timed prev_time) s
        (.tallied prev_time (bfilter_get_num_1s p.size.bytes s.bfilter) (estimate p s.bfilter))
  | trap (num_1s cov : UInt32) : Moves p s (.tallied 0 num_1s cov) s .trapped
  | compute {prev_time : UInt32} (num_1s cov : UInt32) (h0 : prev_time ≠ 0) :
      Moves p s (.tallied prev_time num_1s cov) s
        (.computed (rates p s prev_time num_1s cov))
  | append (row : ExactRow) :
      Moves p s (.computed row) { s with rows := s.rows ++ [row] } (.appended row.cov)
  | clear (cov : UInt32) :
      Moves p s (.appended cov) { s with exec_count_in_period := 0 } (.cleared cov)
  | write (cov : UInt32) : Moves p s (.cleared cov) { s with prev_cov := cov } .returned

/-- The steps that spawn nothing and move no report. -/
inductive MainMoves (p : Params) (s : Shared) : Act → Shared → Prop
  | tick (seconds : Nat) : MainMoves p s (.tick seconds) { s with now := s.now + seconds }
  | start (hp : s.phase = .boot) :
      MainMoves p s .start
        { s with phase := .starting, times := { s.times with start_time := s.now } }
  | schedule (hp : s.phase = .starting) :
      MainMoves p s .schedule { s with
        phase := .looping, times := (tally_update_next_time p.tallying_period s.times).2 }
  | exec (hp : s.phase = .looping) :
      MainMoves p s .exec { s with
        exec_count := s.exec_count + 1, exec_count_in_period := s.exec_count_in_period + 1 }
  | set {idx : UInt32} {b : Bfilter} (hp : s.phase = .looping)
      (hb : bfilter_set_1_by_index p.size.bytes s.bfilter idx = some b) :
      MainMoves p s (.set idx) { s with bfilter := b }
  | wait (hp : s.phase = .looping) (hd : tally_is_next_time s.times s.now = false) :
      MainMoves p s .due s

/-- The steps that spawn a report. -/
inductive Spawns (s : Shared) : Act → Shared → Prop
  | due (hp : s.phase = .looping) (hd : tally_is_next_time s.times s.now = true) : Spawns s .due s
  | signal : Spawns s .signal { s with stop_soon := true }

/-- The steps of the process. -/
inductive Did (p : Params) (s : State) : Act → State → Prop
  | main {a : Act} {t : Shared} (hm : MainMoves p s.shared a t) : Did p s a ⟨t, s.reports⟩
  | spawn {a : Act} {t : Shared} (hs : Spawns s.shared a t) :
      Did p s a ⟨t, s.reports ++ [.created]⟩
  | run {k : Nat} {t : Shared} {pc pc' : ReportPc} (hk : s.reports[k]? = some pc)
      (hm : Moves p s.shared pc t pc') : Did p s (.run k) ⟨t, s.reports.set k pc'⟩

variable {p : Params} {s t : State} {a : Act} {pc pc' : ReportPc}

theorem moves_of_eq {s t : Shared} (h : lscov_report p s pc = some (t, pc')) :
    Moves p s pc t pc' := by
  cases pc with
  | created =>
    simp only [lscov_report] at h
    split at h
    · next h0 =>
      cases h
      exact .leave h0
    · next h0 =>
      cases h
      exact .update h0
  | updated prev_next_time =>
    cases h
    exact .time prev_next_time
  | timed prev_time =>
    cases h
    exact .tally prev_time
  | tallied prev_time num_1s cov =>
    simp only [lscov_report] at h
    split at h
    · next h0 =>
      cases h
      rw [h0]
      exact .trap num_1s cov
    · next h0 =>
      cases h
      exact .compute num_1s cov h0
  | computed row =>
    cases h
    exact .append row
  | appended cov =>
    cases h
    exact .clear cov
  | cleared cov =>
    cases h
    exact .write cov
  | returned => cases h
  | trapped => cases h

theorem mainMoves_of_eq {s t : Shared} (h : main_step p s a = some t) : MainMoves p s a t := by
  cases a with
  | tick seconds =>
    cases h
    exact .tick seconds
  | start =>
    simp only [main_step] at h
    split at h <;> cases h
    exact .start ‹_›
  | schedule =>
    simp only [main_step] at h
    split at h <;> cases h
    exact .schedule ‹_›
  | exec =>
    simp only [main_step] at h
    split at h <;> cases h
    exact .exec ‹_›
  | set idx =>
    simp only [main_step] at h
    split at h
    · obtain ⟨b, hb, rfl⟩ := Option.map_eq_some_iff.mp h
      exact .set ‹_› hb
    · cases h
  | due => cases h
  | signal => cases h
  | run k => cases h

theorem did_of_step (h : step p s a = some t) : Did p s a t := by
  unfold step at h
  split at h
  · cases h
  · unfold alive_step at h
    split at h
    · split at h
      · split at h <;> cases h
        · exact .spawn (.due ‹_› ‹_›)
        · next hd => exact .main (.wait ‹_› (Bool.eq_false_iff.mpr hd))
      · cases h
    · cases h
      exact .spawn .signal
    · split at h
      · cases h
      · next pc hk =>
        obtain ⟨⟨t, pc'⟩, hr, rfl⟩ := Option.map_eq_some_iff.mp h
        exact .run hk (moves_of_eq hr)
    · obtain ⟨t, ht, rfl⟩ := Option.map_eq_some_iff.mp h
      exact .main (mainMoves_of_eq ht)

/-- A difference of times, as a `u32`. -/
theorem toNat_ofInt_sub {a b : Nat} (h : b ≤ a) :
    (UInt32.ofInt ((a : Int) - b)).toNat = (a - b) % 2 ^ 32 := by
  unfold UInt32.ofInt
  rw [UInt32.toNat_ofNat', ← Int.ofNat_sub h]
  omega

/-! ## One report at a time -/

def ReportPc.isReturned : ReportPc → Bool
  | .returned => true
  | _ => false

/-- The reports that have not returned. -/
def State.active (s : State) : List ReportPc := s.reports.filter fun pc => !pc.isReturned

/-- The report that has not returned, where there is one. -/
def State.busy (s : State) : Option ReportPc := s.active.head?

/-- A report is spawned only after the ones before it have returned. -/
def SpawnsAlone (s : State) : Act → Prop
  | .due => tally_is_next_time s.shared.times s.shared.now = true → s.busy = none
  | .signal => s.busy = none
  | _ => True

instance (s : State) : DecidablePred (SpawnsAlone s)
  | .due => inferInstanceAs
      (Decidable (tally_is_next_time s.shared.times s.shared.now = true → s.busy = none))
  | .signal => inferInstanceAs (Decidable (s.busy = none))
  | .tick _ => inferInstanceAs (Decidable True)
  | .start => inferInstanceAs (Decidable True)
  | .schedule => inferInstanceAs (Decidable True)
  | .exec => inferInstanceAs (Decidable True)
  | .set _ => inferInstanceAs (Decidable True)
  | .run _ => inferInstanceAs (Decidable True)

/-- The main thread and the reports take turns: only the clock goes on beside a report. -/
def NoOverlap (s : State) : Act → Prop
  | .run _ => True
  | .tick _ => True
  | _ => s.busy = none

instance (s : State) : DecidablePred (NoOverlap s)
  | .run _ => inferInstanceAs (Decidable True)
  | .tick _ => inferInstanceAs (Decidable True)
  | .start => inferInstanceAs (Decidable (s.busy = none))
  | .schedule => inferInstanceAs (Decidable (s.busy = none))
  | .exec => inferInstanceAs (Decidable (s.busy = none))
  | .set _ => inferInstanceAs (Decidable (s.busy = none))
  | .due => inferInstanceAs (Decidable (s.busy = none))
  | .signal => inferInstanceAs (Decidable (s.busy = none))

theorem NoOverlap.spawnsAlone (h : NoOverlap s a) : SpawnsAlone s a := by
  cases a with
  | due => exact fun _ => h
  | signal => exact h
  | _ => trivial

/-- Where a report is, unless it has returned. -/
def ReportPc.going : ReportPc → Option ReportPc
  | .returned => none
  | pc => some pc

/-- The steps of a daemon with at most one report. -/
inductive SoloDid (p : Params) (s : Shared) :
    Option ReportPc → Act → Shared → Option ReportPc → Prop
  | main {r : Option ReportPc} {a : Act} {t : Shared} (hm : MainMoves p s a t) :
      SoloDid p s r a t r
  | spawn {a : Act} {t : Shared} (hs : Spawns s a t) : SoloDid p s none a t (some .created)
  | run {k : Nat} {t : Shared} {pc pc' : ReportPc} (hm : Moves p s pc t pc') :
      SoloDid p s (some pc) (.run k) t pc'.going

theorem filter_set {α : Type} {f : α → Bool} {l : List α} {k : Nat} {x : α}
    (h1 : (l.filter f).length ≤ 1) (hk : l[k]? = some x) (hx : f x = true) (y : α) :
    l.filter f = [x] ∧ (l.set k y).filter f = [y].filter f := by
  obtain ⟨hlt, hget⟩ := List.getElem?_eq_some_iff.mp hk
  have hsplit : l = l.take k ++ x :: l.drop (k + 1) := by
    rw [← hget, List.cons_getElem_drop_succ, List.take_append_drop]
  have hfilter : l.filter f = (l.take k).filter f ++ x :: (l.drop (k + 1)).filter f := by
    conv_lhs => rw [hsplit, List.filter_append, List.filter_cons_of_pos hx]
  rw [hfilter, List.length_append, List.length_cons] at h1
  have hleft : (l.take k).filter f = [] := List.eq_nil_of_length_eq_zero (by omega)
  have hright : (l.drop (k + 1)).filter f = [] := List.eq_nil_of_length_eq_zero (by omega)
  refine ⟨by rw [hfilter, hleft, hright]; rfl, ?_⟩
  rw [List.set_eq_take_append_cons_drop, if_pos hlt, List.filter_append, hleft, List.nil_append,
    List.filter_cons, List.filter_cons, hright]
  rfl

theorem Moves.notReturned {s t : Shared} (h : Moves p s pc t pc') : pc.isReturned = false := by
  cases h <;> rfl

/-- No report changes how far the main thread is, or when it started. -/
theorem Moves.frame {s t : Shared} (h : Moves p s pc t pc') :
    t.phase = s.phase ∧ t.times.start_time = s.times.start_time := by
  cases h <;> exact ⟨rfl, rfl⟩

theorem head?_going (pc : ReportPc) : ([pc].filter fun pc => !pc.isReturned).head? = pc.going := by
  cases pc <;> rfl

/-- Where each report is spawned alone, at most one of them moves, and the daemon does what a
daemon with at most one report does. -/
theorem solo_did (h1 : s.active.length ≤ 1) (he : SpawnsAlone s a) (hd : Did p s a t) :
    t.active.length ≤ 1 ∧ SoloDid p s.shared s.busy a t.shared t.busy ∧
      ∀ k, a = .run k → s.reports[k]? = s.busy := by
  cases hd with
  | main hm =>
    refine ⟨h1, .main hm, ?_⟩
    rintro k rfl
    cases hm
  | @spawn a t hs =>
    have hidle : s.busy = none := by
      cases hs with
      | due hp hd => exact he hd
      | signal => exact he
    have hnil : s.active = [] := List.head?_eq_none_iff.mp hidle
    have hone : State.active ⟨t, s.reports ++ [.created]⟩ = [.created] := by
      unfold State.active at hnil ⊢
      rw [List.filter_append, hnil]
      rfl
    refine ⟨by rw [hone]; exact le_refl 1, ?_, ?_⟩
    · rw [hidle, State.busy, hone]
      exact .spawn hs
    · rintro k rfl
      cases hs
  | @run k t pc pc' hk hm =>
    have hx : (!pc.isReturned) = true := by rw [hm.notReturned]; rfl
    obtain ⟨hs, ht⟩ := filter_set h1 hk hx pc'
    have hbusy : s.busy = some pc := by rw [State.busy, State.active, hs]; rfl
    refine ⟨?_, ?_, ?_⟩
    · rw [State.active, ht]
      exact List.length_filter_le _ _
    · rw [hbusy, State.busy, State.active, ht, head?_going]
      exact .run hm
    · intro k' hk'
      cases hk'
      rw [hk, hbusy]

/-- The rule of one report, with a record. What holds at the start, and what each step of a
daemon with at most one report keeps, holds in every reached state. -/
theorem solo_reached {H : Type} {note : State → Act → H → H} {env : Observed State H → Act → Prop}
    {Q : H → Shared → Option ReportPc → Prop} {now : Nat} {h0 : H} {o : Observed State H}
    (hr : Reach (observe (step p) note) env ⟨boot now, h0⟩ o)
    (henv : ∀ o a, env o a → SpawnsAlone o.state a) (hboot : Q h0 (boot now).shared none)
    (hstep : ∀ (o : Observed State H) (t : State) (a : Act), o.state.active.length ≤ 1 →
      Q o.hist o.state.shared o.state.busy → env o a →
      SoloDid p o.state.shared o.state.busy a t.shared t.busy →
      (∀ k, a = .run k → o.state.reports[k]? = o.state.busy) →
      Q (note o.state a o.hist) t.shared t.busy) :
    o.state.active.length ≤ 1 ∧ Q o.hist o.state.shared o.state.busy := by
  apply hr.inv (P := fun o => o.state.active.length ≤ 1 ∧ Q o.hist o.state.shared o.state.busy)
  · exact ⟨Nat.zero_le 1, hboot⟩
  · rintro o o' a ⟨h1, hq⟩ he hs
    obtain ⟨hs', hh⟩ := observe_eq_some.mp hs
    obtain ⟨h1', hsolo, hrun⟩ := solo_did h1 (henv o a he) (did_of_step hs')
    rw [hh]
    exact ⟨h1', hstep o o'.state a h1 hq he hsolo hrun⟩

end lscov.daemon.reporting
