-- The law of the increments. The estimate of the filter never goes down, but `prev_cov` is
-- written long after the tally: a report that tallied earlier subtracts a later estimate.
import LogicStateCoverage.Reporting

namespace lscov.daemon.reporting

open bitmaps runs

/-! ## The subtraction -/

/-- A report that is about to subtract `prev_cov` from less. -/
def Underflows (s : State) : Prop :=
  ∃ prev_time num_1s cov, .tallied prev_time num_1s cov ∈ s.reports ∧ cov < s.shared.prev_cov

/-- Each report that is about to subtract `prev_cov` gets the true increment. -/
def NoUnderflow (s : State) : Prop :=
  ∀ prev_time num_1s cov, .tallied prev_time num_1s cov ∈ s.reports →
    s.shared.prev_cov ≤ cov ∧
      (cov - s.shared.prev_cov).toNat = cov.toNat - s.shared.prev_cov.toNat

/-- A report writes `prev_cov` only when no report is about to subtract from less than it
writes. -/
def WritesInOrder (s : State) : Act → Prop
  | .run k => ∀ c, s.reports[k]? = some (.cleared c) →
      ∀ prev_time num_1s cov, .tallied prev_time num_1s cov ∈ s.reports → c ≤ cov
  | _ => True

variable {p : Params} {s t : State} {a : Act}

theorem noUnderflow_iff : NoUnderflow s ↔ ¬ Underflows s := by
  constructor
  · rintro h ⟨prev_time, num_1s, cov, hmem, hlt⟩
    exact UInt32.not_lt.mpr (h prev_time num_1s cov hmem).1 hlt
  · intro h prev_time num_1s cov hmem
    have hle : s.shared.prev_cov ≤ cov :=
      UInt32.not_lt.mp fun hlt => h ⟨prev_time, num_1s, cov, hmem, hlt⟩
    exact ⟨hle, UInt32.toNat_sub_of_le _ _ hle⟩

/-! ## The estimate -/

/-- The coverage that a report carries. -/
def ReportPc.carried : ReportPc → Option UInt32
  | .tallied _ _ cov => some cov
  | .computed row => some row.cov
  | .appended cov => some cov
  | .cleared cov => some cov
  | _ => none

/-- The estimate does not go down with more 1s in the filter. -/
def Params.Monotone (p : Params) : Prop :=
  ∀ m n, m ≤ n → p.bfilter_calc_cardinality m ≤ p.bfilter_calc_cardinality n

theorem estimate_mono {b b' : Bfilter} (hp : p.Monotone) (h : Sub b b') :
    estimate p b ≤ estimate p b' := by
  have hfits := p.size.fits
  have hle := ones_le b (8 * p.size.bytes.toNat)
  have hle' := ones_le b' (8 * p.size.bytes.toNat)
  apply hp
  rw [UInt32.le_iff_toNat_le, num_1s_toNat p.size.words (by omega),
    num_1s_toNat p.size.words (by omega)]
  exact ones_mono h _

/-- Nothing that was tallied is above the estimate as it is now. -/
structure Below (p : Params) (s : State) : Prop where
  prev : s.shared.prev_cov ≤ estimate p s.shared.bfilter
  carried : ∀ pc ∈ s.reports, ∀ c, pc.carried = some c → c ≤ estimate p s.shared.bfilter

/-! ## The steps -/

theorem below_main {t : Shared} (hp : p.Monotone) (h : Below p s)
    (hm : MainMoves p s.shared a t) : Below p ⟨t, s.reports⟩ := by
  cases hm with
  | set _ hb =>
    have hle := estimate_mono hp (sub_of_set_1 hb)
    refine ⟨UInt32.le_trans h.prev hle, ?_⟩
    intro pc hpc c hc
    exact UInt32.le_trans (h.carried pc hpc c hc) hle
  | wait _ _ => exact h
  | _ => exact ⟨h.prev, h.carried⟩

theorem below_spawn {t : Shared} (h : Below p s) (hs : Spawns s.shared a t) :
    Below p ⟨t, s.reports ++ [.created]⟩ := by
  have hcarried : ∀ pc ∈ s.reports ++ [ReportPc.created], ∀ c, pc.carried = some c →
      c ≤ estimate p s.shared.bfilter := by
    intro pc hpc c hc
    rcases List.mem_append.mp hpc with hpc | hpc
    · exact h.carried pc hpc c hc
    · rw [List.mem_singleton.mp hpc] at hc
      cases hc
  cases hs with
  | due _ _ => exact ⟨h.prev, hcarried⟩
  | signal => exact ⟨h.prev, hcarried⟩

/-- A step of a report leaves the filter alone, and what it carries on is the estimate, or
what it carried before. -/
theorem moves_carried {s t : Shared} {pc pc' : ReportPc} {c : UInt32} (hm : Moves p s pc t pc')
    (hc : pc'.carried = some c) : c = estimate p s.bfilter ∨ pc.carried = some c := by
  cases hm with
  | tally prev_time =>
    cases hc
    exact .inl rfl
  | compute num_1s cov _ => exact .inr hc
  | append row => exact .inr hc
  | clear cov => exact .inr hc
  | _ => cases hc

theorem moves_bfilter {s t : Shared} {pc pc' : ReportPc} (hm : Moves p s pc t pc') :
    t.bfilter = s.bfilter := by
  cases hm <;> rfl

/-- `prev_cov` becomes what some report carries. -/
theorem moves_prev_cov {s t : Shared} {pc pc' : ReportPc} (hm : Moves p s pc t pc') :
    t.prev_cov = s.prev_cov ∨ pc = .cleared t.prev_cov := by
  cases hm with
  | write cov => exact .inr rfl
  | _ => exact .inl rfl

theorem below_move {t : Shared} {k : Nat} {pc pc' : ReportPc} (h : Below p s)
    (hk : s.reports[k]? = some pc) (hm : Moves p s.shared pc t pc') :
    Below p ⟨t, s.reports.set k pc'⟩ := by
  have hmem := List.mem_of_getElem? hk
  have hb := moves_bfilter hm
  refine ⟨?_, ?_⟩
  · show t.prev_cov ≤ estimate p t.bfilter
    rw [hb]
    rcases moves_prev_cov hm with heq | heq
    · rw [heq]
      exact h.prev
    · exact h.carried pc hmem _ (by rw [heq]; rfl)
  · intro q hq c hc
    show c ≤ estimate p t.bfilter
    rw [hb]
    rcases List.mem_or_eq_of_mem_set hq with hq | rfl
    · exact h.carried q hq c hc
    · rcases moves_carried hm hc with rfl | hc
      · exact UInt32.le_refl _
      · exact h.carried pc hmem c hc

theorem below_step (hp : p.Monotone) (h : Below p s) (hs : step p s a = some t) : Below p t := by
  cases did_of_step hs with
  | main hm => exact below_main hp h hm
  | spawn hsp => exact below_spawn h hsp
  | run hk hm => exact below_move h hk hm

theorem below_boot (p : Params) (now : Nat) : Below p (boot now) := by
  refine ⟨UInt32.le_iff_toNat_le.mpr (Nat.zero_le _), ?_⟩
  intro pc hpc
  cases hpc

/-! ## Runs with writes in order -/

theorem mem_set_of_ne {α : Type} {l : List α} {k : Nat} {x y z : α} (hx : x ∈ l)
    (hk : l[k]? = some y) (hne : x ≠ y) : x ∈ l.set k z := by
  obtain ⟨j, hj⟩ := List.mem_iff_getElem?.mp hx
  have hjk : k ≠ j := by
    rintro rfl
    rw [hk, Option.some.injEq] at hj
    exact hne hj.symm
  exact List.mem_of_getElem? (by rw [List.getElem?_set_ne hjk, hj])

/-- A write out of order makes a report underflow. -/
theorem underflows_of_write (hno : ¬ WritesInOrder s a) (hs : step p s a = some t) :
    Underflows t := by
  cases did_of_step hs with
  | main hm => cases hm <;> exact absurd trivial hno
  | spawn hsp => cases hsp <;> exact absurd trivial hno
  | run hk hm =>
    simp only [WritesInOrder] at hno
    push Not at hno
    obtain ⟨c, hc, prev_time, num_1s, cov, hmem, hlt⟩ := hno
    rw [hk, Option.some.injEq] at hc
    subst hc
    cases hm with
    | write _ =>
      have hstill := mem_set_of_ne (z := ReportPc.returned) hmem hk (by simp)
      exact ⟨prev_time, num_1s, cov, hstill, UInt32.not_le.mp hlt⟩

/-- A write in order, and every other step, leaves the reports above `prev_cov`. -/
theorem noUnderflow_step (hb : Below p s) (hno : ¬ Underflows s) (hin : WritesInOrder s a)
    (hs : step p s a = some t) : ¬ Underflows t := by
  rintro ⟨prev_time, num_1s, cov, hmem, hlt⟩
  cases did_of_step hs with
  | main hm =>
    apply hno
    cases hm <;> exact ⟨prev_time, num_1s, cov, hmem, hlt⟩
  | spawn hsp =>
    rcases List.mem_append.mp hmem with hold | hnew
    · apply hno
      cases hsp <;> exact ⟨prev_time, num_1s, cov, hold, hlt⟩
    · simp at hnew
  | @run k t pc pc' hk hm =>
    rcases List.mem_or_eq_of_mem_set hmem with hmem | rfl
    · rcases moves_prev_cov hm with heq | heq
      · exact hno ⟨prev_time, num_1s, cov, hmem, heq ▸ hlt⟩
      · have hle := hin t.prev_cov (heq ▸ hk) prev_time num_1s cov hmem
        exact UInt32.not_lt.mpr hle hlt
    · cases hm with
      | tally _ => exact UInt32.not_lt.mpr hb.prev hlt

theorem noUnderflow_reached {now : Nat} (hp : p.Monotone)
    (h : Reach (step p) (fun s a => True ∧ WritesInOrder s a) (boot now) s) : ¬ Underflows s := by
  have hboth : Below p s ∧ ¬ Underflows s := by
    apply h.inv (P := fun s => Below p s ∧ ¬ Underflows s)
    · refine ⟨below_boot p now, ?_⟩
      rintro ⟨_, _, _, hmem, _⟩
      cases hmem
    · rintro t u a ⟨hb, hno⟩ he hs
      exact ⟨below_step hp hb hs, noUnderflow_step hb hno he.2 hs⟩
  exact hboth.2

/-! ## The law -/

/-- No report of a run is about to underflow just when each report of it writes `prev_cov`
before any report with a smaller coverage is about to subtract. -/
theorem no_increment_underflows_iff (p : Params) (hp : p.Monotone) (now : Nat) (acts : List Act)
    (hr : run (step p) (boot now) acts ≠ none) :
    (∀ pre, pre <+: acts → ∀ s, run (step p) (boot now) pre = some s → NoUnderflow s) ↔
      Allowed (step p) WritesInOrder (boot now) acts := by
  simp only [noUnderflow_iff]
  exact never_bad_iff Underflows (fun t u a _ _ hno hs => underflows_of_write hno hs)
    (fun t ht => noUnderflow_reached hp ht) (allowed_all acts) hr

theorem small_monotone : small.Monotone := by
  intro m n h
  rw [UInt32.le_iff_toNat_le] at h ⊢
  simp only [small, UInt32.toNat_div]
  exact Nat.div_le_div_right h

/-- Whether a report is about to subtract `prev_cov` from less. -/
def underflows (s : State) : Bool :=
  s.reports.any fun
    | .tallied _ _ cov => cov < s.shared.prev_cov
    | _ => false

theorem underflows_of_eq (h : underflows s = true) : Underflows s := by
  obtain ⟨pc, hpc, hlt⟩ := List.any_eq_true.mp h
  cases pc with
  | tallied prev_time num_1s cov => exact ⟨prev_time, num_1s, cov, hpc, of_decide_eq_true hlt⟩
  | _ => cases hlt

/-- A run with two reports, one after the other. -/
theorem reports_in_turn_underflow_iff :
    let acts := [Act.start, .schedule, .tick 11, .due] ++ List.replicate 7 (Act.run 0) ++
      [Act.set 5, .set 6, .set 7, .set 8, .tick 10, .due] ++ List.replicate 7 (Act.run 1)
    small.Monotone ∧ run (step small) (boot 100) acts ≠ none ∧
      ((∀ pre, pre <+: acts → ∀ s, run (step small) (boot 100) pre = some s → NoUnderflow s) ↔
        Allowed (step small) WritesInOrder (boot 100) acts) := by
  intro acts
  have hr : run (step small) (boot 100) acts ≠ none := by decide +kernel
  exact ⟨small_monotone, hr, no_increment_underflows_iff small small_monotone 100 acts hr⟩

/-- The first report tallies, a logic state is recorded, and the second report runs to its
end. -/
def overtaken : List Act :=
  [Act.start, .schedule, .tick 11, .due, .run 0, .run 0, .run 0, .set 5, .set 6, .set 7, .set 8,
    .tick 10, .due] ++ List.replicate 7 (Act.run 1)

/-- Then the first report subtracts 1 from 0. -/
theorem a_report_that_is_overtaken_underflows :
    small.Monotone ∧ ∃ s, run (step small) (boot 100) overtaken = some s ∧ ¬ NoUnderflow s := by
  have hrun : (run (step small) (boot 100) overtaken).map underflows = some true := by
    decide +kernel
  obtain ⟨s, hs, hu⟩ := Option.map_eq_some_iff.mp hrun
  exact ⟨small_monotone, s, hs, fun h => noUnderflow_iff.mp h (underflows_of_eq hu)⟩

end lscov.daemon.reporting
