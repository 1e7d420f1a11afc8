-- The law of estimates beside the loop. Report threads tally the filter and estimate from
-- it while the main loop sets bits, and all of them share the static divisor of
-- `bfilter_calc_cardinality`. Each of them reports an estimate that lies between those of
-- the filter when its tally began and when it returned.
import LogicStateCoverage.Tallies
import LogicStateCoverage.Cardinality

namespace lscov.daemon

open bitmaps occupancy runs

/-! ## The static divisor -/

/-- The arithmetic of `bfilter_calc_cardinality`, where `V` is the type of the divisor. -/
structure Arith (V : Type) where
  /-- `num_hashes * log(1.0 - 1.0/bfilter_size_bits)` -/
  value : V
  /-- `(u32)(dividend / divisor)`, from `num_1s` and the divisor. -/
  cov : UInt32 → V → Option UInt32

/-- The statics of `bfilter_calc_cardinality`. -/
structure Statics (V : Type) where
  has_divisor : Bool
  divisor : V

/-- The order in which the threads see the accesses of each other to the statics. These are
plain variables, so the order need not be that of the program. -/
structure SeenOrder where
  /-- The store to `divisor` is seen before that to `has_divisor`. -/
  stores : Bool
  /-- The load of `divisor` comes after that of `has_divisor`. -/
  loads : Bool

def SeenOrder.program : SeenOrder := ⟨true, true⟩

/-- The next access of a report thread in `bfilter_calc_cardinality`. -/
inductive Calc (V : Type) where
  /-- A load of `divisor` before the test. -/
  | load
  /-- `if (!has_divisor)`, with what was loaded before. -/
  | test (early : Option V)
  /-- The first of the stores to `divisor` and `has_divisor`. -/
  | store
  /-- The second one. -/
  | mark
  /-- The load of `divisor`, unless it was loaded before, and the return. -/
  | divide (early : Option V)
  | done (cov : Option UInt32)

variable {V : Type}

def Calc.start (o : SeenOrder) : Calc V := if o.loads then .test none else .load

def Calc.step (A : Arith V) (o : SeenOrder) (num_1s : UInt32) (st : Statics V) :
    Calc V → Option (Statics V × Calc V)
  | .load => some (st, .test (some st.divisor))
  | .test early => some (st, if st.has_divisor then .divide early else .store)
  | .store =>
    some (if o.stores then { st with divisor := A.value } else { st with has_divisor := true },
      .mark)
  | .mark =>
    some (if o.stores then { st with has_divisor := true } else { st with divisor := A.value },
      .divide none)
  | .divide early => some (st, .done (A.cov num_1s (early.getD st.divisor)))
  | .done _ => none

/-! ## Reports beside the loop -/

structure Estimating (V : Type) where
  tallying : Tallying
  statics : Statics V
  /-- The calls of `bfilter_calc_cardinality`, by the report thread. -/
  calcs : Nat → Option (Calc V)

inductive EstimateAct where
  /-- The main loop sets a bit, or a report thread goes on with its tally. -/
  | tally (a : TallyAct)
  /-- Report thread `k` calls `bfilter_calc_cardinality` with its tally. -/
  | call (k : Nat)
  /-- Report thread `k` goes on in `bfilter_calc_cardinality`. -/
  | go (k : Nat)

def estimate_step (A : Arith V) (o : SeenOrder) (size : UInt32) (s : Estimating V) :
    EstimateAct → Option (Estimating V)
  | .tally a => (tally_step size s.tallying a).map fun t => { s with tallying := t }
  | .call k =>
    match s.tallying.reports[k]?, s.calcs k with
    | some ⟨_, _, some _⟩, none =>
      some { s with calcs := Function.update s.calcs k (some (.start o)) }
    | _, _ => none
  | .go k =>
    match s.tallying.reports[k]?, s.calcs k with
    | some r, some c =>
      (c.step A o r.tally.num_1s s.statics).map fun (st, c) =>
        { s with statics := st, calcs := Function.update s.calcs k (some c) }
    | _, _ => none

/-- The daemon before its first report. `divisor` is whatever the static holds. -/
def Estimating.init (b : Bfilter) (divisor : V) : Estimating V :=
  ⟨⟨b, []⟩, ⟨false, divisor⟩, fun _ => none⟩

/-! ## The invariant -/

/-- What is known where a call is: past the store, the divisor is there. Nothing is loaded
before the test. -/
def Calc.Right (A : Arith V) (num_1s : UInt32) (st : Statics V) : Calc V → Prop
  | .load => False
  | .test early => early = none
  | .store => True
  | .mark => st.divisor = A.value
  | .divide early => early = none ∧ st.divisor = A.value
  | .done cov => cov = A.cov num_1s A.value

structure Right (A : Arith V) (size : UInt32) (s : Estimating V) : Prop where
  good : AllGood size s.tallying
  cached : s.statics.has_divisor = true → s.statics.divisor = A.value
  calls : ∀ k c, s.calcs k = some c → ∃ r a, s.tallying.reports[k]? = some r ∧
    r.after = some a ∧ c.Right A r.tally.num_1s s.statics

variable {A : Arith V} {size : UInt32} {s t : Estimating V} {st st' : Statics V} {c c' : Calc V}
  {num_1s : UInt32} {k : Nat}

/-- The store of one thread is right for every other one. -/
theorem Calc.Right.mono (h : c.Right A num_1s st)
    (hst : st.divisor = A.value → st'.divisor = A.value) : c.Right A num_1s st' := by
  cases c with
  | load | test | store => exact h
  | mark => exact hst h
  | divide early => exact ⟨h.1, hst h.2⟩
  | done cov => exact h

/-- One access: the divisor stays right, and so does the call. -/
theorem right_calc (hcached : st.has_divisor = true → st.divisor = A.value)
    (h : c.Right A num_1s st) (hs : c.step A .program num_1s st = some (st', c')) :
    (st'.has_divisor = true → st'.divisor = A.value) ∧
      (st.divisor = A.value → st'.divisor = A.value) ∧ c'.Right A num_1s st' := by
  cases c with
  | load => exact absurd h id
  | test early =>
    obtain rfl : early = none := h
    simp only [Calc.step, Option.some.injEq, Prod.mk.injEq] at hs
    obtain ⟨rfl, rfl⟩ := hs
    refine ⟨hcached, id, ?_⟩
    split
    · rename_i hhas
      exact ⟨rfl, hcached hhas⟩
    · trivial
  | store =>
    cases hs
    exact ⟨fun _ => rfl, fun _ => rfl, rfl⟩
  | mark =>
    cases hs
    exact ⟨fun _ => h, id, rfl, h⟩
  | divide early =>
    obtain ⟨rfl, hdivisor⟩ := h
    cases hs
    exact ⟨hcached, id, congrArg (A.cov num_1s) hdivisor⟩
  | done cov => cases hs

/-- A report that has returned stays as it is. -/
theorem returned_stays {u v : Tallying} {a : TallyAct} {r : Report} {b : Bfilter}
    (hgood : AllGood size u) (hr : u.reports[k]? = some r) (hb : r.after = some b)
    (hs : tally_step size u a = some v) : v.reports[k]? = some r := by
  have hrem : r.tally.rem_size = 0 :=
    ((hgood r (List.mem_of_getElem? hr)).returned b hb).1
  have hturn : ∀ j f, u.turn j f = some v → f r = none → v.reports[k]? = some r := by
    intro j f hv hf
    obtain ⟨q, q', hq, hf', rfl⟩ := turn_cases hv
    have hjk : j ≠ k := by
      rintro rfl
      rw [hr, Option.some.injEq] at hq
      rw [← hq, hf] at hf'
      cases hf'
    rw [List.getElem?_set_ne hjk]
    exact hr
  cases a with
  | set idx =>
    obtain ⟨b', -, rfl⟩ := Option.map_eq_some_iff.mp hs
    exact hr
  | begin =>
    cases hs
    rw [List.getElem?_append_left (List.getElem?_eq_some_iff.mp hr).1]
    exact hr
  | read j => exact hturn j _ hs (by simp [Report.read, hrem])
  | ret j => exact hturn j _ hs (by simp [Report.ret, hb])

theorem update_some_cases {calcs : Nat → Option (Calc V)} {j : Nat} {d : Calc V}
    (h : Function.update calcs k (some c) j = some d) : j = k ∧ d = c ∨ calcs j = some d := by
  by_cases hj : j = k
  · rw [hj, Function.update_self, Option.some.injEq] at h
    exact Or.inl ⟨hj, h.symm⟩
  · rw [Function.update_of_ne hj] at h
    exact Or.inr h

theorem right_step {a : EstimateAct} (h : Right A size s)
    (hs : estimate_step A .program size s a = some t) : Right A size t := by
  cases a with
  | tally a =>
    obtain ⟨u, hu, rfl⟩ := Option.map_eq_some_iff.mp hs
    refine ⟨allGood_step a h.good hu, h.cached, fun k c hc => ?_⟩
    obtain ⟨r, b, hr, hb, hright⟩ := h.calls k c hc
    exact ⟨r, b, returned_stays h.good hr hb hu, hb, hright⟩
  | call k =>
    simp only [estimate_step] at hs
    split at hs
    · rename_i tally before after hr hnone
      cases hs
      refine ⟨h.good, h.cached, fun j c hc => ?_⟩
      rcases update_some_cases hc with ⟨rfl, rfl⟩ | hold
      · exact ⟨_, after, hr, rfl, rfl⟩
      · exact h.calls j c hold
    · cases hs
  | go k =>
    simp only [estimate_step] at hs
    split at hs
    · rename_i r c hr hcalc
      obtain ⟨⟨st', c'⟩, hstep, rfl⟩ := Option.map_eq_some_iff.mp hs
      obtain ⟨r', b, hr', hb, hright⟩ := h.calls k c hcalc
      rw [hr, Option.some.injEq] at hr'
      subst hr'
      obtain ⟨hcached, hkeeps, hright'⟩ := right_calc h.cached hright hstep
      refine ⟨h.good, hcached, fun j d hd => ?_⟩
      rcases update_some_cases hd with ⟨rfl, rfl⟩ | hold
      · exact ⟨r, b, hr, hb, hright'⟩
      · obtain ⟨q, b', hq, hb', hd'⟩ := h.calls j d hold
        exact ⟨q, b', hq, hb', hd'.mono hkeeps⟩
    · cases hs

theorem right_reached {b : Bfilter} {divisor : V}
    (h : Reach (estimate_step A .program size) (fun _ _ => True) (Estimating.init b divisor) s) :
    Right A size s := by
  apply h.inv (P := Right A size)
  · refine ⟨fun r hr => absurd hr List.not_mem_nil, fun hhas => ?_, fun k c hc => ?_⟩
    · cases hhas
    · cases hc
  · intro t u a ht _ hu
    exact right_step ht hu

/-! ## The law -/

/-- The daemon's arithmetic, with its `double`s in exact arithmetic. -/
noncomputable def arith : Arith ℝ where
  value :=
    (num_hashes.toNat : ℝ) * Real.log (1 - 1 / ((bfilter_size_bits bfilter_size).toNat : ℝ))
  cov num_1s divisor :=
    let dividend :=
      Real.log (1 - (num_1s.toNat : ℝ) / ((bfilter_size_bits bfilter_size).toNat : ℝ))
    let cov := dividend / divisor
    if num_1s < bfilter_size_bits bfilter_size ∧ cov < (UInt32.size : ℝ) then
      some (UInt32.ofNat ⌊cov⌋₊)
    else none

/-- `bfilter_calc_cardinality` of the set bits of a filter. -/
noncomputable def cardinality (b : Bfilter) : Option UInt32 :=
  bfilter_calc_cardinality num_hashes (bfilter_size_bits bfilter_size)
    (UInt32.ofNat (ones b (8 * bfilter_size.toNat)))

/-- With the right divisor, a call gives what `bfilter_calc_cardinality` gives without the
statics. -/
theorem arith_cov (num_1s : UInt32) :
    arith.cov num_1s arith.value =
      bfilter_calc_cardinality num_hashes (bfilter_size_bits bfilter_size) num_1s := by
  have hsize : (UInt32.size : ℝ) = 2 ^ 32 := by norm_num [UInt32.size]
  unfold bfilter_calc_cardinality
  simp only [arith, estimate, hsize]
  congr

theorem toNat_ones (b : Bfilter) :
    (UInt32.ofNat (ones b (8 * bfilter_size.toNat))).toNat = ones b (8 * bfilter_size.toNat) := by
  rw [UInt32.toNat_ofNat']
  exact Nat.mod_eq_of_lt (lt_of_le_of_lt (ones_le b _) (by decide))

/-- While the filter is not full, the estimate fits. -/
theorem exists_shipped_calc {num_1s : UInt32} (h : num_1s < bfilter_size_bits bfilter_size) :
    ∃ cov, bfilter_calc_cardinality num_hashes (bfilter_size_bits bfilter_size) num_1s =
      some cov := by
  apply exists_calc h
  rw [toNat_shipped_bits, toNat_num_hashes]
  exact shipped_estimate_lt (toNat_shipped_bits ▸ UInt32.lt_iff_toNat_lt.mp h)

/-- Any number of report threads tally and estimate beside the main loop, and see the
accesses to the statics in the order of the program. Whatever the order of their own
accesses, each of them returns the estimate of its own tally. It is at least the estimate of
the filter when the tally began, and at most that of the filter when it returned. -/
theorem the_coverage_is_between_the_true_ones (o : SeenOrder) (ho : o = .program) (b : Bfilter)
    (divisor : ℝ) {s : Estimating ℝ}
    (h : Reach (estimate_step arith o bfilter_size) (fun _ _ => True)
      (Estimating.init b divisor) s)
    {k : Nat} {cov : Option UInt32} (hk : s.calcs k = some (.done cov)) :
    ∃ r a, s.tallying.reports[k]? = some r ∧ r.after = some a ∧
      cov = bfilter_calc_cardinality num_hashes (bfilter_size_bits bfilter_size) r.tally.num_1s ∧
      (∀ lower c, cardinality r.before = some lower → cov = some c → lower ≤ c) ∧
      ∀ upper, cardinality a = some upper → ∃ c, cov = some c ∧ c ≤ upper := by
  subst ho
  have hhashes : 0 < num_hashes.toNat := by decide
  have hbits : 2 ≤ (bfilter_size_bits bfilter_size).toNat := by decide
  have hright := right_reached h
  obtain ⟨r, a, hr, ha, hcov⟩ := hright.calls k _ hk
  have hcov' : cov = bfilter_calc_cardinality num_hashes (bfilter_size_bits bfilter_size)
      r.tally.num_1s := (show cov = _ from hcov).trans (arith_cov _)
  obtain ⟨hlow, hhigh⟩ := bracket_of_good (by decide) (hright.good r (List.mem_of_getElem? hr)) ha
    (lt_of_le_of_lt (ones_le a _) (by decide))
  rw [← toNat_ones, ← UInt32.le_iff_toNat_le] at hlow hhigh
  refine ⟨r, a, hr, ha, hcov', ?_, ?_⟩
  · intro lower c hlower hc
    exact calc_mono hhashes hbits (hcov'.symm.trans hc) hlower hlow
  · intro upper hupper
    obtain ⟨hlt, -, -⟩ := calc_eq_some_iff.mp hupper
    obtain ⟨c, hc⟩ := exists_shipped_calc (UInt32.lt_of_le_of_lt hhigh hlt)
    exact ⟨c, hcov'.trans hc, calc_mono hhashes hbits hupper hc hhigh⟩

/-! ## Two reports -/

/-- A tally is a part of a run. -/
theorem reach_tally {o : SeenOrder} {u v : Tallying} (h : Tallied size u v) (st : Statics V)
    (calcs : Nat → Option (Calc V)) :
    Reach (estimate_step A o size) (fun _ _ => True) ⟨u, st, calcs⟩ ⟨v, st, calcs⟩ := by
  induction h with
  | start => exact .start
  | @step v w a _ _ hs ih =>
    refine ih.step (a := .tally a) trivial ?_
    simp only [estimate_step, hs, Option.map_some]

/-- Two threads that have their tallies take turns in `bfilter_calc_cardinality`. Both find
no divisor, and both store it. -/
def turns : List EstimateAct :=
  [.call 0, .call 1, .go 0, .go 1, .go 1, .go 0, .go 1, .go 1, .go 0, .go 0]

theorem turns_run (size : UInt32) (u : Tallying) (d : V) {r r' : Report} {b b' : Bfilter}
    (hr : u.reports[0]? = some r) (hb : r.after = some b) (hr' : u.reports[1]? = some r')
    (hb' : r'.after = some b') :
    ∃ calcs, Reach (estimate_step A .program size) (fun _ _ => True)
        ⟨u, ⟨false, d⟩, fun _ => none⟩ ⟨u, ⟨true, A.value⟩, calcs⟩ ∧
      (∃ cov, calcs 0 = some (.done cov)) ∧ ∃ cov, calcs 1 = some (.done cov) := by
  obtain ⟨tally, before, after⟩ := r
  obtain ⟨tally', before', after'⟩ := r'
  subst hb hb'
  obtain ⟨calcs, hrun, hdone⟩ : ∃ calcs,
      run (estimate_step A .program size) ⟨u, ⟨false, d⟩, fun _ => none⟩ turns =
        some ⟨u, ⟨true, A.value⟩, calcs⟩ ∧
      (∃ cov, calcs 0 = some (.done cov)) ∧ ∃ cov, calcs 1 = some (.done cov) := by
    simp [turns, run, estimate_step, hr, hr', Calc.step, Calc.start, SeenOrder.program]
  exact ⟨calcs, reach_of_run (allowed_all _) hrun, hdone⟩

/-- The filter with one bit set. -/
def oneBit : Bfilter := setBit Bfilter.zero 5

theorem exists_cardinality_oneBit : ∃ upper, cardinality oneBit = some upper := by
  apply exists_shipped_calc
  have hbit : {i | bit oneBit i = true} = {5} := by
    ext i
    simp [oneBit, bit_setBit, bit_zero, eq_comm]
  have hones : ones oneBit (8 * bfilter_size.toNat) = 1 := by
    rw [ones_eq_ncard, hbit, Set.ncard_singleton]
    intro i hi
    have h5 : i ∈ ({5} : Set Nat) := hbit ▸ hi
    rw [Set.mem_singleton_iff.mp h5]
    decide
  rw [hones]
  decide

/-- The bit is set when the first tally has read its word. The second one runs from its
beginning to its end before the first one goes on. -/
theorem tallies_run :
    ∃ r r' : Report, Tallied bfilter_size ⟨Bfilter.zero, []⟩ ⟨oneBit, [r, r']⟩ ∧
      r.after = some oneBit ∧ r'.before = oneBit ∧ r'.after = some oneBit := by
  let first : Tally := (Tally.init bfilter_size).read Bfilter.zero
  have hread : Tallied bfilter_size ⟨Bfilter.zero, []⟩
      ⟨Bfilter.zero, [⟨first, Bfilter.zero, none⟩]⟩ := by
    refine Reach.trans (Reach.one (a := TallyAct.begin) trivial rfl) ?_
    apply Reach.one (a := TallyAct.read 0) trivial
    have hrem : (Tally.init bfilter_size).rem_size ≠ 0 := by decide
    simp [tally_step, Tallying.turn, Report.read, hrem, first]
  have hset : Tallied bfilter_size ⟨Bfilter.zero, [⟨first, Bfilter.zero, none⟩]⟩
      ⟨oneBit, [⟨first, Bfilter.zero, none⟩]⟩ := by
    apply Reach.one (a := TallyAct.set 5) trivial
    have hbit : bfilter_set_1_by_index bfilter_size Bfilter.zero 5 = some oneBit :=
      set_1_of_lt _ (by decide)
    simp only [tally_step, hbit, Option.map_some]
  have hsecond := tally_at_rest bfilter_size oneBit [⟨first, Bfilter.zero, none⟩]
  have hmine : [⟨first, Bfilter.zero, none⟩, restReport bfilter_size oneBit][0]? =
      some ⟨first, Bfilter.zero, none⟩ := rfl
  have hfirst := report_returns bfilter_size oneBit hmine
  exact ⟨_, _, ((hread.trans hset).trans hsecond).trans hfirst, rfl, rfl, rfl⟩

/-- Then both reports estimate, and the first one reports no more than the second one. -/
theorem two_reports_are_between_the_true_ones :
    ∃ (s : Estimating ℝ) (cov cov' : UInt32),
      Reach (estimate_step arith .program bfilter_size) (fun _ _ => True)
        (Estimating.init Bfilter.zero 0) s ∧
      s.calcs 0 = some (.done (some cov)) ∧ s.calcs 1 = some (.done (some cov')) ∧
      cov ≤ cov' ∧ cardinality oneBit = some cov' := by
  obtain ⟨r, r', htally, hafter, hbefore, hafter'⟩ := tallies_run
  obtain ⟨calcs, hturns, ⟨cov, hcov⟩, cov', hcov'⟩ :=
    turns_run (A := arith) bfilter_size ⟨oneBit, [r, r']⟩ 0 rfl hafter rfl hafter'
  have hreach := (reach_tally htally ⟨false, 0⟩ fun _ => none).trans hturns
  obtain ⟨upper, hupper⟩ := exists_cardinality_oneBit
  obtain ⟨q, a, hq, ha, -, -, hhigh⟩ :=
    the_coverage_is_between_the_true_ones .program rfl Bfilter.zero 0 hreach hcov
  obtain ⟨q', a', hq', ha', -, hlow', hhigh'⟩ :=
    the_coverage_is_between_the_true_ones .program rfl Bfilter.zero 0 hreach hcov'
  cases hq
  cases hq'
  rw [hafter, Option.some.injEq] at ha
  rw [hafter', Option.some.injEq] at ha'
  subst ha ha'
  obtain ⟨c, rfl, hle⟩ := hhigh upper hupper
  obtain ⟨c', rfl, hle'⟩ := hhigh' upper hupper
  -- Nothing was set during the second tally.
  obtain rfl : c' = upper :=
    UInt32.le_antisymm hle' (hlow' upper c' (hbefore ▸ hupper) rfl)
  exact ⟨_, c, c', hreach, hcov, hcov', hle, hupper⟩

end lscov.daemon
