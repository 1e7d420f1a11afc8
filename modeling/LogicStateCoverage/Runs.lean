-- The laws of runs. A machine is a step function: a state and an act give
-- the next state, or nothing when the act cannot happen there. An
-- environment says which acts may happen in which state. Every law below
-- holds for every machine and every environment.
import Mathlib.Data.List.Basic
import Mathlib.Logic.Function.Iterate
import Mathlib.Logic.Relation

namespace runs

variable {S A H : Type}

/-! ## Runs and reached states -/

/-- The state after a list of acts, each of them in its turn. -/
def run (step : S → A → Option S) (s : S) : List A → Option S
  | [] => some s
  | a :: acts => (step s a).bind fun t => run step t acts

/-- The environment allows each act of the list in its turn. -/
def Allowed (step : S → A → Option S) (env : S → A → Prop) (s : S) : List A → Prop
  | [] => True
  | a :: acts => env s a ∧ ∀ t, step s a = some t → Allowed step env t acts

/-- The states that the machine reaches from `s` by acts that the
environment allows. -/
inductive Reach (step : S → A → Option S) (env : S → A → Prop) (s : S) : S → Prop
  | start : Reach step env s s
  | step {t u : S} {a : A} : Reach step env s t → env t a → step t a = some u →
      Reach step env s u

variable {step : S → A → Option S} {env env' : S → A → Prop} {s t u : S}

theorem Reach.trans (h1 : Reach step env s t) (h2 : Reach step env t u) : Reach step env s u := by
  induction h2 with
  | start => exact h1
  | step _ he hs ih => exact .step ih he hs

theorem Reach.one {a : A} (he : env s a) (hs : step s a = some t) : Reach step env s t :=
  .step .start he hs

/-- The rule of invariants: what holds at the start, and what each allowed
step keeps, holds in every reached state. -/
theorem Reach.inv {P : S → Prop} (h : Reach step env s t) (h0 : P s)
    (hstep : ∀ t u a, P t → env t a → step t a = some u → P u) : P t := by
  induction h with
  | start => exact h0
  | step _ he hs ih => exact hstep _ _ _ ih he hs

/-- The rule of smaller environments, with an invariant `P` that the
smaller one keeps. -/
theorem Reach.weaken {P : S → Prop} (h : Reach step env s t) (h0 : P s)
    (hle : ∀ t u a, P t → env t a → step t a = some u → env' t a)
    (hstep : ∀ t u a, P t → env t a → env' t a → step t a = some u → P u) :
    P t ∧ Reach step env' s t := by
  induction h with
  | start => exact ⟨h0, .start⟩
  | step _ he hs ih =>
    have he' := hle _ _ _ ih.1 he hs
    exact ⟨hstep _ _ _ ih.1 he he' hs, .step ih.2 he' hs⟩

theorem Reach.mono (h : Reach step env s t) (hle : ∀ t a, env t a → env' t a) :
    Reach step env' s t := by
  induction h with
  | start => exact .start
  | step _ he hs ih => exact .step ih (hle _ _ he) hs

/-- A run that the environment allows reaches its last state. -/
theorem reach_of_run {acts : List A} (ha : Allowed step env s acts)
    (h : run step s acts = some t) : Reach step env s t := by
  induction acts generalizing s with
  | nil =>
    simp only [run, Option.some.injEq] at h
    exact h ▸ .start
  | cons a acts ih =>
    obtain ⟨u, hu, ht⟩ := Option.bind_eq_some_iff.mp h
    exact (Reach.one ha.1 hu).trans (ih (ha.2 u hu) ht)

theorem Allowed.cons {a : A} {acts : List A} (he : env s a) (hs : step s a = some t)
    (h : Allowed step env t acts) : Allowed step env s (a :: acts) := by
  refine ⟨he, fun u hu => ?_⟩
  rw [hs, Option.some.injEq] at hu
  exact hu ▸ h

/-- Where every act is allowed, so is every list of acts. -/
theorem allowed_all (acts : List A) : Allowed step (fun _ _ => True) s acts := by
  induction acts generalizing s with
  | nil => trivial
  | cons a acts ih => exact ⟨trivial, fun t _ => ih⟩

theorem Allowed.and {acts : List A} (h : Allowed step env s acts) (h' : Allowed step env' s acts) :
    Allowed step (fun t a => env t a ∧ env' t a) s acts := by
  induction acts generalizing s with
  | nil => trivial
  | cons a acts ih => exact ⟨⟨h.1, h'.1⟩, fun t ht => ih (h.2 t ht) (h'.2 t ht)⟩

theorem Allowed.mono {acts : List A} (h : Allowed step env s acts)
    (hle : ∀ t a, env t a → env' t a) : Allowed step env' s acts := by
  induction acts generalizing s with
  | nil => trivial
  | cons a acts ih => exact ⟨hle s a h.1, fun t ht => ih (h.2 t ht)⟩

theorem Allowed.of_append {acts acts' : List A} (h : Allowed step env s (acts ++ acts')) :
    Allowed step env s acts := by
  induction acts generalizing s with
  | nil => trivial
  | cons a acts ih => exact ⟨h.1, fun t ht => ih (h.2 t ht)⟩

/-- A step that `good` rules out leads to a bad state, and the steps that it admits
lead to none. Then a run stays clear of bad states just when all its steps are good. -/
theorem never_bad_iff (bad : S → Prop) {good : S → A → Prop}
    (hbad : ∀ t u a, Reach step env s t → env t a → ¬ good t a → step t a = some u → bad u)
    (hgood : ∀ t, Reach step (fun t a => env t a ∧ good t a) s t → ¬ bad t)
    {acts : List A} (ha : Allowed step env s acts) (hr : run step s acts ≠ none) :
    (∀ pre, pre <+: acts → ∀ t, run step s pre = some t → ¬ bad t) ↔
      Allowed step good s acts := by
  constructor
  · have key : ∀ (acts : List A) (t : S), Reach step env s t → Allowed step env t acts →
        run step t acts ≠ none →
        (∀ pre, pre <+: acts → ∀ u, run step t pre = some u → ¬ bad u) →
        Allowed step good t acts := by
      intro acts
      induction acts with
      | nil => exact fun _ _ _ _ _ => trivial
      | cons a acts ih =>
        intro t ht ha hr h
        obtain ⟨u, hu⟩ : ∃ u, step t a = some u := by
          rw [← Option.ne_none_iff_exists']
          intro hn
          simp [run, hn] at hr
        refine ⟨?_, ?_⟩
        · by_contra hng
          exact h [a] ⟨acts, rfl⟩ u (by simp [run, hu]) (hbad t u a ht ha.1 hng hu)
        · intro v hv
          apply ih v (ht.step ha.1 hv) (ha.2 v hv)
          · simpa [run, hv] using hr
          · intro pre hpre w hw
            exact h (a :: pre) (List.cons_prefix_cons.mpr ⟨rfl, hpre⟩) w (by simp [run, hv, hw])
    exact key acts s .start ha hr
  · intro h pre ⟨rest, hrest⟩ t ht
    apply hgood t
    have hboth := ha.and h
    rw [← hrest] at hboth
    exact reach_of_run hboth.of_append ht

/-! ## Runs that are evaluated -/

/-- The state after a list of acts, where the environment allows each of them. -/
def checkedRun (step : S → A → Option S) (env : S → A → Prop) [∀ s a, Decidable (env s a)] (s : S) :
    List A → Option S
  | [] => some s
  | a :: acts => if env s a then (step s a).bind fun t => checkedRun step env t acts else none

theorem reach_of_checkedRun [∀ s a, Decidable (env s a)] {acts : List A}
    (h : checkedRun step env s acts = some t) : Reach step env s t := by
  induction acts generalizing s with
  | nil =>
    simp only [checkedRun, Option.some.injEq] at h
    exact h ▸ .start
  | cons a acts ih =>
    rw [checkedRun] at h
    split at h
    · next he =>
      obtain ⟨u, hu, ht⟩ := Option.bind_eq_some_iff.mp h
      exact (Reach.one he hu).trans (ih ht)
    · cases h

/-! ## Runs with some acts left out -/

/-- The rule of erasure. A dropped act leaves the image of the state as it is, and a kept
act is an act of the other machine too. So a run less its dropped acts is a run of the
other machine. `P` is an invariant of the first machine. -/
theorem run_filter {T : Type} {step' : T → A → Option T} {env' : T → A → Prop} {f : S → T}
    {keep : A → Bool} {P : S → Prop}
    (hinv : ∀ s t a, P s → env s a → step s a = some t → P t)
    (hdrop : ∀ s t a, P s → step s a = some t → keep a = false → f t = f s)
    (hkeep : ∀ s t a, P s → env s a → step s a = some t → keep a = true →
      env' (f s) a ∧ step' (f s) a = some (f t))
    {acts : List A} (h0 : P s) (ha : Allowed step env s acts) (hr : run step s acts = some t) :
    Allowed step' env' (f s) (acts.filter keep) ∧
      run step' (f s) (acts.filter keep) = some (f t) := by
  induction acts generalizing s with
  | nil =>
    simp only [run, Option.some.injEq] at hr
    exact ⟨trivial, by rw [hr]; rfl⟩
  | cons a acts ih =>
    obtain ⟨u, hu, ht⟩ := Option.bind_eq_some_iff.mp hr
    have hrest := ih (hinv s u a h0 ha.1 hu) (ha.2 u hu) ht
    cases hk : keep a with
    | false =>
      rw [hdrop s u a h0 hu hk] at hrest
      rw [List.filter_cons_of_neg (by simp [hk])]
      exact hrest
    | true =>
      obtain ⟨he, hs⟩ := hkeep s u a h0 ha.1 hu hk
      rw [List.filter_cons_of_pos hk]
      refine ⟨.cons he hs hrest.1, ?_⟩
      rw [run, hs]
      exact hrest.2

theorem run_append {acts : List A} (acts' : List A) (hr : run step s acts = some t) :
    run step s (acts ++ acts') = run step t acts' := by
  induction acts generalizing s with
  | nil =>
    simp only [run, Option.some.injEq] at hr
    rw [hr, List.nil_append]
  | cons a acts ih =>
    obtain ⟨u, hu, ht⟩ := Option.bind_eq_some_iff.mp hr
    rw [List.cons_append, run, hu]
    exact ih ht

theorem Allowed.append {acts acts' : List A} (h : Allowed step env s acts)
    (hr : run step s acts = some t) (h' : Allowed step env t acts') :
    Allowed step env s (acts ++ acts') := by
  induction acts generalizing s with
  | nil =>
    simp only [run, Option.some.injEq] at hr
    exact hr ▸ h'
  | cons a acts ih =>
    obtain ⟨u, hu, ht⟩ := Option.bind_eq_some_iff.mp hr
    exact .cons h.1 hu (ih (h.2 u hu) ht)

/-- The rule of erasure, the other way. The machine can do each act of the other machine,
with some dropped acts around it. So each run of the other machine is a run of this one,
less its dropped acts. -/
theorem run_lift {T : Type} {step' : T → A → Option T} {env' : T → A → Prop} {f : S → T}
    {keep : A → Bool} {P : S → Prop}
    (hlift : ∀ s a v, P s → env' (f s) a → step' (f s) a = some v →
      ∃ acts t, Allowed step env s acts ∧ run step s acts = some t ∧ acts.filter keep = [a] ∧
        f t = v ∧ P t)
    {acts : List A} {v : T} (h0 : P s) (ha : Allowed step' env' (f s) acts)
    (hr : run step' (f s) acts = some v) :
    ∃ acts' t, Allowed step env s acts' ∧ run step s acts' = some t ∧
      acts'.filter keep = acts ∧ f t = v := by
  induction acts generalizing s with
  | nil =>
    simp only [run, Option.some.injEq] at hr
    exact ⟨[], s, trivial, rfl, rfl, hr⟩
  | cons a acts ih =>
    obtain ⟨w, hw, hrest⟩ := Option.bind_eq_some_iff.mp hr
    obtain ⟨front, t, hfront, hrun, hkeep, rfl, ht⟩ := hlift s a w h0 ha.1 hw
    obtain ⟨back, u, hback, hu, rfl, hv⟩ := ih ht (ha.2 _ hw) hrest
    refine ⟨front ++ back, u, hfront.append hrun hback, ?_, ?_, hv⟩
    · rw [run_append back hrun]
      exact hu
    · rw [List.filter_append, hkeep, List.singleton_append]

/-! ## Runs that end -/

/-- The rule of variants: where each allowed act takes `μ` down, it bounds the length. -/
theorem length_add_le {P : S → Prop} (μ : S → Nat)
    (hinv : ∀ s t a, P s → env s a → step s a = some t → P t)
    (hdown : ∀ s t a, P s → env s a → step s a = some t → μ t < μ s)
    {acts : List A} (h0 : P s) (ha : Allowed step env s acts) (hr : run step s acts = some t) :
    acts.length + μ t ≤ μ s := by
  induction acts generalizing s with
  | nil =>
    simp only [run, Option.some.injEq] at hr
    simp [hr]
  | cons a acts ih =>
    obtain ⟨u, hu, ht⟩ := Option.bind_eq_some_iff.mp hr
    have hrest := ih (hinv s u a h0 ha.1 hu) (ha.2 u hu) ht
    have hlt := hdown s u a h0 ha.1 hu
    rw [List.length_cons]
    omega

/-- Then some run goes on until no allowed act can happen. -/
theorem exists_last {P : S → Prop} (μ : S → Nat)
    (hinv : ∀ s t a, P s → env s a → step s a = some t → P t)
    (hdown : ∀ s t a, P s → env s a → step s a = some t → μ t < μ s) (h0 : P s) :
    ∃ acts t, Allowed step env s acts ∧ run step s acts = some t ∧
      ∀ a, env t a → step t a = none := by
  induction hm : μ s using Nat.strongRecOn generalizing s with
  | _ m ih =>
    by_cases hlast : ∀ a, env s a → step s a = none
    · exact ⟨[], s, trivial, rfl, hlast⟩
    · push Not at hlast
      obtain ⟨a, he, hs⟩ := hlast
      obtain ⟨u, hu⟩ := Option.ne_none_iff_exists'.mp hs
      obtain ⟨acts, t, ha, hr, ht⟩ := ih (μ u) (hm ▸ hdown s u a h0 he hu) (hinv s u a h0 he hu) rfl
      refine ⟨a :: acts, t, .cons he hu ha, ?_, ht⟩
      rw [run, hu]
      exact hr

/-! ## Runs with a record

The record of a run is written beside the machine. No step reads it, so it
changes nothing that the machine does. -/

/-- A state, and what was written down on the way to it. -/
structure Observed (S H : Type) where
  state : S
  hist : H

/-- The machine with a record: `note` writes down the act, from the state
before it. -/
def observe (step : S → A → Option S) (note : S → A → H → H) (o : Observed S H) (a : A) :
    Option (Observed S H) :=
  (step o.state a).map fun t => ⟨t, note o.state a o.hist⟩

theorem observe_eq_some {note : S → A → H → H} {o o' : Observed S H} {a : A} :
    observe step note o a = some o' ↔
      step o.state a = some o'.state ∧ o'.hist = note o.state a o.hist := by
  unfold observe
  rw [Option.map_eq_some_iff]
  constructor
  · rintro ⟨t, ht, rfl⟩
    exact ⟨ht, rfl⟩
  · rintro ⟨ht, hh⟩
    exact ⟨o'.state, ht, by rw [← hh]⟩

/-! ## Refinement -/

theorem Reach.exists_run (h : Reach step env s t) :
    ∃ acts, Allowed step env s acts ∧ run step s acts = some t := by
  induction h with
  | start => exact ⟨[], trivial, rfl⟩
  | @step t u a _ he hs ih =>
    obtain ⟨acts, ha, hr⟩ := ih
    refine ⟨acts ++ [a], ha.append hr (.cons he hs trivial), ?_⟩
    rw [run_append [a] hr, run, hs]
    rfl

/-- What a run does in the terms of another machine, where the act `a` in the state `s` does
the acts `ops s a` of that machine. -/
def trace {B : Type} (step : S → A → Option S) (ops : S → A → List B) (s : S) : List A → List B
  | [] => []
  | a :: acts => ops s a ++ (step s a).elim [] fun t => trace step ops t acts

/-- The rule of refinement. Each act takes the image of the state along the acts that it does
in the other machine. So a run is a run of the other machine. -/
theorem run_refines {T B : Type} {step' : T → B → Option T} {abs : S → T} {ops : S → A → List B}
    {P : S → Prop} (hinv : ∀ s t a, P s → env s a → step s a = some t → P t)
    (hstep : ∀ s t a, P s → env s a → step s a = some t →
      run step' (abs s) (ops s a) = some (abs t))
    {acts : List A} (h0 : P s) (ha : Allowed step env s acts) (hr : run step s acts = some t) :
    run step' (abs s) (trace step ops s acts) = some (abs t) := by
  induction acts generalizing s with
  | nil =>
    simp only [run, Option.some.injEq] at hr
    rw [hr]
    rfl
  | cons a acts ih =>
    obtain ⟨u, hu, ht⟩ := Option.bind_eq_some_iff.mp hr
    rw [trace, hu, run_append _ (hstep s u a h0 ha.1 hu)]
    exact ih (hinv s u a h0 ha.1 hu) (ha.2 u hu) ht

theorem trace_concat {B : Type} {ops : S → A → List B} {acts : List A} (a : A)
    (hr : run step s acts = some t) :
    trace step ops s (acts ++ [a]) = trace step ops s acts ++ ops t a := by
  induction acts generalizing s with
  | nil =>
    simp only [run, Option.some.injEq] at hr
    subst hr
    simp only [List.nil_append, trace]
    cases step s a <;> simp
  | cons b acts ih =>
    obtain ⟨u, hu, ht⟩ := Option.bind_eq_some_iff.mp hr
    rw [List.cons_append, trace, trace, hu, Option.elim_some, Option.elim_some, ih ht,
      List.append_assoc]

/-- The rule of invariants about the acts so far. -/
theorem run_inv {Q : S → List A → Prop} (h0 : Q s [])
    (hstep : ∀ t u a acts, run step s acts = some t → Q t acts → env t a → step t a = some u →
      Q u (acts ++ [a]))
    {acts : List A} (ha : Allowed step env s acts) (hr : run step s acts = some t) : Q t acts := by
  -- The induction is on what is left of the run, after some acts.
  have key : ∀ (rest pre : List A) (u : S), run step s pre = some u → Q u pre →
      Allowed step env u rest → run step u rest = some t → Q t (pre ++ rest) := by
    intro rest
    induction rest with
    | nil =>
      intro pre u _ hQ _ hrest
      simp only [run, Option.some.injEq] at hrest
      rw [List.append_nil]
      exact hrest ▸ hQ
    | cons a rest ih =>
      intro pre u hpre hQ ha hrest
      obtain ⟨v, hv, hrest⟩ := Option.bind_eq_some_iff.mp hrest
      have hpre' : run step s (pre ++ [a]) = some v := by
        rw [run_append [a] hpre, run, hv]
        rfl
      have hfin := ih (pre ++ [a]) v hpre' (hstep u v a pre hpre hQ ha.1 hv) (ha.2 v hv) hrest
      rwa [List.append_assoc, List.singleton_append] at hfin
  exact key acts [] s rfl h0 ha hr

/-- The rule of erasure for what a run does: the dropped acts do nothing. -/
theorem trace_filter {T B : Type} {step' : T → A → Option T} {f : S → T} {keep : A → Bool}
    {ops : S → A → List B} {ops' : T → A → List B} {P : S → Prop}
    (hinv : ∀ s t a, P s → env s a → step s a = some t → P t)
    (hdrop : ∀ s t a, P s → step s a = some t → keep a = false → f t = f s ∧ ops s a = [])
    (hkeep : ∀ s t a, P s → env s a → step s a = some t → keep a = true →
      step' (f s) a = some (f t) ∧ ops s a = ops' (f s) a)
    {acts : List A} (h0 : P s) (ha : Allowed step env s acts) (hr : run step s acts = some t) :
    trace step ops s acts = trace step' ops' (f s) (acts.filter keep) := by
  induction acts generalizing s with
  | nil => rfl
  | cons a acts ih =>
    obtain ⟨u, hu, ht⟩ := Option.bind_eq_some_iff.mp hr
    have hrest := ih (hinv s u a h0 ha.1 hu) (ha.2 u hu) ht
    rw [trace, hu, Option.elim_some, hrest]
    cases hk : keep a with
    | false =>
      obtain ⟨hsame, hnone⟩ := hdrop s u a h0 hu hk
      rw [List.filter_cons_of_neg (by simp [hk]), hsame, hnone, List.nil_append]
    | true =>
      obtain ⟨hs, hops⟩ := hkeep s u a h0 ha.1 hu hk
      rw [List.filter_cons_of_pos hk, trace, hs, Option.elim_some, hops]

/-! ## Loops

A loop turns until it is done. -/

section loops

variable {turn : S → S} {P done : S → Prop}

/-- The rule of loop invariants. -/
theorem iterate_inv (hturn : ∀ s, P s → P (turn s)) (h0 : P s) (n : Nat) : P (turn^[n] s) := by
  induction n with
  | zero => exact h0
  | succ n ih =>
    rw [Function.iterate_succ_apply']
    exact hturn _ ih

/-- The rule of loop variants: each turn is the last one, or `μ` goes down. -/
theorem iterate_ends (μ : S → Nat) (hturn : ∀ s, P s → P (turn s))
    (hdown : ∀ s, P s → done (turn s) ∨ μ (turn s) < μ s) (h0 : P s) :
    ∃ n, done (turn^[n] s) := by
  induction hm : μ s using Nat.strongRecOn generalizing s with
  | _ m ih =>
    rcases hdown s h0 with hd | hlt
    · exact ⟨1, hd⟩
    · obtain ⟨n, hn⟩ := ih _ (hm ▸ hlt) (hturn s h0) rfl
      exact ⟨n + 1, hn⟩

end loops

end runs
