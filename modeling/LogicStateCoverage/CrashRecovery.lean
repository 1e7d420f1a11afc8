-- The laws of crashes. The marker of an unfinished execution stands in byte 0
-- of the map. A visit with `cur_loc` equal to `prev_loc` overwrites it, and then
-- a crash is not recovered: both sides block. Every other crash is recovered.
import LogicStateCoverage.Pass
import LogicStateCoverage.Restarts
import Mathlib.Data.List.Chain

namespace lscov

open runs

/-! ## The visits that keep the marker -/

/-- No visit hits byte 0: the first location is not the starting `prev_loc`, and no
location is the half of the one before it. -/
def NoStatusHit (prev : Idx) (locs : List Idx) : Prop :=
  locs.head? ≠ some prev ∧ locs.IsChain fun c d => d ≠ shiftLoc c

theorem zero_not_mem_visited {prev : Idx} {locs : List Idx} :
    0 ∉ visited prev locs ↔ NoStatusHit prev locs := by
  unfold NoStatusHit
  induction locs generalizing prev with
  | nil => simp [visited]
  | cons c cs ih =>
    have hchain : (∀ d ∈ cs.head?, d ≠ shiftLoc c) ↔ cs.head? ≠ some (shiftLoc c) := by
      cases cs <;> simp
    have hzero : ¬ (0 = mapIndex prev c) ↔ (c :: cs).head? ≠ some prev := by
      rw [eq_comm, mapIndex_eq_zero]
      simp
    rw [visited, List.mem_cons, not_or, ih, List.isChain_cons, hchain, hzero]

/-- An execution that has not stored to byte 0 has its marker there. -/
def MarkedUnlessHit (o : Obs) : Prop :=
  o.state.rt = .target → ∀ e, o.hist.cur = some e → 0 ∉ e → o.state.area 0 = 0x81

theorem markedUnlessHit_step {s s' : Sys} {h : Hist} {a : Act} (hstep : Step s a s') (hs : Sane s)
    (hm : MarkedUnlessHit ⟨s, h⟩) : MarkedUnlessHit ⟨s', note s a h⟩ := by
  intro ht e he h0
  by_cases ha : a = .dm
  · subst ha
    obtain ⟨harea, hrt, -⟩ := hstep.dm_frame
    rw [note_dm_cur] at he
    simp only [harea]
    exact hm (by rw [← hrt]; exact ht) e he h0
  · cases hstep with
    | checked i c hp hi hz => exact (hs.at_check hp).1
    | endMark c hp | endGetvalue c hp | endPost c val hp =>
      cases c <;> simp [Caller.ending, Caller.ended] at ht
    | spawn init hp => cases init <;> simp at ht
    | store i hp =>
      have ht' : s.rt = .target := ht
      simp only [note, ht', if_true] at he
      obtain ⟨e', he', rfl⟩ := Option.map_eq_some_iff.mp he
      simp only [List.mem_append, List.mem_singleton, not_or] at h0
      simp only
      rw [Area.set_ne _ _ h0.2]
      exact hm ht e' he' h0.1
    | _ => first | (simp at ht; done) | exact absurd rfl ha

theorem marked_of_tidy {o : Obs} (h : Reached TidyEnv o) : MarkedUnlessHit o := by
  have key : Sane o.state ∧ MarkedUnlessHit o := by
    apply h.inv (P := fun o => Sane o.state ∧ MarkedUnlessHit o)
    · exact ⟨sane_boot, fun ht => by simp [boot] at ht⟩
    · rintro o o' a ⟨hs, hm⟩ _ hstep
      obtain ⟨s', hst, rfl⟩ := observe_next hstep
      exact ⟨sane_step hst hs, markedUnlessHit_step hst hs hm⟩
  exact key.2

/-! ## One crash, and the next `__lscov_main` -/

/-- The execution numbered `n` crashes, and the next process calls `__lscov_main`. -/
def CrashEnv (n : Nat) : Env := fun o a =>
  match a with
  | .kill => o.state.rt = .target ∧ o.hist.calls = n
  | .spawn init => init = false
  | .call => o.state.rt = .started ∧ o.hist.calls = n
  | .store _ | .exit => False
  | .rt | .dm => True

/-- Whenever an execution crashes that visited these locations, the next `__lscov_main`
finds the marker and posts `rd`, and no state blocks both sides. -/
def Recovered (prev : Idx) (locs : List Idx) : Prop :=
  ∀ o, Reached TidyEnv o → o.state.rt = .target → o.hist.cur = some (visited prev locs) →
    ∀ o', Reach (observe step note) (CrashEnv o.hist.calls) o o' →
      (o'.state.rt = .main .test → o'.state.area 0 > 0x80) ∧
      (o'.hist.calls = o.hist.calls + 1 → pastTest o'.state.rt = true →
        o'.hist.posts = o.hist.posts + 1) ∧
      ¬ Deadlocked o'.state

/-- The marker stands until the next `__lscov_main` has tested it. -/
def MarkerStands (n : Nat) (o : Obs) : Prop :=
  (o.hist.calls = n ∧ (o.state.rt = .target ∨ o.state.rt = .dead ∨ o.state.rt = .started) ∧
    o.state.area 0 = 0x81) ∨
  (n < o.hist.calls ∧ (o.state.rt = .main .test → o.state.area 0 = 0x81))

/-- The runtime code of a process does nothing in the code of the target or between
two processes, and it never comes back to the test of `__lscov_main`. -/
theorem Step.rt_places {s s' : Sys} (h : Step s .rt s') :
    ¬ (s.rt = .target ∨ s.rt = .dead ∨ s.rt = .started) ∧ s'.rt ≠ .main .test := by
  cases h with
  | endMark c hp | endGetvalue c hp | endPost c val hp =>
    cases c <;> simp [hp, Caller.ending, Caller.ended]
  | _ => simp [*]

theorem markerStands_step {n : Nat} {o o' : Obs} {a : Act} (hm : MarkerStands n o)
    (henv : CrashEnv n o a) (hstep : observe step note o a = some o') : MarkerStands n o' := by
  obtain ⟨s', hs, rfl⟩ := observe_next hstep
  unfold MarkerStands at hm ⊢
  cases a with
  | dm =>
    obtain ⟨harea, hrt, -⟩ := hs.dm_frame
    simp only [note_calls (a := .dm) (by simp), harea, hrt]
    exact hm
  | rt =>
    obtain ⟨hno, htest⟩ := hs.rt_places
    simp only [note_calls (a := .rt) (by simp)]
    rcases hm with ⟨-, hp, -⟩ | ⟨hlt, -⟩
    · exact absurd hp hno
    · exact Or.inr ⟨hlt, fun ht => absurd ht htest⟩
  | call =>
    obtain ⟨-, hn⟩ := henv
    rcases hm with ⟨-, -, h81⟩ | ⟨hlt, -⟩
    · cases hs with
      | call hp => exact Or.inr ⟨by simp [note, hn], fun _ => h81⟩
    · omega
  | kill =>
    obtain ⟨-, hn⟩ := henv
    rcases hm with ⟨-, -, h81⟩ | ⟨hlt, -⟩
    · cases hs with
      | kill hp => exact Or.inl ⟨hn, Or.inr (Or.inl rfl), h81⟩
    · omega
  | spawn init =>
    have hf : init = false := henv
    subst hf
    cases hs with
    | spawn _ hp =>
      rcases hm with ⟨hn, -, h81⟩ | ⟨hlt, -⟩
      · exact Or.inl ⟨hn, Or.inr (Or.inr rfl), h81⟩
      · exact Or.inr ⟨hlt, by simp⟩
  | store i => exact absurd henv id
  | exit => exact absurd henv id

theorem CrashEnv.lock {n : Nat} {o : Obs} {a : Act} (h : CrashEnv n o a) (hm : MarkerStands n o) :
    LockEnv o a := by
  cases a with
  | store i => exact absurd h id
  | call => exact LockEnv.of_started h.1
  | kill =>
    obtain ⟨ht, hn⟩ := h
    rcases hm with ⟨-, -, h81⟩ | ⟨hlt, -⟩
    · exact ⟨ht, by rw [h81]; decide⟩
    · omega
  | spawn init => exact LockEnv.of_spawn h
  | _ => trivial

/-- Past the test, a process either waits to be let in, or is let in. -/
theorem entering_or_owns {v : UInt8} {p : rt.Pc} (h : pastTest p = true) :
    (entering p).toNat + (rtOwns v p).toNat = 1 := by
  cases p with
  | main p =>
    cases p with
    | startExec p => cases p <;> rfl
    | test | endExec p => simp [pastTest] at h
    | _ => rfl
  | target | fin p => rfl
  | _ => simp [pastTest] at h

theorem recovered_of_no_hit {prev : Idx} {locs : List Idx} (h0 : 0 ∉ visited prev locs) :
    Recovered prev locs := by
  intro o hr ht hcur o' h'
  have hl := locked_of_tidy hr
  have h81 := marked_of_tidy hr ht _ hcur h0
  have key : Locked o' ∧ MarkerStands o.hist.calls o' := by
    apply h'.inv (P := fun o' => Locked o' ∧ MarkerStands o.hist.calls o')
    · exact ⟨hl, Or.inl ⟨rfl, Or.inl ht, h81⟩⟩
    · rintro t u a ⟨htl, htm⟩ henv hstep
      exact ⟨locked_step hstep htl (henv.lock htm), markerStands_step htm henv hstep⟩
  obtain ⟨hl', hm'⟩ := key
  refine ⟨?_, ?_, no_deadlock hl'⟩
  · intro htest
    rcases hm' with ⟨-, hp, -⟩ | ⟨-, hm⟩
    · simp [htest] at hp
    · rw [hm htest]
      decide
  · intro hn hp
    -- Both records count the executions: by their calls, and by their posts.
    have h1 := hl.posts
    have h2 := hl.calls
    have h3 := hl'.posts
    have h4 := hl'.calls
    have h5 := entering_or_owns (v := o'.state.area 0) hp
    simp only [ht, rtOwns, entering, Bool.toNat_true, Bool.toNat_false] at h1 h2
    omega

/-! ## A visit that hits byte 0 -/

/-- The target stores, one index after the other. -/
theorem store_runs {env : Env} (henv : ∀ (o : Obs) i, o.state.rt = .target → env o (.store i))
    (is : List Idx) (o : Obs) {e : List Idx} (ht : o.state.rt = .target)
    (hcur : o.hist.cur = some e) :
    Reach (observe step note) env o
      ⟨{ o.state with area := o.state.area.storeAll is },
        { o.hist with cur := some (e ++ is), trace := o.hist.trace ++ is.map .store }⟩ := by
  induction is generalizing o e with
  | nil => simpa [Area.storeAll, ← hcur] using Reach.start
  | cons i is ih =>
    have hone : Reach (observe step note) env o _ :=
      solo (h := { o.hist with cur := some (e ++ [i]), trace := o.hist.trace ++ [.store i] })
        (henv o i ht) (.store i (Or.inr ht)) (by simp [note, ht, hcur])
    have hrest := ih
      ⟨{ o.state with area := o.state.area.set i 1 },
        { o.hist with cur := some (e ++ [i]), trace := o.hist.trace ++ [.store i] }⟩ ht rfl
    refine hone.trans ?_
    simpa [Area.storeAll] using hrest

/-- The first execution has stored to these indices, and the daemon waits for it. -/
def hit (is : List Idx) : Obs :=
  ⟨{ (inTarget .semWait).state with area := freshArea.storeAll is },
    { (inTarget .semWait).hist with cur := some is, trace := [.call] ++ is.map .store }⟩

theorem reached_hit (is : List Idx) : Reached TidyEnv (hit is) := by
  have hdm : ∀ o, TidyEnv o .dm := fun _ => trivial
  refine Reach.trans (reached_inTarget hdm (fun _ h => h) (fun _ _ _ => trivial)) ?_
  refine Reach.trans (solo (hdm _) (.getvalueRd rfl (by decide)) rfl) ?_
  exact store_runs (fun _ _ ht => ht) is (inTarget .semWait) rfl rfl

/-- It crashed, and the second process waits to be let in. -/
def lost (is : List Idx) : Obs :=
  ⟨{ (hit is).state with
      area := (hit is).state.area.set 0 0x81
      rt := .main (.startExec .wait) },
    { (hit is).hist with calls := 2, pending := true, trace := [.call] }⟩

theorem lost_of_hit {is : List Idx} (h0 : 0 ∈ is) :
    Reach (observe step note) (CrashEnv 1) (hit is) (lost is) := by
  have hkill : ∀ o : Obs, o.state.rt = .target → o.hist.calls = 1 → CrashEnv 1 o .kill :=
    fun _ h1 h2 => ⟨h1, h2⟩
  have hcall : ∀ o : Obs, o.state.rt = .started → o.hist.calls = 1 → CrashEnv 1 o .call :=
    fun _ h1 h2 => ⟨h1, h2⟩
  have hspawn : ∀ o, CrashEnv 1 o (.spawn false) := fun _ => rfl
  have hquiet : ¬ freshArea.storeAll is 0 > 0x80 := by
    rw [Area.storeAll_of_mem _ h0]
    decide
  refine Reach.trans (solo (hkill _ rfl rfl) (.kill (by simp [hit, inTarget])) rfl) ?_
  refine Reach.trans (solo (hspawn _) (.spawn false rfl) rfl) ?_
  exact enter_runs _ (hcall _ rfl rfl) (fun _ _ _ => trivial) rfl hquiet (Nat.zero_le 1)

theorem not_recovered {prev : Idx} {locs : List Idx} (h0 : 0 ∈ visited prev locs) :
    ¬ Recovered prev locs := by
  intro h
  have hlost := h (hit (visited prev locs)) (reached_hit _) rfl rfl _ (lost_of_hit h0)
  exact hlost.2.2 ⟨rfl, rfl, rfl, rfl⟩

/-- A crash is recovered just when no visit hits the marker. -/
theorem a_crash_is_recovered_iff (prev : Idx) (locs : List Idx) :
    Recovered prev locs ↔ NoStatusHit prev locs := by
  rw [← zero_not_mem_visited]
  constructor
  · intro h h0
    exact not_recovered h0 h
  · exact recovered_of_no_hit

/-- One visit of location 0 from `prev_loc` 0 loses the crash. -/
theorem a_hit_on_the_marker_is_not_recovered : ¬ Recovered 0 [0] :=
  not_recovered (by decide)

end lscov
