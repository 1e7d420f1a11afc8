-- The laws of restarts. `__lscov_init` may run again before an execution. After
-- an execution that ended it changes nothing; after a crash it wipes out the
-- marker, and the crashed execution is never handed over.
import LogicStateCoverage.LockStep

namespace lscov

open runs

/-! ## The marker during an execution -/

/-- Before it stores to index 0, a target has its marker in the status byte. -/
def Marked (s : Sys) : Prop := s.rt = .target → s.area 0 = 0x81

theorem marked_step {s s' : Sys} {a : Act} (h : Step s a s') (hs : Sane s) (hm : Marked s)
    (hstore : ∀ i, a = .store i → i ≠ 0) : Marked s' := by
  intro ht
  cases h with
  | checked i c hp hi h0 => exact (hs.at_check hp).1
  | endMark c hp | endGetvalue c hp | endPost c val hp =>
    cases c <;> simp [Caller.ending, Caller.ended] at ht
  | spawn init hp => cases init <;> simp at ht
  | store i hp =>
    simp only
    rw [Area.set_ne _ _ (hstore i rfl).symm]
    exact hm ht
  | _ => first | exact hm ht | simp at ht

/-! ## `__lscov_init` before an execution -/

/-- `__lscov_init` before any execution or before none, executions that end or crash
in target code, and stores of the target at indices from 1 on. -/
def InitEnv : Env := fun o a =>
  match a with
  | .store i => o.state.rt = .target ∧ i ≠ 0
  | .call => o.state.rt = .started
  | .kill => o.state.rt = .target
  | _ => True

/-- As `InitEnv`, with no `__lscov_init` right after an execution that crashed. -/
def InitAfterEndEnv : Env := fun o a => InitEnv o a ∧ (a = .spawn true → o.hist.pending = false)

/-- A process is in `__lscov_main` past the test of the status byte, or after it. -/
def pastTest : rt.Pc → Bool
  | .main .getvalue | .main (.startExec _) | .main (.check _ _) | .target | .fin _ => true
  | _ => false

/-- Every crashed execution is handed over by the next one, and no state blocks
both sides. -/
def CrashesHandedOn (o : Obs) : Prop :=
  (pastTest o.state.rt = true → o.hist.pending = false) ∧ ¬ Deadlocked o.state

theorem unhanded_pastTest {v : UInt8} {p : rt.Pc} (h : pastTest p = true) :
    unhanded v p = false := by
  cases p with
  | main p => cases p <;> simp_all [pastTest, unhanded]
  | _ => simp_all [pastTest, unhanded]

/-- Where the record has no crash that waits, the next process finds no marker. -/
theorem quiet_of_spawn {o o' : Obs} {init : Bool} (hl : Locked o)
    (hstep : observe step note o (.spawn init) = some o') (h : o.hist.pending = false) :
    ¬ o.state.area 0 > 0x80 := by
  obtain ⟨hs, -⟩ := observe_cases hstep
  generalize o'.state = s' at hs
  cases hs with
  | spawn _ hp =>
    have hpend := hl.pending
    rw [h, hp] at hpend
    simpa [unhanded] using hpend

theorem InitAfterEndEnv.lock {o o' : Obs} {a : Act} (hl : Locked o) (hm : Marked o.state)
    (h : InitAfterEndEnv o a) (hstep : observe step note o a = some o') : LockEnv o a := by
  obtain ⟨henv, hinit⟩ := h
  cases a with
  | store i => exact henv.1
  | call => exact LockEnv.of_started henv
  | kill =>
    have ht : o.state.rt = .target := henv
    exact ⟨ht, by rw [hm ht]; decide⟩
  | spawn init =>
    rintro rfl
    exact quiet_of_spawn hl hstep (hinit rfl)
  | _ => trivial

theorem locked_of_init {o : Obs} (h : Reached InitAfterEndEnv o) : Locked o := by
  have key : (Locked o ∧ Marked o.state) ∧ Reached LockEnv o := by
    apply h.weaken (P := fun o => Locked o ∧ Marked o.state)
    · exact ⟨locked_boot, by simp [Marked, boot]⟩
    · intro o o' a hp he hstep
      exact he.lock hp.1 hp.2 hstep
    · intro o o' a hp he he' hstep
      refine ⟨locked_step hstep hp.1 he', ?_⟩
      apply marked_step (observe_cases hstep).1 hp.1.sane hp.2
      rintro i rfl
      exact he.1.2
  exact key.1.1

/-- In every run in which `__lscov_init` runs again only after executions that ended,
each crashed execution is handed over, and the two sides never block each other. -/
theorem init_after_an_end_loses_no_crash (o : Obs) (h : Reached InitAfterEndEnv o) :
    CrashesHandedOn o := by
  have hl := locked_of_init h
  refine ⟨?_, no_deadlock hl⟩
  intro hp
  rw [hl.pending]
  exact unhanded_pastTest hp

/-- The first execution ended, and the second process is in `__lscov_init`. -/
def restarted : Obs :=
  ⟨{ firstEnded.state with rt := .init }, { firstEnded.hist with trace := [] }⟩

theorem a_restart_after_an_end_is_safe :
    restarted.state.rt = .init ∧ CrashesHandedOn restarted := by
  have hr : Reached InitAfterEndEnv restarted := by
    refine Reach.trans (reached_firstEnded (fun _ => ⟨trivial, by simp⟩) (fun _ h => ⟨h, by simp⟩)
      (fun _ _ _ => ⟨trivial, by simp⟩) (fun _ _ h hi => ⟨⟨h, hi⟩, by simp⟩)
      (fun _ => ⟨trivial, by simp⟩)) ?_
    have hspawn : InitAfterEndEnv firstEnded (.spawn true) := ⟨trivial, fun _ => rfl⟩
    exact solo hspawn (.spawn true rfl) rfl
  exact ⟨rfl, init_after_an_end_loses_no_crash restarted hr⟩

/-- The first execution crashed, and `__lscov_init` ran before the second one. -/
def wiped : Obs :=
  ⟨{ boot with
      dr := 0
      area := (freshArea.set 0 0x80).set 0 0x81
      rt := .main (.startExec .wait)
      dm := .semWait },
    { Hist.empty with calls := 2, cur := some [], pending := true, trace := [.call] }⟩

theorem reached_wiped : Reached InitEnv wiped := by
  have hdm : ∀ o, InitEnv o .dm := fun _ => trivial
  have hrt : ∀ o, InitEnv o .rt := fun _ => trivial
  have hspawn : ∀ o, InitEnv o (.spawn true) := fun _ => trivial
  have hcall : ∀ o : Obs, o.state.rt = .started → InitEnv o .call := fun _ h => h
  have hkill : ∀ o : Obs, o.state.rt = .target → InitEnv o .kill := fun _ h => h
  refine Reach.trans (reached_inTarget hdm hcall (fun o _ _ => hrt o)) ?_
  refine Reach.trans (solo (hkill _ rfl) (.kill (by decide)) rfl) ?_
  refine Reach.trans (solo (hspawn _) (.spawn true rfl) rfl) ?_
  refine Reach.trans (solo (hrt _) (.init rfl) rfl) ?_
  refine Reach.trans (enter_runs _ (hcall _ rfl) (fun o _ _ => hrt o) rfl (by simp)
    (Nat.zero_le 1)) ?_
  exact solo (hdm _) (.getvalueRd rfl (by decide)) rfl

/-- `__lscov_init` after a crash loses the crashed execution, and both sides block. -/
theorem init_after_a_crash_blocks_both_sides : ¬ ∀ o, Reached InitEnv o → CrashesHandedOn o := by
  intro h
  exact (h wiped reached_wiped).2 ⟨rfl, rfl, rfl, rfl⟩

end lscov
