-- The laws of the start-up handshake. `lscov_wait` polls for the one value that
-- each execution takes away again at its start. The daemon that has not seen it
-- before the second execution starts never sees it.
import LogicStateCoverage.LockStep

namespace lscov

open runs

/-- One `__lscov_init`, and then executions that all end through `__lscov_fin`, with
stores of the target at indices from 1 on. -/
def StartEnv : Env := fun o a =>
  match a with
  | .store i => o.state.rt = .target ∧ i ≠ 0
  | .call => o.state.rt = .started
  | .kill => False
  | .spawn init => init = false
  | _ => True

/-- The daemon polls for 0x80, and the target waits for a daemon that has not left
`lscov_wait`: neither side can move. -/
def Hung (s : Sys) : Prop :=
  s.dm = .wait ∧ s.rt = .main (.startExec .wait) ∧ s.dr = 0 ∧ s.area 0 ≠ 0x80

/-- From the second execution on, `__lscov_start_exec` sets its marker only after the
daemon has left `lscov_wait`. -/
def SeenFirst (o : Obs) (a : Act) : Prop :=
  a = .rt → o.state.rt = .main (.startExec .mark) → 2 ≤ o.hist.calls → o.state.dm ≠ .wait

theorem StartEnv.tidy {o : Obs} {a : Act} (h : StartEnv o a) : TidyEnv o a := by
  cases a with
  | store i => exact h.1
  | kill => exact absurd h id
  | _ => exact h

/-- No step brings the daemon back into `lscov_wait`. -/
theorem Step.wait_before {s s' : Sys} {a : Act} (h : Step s a s') (hw : s'.dm = .wait) :
    s.dm = .wait := by
  cases h with
  | update n hp =>
    rcases daemon.update_turn_pc s.toOwn n with hn | hn <;> simp [hn] at hw
  | _ => first | exact hw | simp at hw

/-- A process comes to `sem_wait(dr)` from its marker store, and stays there. -/
theorem Step.blocked_before {s s' : Sys} {a : Act} (h : Step s a s')
    (hr : s'.rt = .main (.startExec .wait)) :
    (a = .rt ∧ s.rt = .main (.startExec .mark)) ∨
      (s.rt = .main (.startExec .wait) ∧ a ≠ .call) := by
  cases h with
  | startMark hp => exact Or.inl ⟨rfl, hp⟩
  | endMark c hp | endGetvalue c hp | endPost c val hp =>
    cases c <;> simp [Caller.ending, Caller.ended] at hr
  | spawn init hp => cases init <;> simp at hr
  | store i hp => rcases hp with hp | hp <;> simp [hp] at hr
  | _ => first | exact Or.inr ⟨hr, by simp⟩ | simp at hr

/-- A daemon in `lscov_wait` has copied nothing. -/
theorem wait_no_snaps {env : Env} {o : Obs} (h : Reached env o) :
    o.state.dm = .wait → o.hist.snaps = [] := by
  apply h.inv (P := fun o => o.state.dm = .wait → o.hist.snaps = []) (fun _ => rfl)
  intro o o' a hp _ hstep hw
  obtain ⟨hs, hh⟩ := observe_cases hstep
  have hw' := hs.wait_before hw
  by_cases ha : a = .dm
  · subst ha
    rw [hh]
    simpa [note, noteDm, hw'] using hp hw'
  · rw [hh, note_snaps ha]
    exact hp hw'

/-- While the daemon is in `lscov_wait`, the first execution let in takes `dr`, and
nobody posts it again. -/
theorem wait_dr {o : Obs} (h : Reached StartEnv o) (hw : o.state.dm = .wait) :
    o.hist.execs.length + o.state.dr = 1 := by
  have hl := locked_of_tidy (h.mono fun _ _ => StartEnv.tidy)
  have hc := hl.count
  simpa [hw, marking, wait_no_snaps h hw] using hc

/-- The second execution is the first to find the daemon in `lscov_wait` and `dr` taken. -/
theorem calls_at_wait {o : Obs} (h : Reached StartEnv o) (hw : o.state.dm = .wait)
    (he : entering o.state.rt = true) : o.hist.calls + o.state.dr = 2 := by
  have hl := locked_of_tidy (h.mono fun _ _ => StartEnv.tidy)
  have hc := hl.calls
  have hd := wait_dr h hw
  rw [he, Bool.toNat_true] at hc
  omega

/-- A second execution that does not wait for the daemon hangs with it. -/
theorem hung_of_unseen {o o' : Obs} {a : Act} (h : Reached StartEnv o) (hns : ¬ SeenFirst o a)
    (hstep : observe step note o a = some o') : Hung o'.state := by
  simp only [SeenFirst, ne_eq, not_forall, not_not] at hns
  obtain ⟨rfl, hp, hcalls, hw⟩ := hns
  have hd := calls_at_wait h hw (by rw [hp]; rfl)
  have hs := (observe_cases hstep).1.det (.startMark hp)
  rw [hs]
  exact ⟨hw, rfl, by simp only; omega, by simp⟩

/-- With the first execution seen, no state hangs. -/
theorem not_hung_of_seen {o : Obs}
    (h : Reached (fun o a => StartEnv o a ∧ SeenFirst o a) o) : ¬ Hung o.state := by
  have hstart : Reached StartEnv o := h.mono fun _ _ he => he.1
  have hkey : o.state.dm = .wait → o.state.rt = .main (.startExec .wait) → o.hist.calls ≤ 1 := by
    apply h.inv (P := fun o => o.state.dm = .wait → o.state.rt = .main (.startExec .wait) →
      o.hist.calls ≤ 1) (by simp [boot])
    intro o o' a hp he hstep hw hr
    obtain ⟨hs, hh⟩ := observe_cases hstep
    have hw' := hs.wait_before hw
    rcases hs.blocked_before hr with ⟨rfl, hm⟩ | ⟨hr', ha⟩
    · rw [hh, note_calls (by simp)]
      by_contra hc
      exact he.2 rfl hm (by omega) hw'
    · rw [hh, note_calls ha]
      exact hp hw' hr'
  rintro ⟨hw, hr, hdr, -⟩
  have hd := calls_at_wait hstart hw (by rw [hr]; rfl)
  have := hkey hw hr
  omega

/-! ## The laws -/

/-- A run never hangs in the start-up just when each execution from the second one
on sets its marker after the daemon has left `lscov_wait`. -/
theorem start_up_hangs_iff_the_daemon_is_late (acts : List Act)
    (ha : Allowed (observe step note) StartEnv ⟨boot, Hist.empty⟩ acts)
    (hr : run (observe step note) ⟨boot, Hist.empty⟩ acts ≠ none) :
    (∀ pre, pre <+: acts → ∀ o, run (observe step note) ⟨boot, Hist.empty⟩ pre = some o →
        ¬ Hung o.state) ↔
      Allowed (observe step note) SeenFirst ⟨boot, Hist.empty⟩ acts :=
  never_bad_iff (fun o : Obs => Hung o.state)
    (fun _ _ _ h _ hns hstep => hung_of_unseen h hns hstep)
    (fun _ h => not_hung_of_seen h) ha hr

/-- A run of the first execution up to its marker, with one poll on the way. -/
theorem a_start_up_that_does_not_hang :
    let acts : List Act := [.rt, .dm, .call, .rt, .rt, .rt]
    (∀ pre, pre <+: acts → ∀ o, run (observe step note) ⟨boot, Hist.empty⟩ pre = some o →
        ¬ Hung o.state) ↔
      Allowed (observe step note) SeenFirst ⟨boot, Hist.empty⟩ acts := by
  intro acts
  apply start_up_hangs_iff_the_daemon_is_late
  · refine ⟨trivial, ?_⟩
    rintro t ht
    refine ⟨trivial, ?_⟩
    rintro u hu
    cases ht
    cases hu
    exact ⟨rfl, fun _ _ => ⟨trivial, fun _ _ =>
      ⟨trivial, fun _ _ => ⟨trivial, fun _ _ => trivial⟩⟩⟩⟩
  · exact Option.some_ne_none _

/-- The daemon polled too late: the second execution waits for it, and it for 0x80. -/
def late : Obs :=
  ⟨{ boot with
      rd := 1
      dr := 0
      area := (freshArea.set 0 0x80).set 0 0x81
      rt := .main (.startExec .wait) },
    { Hist.empty with calls := 2, cur := some [], posts := 1, trace := [.call] }⟩

theorem reached_late : Reached StartEnv late := by
  have hrt : ∀ o, StartEnv o .rt := fun _ => trivial
  have hspawn : ∀ o, StartEnv o (.spawn false) := fun _ => rfl
  have hexit : ∀ o, StartEnv o .exit := fun _ => trivial
  have hcall : ∀ o : Obs, o.state.rt = .started → StartEnv o .call := fun _ h => h
  refine Reach.trans (reached_ready_wait (fun o _ _ => hrt o)) ?_
  refine Reach.trans (target_of_ready hcall (fun o _ _ => hrt o) .wait (by decide)) ?_
  refine Reach.trans (leave_runs _ (hexit _) (fun o _ _ => hrt o) rfl rfl) ?_
  refine Reach.trans (solo (hspawn _) (.spawn false rfl) rfl) ?_
  exact enter_runs _ (hcall _ rfl) (fun o _ _ => hrt o) rfl (by simp) (Nat.zero_le 1)

/-- The start-up can hang. -/
theorem a_late_daemon_hangs : ¬ ∀ o, Reached StartEnv o → ¬ Hung o.state := by
  intro h
  exact h late reached_late ⟨rfl, rfl, rfl, by decide⟩

end lscov
