-- The laws of kills. A kill at `sem_wait(dr)` leaves a marker behind that the
-- next process takes for an execution that never ended, and the area gets two
-- holders. Every other kill outside the `memset` keeps the two sides apart.
import LogicStateCoverage.HandOver
import LogicStateCoverage.SoloRuns

namespace lscov

open runs

/-- One `__lscov_init`, stores of the target code at indices from 1 on, and a kill
at any step. -/
def KillEnv : Env := fun o a =>
  match a with
  | .store i => o.state.rt = .target ∧ i ≠ 0
  | .call => o.state.rt = .started
  | .spawn init => init = false
  | _ => True

/-- The process is not in its `memset`. And if it waits at `sem_wait(dr)`, with its
marker set, then the token is lost already: neither semaphore is posted, and the
daemon does not have the area. -/
def CleanKill (s : Sys) : Prop :=
  (∀ i, s.rt ≠ .main (.startExec (.clear i))) ∧
    (s.rt = .main (.startExec .wait) → s.rd = 0 ∧ s.dr = 0 ∧ dmOwns s.dm = false)

/-- As `KillEnv`, with clean kills only. -/
def CleanKillEnv : Env := fun o a => KillEnv o a ∧ (a = .kill → CleanKill o.state)

/-- While the daemon is between `sem_wait(rd)` and its post of `dr`, the runtime
neither clears nor stores past the status byte. So each lstate holds the stores
of one execution. -/
def KeptApart (o : Obs) : Prop :=
  (dmOwns o.state.dm = true →
      (∀ i, o.state.rt ≠ .main (.startExec (.clear i))) ∧ o.state.rt ≠ .target) ∧
    ∀ (j : Nat) l, o.hist.snaps[j]? = some l →
      ∃ e, o.hist.execs[j]? = some e ∧ l.Holds e

theorem CleanKill.safe {o : Obs} (h : CleanKill o.state) : SafeEnv o .kill := by
  obtain ⟨hclear, hwait⟩ := h
  refine ⟨hclear, ?_⟩
  intro hw
  obtain ⟨hrd, hdr, hdm⟩ := hwait hw
  simp [tokens, hw, hrd, hdr, hdm, rtOwns]

theorem CleanKillEnv.safe {o : Obs} {a : Act} (h : CleanKillEnv o a) : SafeEnv o a := by
  obtain ⟨h1, h2⟩ := h
  cases a with
  | store i => exact h1.1
  | kill => exact (h2 rfl).safe
  | _ => trivial

/-- Clean kills at any step, in any number, keep the two sides apart. -/
theorem clean_kills_keep_the_sides_apart (o : Obs) (h : Reached CleanKillEnv o) : KeptApart o := by
  have hs := safe_reached (h.mono fun _ _ => CleanKillEnv.safe)
  exact ⟨rt_stays_out hs.one, hs.snaps⟩

/-- The first process was killed in the code of the target. -/
def killed : Obs :=
  ⟨{ (inTarget .getvalue).state with rt := .dead },
    { (inTarget .getvalue).hist with pending := true }⟩

theorem the_sides_are_apart_after_a_kill :
    killed.state.rt = .dead ∧ killed.hist.execs = [[]] ∧ KeptApart killed := by
  have hr : Reached CleanKillEnv killed := by
    refine Reach.trans (reached_inTarget (fun _ => ⟨trivial, by simp⟩) (fun _ h => ⟨h, by simp⟩)
      (fun _ _ _ => ⟨trivial, by simp⟩)) ?_
    have hclean : CleanKill (inTarget .getvalue).state :=
      ⟨fun _ => by simp [inTarget], fun hw => by simp [inTarget] at hw⟩
    have hkill : CleanKillEnv (inTarget .getvalue) .kill := ⟨trivial, fun _ => hclean⟩
    exact solo hkill (.kill (by decide)) rfl
  exact ⟨rfl, rfl, clean_kills_keep_the_sides_apart killed hr⟩

/-- After a kill at `sem_wait(dr)`: the daemon copies while the next process clears. -/
def torn : Obs :=
  ⟨{ bothPosted.state with
      rd := 0
      dr := 0
      area := bothPosted.state.area.set 0 0x81
      rt := .main (.startExec (.clear 1))
      dm := .copy 0 },
    { bothPosted.hist with cur := some [] }⟩

theorem reached_torn : Reached KillEnv torn := by
  have hdm : ∀ o, KillEnv o .dm := fun _ => trivial
  have hrt : ∀ o, KillEnv o .rt := fun _ => trivial
  refine Reach.trans (reached_bothPosted hdm hrt (fun _ h => h) (fun _ _ => trivial)
    (fun _ => rfl)) ?_
  refine Reach.trans (solo (hrt _) (.getvalueDr rfl (by decide)) rfl) ?_
  refine Reach.trans (solo (hrt _) (.startMark rfl) rfl) ?_
  refine Reach.trans (solo (hrt _) (.startWait rfl (by decide)) rfl) ?_
  refine Reach.trans (solo (hdm _) (.getvalueRd rfl (by decide)) rfl) ?_
  exact solo (hdm _) (.semWait rfl (by decide)) rfl

/-- A kill at `sem_wait(dr)` breaks the two sides apart. -/
theorem a_kill_at_sem_wait_tears_the_area : ¬ ∀ o, Reached KillEnv o → KeptApart o := by
  intro h
  exact (h torn reached_torn).1 rfl |>.1 1 rfl

end lscov
