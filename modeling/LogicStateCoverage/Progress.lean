-- The laws of progress. Left alone by their environment, the runtime and the daemon come to
-- rest after a bounded number of steps, in whatever order they take them. Then nobody waits
-- for the other, and each execution that ended is copied.
import LogicStateCoverage.StartUp

namespace lscov

open runs

/-! ## The steps that are left -/

/-- The steps of the daemon from `sem_wait(rd)` around to it again. -/
def lap : Nat := LSTATE_SIZE + daemon.num_hashes.toNat + 6

def daemon.Pc.left : daemon.Pc → Nat
  | .wait | .semWait | .fatal _ => 0
  | .getvalue => 1
  | .update h => (num_hashes.toNat - h) + 2
  | .markPost _ => num_hashes.toNat + 3
  | .mark => num_hashes.toNat + 4
  | .copy i => (LSTATE_SIZE - i) + num_hashes.toNat + 5

/-- A post of `rd` is a lap of the daemon more. -/
def rt.EndExec.left : rt.EndExec → Nat
  | .mark => lap + 3
  | .getvalue => lap + 2
  | .post _ => lap + 1

/-- The steps of `__lscov_main` from `sem_wait(dr)` on. -/
def letIn : Nat := LSTATE_SIZE + (LSTATE_SIZE >>> 6) + 2

def rt.StartExec.left : rt.StartExec → Nat
  | .mark => letIn + 1
  | .wait => letIn
  | .clear i => (LSTATE_SIZE - i) + (LSTATE_SIZE >>> 6) + 2

def rt.Main.left : rt.Main → Nat
  | .test => letIn + lap + 6
  | .endExec p => letIn + 2 + p.left
  | .getvalue => letIn + 2
  | .startExec p => p.left
  | .check i _ => ((LSTATE_SIZE >>> 6) - i) + 1

def rt.Pc.left : rt.Pc → Nat
  | .dead | .started | .target | .aborted _ => 0
  | .init => 1
  | .main p => p.left
  | .fin p => p.left

/-- More than the two sides can still do by themselves. -/
def Sys.left (s : Sys) : Nat := s.rt.left + s.dm.left + s.rd * lap

/-- An act of one of the two sides. -/
def Alone : Env := fun _ a => a = .rt ∨ a = .dm

theorem left_ending (c : Caller) (p : rt.EndExec) :
    (c.ending p).left = c.ended.left + p.left := by
  cases c <;> simp [Caller.ending, Caller.ended, rt.Pc.left, rt.Main.left]

/-- A turn of the loop over the hashes is one step less to do. -/
theorem update_turn_left (d : daemon.Own) (h : Nat) :
    (daemon.update_turn d h).2.left < (daemon.Pc.update h).left := by
  by_cases hlt : h < daemon.num_hashes.toNat
  · obtain ⟨b, hb⟩ := daemon.update_turn_goes_on d h hlt
    simp only [hb, daemon.Pc.left]
    omega
  · simp [daemon.update_turn, hlt, daemon.Pc.left]

theorem left_step {s s' : Sys} {a : Act} (h : Step s a s') (ha : Alone ⟨s, Hist.empty⟩ a)
    (hw : s.dm ≠ .wait) : s'.left < s.left := by
  have hsize := LSTATE_SIZE_eq
  unfold Sys.left
  cases h with
  | init hp | startMark hp | unfinished hp hm | finished hp hm | abortDr hp hd | getvalueDr hp hd
  | startWait hp hd =>
    simp only [hp, rt.Pc.left, rt.Main.left, rt.StartExec.left, rt.EndExec.left, letIn]
    omega
  | clear i hp hi | cleared i hp hi =>
    simp only [hp, rt.Pc.left, rt.Main.left, rt.StartExec.left]
    omega
  | check i hc hp hi =>
    simp only [hp, rt.Pc.left, rt.Main.left]
    omega
  | abortTainted i hc hp hi ht | checked i hc hp hi ht =>
    simp only [hp, rt.Pc.left, rt.Main.left]
    omega
  | endMark c hp | endGetvalue c hp =>
    simp only [hp, left_ending, rt.EndExec.left]
    omega
  | endPost c val hp =>
    simp only [hp, left_ending, rt.EndExec.left]
    split
    · rw [Nat.add_mul, Nat.one_mul]
      omega
    · omega
  | fatalRd hp hd | getvalueRd hp hd | copied i hp hi | mark hp | markPost val hp =>
    simp only [hp, daemon.Pc.left]
    omega
  | copy i hp hi =>
    simp only [hp, daemon.Pc.left]
    omega
  | semWait hp hd =>
    have hlap : lap = LSTATE_SIZE + daemon.num_hashes.toNat + 6 := rfl
    have hrd : s.rd * lap = (s.rd - 1) * lap + lap := by
      rw [← Nat.succ_mul, Nat.succ_eq_add_one, Nat.sub_add_cancel hd]
    simp only [hp, daemon.Pc.left]
    omega
  | update n hp =>
    have hturn := update_turn_left s.toOwn n
    simp only [hp]
    omega
  | poll hp hm | polled hp hm => exact absurd hp hw
  | call hp | store i hp | exit hp | kill hp | spawn init hp => simp [Alone] at ha

/-- What is left is at most five passes over an area. -/
theorem left_le {s : Sys} (h : s.rd ≤ 1) : s.left ≤ 5 * LSTATE_SIZE := by
  have hsize := LSTATE_SIZE_eq
  have hlap : lap = 65546 := by decide
  have hletIn : letIn = 66562 := by decide
  have hhashes : daemon.num_hashes.toNat = 4 := by decide
  have hsamples : LSTATE_SIZE >>> 6 = 1024 := by decide
  have hrd : s.rd * lap ≤ lap := by simpa using Nat.mul_le_mul_right lap h
  have hdm : s.dm.left ≤ lap := by
    cases s.dm <;> simp only [daemon.Pc.left] <;> omega
  have hend : ∀ p : rt.EndExec, p.left ≤ lap + 3 := by
    intro p
    cases p <;> simp only [rt.EndExec.left] <;> omega
  have hrt : s.rt.left ≤ letIn + lap + 6 := by
    cases s.rt with
    | main p =>
      cases p with
      | endExec p =>
        have := hend p
        simp only [rt.Pc.left, rt.Main.left]
        omega
      | startExec p => cases p <;> simp only [rt.Pc.left, rt.Main.left, rt.StartExec.left] <;> omega
      | _ =>
        simp only [rt.Pc.left, rt.Main.left]
        omega
    | fin p =>
      have := hend p
      simp only [rt.Pc.left]
      omega
    | _ =>
      simp only [rt.Pc.left]
      omega
  unfold Sys.left
  omega

/-! ## Rest -/

/-- The daemon waits for an execution to end, and the runtime does not wait for the daemon.
Each execution is copied, but for one that runs or was cut off. -/
structure AtRest (o : Obs) : Prop where
  rt : o.state.rt = .dead ∨ o.state.rt = .started ∨ o.state.rt = .target
  dm : o.state.dm = .semWait
  rd : o.state.rd = 0
  copied : o.hist.execs.length =
    o.hist.snaps.length + (decide (o.state.rt = .target) || o.hist.pending).toNat

/-- The two sides stop at their semaphores, or where the target goes on. -/
theorem stuck_rt {s : Sys} (hs : Sane s) (h : step s .rt = none) :
    s.rt = .dead ∨ s.rt = .started ∨ s.rt = .target ∨
      (s.rt = .main (.startExec .wait) ∧ s.dr = 0) := by
  simp only [step, Option.map_eq_none_iff] at h
  have hc := hs.code
  generalize s.rt = p at h hc
  cases p with
  | dead => exact Or.inl rfl
  | started => exact Or.inr (Or.inl rfl)
  | target => exact Or.inr (Or.inr (Or.inl rfl))
  | aborted why => exact absurd hc id
  | init => simp [rt.step] at h
  | fin p => cases p <;> simp [rt.step, rt.lscov_end_exec] at h
  | main p =>
    cases p with
    | endExec p => cases p <;> simp [rt.step, rt.lscov_main, rt.lscov_end_exec] at h
    | startExec p =>
      cases p with
      | wait => simpa [rt.step, rt.lscov_main, rt.lscov_start_exec] using h
      | mark => simp [rt.step, rt.lscov_main, rt.lscov_start_exec] at h
      | clear i =>
        simp only [rt.step, rt.lscov_main, rt.lscov_start_exec] at h
        split at h <;> simp at h
    | check i hc =>
      simp only [rt.step, rt.lscov_main] at h
      split at h <;> simp at h
    | _ => simp [rt.step, rt.lscov_main] at h

theorem stuck_dm {s : Sys} (hs : Sane s) (h : step s .dm = none) : s.dm = .semWait ∧ s.rd = 0 := by
  simp only [step, Option.map_eq_none_iff] at h
  have hl := hs.loop
  generalize s.dm = p at h hl
  cases p with
  | semWait => simpa [daemon.step] using h
  | fatal why => exact absurd hl id
  | copy i =>
    simp only [daemon.step] at h
    split at h <;> simp at h
  | _ => simp [daemon.step] at h

theorem at_rest {o : Obs} (h : Locked o) (hrt : step o.state .rt = none)
    (hdm : step o.state .dm = none) : AtRest o := by
  obtain ⟨hwait, hrd⟩ := stuck_dm h.sane hdm
  have hone := h.exact_one
  have hcount := h.count
  have hpend := h.pending
  simp only [tokens, hwait, hrd, dmOwns, marking, Bool.toNat_false] at hone hcount
  rcases stuck_rt h.sane hrt with hp | hp | hp | ⟨hp, hdr⟩
  · refine ⟨Or.inl hp, hwait, hrd, ?_⟩
    simp only [hp, rtOwns, unhanded] at hone hpend ⊢
    simp only [hpend, reduceCtorEq, decide_false, Bool.false_or]
    omega
  · refine ⟨Or.inr (Or.inl hp), hwait, hrd, ?_⟩
    simp only [hp, rtOwns, unhanded] at hone hpend ⊢
    simp only [hpend, reduceCtorEq, decide_false, Bool.false_or]
    omega
  · refine ⟨Or.inr (Or.inr hp), hwait, hrd, ?_⟩
    simp only [hp, rtOwns, Bool.toNat_true] at hone
    simp only [hp, decide_true, Bool.true_or, Bool.toNat_true]
    omega
  · -- The one token would be nowhere.
    simp [hp, hdr, rtOwns] at hone

/-- A process that called `__lscov_main`, and did not end yet. -/
def Called (p : rt.Pc) : Prop := p = .target ∨ ∃ q, p = .main q

theorem called_step {s s' : Sys} {h : Hist} {a : Act} (hstep : Step s a s') (hs : Sane s)
    (ha : Alone ⟨s, h⟩ a) (hc : Called s.rt) : Called s'.rt := by
  cases hstep with
  | init hp => simp [Called, hp] at hc
  | endMark c hp | endGetvalue c hp | endPost c val hp =>
    cases c with
    | main => exact Or.inr ⟨_, rfl⟩
    | fin => simp [Called, hp, Caller.ending] at hc
  | abortDr hp hd =>
    have := hs.dr_le
    omega
  | abortTainted i c hp hi ht => exact absurd (hs.at_check hp).2 ht
  | checked i c hp hi ht => exact Or.inl rfl
  | call hp | store i hp | exit hp | kill hp | spawn init hp => simp [Alone] at ha
  | poll hp hm | polled hp hm | fatalRd hp hd | getvalueRd hp hd | semWait hp hd | copy i hp hi
  | copied i hp hi | mark hp | markPost val hp | update n hp => exact hc
  | _ => exact Or.inr ⟨_, rfl⟩

/-! ## Runs of the two sides -/

theorem Alone.lock {o : Obs} {a : Act} (h : Alone o a) : LockEnv o a := by
  rcases h with rfl | rfl <;> trivial

/-- The checks hold, and the daemon is past `lscov_wait`. -/
def Started (o : Obs) : Prop := Sane o.state ∧ o.state.dm ≠ .wait

theorem started_step {o o' : Obs} {a : Act} (h : Started o) (hs : observe step note o a = some o') :
    Started o' :=
  ⟨sane_step (observe_cases hs).1 h.1, fun hw => h.2 ((observe_cases hs).1.wait_before hw)⟩

theorem alone_down {o o' : Obs} {a : Act} (h : Started o) (ha : Alone o a)
    (hs : observe step note o a = some o') : o'.state.left < o.state.left :=
  left_step (observe_cases hs).1 ha h.2

section alone

variable {o o' : Obs} {acts : List Act}

theorem alone_length (h : Started o) (ha : Allowed (observe step note) Alone o acts)
    (hr : run (observe step note) o acts = some o') : acts.length ≤ 5 * LSTATE_SIZE := by
  have hlen := length_add_le (fun o => o.state.left) (fun _ _ _ hP _ hs => started_step hP hs)
    (fun _ _ _ => alone_down) h ha hr
  have hle := left_le h.1.rd_le
  omega

theorem alone_exists_last (h : Started o) :
    ∃ acts o', Allowed (observe step note) Alone o acts ∧
      run (observe step note) o acts = some o' ∧
        ∀ a, Alone o' a → observe step note o' a = none :=
  exists_last (fun o => o.state.left) (fun _ _ _ hP _ hs => started_step hP hs)
    (fun _ _ _ => alone_down) h

/-- Where the two sides cannot go on, neither has a step. -/
theorem stuck_of_last (hlast : ∀ a, Alone o a → observe step note o a = none) :
    step o.state .rt = none ∧ step o.state .dm = none :=
  ⟨Option.map_eq_none_iff.mp (hlast .rt (Or.inl rfl)),
    Option.map_eq_none_iff.mp (hlast .dm (Or.inr rfl))⟩

theorem alone_called (h : Started o) (ha : Allowed (observe step note) Alone o acts)
    (hr : run (observe step note) o acts = some o') (hc : Called o.state.rt) :
    Called o'.state.rt := by
  have hend := (reach_of_run ha hr).inv (P := fun o => Started o ∧ Called o.state.rt) ⟨h, hc⟩
    fun _ _ _ hP he hs => ⟨started_step hP.1 hs,
      called_step (observe_cases hs).1 hP.1.1 he hP.2⟩
  exact hend.2

end alone

/-! ## The law -/

theorem alone_locked {o o' : Obs} {acts : List Act} (h : Locked o)
    (ha : Allowed (observe step note) Alone o acts)
    (hr : run (observe step note) o acts = some o') : Locked o' :=
  (reach_of_run ha hr).inv (P := Locked) h fun _ _ _ hP he hs => locked_step hs hP he.lock

/-- The last state of a run of the two sides that cannot go on. -/
theorem alone_last {o o' : Obs} {acts : List Act} (h : Locked o) (hw : o.state.dm ≠ .wait)
    (ha : Allowed (observe step note) Alone o acts)
    (hr : run (observe step note) o acts = some o')
    (hlast : ∀ a, Alone o' a → observe step note o' a = none) :
    AtRest o' ∧ (Called o.state.rt → o'.state.rt = .target) := by
  obtain ⟨hrt, hdm⟩ := stuck_of_last hlast
  have hrest := at_rest (alone_locked h ha hr) hrt hdm
  refine ⟨hrest, fun hc => ?_⟩
  have hcalled := alone_called ⟨h.sane, hw⟩ ha hr hc
  rcases hrest.rt with hp | hp | hp
  · simp [Called, hp] at hcalled
  · simp [Called, hp] at hcalled
  · exact hp

/-- From every state that the protocol reaches, once the daemon has left `lscov_wait`: every
run of the two sides alone ends after a bounded number of steps. Where it cannot go on, each
execution that ended is copied, and a process that called `__lscov_main` is back in the code of
the target. -/
theorem the_two_sides_come_to_rest (o : Obs) (h : Reached LockEnv o) (hw : o.state.dm ≠ .wait) :
    (∀ acts o', Allowed (observe step note) Alone o acts →
      run (observe step note) o acts = some o' →
        acts.length ≤ 5 * LSTATE_SIZE ∧
          ((∀ a, Alone o' a → observe step note o' a = none) →
            AtRest o' ∧ (Called o.state.rt → o'.state.rt = .target))) ∧
    ∃ acts o', Allowed (observe step note) Alone o acts ∧
      run (observe step note) o acts = some o' ∧
        AtRest o' ∧ (Called o.state.rt → o'.state.rt = .target) := by
  have hl := locked_reached h
  have hstarted : Started o := ⟨hl.sane, hw⟩
  constructor
  · intro acts o' ha hr
    exact ⟨alone_length hstarted ha hr, alone_last hl hw ha hr⟩
  · obtain ⟨acts, o', ha, hr, hlast⟩ := alone_exists_last hstarted
    exact ⟨acts, o', ha, hr, alone_last hl hw ha hr hlast⟩

/-- After the first execution has ended, the two sides come to rest. -/
theorem the_first_execution_comes_to_rest :
    ∃ acts o', Allowed (observe step note) Alone firstEnded acts ∧
      run (observe step note) firstEnded acts = some o' ∧
        AtRest o' ∧ (Called firstEnded.state.rt → o'.state.rt = .target) :=
  (the_two_sides_come_to_rest firstEnded
    (reached_firstEnded (fun _ => trivial) (fun _ h => LockEnv.of_started h)
      (fun _ _ _ => trivial) (fun _ _ h _ => h) (fun _ => trivial)) (by decide)).2

end lscov
