-- The laws of starvation. The two sides block each other for good only after a kill between
-- the store of 0x80 and the post of `rd`, where the token of the execution is lost. The kill
-- of the process that then waits brings a token back, because its marker stands.
import LogicStateCoverage.Kills
import LogicStateCoverage.Progress

namespace lscov

open runs

/-! ## Tokens that are passed on -/

/-- The runtime side will post `rd`. A process that is about to skip its post will not. -/
def rtKeeps (status : UInt8) : rt.Pc → Bool
  | .main (.endExec (.post val)) | .fin (.post val) => decide (val = 0)
  | p => rtOwns status p

/-- The daemon will post `dr`. -/
def dmKeeps : daemon.Pc → Bool
  | .markPost val => decide (val = 0)
  | p => dmOwns p

def kept (s : Sys) : Nat :=
  s.rd + s.dr + (rtKeeps (s.area 0) s.rt).toNat + (dmKeeps s.dm).toNat

/-- The process has said that its execution ended, and has not posted `rd` yet. -/
def MidEnd (s : Sys) : Prop := ∃ c p, s.rt = Caller.ending c p ∧ p ≠ .mark

/-- As `KillEnv`, with kills anywhere but between the store of 0x80 and the post of `rd`. -/
def FedEnv : Env := fun o a => KillEnv o a ∧ (a = .kill → ¬ MidEnd o.state)

theorem rtKeeps_ending (v : UInt8) (c : Caller) (p : rt.EndExec) :
    rtKeeps v (c.ending p) = match p with
      | .post val => decide (val = 0)
      | _ => true := by
  cases c <;> cases p <;> rfl

theorem kept_of_rt {s : Sys} (h : rtKeeps (s.area 0) s.rt = true) : 1 ≤ kept s := by
  unfold kept
  rw [h, Bool.toNat_true]
  omega

theorem kept_of_dm {s : Sys} (h : dmKeeps s.dm = true) : 1 ≤ kept s := by
  unfold kept
  rw [h, Bool.toNat_true]
  omega

/-- A step that leaves the semaphores and the daemon, where the runtime keeps its token. -/
theorem kept_of_same {s t : Sys} (h1 : 1 ≤ kept s) (hrd : t.rd = s.rd) (hdr : t.dr = s.dr)
    (hdm : t.dm = s.dm)
    (hrt : rtKeeps (s.area 0) s.rt = true → rtKeeps (t.area 0) t.rt = true) : 1 ≤ kept t := by
  cases hk : rtKeeps (s.area 0) s.rt with
  | true => exact kept_of_rt (hrt hk)
  | false =>
    unfold kept at h1 ⊢
    rw [hk, Bool.toNat_false] at h1
    rw [hrd, hdr, hdm]
    omega

/-- The steps that leave some token. A post is skipped only where the other one is there. -/
theorem kept_step {s s' : Sys} {a : Act} (h : Step s a s') (hs : Sane s) (h1 : 1 ≤ kept s)
    (hinit : s.rt = .init → ¬ s.area 0 > 0x80) (hstore : ∀ i, a = .store i → s.rt = .target)
    (hcall : a = .call → s.rt = .started)
    (hkill : a = .kill → rtKeeps (s.area 0) s.rt = true → s.area 0 > 0x80) : 1 ≤ kept s' := by
  cases h with
  | init hp =>
    refine kept_of_same h1 rfl rfl rfl fun hk => absurd ?_ (hinit hp)
    simpa [hp, rtKeeps, rtOwns] using hk
  | unfinished hp hm => exact kept_of_rt rfl
  | finished hp hm =>
    refine kept_of_same h1 rfl rfl rfl fun hk => absurd ?_ hm
    simpa [hp, rtKeeps, rtOwns] using hk
  | endMark c hp => exact kept_of_rt (by simp [rtKeeps_ending])
  | endGetvalue c hp =>
    by_cases h0 : s.rd = 0
    · exact kept_of_rt (by simp [rtKeeps_ending, h0])
    · unfold kept
      simp only
      omega
  | endPost c val hp =>
    by_cases h0 : val = 0
    · unfold kept
      simp only [h0, if_true]
      omega
    · simp only [if_neg h0]
      refine kept_of_same h1 rfl rfl rfl fun hk => absurd ?_ h0
      simpa [hp, rtKeeps_ending] using hk
  | abortDr hp hd =>
    have := hs.dr_le
    omega
  | getvalueDr hp hd | startMark hp =>
    refine kept_of_same h1 rfl rfl rfl fun hk => ?_
    simp [hp, rtKeeps, rtOwns] at hk
  | startWait hp hd => exact kept_of_rt rfl
  | clear i hp hi | cleared i hp hi => exact kept_of_rt rfl
  | check i c hp hi => exact kept_of_rt rfl
  | abortTainted i c hp hi ht => exact absurd (hs.at_check hp).2 ht
  | checked i c hp hi ht => exact kept_of_rt rfl
  | call hp =>
    refine kept_of_same h1 rfl rfl rfl fun hk => ?_
    simpa [hcall rfl, rtKeeps, rtOwns] using hk
  | store i hp => exact kept_of_rt (by simp [hstore i rfl, rtKeeps, rtOwns])
  | exit hp => exact kept_of_rt rfl
  | kill hp =>
    refine kept_of_same h1 rfl rfl rfl fun hk => ?_
    simpa [rtKeeps, rtOwns] using hkill rfl hk
  | spawn init hp =>
    refine kept_of_same h1 rfl rfl rfl fun hk => ?_
    cases init <;> simpa [hp, rtKeeps, rtOwns] using hk
  | semWait hp hd => exact kept_of_dm rfl
  | copy i hp hi => exact kept_of_dm rfl
  | copied i hp hi => exact kept_of_dm rfl
  | mark hp =>
    by_cases h0 : s.dr = 0
    · exact kept_of_dm (by simp [dmKeeps, h0])
    · unfold kept
      simp only
      omega
  | markPost val hp =>
    unfold kept at h1 ⊢
    by_cases h0 : val = 0
    · simp only [h0, if_true]
      omega
    · simpa [hp, h0, dmKeeps, dmOwns] using h1
  | update n hp =>
    unfold kept at h1 ⊢
    rcases daemon.update_turn_pc s.toOwn n with hn | hn <;>
      simpa [hp, hn, dmKeeps, dmOwns] using h1
  | poll hp hm => exact h1
  | polled hp hm | fatalRd hp hd | getvalueRd hp hd =>
    unfold kept at h1 ⊢
    simpa [hp, dmKeeps, dmOwns] using h1

/-! ## Kills elsewhere -/

/-- What kills elsewhere leave: the marker stands until `__lscov_fin` takes it away. -/
structure Fed (s : Sys) : Prop where
  fresh : s.rt = .init → ¬ s.area 0 > 0x80
  stands : s.rt = .target ∨ s.rt = .fin .mark → s.area 0 = 0x81
  kept : 1 ≤ kept s

theorem fresh_kept {s s' : Sys} {h : Hist} {a : Act} (hstep : Step s a s')
    (hfresh : s.rt = .init → ¬ s.area 0 > 0x80) (henv : KillEnv ⟨s, h⟩ a) :
    s'.rt = .init → ¬ s'.area 0 > 0x80 := by
  intro hi
  cases hstep with
  | spawn init hp =>
    have hinit : init = false := henv
    simp [hinit] at hi
  | endMark c hp | endGetvalue c hp | endPost c val hp =>
    cases c <;> simp [Caller.ending, Caller.ended] at hi
  | store i hp =>
    have ht : s.rt = .target := henv.1
    simp [ht] at hi
  | _ => first | exact hfresh hi | simp at hi

theorem stands_step {s s' : Sys} {h : Hist} {a : Act} (hstep : Step s a s') (hs : Sane s)
    (hstands : s.rt = .target ∨ s.rt = .fin .mark → s.area 0 = 0x81) (henv : KillEnv ⟨s, h⟩ a) :
    s'.rt = .target ∨ s'.rt = .fin .mark → s'.area 0 = 0x81 := by
  intro hp'
  cases hstep with
  | checked i c hp hi ht => exact (hs.at_check hp).1
  | exit hp => exact hstands (Or.inl hp)
  | endMark c hp | endGetvalue c hp | endPost c val hp =>
    cases c <;> simp [Caller.ending, Caller.ended] at hp'
  | spawn init hp => cases init <;> simp at hp'
  | store i hp =>
    simp only
    rw [Area.set_ne _ _ henv.2.symm]
    exact hstands hp'
  | _ => first | exact hstands hp' | simp at hp'

/-- A process that is killed with a token leaves its marker. -/
theorem marker_of_keeps {s : Sys} (hs : Sane s) (hf : Fed s) (hm : ¬ MidEnd s)
    (hk : rtKeeps (s.area 0) s.rt = true) : s.area 0 > 0x80 := by
  have hc := hs.code
  have hend : ∀ c p, s.rt = Caller.ending c p → p = .mark := by
    intro c p hp
    by_contra hne
    exact hm ⟨c, p, hp, hne⟩
  have hstands := hf.stands
  have h81 : s.area 0 = 0x81 → s.area 0 > 0x80 := by
    intro h
    rw [h]
    decide
  cases hp : s.rt with
  | dead | init | started | aborted why => simpa [hp, rtKeeps, rtOwns] using hk
  | target => exact h81 (hstands (Or.inl hp))
  | fin p =>
    obtain rfl := hend .fin p hp
    exact h81 (hstands (Or.inr hp))
  | main p =>
    rw [hp] at hc hk
    cases p with
    | test => simpa [rtKeeps, rtOwns] using hk
    | endExec p =>
      obtain rfl := hend .main p hp
      exact hc
    | getvalue => simp [rtKeeps, rtOwns] at hk
    | startExec p =>
      cases p with
      | mark | wait => simp [rtKeeps, rtOwns] at hk
      | clear i => exact h81 hc.1
    | check i c => exact h81 hc.1

theorem fed_step {s s' : Sys} {h : Hist} {a : Act} (hstep : Step s a s') (hs : Sane s)
    (hf : Fed s) (henv : FedEnv ⟨s, h⟩ a) : Fed s' := by
  refine ⟨fresh_kept hstep hf.fresh henv.1, stands_step hstep hs hf.stands henv.1, ?_⟩
  apply kept_step hstep hs hf.kept hf.fresh
  · rintro i rfl
    exact henv.1.1
  · rintro rfl
    exact henv.1
  · rintro rfl
    exact marker_of_keeps hs hf (henv.2 rfl)

theorem fed_boot : Fed boot :=
  ⟨fun _ => by decide, by simp [boot], by
    simp only [kept, boot]
    omega⟩

theorem fed_reached {o : Obs} (h : Reached FedEnv o) : Fed o.state := by
  have hinv := h.inv (P := fun o => Sane o.state ∧ Fed o.state) ⟨sane_boot, fed_boot⟩
    fun _ _ _ hP he hs => ⟨sane_step (observe_cases hs).1 hP.1,
      fed_step (observe_cases hs).1 hP.1 hP.2 he⟩
  exact hinv.2

/-! ## The two sides alone -/

/-- Alone, the two sides do nothing that loses a token. -/
theorem alone_fed {o o' : Obs} {acts : List Act} (hs : Sane o.state) (hf : Fed o.state)
    (ha : Allowed (observe step note) Alone o acts)
    (hr : run (observe step note) o acts = some o') : Fed o'.state := by
  have hinv := (reach_of_run ha hr).inv (P := fun o => Sane o.state ∧ Fed o.state) ⟨hs, hf⟩ ?_
  · exact hinv.2
  · intro o o' a hP he hstep
    have henv : FedEnv o a := by
      rcases he with rfl | rfl <;> exact ⟨trivial, by simp⟩
    exact ⟨sane_step (observe_cases hstep).1 hP.1, fed_step (observe_cases hstep).1 hP.1 hP.2 henv⟩

/-- While there is a token, nobody waits for good. -/
theorem not_deadlocked {s : Sys} (h : 1 ≤ kept s) : ¬ Deadlocked s := by
  rintro ⟨hrt, hdr, hdm, hrd⟩
  simp [kept, hrt, hdr, hdm, hrd, rtKeeps, rtOwns, dmKeeps, dmOwns] at h

theorem places_of_last {o : Obs} (hs : Sane o.state)
    (hlast : ∀ a, Alone o a → observe step note o a = none) :
    o.state.rt = .dead ∨ o.state.rt = .started ∨ o.state.rt = .target ∨ Deadlocked o.state := by
  obtain ⟨hrt, hdm⟩ := stuck_of_last hlast
  obtain ⟨hwait, hrd⟩ := stuck_dm hs hdm
  rcases stuck_rt hs hrt with hp | hp | hp | ⟨hp, hdr⟩
  · exact Or.inl hp
  · exact Or.inr (Or.inl hp)
  · exact Or.inr (Or.inr (Or.inl hp))
  · exact Or.inr (Or.inr (Or.inr ⟨hp, hdr, hwait, hrd⟩))

/-- A process that called `__lscov_main` gets to the code of the target. -/
theorem target_of_last {o o' : Obs} {acts : List Act} (h : Started o) (hf : Fed o.state)
    (hc : Called o.state.rt) (ha : Allowed (observe step note) Alone o acts)
    (hr : run (observe step note) o acts = some o')
    (hlast : ∀ a, Alone o' a → observe step note o' a = none) : o'.state.rt = .target := by
  have hsane : Sane o'.state :=
    (reach_of_run ha hr).inv (P := fun o => Sane o.state) h.1 fun _ _ _ hP _ hs =>
      sane_step (observe_cases hs).1 hP
  have hcalled := alone_called h ha hr hc
  have hkept := (alone_fed h.1 hf ha hr).kept
  rcases places_of_last hsane hlast with hp | hp | hp | hd
  · simp [Called, hp] at hcalled
  · simp [Called, hp] at hcalled
  · exact hp
  · exact absurd hd (not_deadlocked hkept)

/-! ## The laws -/

/-- With kills anywhere but between the store of 0x80 and the post of `rd`, and no second
`__lscov_init`, each call of `__lscov_main` comes to its end once the daemon has left
`lscov_wait`: the two sides take a bounded number of steps by themselves, in any order, and
then the process is in the code of the target. -/
theorem only_a_kill_before_the_post_starves (o : Obs) (h : Reached FedEnv o)
    (hw : o.state.dm ≠ .wait) :
    ¬ Deadlocked o.state ∧
    ∀ acts o', Allowed (observe step note) Alone o acts →
      run (observe step note) o acts = some o' →
        acts.length ≤ 5 * LSTATE_SIZE ∧
          ((∀ a, Alone o' a → observe step note o' a = none) → Called o.state.rt →
            o'.state.rt = .target) := by
  have hs : Started o := ⟨sane_reached h, hw⟩
  have hf := fed_reached h
  refine ⟨not_deadlocked hf.kept, fun acts o' ha hr => ⟨alone_length hs ha hr, ?_⟩⟩
  intro hlast hc
  exact target_of_last hs hf hc ha hr hlast

/-- After a kill in the code of the target, nobody waits for good. -/
theorem a_kill_in_the_target_starves_nobody :
    killed.state.rt = .dead ∧ ¬ Deadlocked killed.state ∧
    ∀ acts o', Allowed (observe step note) Alone killed acts →
      run (observe step note) killed acts = some o' →
        acts.length ≤ 5 * LSTATE_SIZE ∧
          ((∀ a, Alone o' a → observe step note o' a = none) → Called killed.state.rt →
            o'.state.rt = .target) := by
  have hr : Reached FedEnv killed := by
    refine Reach.trans (reached_inTarget (fun _ => ⟨trivial, by simp⟩) (fun _ h => ⟨h, by simp⟩)
      (fun _ _ _ => ⟨trivial, by simp⟩)) ?_
    have hmid : ¬ MidEnd (inTarget .getvalue).state := by
      rintro ⟨c, p, hp, -⟩
      cases c <;> simp [inTarget, Caller.ending] at hp
    have hkill : FedEnv (inTarget .getvalue) .kill := ⟨trivial, fun _ => hmid⟩
    exact solo hkill (.kill (by decide)) rfl
  exact ⟨rfl, only_a_kill_before_the_post_starves killed hr (by decide)⟩

/-- The kill of a process, the start of the next one and its call of `__lscov_main`. -/
theorem restart_runs (o : Obs) (h : o.state.rt ≠ .dead) :
    ∃ hist, run (observe step note) o [.kill, .spawn false, .call] =
      some ⟨{ o.state with rt := .main .test }, hist⟩ := by
  obtain ⟨h1, hkill⟩ : ∃ h1, observe step note o .kill = some ⟨{ o.state with rt := .dead }, h1⟩ :=
    ⟨_, Step.observe_eq (.kill h)⟩
  obtain ⟨h2, hspawn⟩ : ∃ h2, observe step note ⟨{ o.state with rt := .dead }, h1⟩ (.spawn false) =
      some ⟨{ o.state with rt := .started }, h2⟩ := ⟨_, Step.observe_eq (.spawn false rfl)⟩
  obtain ⟨h3, hcall⟩ : ∃ h3, observe step note ⟨{ o.state with rt := .started }, h2⟩ .call =
      some ⟨{ o.state with rt := .main .test }, h3⟩ := ⟨_, Step.observe_eq (.call (Or.inl rfl))⟩
  exact ⟨h3, by simp only [run, hkill, hspawn, hcall, Option.bind_some]⟩

/-- After any run, with kills and starts of any kind: where both sides wait for good, the kill
of the process and the next start bring a token back. The next call of `__lscov_main` comes to
its end. -/
theorem a_restart_ends_the_wait (o : Obs) (h : Reached AnyEnv o) (hd : Deadlocked o.state) :
    ∃ o', run (observe step note) o [.kill, .spawn false, .call] = some o' ∧
      ∀ acts o'', Allowed (observe step note) Alone o' acts →
        run (observe step note) o' acts = some o'' →
          acts.length ≤ 5 * LSTATE_SIZE ∧
            ((∀ a, Alone o'' a → observe step note o'' a = none) → o''.state.rt = .target) := by
  obtain ⟨hp, -, hdm, -⟩ := hd
  have hs : Sane o.state := sane_reached h
  have h81 : o.state.area 0 = 0x81 := by
    have hc := hs.code
    rw [hp] at hc
    exact hc
  obtain ⟨hist, hrun⟩ := restart_runs o (by simp [hp])
  refine ⟨_, hrun, fun acts o'' ha hr => ?_⟩
  -- the marker of the process that waited is still there, so the next one posts `rd` for it
  have hfed : Fed { o.state with rt := .main .test } :=
    ⟨by simp, by simp, kept_of_rt (by simp [rtKeeps, rtOwns, h81])⟩
  have hstarted : Started ⟨{ o.state with rt := .main .test }, hist⟩ :=
    ⟨⟨hs.rd_le, hs.dr_le, trivial, hs.loop⟩, by simp [hdm]⟩
  exact ⟨alone_length hstarted ha hr, target_of_last hstarted hfed (Or.inr ⟨_, rfl⟩) ha hr⟩

/-! ## A lost token -/

/-- The first process was killed before its post of `rd`, and the second one waits. -/
def starved : Obs :=
  ⟨{ boot with
      dr := 0
      area := (freshArea.set 0 0x80).set 0 0x81
      rt := .main (.startExec .wait)
      dm := .semWait },
    { Hist.empty with calls := 2, cur := some [], trace := [.call] }⟩

theorem reached_starved : Reached AnyEnv starved := by
  refine Reach.trans (reached_inTarget (fun _ => trivial) (fun _ _ => trivial)
    (fun _ _ _ => trivial)) ?_
  refine Reach.trans (solo trivial (.exit rfl) rfl) ?_
  refine Reach.trans (solo trivial (.endMark .fin rfl) rfl) ?_
  refine Reach.trans (solo trivial (.kill (by decide)) rfl) ?_
  refine Reach.trans (solo trivial (.spawn false rfl) rfl) ?_
  refine Reach.trans (solo trivial (.getvalueRd rfl (by decide)) rfl) ?_
  exact enter_runs _ trivial (fun _ _ _ => trivial) rfl (by decide) (by decide)

/-- The wait of the second process ends with its kill. -/
theorem the_wait_of_the_second_process_ends :
    Deadlocked starved.state ∧
      ∃ o', run (observe step note) starved [.kill, .spawn false, .call] = some o' ∧
        ∀ acts o'', Allowed (observe step note) Alone o' acts →
          run (observe step note) o' acts = some o'' →
            acts.length ≤ 5 * LSTATE_SIZE ∧
              ((∀ a, Alone o'' a → observe step note o'' a = none) → o''.state.rt = .target) := by
  have hd : Deadlocked starved.state := ⟨rfl, rfl, rfl, rfl⟩
  exact ⟨hd, a_restart_ends_the_wait starved reached_starved hd⟩

end lscov
