-- The laws of the lock-step. When an execution ends through `__lscov_fin`, or
-- crashes while its marker still stands, the one token is never lost: no
-- conditional post is skipped, the two sides never block each other, and each
-- execution is copied once, in order.
import LogicStateCoverage.HandOver
import LogicStateCoverage.SoloRuns

namespace lscov

open runs

/-! ## The invariant -/

/-- Executions end through `__lscov_fin` or crash in target code while the
marker stands, the target stores only between `__lscov_main` and
`__lscov_fin`, and `__lscov_init` runs again only after an execution that
ended. A second call of `main` in one process cuts its execution off, as a
crash does. -/
def LockEnv : Env := fun o a =>
  match a with
  | .store _ => o.state.rt = .target
  | .call => o.state.rt = .target → o.state.area 0 > 0x80
  | .kill => o.state.rt = .target ∧ o.state.area 0 > 0x80
  | .spawn init => init = true → ¬ o.state.area 0 > 0x80
  | _ => True

/-- A process that has not called `__lscov_main` yet may call it. -/
theorem LockEnv.of_started {o : Obs} (h : o.state.rt = .started) : LockEnv o .call := by
  intro ht
  rw [h] at ht
  cases ht

/-- A process without `__lscov_init` may always start. -/
theorem LockEnv.of_spawn {o : Obs} {init : Bool} (h : init = false) : LockEnv o (.spawn init) := by
  intro hi
  rw [h] at hi
  cases hi

theorem LockEnv.safe {o : Obs} {a : Act} (h : LockEnv o a) : SafeEnv o a := by
  cases a with
  | kill =>
    obtain ⟨ht, -⟩ := h
    exact ⟨by simp [ht], by simp [ht]⟩
  | store i => exact h
  | _ => trivial

/-- The last execution was cut off, and its `rd` is not posted. -/
def unhanded (status : UInt8) : rt.Pc → Bool
  | .dead | .init | .started | .main .test | .aborted _ => decide (status > 0x80)
  | .main (.endExec _) => true
  | _ => false

/-- A process is in `__lscov_main`, before `sem_wait(dr)` lets it in. -/
def entering : rt.Pc → Bool
  | .main .test | .main (.endExec _) | .main .getvalue => true
  | .main (.startExec .mark) | .main (.startExec .wait) => true
  | _ => false

structure Locked (o : Obs) : Prop extends Safe o where
  exact_one : tokens o.state = 1
  fresh_init : o.state.rt = .init → ¬ o.state.area 0 > 0x80
  posts : o.hist.execs.length = o.hist.posts + (rtOwns (o.state.area 0) o.state.rt).toNat
  calls : o.hist.calls = o.hist.execs.length + (entering o.state.rt).toNat
  pending : o.hist.pending = unhanded (o.state.area 0) o.state.rt

theorem locked_tokens {o o' : Obs} {a : Act} (hstep : observe step note o a = some o')
    (h : Locked o) (henv : LockEnv o a) : tokens o'.state = 1 := by
  rw [← h.exact_one]
  apply tokens_step (observe_cases hstep).1 h.sane h.go
  · rintro i rfl
    exact henv
  · exact fun _ => h.fresh_init
  · rintro rfl
    exact henv
  · rintro rfl
    obtain ⟨ht, hm⟩ := henv
    simp [ht, rtOwns, hm]

theorem fresh_init_step {s s' : Sys} {h : Hist} {a : Act} (hstep : Step s a s')
    (hinit : s.rt = .init → ¬ s.area 0 > 0x80) (henv : LockEnv ⟨s, h⟩ a) :
    s'.rt = .init → ¬ s'.area 0 > 0x80 := by
  intro hi
  cases hstep with
  | spawn init hp =>
    cases init with
    | true => exact henv rfl
    | false => simp at hi
  | endMark c hp | endGetvalue c hp | endPost c val hp =>
    cases c <;> simp [Caller.ending, Caller.ended] at hi
  | store i hp => simp_all [LockEnv]
  | _ => first | exact hinit hi | simp at hi

/-- The record of the posts follows the token of the runtime. -/
theorem posts_step {s s' : Sys} {h : Hist} {a : Act} (hstep : Step s a s') (hs : Sane s)
    (hp : PostsGo s) (hinit : s.rt = .init → ¬ s.area 0 > 0x80) (henv : LockEnv ⟨s, h⟩ a)
    (hposts : h.execs.length = h.posts + (rtOwns (s.area 0) s.rt).toNat) :
    (note s a h).execs.length = (note s a h).posts + (rtOwns (s'.area 0) s'.rt).toNat := by
  rw [length_execs] at hposts ⊢
  cases hstep with
  | init hpc => simpa [note, noteRt, hpc, rtOwns, hinit hpc] using hposts
  | unfinished hpc hm => simpa [note, noteRt, hpc, rtOwns, hm] using hposts
  | finished hpc hm => simpa [note, noteRt, hpc, rtOwns, hm] using hposts
  | endMark c hpc | endGetvalue c hpc =>
    rw [hpc, rtOwns_ending] at hposts
    cases c <;> simpa [note, noteRt, hpc, Caller.ending, rtOwns] using hposts
  | endPost c val hpc =>
    have hv := hp.rt c val hpc
    have h80 := (hs.at_post hpc).1
    rw [hpc, rtOwns_ending] at hposts
    subst hv
    simp only [h80, rtOwns_ended]
    cases c <;> simpa [note, noteRt, hpc, Caller.ending] using hposts
  | abortDr hpc hd =>
    have := hs.dr_le
    omega
  | startWait hpc hd =>
    simp only [note, noteRt, hpc, rtOwns, Bool.toNat_false] at hposts ⊢
    simpa using hposts
  | abortTainted i c hpc hi ht => exact absurd (hs.at_check hpc).2 ht
  | call hpc =>
    rcases hpc with hpc | hpc
    · simpa [note, hpc, rtOwns] using hposts
    · simpa [note, hpc, rtOwns, henv hpc] using hposts
  | store i hpc =>
    have ht : s.rt = .target := henv
    simpa [note, ht, rtOwns] using hposts
  | kill hpc =>
    have ht : s.rt = .target := henv.1
    have hm : s.area 0 > 0x80 := henv.2
    rw [ht] at hposts
    simpa [note, rtOwns, hm] using hposts
  | spawn init hpc => cases init <;> simpa [note, hpc, rtOwns] using hposts
  | copied i hpc hi => simpa [note, noteDm, hpc, hi] using hposts
  | copy i hpc hi => simpa [note, noteDm, hpc, hi] using hposts
  | _ => simp_all [note, noteRt, noteDm, rtOwns]

theorem calls_step {s s' : Sys} {h : Hist} {a : Act} (hstep : Step s a s') (hs : Sane s)
    (henv : LockEnv ⟨s, h⟩ a) (hcalls : h.calls = h.execs.length + (entering s.rt).toNat) :
    (note s a h).calls = (note s a h).execs.length + (entering s'.rt).toNat := by
  rw [length_execs] at hcalls ⊢
  cases hstep with
  | endMark c hpc | endGetvalue c hpc =>
    cases c <;> simpa [note, noteRt, hpc, Caller.ending, entering] using hcalls
  | endPost c val hpc =>
    cases c <;> simp only [note, noteRt, hpc, Caller.ending, Caller.ended] <;> split <;>
      simpa [hpc, Caller.ending, entering] using hcalls
  | abortDr hpc hd =>
    have := hs.dr_le
    omega
  | startWait hpc hd => simpa [note, noteRt, hpc, entering] using hcalls
  | call hpc => rcases hpc with hpc | hpc <;> simpa [note, hpc, entering] using hcalls
  | store i hpc =>
    have ht : s.rt = .target := henv
    simpa [note, ht, entering] using hcalls
  | kill hpc =>
    have ht : s.rt = .target := henv.1
    simpa [note, ht, entering] using hcalls
  | spawn init hpc => cases init <;> simpa [note, hpc, entering] using hcalls
  | copied i hpc hi => simpa [note, noteDm, hpc, hi] using hcalls
  | copy i hpc hi => simpa [note, noteDm, hpc, hi] using hcalls
  | _ => simp_all [note, noteRt, noteDm, entering]

theorem pending_step {s s' : Sys} {h : Hist} {a : Act} (hstep : Step s a s') (hs : Sane s)
    (hp : PostsGo s) (hinit : s.rt = .init → ¬ s.area 0 > 0x80) (henv : LockEnv ⟨s, h⟩ a)
    (hpend : h.pending = unhanded (s.area 0) s.rt) :
    (note s a h).pending = unhanded (s'.area 0) s'.rt := by
  cases hstep with
  | init hpc => simpa [note, noteRt, hpc, unhanded, hinit hpc] using hpend
  | unfinished hpc hm => simpa [note, noteRt, hpc, unhanded, hm] using hpend
  | finished hpc hm => simpa [note, noteRt, hpc, unhanded, hm] using hpend
  | endMark c hpc | endGetvalue c hpc =>
    cases c <;> simpa [note, noteRt, hpc, Caller.ending, unhanded] using hpend
  | endPost c val hpc =>
    have hv := hp.rt c val hpc
    have h80 := (hs.at_post hpc).1
    subst hv
    cases c <;> simp [note, noteRt, hpc, Caller.ending, Caller.ended, unhanded, h80]
  | abortDr hpc hd =>
    have := hs.dr_le
    omega
  | abortTainted i c hpc hi ht => exact absurd (hs.at_check hpc).2 ht
  | call hpc =>
    rcases hpc with hpc | hpc
    · simpa [note, hpc, unhanded] using hpend
    · simp [note, hpc, unhanded, henv hpc]
  | store i hpc =>
    have ht : s.rt = .target := henv
    simpa [note, ht, unhanded] using hpend
  | kill hpc =>
    have ht : s.rt = .target := henv.1
    have hm : s.area 0 > 0x80 := henv.2
    simp [note, ht, unhanded, hm]
  | spawn init hpc => cases init <;> simpa [note, hpc, unhanded] using hpend
  | copied i hpc hi => simpa [note, noteDm, hpc, hi] using hpend
  | copy i hpc hi => simpa [note, noteDm, hpc, hi] using hpend
  | _ => simp_all [note, noteRt, noteDm, unhanded]

theorem locked_step {o o' : Obs} {a : Act} (hstep : observe step note o a = some o')
    (h : Locked o) (henv : LockEnv o a) : Locked o' := by
  obtain ⟨hs, hh⟩ := observe_cases hstep
  refine ⟨safe_step hstep h.toSafe henv.safe, locked_tokens hstep h henv,
    fresh_init_step hs h.fresh_init henv, ?_, ?_, ?_⟩
  · rw [hh]
    exact posts_step hs h.sane h.go h.fresh_init henv h.posts
  · rw [hh]
    exact calls_step hs h.sane henv h.calls
  · rw [hh]
    exact pending_step hs h.sane h.go h.fresh_init henv h.pending

theorem locked_boot : Locked ⟨boot, Hist.empty⟩ :=
  ⟨safe_boot, by decide, fun _ => by decide, by decide, by decide, by decide⟩

theorem locked_reached {o : Obs} (h : Reached LockEnv o) : Locked o :=
  h.inv locked_boot fun _ _ _ hl he hstep => locked_step hstep hl he

/-! ## The laws -/

/-- One `__lscov_init`, stores only between `__lscov_main` and `__lscov_fin`,
and executions that end through `__lscov_fin` or crash in target code while
the status byte still holds 0x81. -/
def TidyEnv : Env := fun o a =>
  match a with
  | .store _ => o.state.rt = .target
  | .call => o.state.rt = .started
  | .kill => o.state.rt = .target ∧ o.state.area 0 = 0x81
  | .spawn init => init = false
  | _ => True

theorem TidyEnv.lock {o : Obs} {a : Act} (h : TidyEnv o a) : LockEnv o a := by
  cases a with
  | store i => exact h
  | call => exact LockEnv.of_started h
  | kill => exact ⟨h.1, by rw [h.2]; decide⟩
  | spawn init => exact LockEnv.of_spawn h
  | _ => trivial

theorem locked_of_tidy {o : Obs} (h : Reached TidyEnv o) : Locked o :=
  locked_reached (h.mono fun _ _ => TidyEnv.lock)

/-- A process is past `sem_wait(dr)`, and has not posted `rd`. -/
def inside : rt.Pc → Bool
  | .main (.startExec (.clear _)) | .main (.check _ _) | .target | .fin _ => true
  | _ => false

theorem rtOwns_eq (v : UInt8) (p : rt.Pc) : rtOwns v p = (inside p || unhanded v p) := by
  cases p with
  | main p =>
    cases p with
    | startExec p => cases p <;> rfl
    | _ => rfl
  | _ => rfl

/-- The four places where the token can be. -/
inductive Side
  | rd
  | dr
  | runtime
  | daemon

def Side.Has (o : Obs) : Side → Prop
  | .rd => o.state.rd = 1
  | .dr => o.state.dr = 1
  | .runtime => inside o.state.rt = true ∨ o.hist.pending = true
  | .daemon => dmOwns o.state.dm = true

/-- The runtime waits for `dr`, the daemon waits for `rd`, and neither is posted. -/
def Deadlocked (s : Sys) : Prop :=
  s.rt = .main (.startExec .wait) ∧ s.dr = 0 ∧ s.dm = .semWait ∧ s.rd = 0

theorem has_runtime_iff {o : Obs} (h : Locked o) :
    Side.Has o .runtime ↔ rtOwns (o.state.area 0) o.state.rt = true := by
  simp [Side.Has, h.pending, rtOwns_eq]

theorem one_side {o : Obs} (h : Locked o) : ∃! side : Side, side.Has o := by
  have h1 := h.exact_one
  unfold tokens at h1
  have hrt := has_runtime_iff h
  cases hr : rtOwns (o.state.area 0) o.state.rt <;> cases hd : dmOwns o.state.dm <;>
    simp only [hr, hd, Bool.toNat_true, Bool.toNat_false, Bool.false_eq_true, iff_false,
      iff_true] at h1 hrt
  · by_cases h0 : o.state.rd = 1
    · refine ⟨.rd, h0, ?_⟩
      intro side hs
      cases side <;> simp_all [Side.Has]
    · refine ⟨.dr, by simp only [Side.Has]; omega, ?_⟩
      intro side hs
      cases side <;> simp_all [Side.Has]
  · refine ⟨.daemon, hd, ?_⟩
    intro side hs
    cases side <;> simp_all [Side.Has]
  · refine ⟨.runtime, hrt, ?_⟩
    intro side hs
    cases side <;> simp_all [Side.Has]
  · omega

theorem no_deadlock {o : Obs} (h : Locked o) : ¬ Deadlocked o.state := by
  rintro ⟨hrt, hdr, hdm, hrd⟩
  have h1 := h.exact_one
  simp [tokens, hrt, hdr, hdm, hrd, rtOwns, dmOwns] at h1

/-- In every reached state exactly one of `rd`, `dr`, the runtime and the daemon
has the area. So neither conditional post is skipped, and the two sides never
block each other. -/
theorem the_area_has_one_holder (o : Obs) (h : Reached TidyEnv o) :
    (∃! side : Side, side.Has o) ∧
      (∀ c val, o.state.rt = Caller.ending c (.post val) → val = 0) ∧
      (∀ val, o.state.dm = .markPost val → val = 0) ∧
      ¬ Deadlocked o.state := by
  have hl := locked_of_tidy h
  exact ⟨one_side hl, hl.go.rt, hl.go.dm, no_deadlock hl⟩

/-- The first execution in its target code: the runtime has the area. -/
theorem the_first_execution_has_the_area :
    (∃! side : Side, side.Has (inTarget .getvalue)) ∧ Side.Has (inTarget .getvalue) .runtime ∧
      ¬ Deadlocked (inTarget .getvalue).state := by
  have hr : Reached TidyEnv (inTarget .getvalue) :=
    reached_inTarget (fun _ => trivial) (fun _ h => h) (fun _ _ _ => trivial)
  have h := the_area_has_one_holder (inTarget .getvalue) hr
  exact ⟨h.1, Or.inl rfl, h.2.2.2⟩

end lscov
