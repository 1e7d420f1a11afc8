-- The laws of the sanity checks. Whatever the fuzzer kills and whatever the
-- target stores, no semaphore passes 1, and an execution starts on a clear
-- area. So no `LSCOV_ABORT` and no `FATAL` on a semaphore ever fires.
import LogicStateCoverage.SoloRuns

namespace lscov

open runs

/-! ## What holds at each place of the code -/

/-- The bytes past the status byte, up to `n`, are clear. -/
def Area.ClearTo (a : Area) (n : Nat) : Prop := ∀ j : Idx, j ≠ 0 → j.val < n → a j = 0

/-- What the runtime knows at each of its places. Only the process that runs
stores to the area, and only it posts `rd`. -/
def CodeOk (m : Shm) : rt.Pc → Prop
  | .main (.endExec .mark) => m.area 0 > 0x80
  | .main (.endExec .getvalue) | .fin .getvalue => m.area 0 = 0x80
  | .main (.endExec (.post val)) | .fin (.post val) => m.area 0 = 0x80 ∧ (val = 0 → m.rd = 0)
  | .main .getvalue | .main (.startExec .mark) => ¬ m.area 0 > 0x80
  | .main (.startExec .wait) => m.area 0 = 0x81
  | .main (.startExec (.clear i)) => m.area 0 = 0x81 ∧ 1 ≤ i ∧ m.area.ClearTo i
  | .main (.check i hc) => m.area 0 = 0x81 ∧ 1 ≤ i ∧ hc = 0 ∧ m.area.ClearTo LSTATE_SIZE
  | .aborted _ => False
  | _ => True

/-- What the daemon knows at each of its places. Only the daemon posts `dr`. -/
def DaemonOk (m : Shm) : daemon.Pc → Prop
  | .copy i => i ≤ LSTATE_SIZE
  | .markPost val => val = 0 → m.dr = 0
  | .fatal _ => False
  | _ => True

structure Sane (s : Sys) : Prop where
  rd_le : s.rd ≤ 1
  dr_le : s.dr ≤ 1
  code : CodeOk s.toShm s.rt
  loop : DaemonOk s.toShm s.dm

/-- At the post of `rd` the status byte is 0x80, and a 0 that was read still stands. -/
theorem Sane.at_post {s : Sys} (hs : Sane s) {c : Caller} {val : Nat}
    (h : s.rt = c.ending (.post val)) : s.area 0 = 0x80 ∧ (val = 0 → s.rd = 0) := by
  have hc := hs.code
  rw [h] at hc
  cases c <;> exact hc

/-- In the loop over `_test_hc` the marker stands, and every byte read was clear. -/
theorem Sane.at_check {s : Sys} (hs : Sane s) {i : Nat} {hc : UInt8}
    (h : s.rt = .main (.check i hc)) : s.area 0 = 0x81 ∧ hc = 0 := by
  have hok := hs.code
  rw [h] at hok
  exact ⟨hok.1, hok.2.2.1⟩

/-- The daemon leaves the area alone and only takes from `rd`. -/
theorem CodeOk.of_le {m m' : Shm} {p : rt.Pc} (h : CodeOk m p) (ha : m'.area = m.area)
    (hr : m'.rd ≤ m.rd) : CodeOk m' p := by
  have hpost : ∀ val, (m.area 0 = 0x80 ∧ (val = 0 → m.rd = 0)) →
      m'.area 0 = 0x80 ∧ (val = 0 → m'.rd = 0) := by
    rintro val ⟨h1, h2⟩
    exact ⟨by rw [ha]; exact h1, fun hv => by have := h2 hv; omega⟩
  cases p with
  | main p =>
    cases p with
    | endExec p =>
      cases p with
      | post val => exact hpost val h
      | _ => simpa only [CodeOk, ha] using h
    | startExec p => cases p <;> simpa only [CodeOk, ha] using h
    | test => trivial
    | _ => simpa only [CodeOk, ha] using h
  | fin p =>
    cases p with
    | post val => exact hpost val h
    | mark => trivial
    | getvalue => simpa only [CodeOk, ha] using h
  | _ => exact h

/-- The runtime only takes from `dr`. -/
theorem DaemonOk.of_le {m m' : Shm} {p : daemon.Pc} (h : DaemonOk m p) (hd : m'.dr ≤ m.dr) :
    DaemonOk m' p := by
  cases p with
  | markPost val =>
    intro hv
    have := h hv
    omega
  | _ => exact h

/-- A step of the daemon touches neither the area nor the place of the
runtime, and it never adds to `rd`. -/
theorem Step.dm_frame {s s' : Sys} (h : Step s .dm s') :
    s'.area = s.area ∧ s'.rt = s.rt ∧ s'.rd ≤ s.rd := by
  cases h <;> simp

/-- Every other step leaves the daemon where it is, and never adds to `dr`. -/
theorem Step.rt_frame {s s' : Sys} {a : Act} (h : Step s a s') (ha : a ≠ .dm) :
    s'.dm = s.dm ∧ s'.lstate = s.lstate ∧ s'.dr ≤ s.dr := by
  cases h <;> simp_all

/-! ## One step -/

theorem clearTo_set {a : Area} {i : Nat} (hi : i < LSTATE_SIZE) (h : a.ClearTo i) :
    (a.set ⟨i, hi⟩ 0).ClearTo (i + 1) := by
  intro j hj hlt
  by_cases hij : j = ⟨i, hi⟩
  · rw [hij, Area.set_self]
  · rw [Area.set_ne a 0 hij]
    apply h j hj
    have : j.val ≠ i := fun he => hij (Fin.ext he)
    omega

theorem clearTo_mono {a : Area} {i n : Nat} (h : a.ClearTo i) (hn : n ≤ i) : a.ClearTo n :=
  fun j hj hlt => h j hj (by omega)

/-- A runtime place is sane after each step of its process. -/
theorem code_step {s s' : Sys} {a : Act} (h : Step s a s') (ha : a ≠ .dm) (hs : Sane s) :
    CodeOk s'.toShm s'.rt := by
  have hc := hs.code
  have hdr := hs.dr_le
  cases h with
  | unfinished h hm => exact hm
  | finished h hm => exact hm
  | endMark c h => cases c <;> simp [CodeOk, Caller.ending]
  | endGetvalue c h =>
    cases c <;> simp only [h, Caller.ending, CodeOk] at hc ⊢ <;> exact ⟨hc, id⟩
  | endPost c val h =>
    have h80 := (hs.at_post h).1
    cases c with
    | main =>
      simp only [Caller.ended, CodeOk, h80]
      decide
    | fin => trivial
  | abortDr h hd => omega
  | getvalueDr h hd => simpa only [h, CodeOk] using hc
  | startMark h => simp [CodeOk]
  | startWait h hd =>
    simp only [h, CodeOk] at hc ⊢
    refine ⟨hc, Nat.le_refl 1, ?_⟩
    intro j hj hlt
    exact absurd (Fin.ext (by simpa using hlt)) hj
  | clear i h hi =>
    simp only [h, CodeOk] at hc ⊢
    obtain ⟨h0, h1, hclear⟩ := hc
    refine ⟨?_, by omega, clearTo_set hi hclear⟩
    rw [Area.set_ne _ _ (idx_ne_zero hi h1).symm]
    exact h0
  | cleared i h hi =>
    simp only [h, CodeOk] at hc
    exact ⟨hc.1, Nat.le_refl 1, rfl, clearTo_mono hc.2.2 (by omega)⟩
  | check i c h hi =>
    simp only [h, CodeOk] at hc ⊢
    obtain ⟨h0, h1, rfl, hclear⟩ := hc
    refine ⟨h0, by omega, ?_, hclear⟩
    -- Turn 0 would sample the status byte; every turn from 1 on samples a clear byte.
    have hne := idx_ne_zero (rt.sample_lt hi) (rt.one_le_sample h1)
    rw [hclear _ hne (rt.sample_lt hi)]
    rfl
  | abortTainted i c h hi ht => exact ht (hs.at_check h).2
  | kill h => trivial
  | spawn init h => cases init <;> trivial
  | store i h => rcases h with h | h <;> simp [h, CodeOk]
  | _ => trivial

/-- The daemon is sane after each of its own steps. -/
theorem loop_step {s s' : Sys} (h : Step s .dm s') (hs : Sane s) : DaemonOk s'.toShm s'.dm := by
  have hrd := hs.rd_le
  cases h with
  | poll h hm => simp [h, DaemonOk]
  | fatalRd h hd => omega
  | semWait h hd => exact Nat.zero_le _
  | copy i h hi => exact hi
  | mark h => exact id
  | update n h =>
    rcases daemon.update_turn_pc s.toOwn n with hn | hn <;> simp [hn, DaemonOk]
  | _ => trivial

theorem sane_step {s s' : Sys} {a : Act} (h : Step s a s') (hs : Sane s) : Sane s' := by
  by_cases ha : a = .dm
  · subst ha
    obtain ⟨harea, hrt, hrd⟩ := h.dm_frame
    refine ⟨Nat.le_trans hrd hs.rd_le, ?_, ?_, loop_step h hs⟩
    · have hl := hs.loop
      have hdr := hs.dr_le
      cases h with
      | markPost val h =>
        simp only [h, DaemonOk] at hl ⊢
        split
        · have := hl ‹_›
          omega
        · exact hdr
      | _ => exact hdr
    · rw [hrt]
      exact hs.code.of_le harea hrd
  · obtain ⟨hdm, -, hdr⟩ := h.rt_frame ha
    refine ⟨?_, Nat.le_trans hdr hs.dr_le, code_step h ha hs, ?_⟩
    · have hrd := hs.rd_le
      cases h with
      | endPost c val h =>
        simp only
        split
        · have := (hs.at_post h).2 ‹_›
          omega
        · exact hrd
      | _ => first | exact hrd | exact absurd rfl ha
    · rw [hdm]
      exact hs.loop.of_le hdr

theorem sane_boot : Sane boot := by
  refine ⟨?_, ?_, trivial, trivial⟩ <;> simp [boot]

/-! ## The laws -/

/-- Every act may happen wherever the machine can do it: kills at any step,
restarts with or without `__lscov_init`, stores to any index. -/
def AnyEnv : Env := fun _ _ => True

theorem sane_reached {env : Env} {o : Obs} (h : Reached env o) : Sane o.state := by
  apply h.inv (P := fun o => Sane o.state) sane_boot
  intro o o' a hs _ hstep
  exact sane_step (observe_cases hstep).1 hs

/-- No semaphore passes 1, the runtime never gets to an `LSCOV_ABORT`, and the
daemon never gets to its assertion on `rd` nor to any other `FATAL`. -/
theorem the_sanity_checks_never_fire (o : Obs) (h : Reached AnyEnv o) :
    o.state.rd ≤ 1 ∧ o.state.dr ≤ 1 ∧
      (∀ why, o.state.rt ≠ .aborted why) ∧ (∀ why, o.state.dm ≠ .fatal why) := by
  have hs := sane_reached h
  refine ⟨hs.rd_le, hs.dr_le, ?_, ?_⟩
  · intro why hw
    have hc := hs.code
    rw [hw] at hc
    exact hc
  · intro why hw
    have hl := hs.loop
    rw [hw] at hl
    exact hl

/-- After a kill at `sem_wait(dr)` both semaphores are at 1, and none passes it. -/
theorem the_checks_hold_after_a_kill :
    bothPosted.state.rd = 1 ∧ bothPosted.state.dr = 1 ∧
      bothPosted.state.rd ≤ 1 ∧ bothPosted.state.dr ≤ 1 ∧
      (∀ why, bothPosted.state.rt ≠ .aborted why) ∧
      (∀ why, bothPosted.state.dm ≠ .fatal why) :=
  ⟨rfl, rfl, the_sanity_checks_never_fire bothPosted
    (reached_bothPosted (fun _ => trivial) (fun _ => trivial) (fun _ _ => trivial)
      (fun _ _ => trivial) (fun _ => trivial))⟩

end lscov
