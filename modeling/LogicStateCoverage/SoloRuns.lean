-- The runs in which one side goes on alone: the daemon copies the area and
-- comes back to its semaphore, a process enters through `__lscov_main`, and
-- it leaves through `__lscov_fin`. The loops over the area all come to their
-- end.
import LogicStateCoverage.Protocol

namespace lscov

open runs

/-- One act of a solo run. -/
theorem solo {env : Env} {o : Obs} {s : Sys} {h : Hist} {a : Act} (he : env o a)
    (hs : Step o.state a s) (hh : note o.state a o.hist = h) :
    Reach (observe step note) env o ⟨s, h⟩ :=
  .one he (by rw [hs.observe_eq, hh])

/-! ## Loops over the area -/

/-- The area from byte `i` on, over the lstate before it. -/
def copiedFrom (l a : Area) (i : Nat) : Area := fun j => if i ≤ j.val then a j else l j

theorem copiedFrom_zero (l a : Area) : copiedFrom l a 0 = a := by
  funext j
  simp [copiedFrom]

theorem copiedFrom_end (l a : Area) : copiedFrom l a LSTATE_SIZE = l := by
  funext j
  simp [copiedFrom, Nat.not_le.mpr j.isLt]

/-- One turn of a loop that has the rest still to do. -/
theorem copiedFrom_set (l a : Area) {i : Nat} (hi : i < LSTATE_SIZE) :
    copiedFrom (l.set ⟨i, hi⟩ (a ⟨i, hi⟩)) a (i + 1) = copiedFrom l a i := by
  funext j
  by_cases hij : j = ⟨i, hi⟩
  · subst hij
    simp [copiedFrom]
  · have hne : j.val ≠ i := fun he => hij (Fin.ext he)
    simp only [copiedFrom, Area.set_ne _ _ hij]
    by_cases hle : i ≤ j.val
    · rw [if_pos hle, if_pos (by omega)]
    · rw [if_neg hle, if_neg (by omega)]

/-- The area with the bytes from `i` on cleared. -/
def clearedFrom (a : Area) (i : Nat) : Area := copiedFrom a Area.zero i

/-! ## The daemon alone -/

section daemon

variable {env : Env} (henv : ∀ o, env o .dm)

include henv

theorem copy_runs (k i : Nat) (hk : i + k = LSTATE_SIZE) (o : Obs) (hp : o.state.dm = .copy i) :
    Reach (observe step note) env o
      ⟨{ o.state with lstate := copiedFrom o.state.lstate o.state.area i, dm := .copy LSTATE_SIZE },
        o.hist⟩ := by
  induction k generalizing i o with
  | zero =>
    have hi : i = LSTATE_SIZE := by omega
    subst hi
    rw [copiedFrom_end, ← hp]
    exact .start
  | succ k ih =>
    have hi : i < LSTATE_SIZE := by omega
    have hone : Reach (observe step note) env o _ :=
      solo (h := o.hist) (henv o) (.copy i hp hi) (by simp [note, noteDm, hp, hi])
    have hrest := ih (i + 1) (by omega)
      ⟨{ o.state with
        lstate := o.state.lstate.set ⟨i, hi⟩ (o.state.area ⟨i, hi⟩), dm := .copy (i + 1) },
        o.hist⟩ rfl
    simp only [copiedFrom_set] at hrest
    exact hone.trans hrest

/-- From any byte on, the daemon ends its copy and writes it down. -/
theorem copied_runs (i : Nat) (hi : i ≤ LSTATE_SIZE) (o : Obs) (hp : o.state.dm = .copy i) :
    Reach (observe step note) env o
      ⟨{ o.state with lstate := copiedFrom o.state.lstate o.state.area i, dm := .mark },
        { o.hist with
          snaps := o.hist.snaps ++ [copiedFrom o.state.lstate o.state.area i] }⟩ := by
  have hcopy := copy_runs henv (LSTATE_SIZE - i) i (by omega) o hp
  refine hcopy.trans (solo (henv _) (.copied LSTATE_SIZE rfl (Nat.lt_irrefl _)) ?_)
  simp [note, noteDm]

/-- From its semaphore with `rd` posted, the daemon copies the area as it is. -/
theorem taken_runs (o : Obs) (hp : o.state.dm = .getvalue ∨ o.state.dm = .semWait)
    (hrd : o.state.rd = 1) :
    Reach (observe step note) env o
      ⟨{ o.state with rd := 0, lstate := o.state.area, dm := .mark },
        { o.hist with snaps := o.hist.snaps ++ [o.state.area] }⟩ := by
  have hwait : ∀ o : Obs, o.state.dm = .semWait → o.state.rd = 1 →
      Reach (observe step note) env o
        ⟨{ o.state with rd := 0, lstate := o.state.area, dm := .mark },
          { o.hist with snaps := o.hist.snaps ++ [o.state.area] }⟩ := by
    intro o hp hrd
    have hone : Reach (observe step note) env o _ :=
      solo (h := o.hist) (henv o) (.semWait hp (by omega)) (by simp [note, noteDm, hp])
    have hcopy := copied_runs henv 0 (Nat.zero_le _)
      ⟨{ o.state with rd := o.state.rd - 1, dm := .copy 0 }, o.hist⟩ rfl
    simp only [copiedFrom_zero, hrd] at hcopy
    simp only [hrd] at hone
    exact hone.trans hcopy
  rcases hp with hp | hp
  · have hone : Reach (observe step note) env o _ :=
      solo (h := o.hist) (henv o) (.getvalueRd hp (by omega)) (by simp [note, noteDm, hp])
    exact hone.trans (hwait ⟨{ o.state with dm := .semWait }, o.hist⟩ rfl hrd)
  · exact hwait o hp hrd

/-- The loop over the hashes comes back to the semaphore. -/
theorem update_runs (k n : Nat) (hk : daemon.num_hashes.toNat - n = k) (o : Obs)
    (hp : o.state.dm = .update n) :
    ∃ b, Reach (observe step note) env o
      ⟨{ o.state with bfilter := b, dm := .getvalue }, o.hist⟩ := by
  have hone : Reach (observe step note) env o _ :=
    solo (h := o.hist) (henv o) (.update n hp) (by simp [note, noteDm, hp])
  induction k generalizing n o with
  | zero =>
    refine ⟨o.state.bfilter, ?_⟩
    have hturn : daemon.update_turn o.state.toOwn n = (o.state.toOwn, .getvalue) :=
      if_neg (by omega)
    simp only [hturn] at hone
    exact hone
  | succ k ih =>
    obtain ⟨b, hb⟩ := daemon.update_turn_goes_on o.state.toOwn n (by omega)
    simp only [hb] at hone
    obtain ⟨b', hrest⟩ := ih (n + 1) (by omega)
      ⟨{ o.state with bfilter := b, dm := .update (n + 1) }, o.hist⟩ rfl
      (solo (henv _) (.update (n + 1) rfl) rfl)
    exact ⟨b', hone.trans hrest⟩

end daemon

/-! ## A process alone -/

/-- The area as `__lscov_start_exec` leaves it. -/
def freshArea : Area := Area.zero.set 0 0x81

theorem eq_freshArea {a : Area} (h0 : a 0 = 0x81) (h : a.Holds []) : a = freshArea := by
  funext j
  by_cases hj : j = 0
  · rw [hj, h0]
    rfl
  · rw [h j hj, freshArea, Area.set_ne _ _ hj]
    rfl

section process

variable {env : Env}

theorem clear_runs (k i : Nat) (hk : i + k = LSTATE_SIZE) (o : Obs)
    (henv : ∀ o' : Obs, o'.state.rd = o.state.rd → o'.state.dm = o.state.dm → env o' .rt)
    (hp : o.state.rt = .main (.startExec (.clear i))) :
    Reach (observe step note) env o
      ⟨{ o.state with
        area := clearedFrom o.state.area i, rt := .main (.startExec (.clear LSTATE_SIZE)) },
        o.hist⟩ := by
  induction k generalizing i o with
  | zero =>
    have hi : i = LSTATE_SIZE := by omega
    subst hi
    rw [clearedFrom, copiedFrom_end, ← hp]
    exact .start
  | succ k ih =>
    have hi : i < LSTATE_SIZE := by omega
    have hone : Reach (observe step note) env o _ :=
      solo (h := o.hist) (henv o rfl rfl) (.clear i hp hi) (by simp [note, noteRt, hp])
    have hrest := ih (i + 1) (by omega)
      ⟨{ o.state with
        area := o.state.area.set ⟨i, hi⟩ 0, rt := .main (.startExec (.clear (i + 1))) },
        o.hist⟩ henv rfl
    have ha : clearedFrom (o.state.area.set ⟨i, hi⟩ 0) (i + 1) = clearedFrom o.state.area i :=
      copiedFrom_set o.state.area Area.zero hi
    simp only [ha] at hrest
    exact hone.trans hrest

/-- The loop over `_test_hc` finds a clear area clear. -/
theorem check_runs (k i : Nat) (hk : i + k = LSTATE_SIZE >>> 6) (hi1 : 1 ≤ i) (o : Obs)
    (henv : ∀ o' : Obs, o'.state.rd = o.state.rd → o'.state.dm = o.state.dm → env o' .rt)
    (hp : o.state.rt = .main (.check i 0)) (hclear : o.state.area.Holds []) :
    Reach (observe step note) env o ⟨{ o.state with rt := .target }, o.hist⟩ := by
  induction k generalizing i o with
  | zero =>
    exact solo (henv o rfl rfl) (.checked i 0 hp (by omega) rfl) (by simp [note, noteRt, hp])
  | succ k ih =>
    have hi : i < LSTATE_SIZE >>> 6 := by omega
    have hzero : (0 : UInt8) ||| o.state.area ⟨i <<< 6, rt.sample_lt hi⟩ = 0 := by
      rw [hclear _ (idx_ne_zero (rt.sample_lt hi) (rt.one_le_sample hi1))]
      simp
    have hone : Reach (observe step note) env o _ :=
      solo (h := o.hist) (henv o rfl rfl) (.check i 0 hp hi) (by simp [note, noteRt, hp])
    rw [hzero] at hone
    exact hone.trans (ih (i + 1) (by omega) (by omega)
      ⟨{ o.state with rt := .main (.check (i + 1) 0) }, o.hist⟩ henv rfl hclear)

/-- A process that `dr` lets in comes to the code of the target, with a fresh area. -/
theorem let_in_runs (o : Obs)
    (henv : ∀ o' : Obs, o'.state.rd = o.state.rd → o'.state.dm = o.state.dm → env o' .rt)
    (hp : o.state.rt = .main (.startExec .wait)) (h81 : o.state.area 0 = 0x81)
    (hdr : o.state.dr = 1) :
    Reach (observe step note) env o
      ⟨{ o.state with dr := 0, area := freshArea, rt := .target },
        { o.hist with past := o.hist.execs, cur := some [] }⟩ := by
  have hwait : Reach (observe step note) env o _ :=
    solo (h := { o.hist with past := o.hist.execs, cur := some [] }) (henv o rfl rfl)
      (.startWait hp (by omega)) (by simp [note, noteRt, hp])
  have hclear := clear_runs (LSTATE_SIZE - 1) 1 (by rw [LSTATE_SIZE_eq])
    ⟨{ o.state with dr := o.state.dr - 1, rt := .main (.startExec (.clear 1)) },
      { o.hist with past := o.hist.execs, cur := some [] }⟩ henv rfl
  have hfresh : clearedFrom o.state.area 1 = freshArea := by
    apply eq_freshArea
    · simpa [clearedFrom, copiedFrom] using h81
    · intro j hj
      have : 1 ≤ j.val := by
        have : j.val ≠ 0 := fun he => hj (Fin.ext he)
        omega
      simp [clearedFrom, copiedFrom, Area.zero, this]
  simp only [hfresh, hdr] at hclear
  simp only [hdr] at hwait
  refine Reach.trans (hwait.trans hclear) ?_
  refine Reach.trans (solo (henv _ rfl rfl) (.cleared LSTATE_SIZE rfl (Nat.lt_irrefl _)) rfl) ?_
  exact check_runs 1023 1 (by decide) (Nat.le_refl 1)
    ⟨{ o.state with dr := 0, area := freshArea, rt := .main (.check 1 0) },
      { o.hist with past := o.hist.execs, cur := some [] }⟩ henv rfl
    (by intro j hj; simp [freshArea, Area.set_ne _ _ hj, Area.zero])

/-- A process that finds the status byte quiet comes to `sem_wait(dr)`. -/
theorem enter_runs (o : Obs) (hcall : env o .call)
    (henv : ∀ o' : Obs, o'.state.rd = o.state.rd → o'.state.dm = o.state.dm → env o' .rt)
    (hp : o.state.rt = .started) (hm : ¬ o.state.area 0 > 0x80) (hdr : o.state.dr ≤ 1) :
    Reach (observe step note) env o
      ⟨{ o.state with area := o.state.area.set 0 0x81, rt := .main (.startExec .wait) },
        { o.hist with calls := o.hist.calls + 1, trace := o.hist.trace ++ [.call] }⟩ := by
  have hc : Reach (observe step note) env o _ :=
    solo (h := { o.hist with calls := o.hist.calls + 1, trace := o.hist.trace ++ [.call] }) hcall
      (.call (Or.inl hp)) (by simp [note, hp])
  refine Reach.trans hc ?_
  refine Reach.trans (solo (henv _ rfl rfl) (.finished rfl hm) rfl) ?_
  refine Reach.trans (solo (henv _ rfl rfl) (.getvalueDr rfl (Nat.not_lt.mpr hdr)) rfl) ?_
  exact solo (henv _ rfl rfl) (.startMark rfl) rfl

/-- A target that ends hands its execution over through `__lscov_fin`. -/
theorem leave_runs (o : Obs) (hexit : env o .exit)
    (henv : ∀ o' : Obs, o'.state.rd = o.state.rd → o'.state.dm = o.state.dm → env o' .rt)
    (hp : o.state.rt = .target) (hrd : o.state.rd = 0) :
    Reach (observe step note) env o
      ⟨{ o.state with rd := 1, area := o.state.area.set 0 0x80, rt := .dead },
        { o.hist with posts := o.hist.posts + 1, pending := false }⟩ := by
  have hx : Reach (observe step note) env o _ := solo (h := o.hist) hexit (.exit hp) rfl
  refine Reach.trans hx ?_
  refine Reach.trans (solo (henv _ rfl rfl) (.endMark .fin rfl) rfl) ?_
  refine Reach.trans (solo (henv _ rfl rfl) (.endGetvalue .fin rfl) rfl) ?_
  have hpost : Reach (observe step note) env
      ⟨{ o.state with area := o.state.area.set 0 0x80, rt := .fin (.post o.state.rd) }, o.hist⟩ _ :=
    solo (h := { o.hist with posts := o.hist.posts + 1, pending := false })
      (henv _ rfl rfl) (.endPost .fin o.state.rd rfl) (by simp [note, noteRt, hrd])
  have hone : (if o.state.rd = 0 then o.state.rd + 1 else o.state.rd) = 1 := by simp [hrd]
  simp only [hone] at hpost
  exact hpost

end process

/-! ## The first execution -/

section first

variable {env : Env} (hdm : ∀ o, env o .dm)
  (hcall : ∀ o : Obs, o.state.rt = .started → env o .call)
  (hrt : ∀ o : Obs, o.state.rd = 0 → o.state.dm ≠ .copy 0 → env o .rt)

/-- The first process after `__lscov_init`, with the daemon at the place `p`. -/
def ready (p : daemon.Pc) : Obs :=
  ⟨{ boot with area := Area.zero.set 0 0x80, rt := .started, dm := p }, Hist.empty⟩

/-- The first process in the code of the target, with the daemon at the place `p`. -/
def inTarget (p : daemon.Pc) : Obs :=
  ⟨{ boot with dr := 0, area := freshArea, rt := .target, dm := p },
    { Hist.empty with calls := 1, cur := some [], trace := [.call] }⟩

include hrt in
theorem reached_ready_wait : Reached env (ready .wait) :=
  solo (hrt _ rfl (by decide)) (.init rfl) rfl

include hdm hrt in
theorem reached_ready : Reached env (ready .getvalue) :=
  (reached_ready_wait hrt).trans (solo (hdm _) (.polled rfl rfl) rfl)

include hcall hrt in
theorem target_of_ready (p : daemon.Pc) (hp : p ≠ .copy 0) :
    Reach (observe step note) env (ready p) (inTarget p) := by
  have hquiet : ∀ o' : Obs, o'.state.rd = (ready p).state.rd → o'.state.dm = (ready p).state.dm →
      env o' .rt := by
    intro o' h1 h2
    exact hrt o' h1 (by rw [h2]; exact hp)
  have h80 : ¬ (ready p).state.area 0 > 0x80 := by simp [ready]
  have henter := enter_runs (ready p) (hcall _ rfl) hquiet rfl h80 (Nat.le_refl 1)
  exact henter.trans (let_in_runs _ hquiet rfl (by simp) rfl)

include hdm hcall hrt in
theorem reached_inTarget : Reached env (inTarget .getvalue) :=
  (reached_ready hdm hrt).trans (target_of_ready hcall hrt .getvalue (by decide))

/-- The first execution stored to index 5 and ended: `rd` is posted for it. -/
def firstEnded : Obs :=
  ⟨{ boot with
      rd := 1
      dr := 0
      area := (freshArea.set 5 1).set 0 0x80
      rt := .dead
      dm := .getvalue },
    { Hist.empty with calls := 1, cur := some [5], posts := 1, trace := [.call, .store 5] }⟩

/-- The daemon copied the first execution, and has not posted `dr` yet. -/
def firstCopied : Obs :=
  ⟨{ firstEnded.state with rd := 0, lstate := firstEnded.state.area, dm := .mark },
    { firstEnded.hist with snaps := [firstEnded.state.area] }⟩

variable (hstore : ∀ (o : Obs) (i : Idx), o.state.rt = .target → i ≠ 0 → env o (.store i))
  (hexit : ∀ o, env o .exit)

include hdm hcall hrt hstore hexit in
theorem reached_firstEnded : Reached env firstEnded := by
  refine Reach.trans (reached_inTarget hdm hcall hrt) ?_
  have hs : Reach (observe step note) env (inTarget .getvalue) _ :=
    solo (hstore _ 5 rfl (by decide)) (.store 5 (Or.inr rfl)) rfl
  refine Reach.trans hs (leave_runs _ (hexit _) (fun o h1 h2 => hrt o h1 ?_) rfl rfl)
  rw [h2]
  simp [inTarget]

include hdm hcall hrt hstore hexit in
theorem reached_firstCopied : Reached env firstCopied :=
  (reached_firstEnded hdm hcall hrt hstore hexit).trans
    (taken_runs hdm firstEnded (Or.inl rfl) rfl)

end first

/-! ## A kill at `sem_wait(dr)` -/

section kill

variable {env : Env} (hdm : ∀ o, env o .dm) (hrt : ∀ o, env o .rt)
  (hcall : ∀ o : Obs, o.state.rt = .started → env o .call)
  (hkill : ∀ o : Obs, o.state.rt = .main (.startExec .wait) → env o .kill)
  (hspawn : ∀ o, env o (.spawn false))

/-- The first process was killed at `sem_wait(dr)`, and the second one took its
marker for an execution that never ended: both semaphores are posted. -/
def bothPosted : Obs :=
  ⟨{ boot with
      rd := 1
      area := ((Area.zero.set 0 0x80).set 0 0x81).set 0 0x80
      rt := .main .getvalue
      dm := .getvalue },
    { Hist.empty with calls := 2, posts := 1, trace := [.call] }⟩

include hdm hrt hcall hkill hspawn in
theorem reached_bothPosted : Reached env bothPosted := by
  refine Reach.trans (reached_ready hdm (fun o _ _ => hrt o)) ?_
  refine Reach.trans (enter_runs (ready .getvalue) (hcall _ rfl) (fun o _ _ => hrt o) rfl
    (by decide) (Nat.le_refl 1)) ?_
  refine Reach.trans (solo (hkill _ rfl) (.kill (by decide)) rfl) ?_
  refine Reach.trans (solo (hspawn _) (.spawn false rfl) rfl) ?_
  refine Reach.trans (solo (hcall _ rfl) (.call (Or.inl rfl)) rfl) ?_
  refine Reach.trans (solo (hrt _) (.unfinished rfl (by decide)) rfl) ?_
  refine Reach.trans (solo (hrt _) (.endMark .main rfl) rfl) ?_
  refine Reach.trans (solo (hrt _) (.endGetvalue .main rfl) rfl) ?_
  exact solo (hrt _) (.endPost .main 0 rfl) rfl

end kill

end lscov
