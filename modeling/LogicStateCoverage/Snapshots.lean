-- The laws of the lstates that the daemon copies: the j-th one holds the
-- stores of the j-th execution, every execution that is handed over is copied,
-- and its status byte tells when the next execution starts too early.
import LogicStateCoverage.LockStep

namespace lscov

open runs

/-! ## Every execution is copied once -/

/-- The daemon goes on alone. -/
def DaemonOnly : Env := fun _ a => a = .dm

/-- The daemon is in its `memcpy`. -/
def copying : daemon.Pc → Bool
  | .copy _ => true
  | _ => false

theorem dmOwns_eq (p : daemon.Pc) :
    (dmOwns p).toNat = (copying p).toNat + (marking p).toNat := by
  cases p <;> rfl

/-- The executions that were handed over: copied, in copy, or posted. -/
theorem posts_eq {o : Obs} (h : Locked o) :
    o.hist.posts = o.hist.snaps.length + o.state.rd + (copying o.state.dm).toNat := by
  have h1 := h.exact_one
  have h2 := h.posts
  have h3 := h.count
  unfold tokens at h1
  rw [dmOwns_eq] at h1
  omega

/-- The daemon alone comes to copy all that was handed over. -/
theorem daemon_delivers {o : Obs} (h : Locked o) (hw : o.state.dm ≠ .wait) :
    ∃ o', Reach (observe step note) DaemonOnly o o' ∧ o'.hist.snaps.length = o.hist.posts := by
  have hposts := posts_eq h
  have hloop := h.sane.loop
  have hrd := h.sane.rd_le
  have hdm : ∀ o, DaemonOnly o .dm := fun _ => rfl
  have h1 := h.exact_one
  unfold tokens at h1
  -- At its semaphore the daemon takes `rd`, or has nothing to do.
  have hsem : ∀ o' : Obs, Reach (observe step note) DaemonOnly o o' → o'.hist = o.hist →
      o'.state.rd = o.state.rd → copying o.state.dm = false →
      (o'.state.dm = .getvalue ∨ o'.state.dm = .semWait) →
      ∃ o', Reach (observe step note) DaemonOnly o o' ∧ o'.hist.snaps.length = o.hist.posts := by
    intro o' hr hh hrd' hc hp
    by_cases h0 : o.state.rd = 1
    · refine ⟨_, hr.trans (taken_runs hdm o' hp (by omega)), ?_⟩
      simp [hh, hposts, h0, hc]
    · refine ⟨o', hr, ?_⟩
      simp [hh, hposts, hc]
      omega
  cases hp : o.state.dm with
  | wait => exact absurd hp hw
  | getvalue => exact hsem o .start rfl rfl (by rw [hp]; rfl) (Or.inl hp)
  | semWait => exact hsem o .start rfl rfl (by rw [hp]; rfl) (Or.inr hp)
  | copy i =>
    rw [hp] at hloop
    refine ⟨_, copied_runs hdm i hloop o hp, ?_⟩
    simp [hp, dmOwns] at h1
    simp [hposts, hp, copying]
    omega
  | mark =>
    simp [hp, dmOwns] at h1
    exact ⟨o, .start, by simp [hposts, hp, copying]; omega⟩
  | markPost val =>
    simp [hp, dmOwns] at h1
    exact ⟨o, .start, by simp [hposts, hp, copying]; omega⟩
  | update n =>
    obtain ⟨b, hb⟩ := update_runs hdm _ n rfl o hp
    exact hsem _ hb rfl rfl (by rw [hp]; rfl) (Or.inl rfl)
  | fatal why =>
    rw [hp] at hloop
    exact absurd hloop id

structure ExactlyOnce (o : Obs) : Prop where
  /-- The j-th lstate has byte i = 1 if the j-th execution stored to i, and 0 otherwise. -/
  in_order : ∀ (j : Nat) l, o.hist.snaps[j]? = some l →
    ∃ e, o.hist.execs[j]? = some e ∧ l.Holds e
  /-- The executions are numbered as their calls of `__lscov_main` are. -/
  numbered : o.hist.calls = o.hist.execs.length + (entering o.state.rt).toNat
  /-- Once an execution is let in, every execution before it is copied. -/
  before_next : inside o.state.rt = true → o.hist.snaps.length + 1 = o.hist.execs.length
  /-- An execution that is over and not cut off is handed over. -/
  handed : inside o.state.rt = false → o.hist.pending = false →
    o.hist.posts = o.hist.execs.length
  /-- The lstates are as many as the executions that were handed over, up to the
  one on its way, and the daemon in its loop comes to copy that one too. -/
  delivered : o.hist.snaps.length ≤ o.hist.posts ∧ o.hist.posts ≤ o.hist.snaps.length + 1 ∧
    (o.state.dm ≠ .wait → ∃ o', Reach (observe step note) DaemonOnly o o' ∧
      o'.hist.snaps.length = o.hist.posts)

/-- Each lstate is the exact set of stores of its execution, in order, and no
execution is copied twice or left out. -/
theorem each_execution_is_copied_once (o : Obs) (h : Reached TidyEnv o) : ExactlyOnce o := by
  have hl := locked_of_tidy h
  have h1 := hl.exact_one
  have hposts := posts_eq hl
  have howns := hl.posts
  unfold tokens at h1
  rw [dmOwns_eq] at h1
  have hrt := rtOwns_eq (o.state.area 0) o.state.rt
  rw [← hl.pending] at hrt
  refine ⟨hl.snaps, hl.calls, ?_, ?_, ?_, ?_, daemon_delivers hl⟩
  · intro hin
    simp only [hrt, hin, Bool.true_or, Bool.toNat_true] at h1 howns
    omega
  · intro hin hpend
    simp only [hrt, hin, hpend, Bool.or_false, Bool.toNat_false] at howns
    omega
  · omega
  · omega

/-- The first lstate of a run is the one of its first execution. -/
theorem the_first_execution_is_copied :
    firstCopied.hist.snaps.length = 1 ∧ firstCopied.hist.execs = [[5]] ∧
      ExactlyOnce firstCopied :=
  ⟨rfl, rfl, each_execution_is_copied_once firstCopied
    (reached_firstCopied (fun _ => trivial) (fun _ h => h) (fun _ _ _ => trivial)
      (fun _ _ h _ => h) (fun _ => trivial))⟩

/-! ## The status byte -/

/-- As `TidyEnv`, with the stores of the target at indices from 1 on. -/
def MapEnv : Env := fun o a => TidyEnv o a ∧ ∀ i, a = .store i → i ≠ 0

theorem MapEnv.of_tidy {o : Obs} {a : Act} (h : TidyEnv o a) (ha : ∀ i, a ≠ .store i) :
    MapEnv o a := ⟨h, fun i hi => absurd hi (ha i)⟩

theorem MapEnv.store {o : Obs} {i : Idx} (h : o.state.rt = .target) (hi : i ≠ 0) :
    MapEnv o (.store i) := by
  refine ⟨h, ?_⟩
  rintro k ⟨⟩
  exact hi

/-- `__lscov_start_exec` does not set its marker between the post of `rd` for the
execution before it and the daemon's copy of byte 0. -/
def Unhurried (o : Obs) (a : Act) : Prop :=
  a = .rt → o.state.rt = .main (.startExec .mark) → o.state.rd = 0 ∧ o.state.dm ≠ .copy 0

/-- The status byte of every lstate is 0x80. So two executions, of one run or of
two, that store to the same indices give one lstate and set the same bits of
the filter. -/
def StatusNeutral (o o' : Obs) : Prop :=
  (∀ l ∈ o.hist.snaps, l 0 = 0x80) ∧
    ∀ (j k : Nat) l l' e e', o.hist.snaps[j]? = some l → o'.hist.snaps[k]? = some l' →
      o.hist.execs[j]? = some e → o'.hist.execs[k]? = some e' → (∀ i, i ∈ e ↔ i ∈ e') →
      l = l' ∧ daemon.hash_indices l = daemon.hash_indices l'

/-- `P` holds of the status byte of an execution that is handed over and not copied
yet, and of every lstate. -/
structure StatusKept (P : UInt8 → Prop) (o : Obs) : Prop where
  posted : o.state.rd = 1 → P (o.state.area 0)
  first : o.state.dm = .copy 0 → P (o.state.area 0)
  copied : ∀ n, o.state.dm = .copy (n + 1) → P (o.state.lstate 0)
  snaps : ∀ l ∈ o.hist.snaps, P (l 0)

/-- What a step can do to the status byte. -/
theorem status_cases {s s' : Sys} {a : Act} (h : Step s a s') (hs : Sane s) :
    s'.area 0 = s.area 0 ∨ s'.area 0 = 0x80 ∨
      (a = .rt ∧ s.rt = .main (.startExec .mark) ∧ s'.area 0 = 0x81) ∨
      (a = .store 0 ∧ s'.area 0 = 1) := by
  have hc := hs.code
  cases h with
  | init h | endMark c h => exact Or.inr (Or.inl (by simp))
  | startMark h => exact Or.inr (Or.inr (Or.inl ⟨rfl, h, by simp⟩))
  | clear i h hi =>
    simp only [h, CodeOk] at hc
    exact Or.inl (Area.set_ne _ _ (idx_ne_zero hi hc.2.1).symm)
  | store i h =>
    by_cases h0 : i = 0
    · subst h0
      exact Or.inr (Or.inr (Or.inr ⟨rfl, by simp⟩))
    · exact Or.inl (Area.set_ne _ _ (Ne.symm h0))
  | _ => exact Or.inl rfl

section kept

variable {P : UInt8 → Prop}

theorem statusKept_boot : StatusKept P ⟨boot, Hist.empty⟩ :=
  ⟨by simp [boot], by simp [boot], by simp [boot], by simp [Hist.empty]⟩

theorem statusKept_dm {o : Obs} {s' : Sys} (hs : Step o.state .dm s') (hl : Sane o.state)
    (h : StatusKept P o) : StatusKept P ⟨s', note o.state .dm o.hist⟩ := by
  have hrd := hl.rd_le
  cases hs with
  | semWait hp hd =>
    have hkept := h.posted (by omega)
    refine ⟨fun _ => hkept, fun _ => hkept, by simp, ?_⟩
    simpa [note, noteDm, hp] using h.snaps
  | copy i hp hi =>
    refine ⟨h.posted, by simp, ?_, ?_⟩
    · intro n _
      simp only
      by_cases h0 : i = 0
      · subst h0
        show P (o.state.lstate.set 0 (o.state.area 0) 0)
        rw [Area.set_self]
        exact h.first hp
      · obtain ⟨m, rfl⟩ := Nat.exists_eq_succ_of_ne_zero h0
        rw [Area.set_ne _ _ (idx_ne_zero hi (Nat.le_add_left 1 m)).symm]
        exact h.copied m hp
    · simpa [note, noteDm, hp, hi] using h.snaps
  | copied i hp hi =>
    have h0 : i ≠ 0 := by
      rintro rfl
      exact hi (by decide)
    obtain ⟨m, rfl⟩ := Nat.exists_eq_succ_of_ne_zero h0
    refine ⟨h.posted, by simp, by simp, ?_⟩
    intro l hmem
    simp only [note, noteDm, hp, hi, if_false, List.mem_append, List.mem_singleton] at hmem
    rcases hmem with hmem | rfl
    · exact h.snaps l hmem
    · exact h.copied m hp
  | update n hp =>
    refine ⟨h.posted, ?_, ?_, by simpa [note, noteDm, hp] using h.snaps⟩ <;>
      rcases daemon.update_turn_pc o.state.toOwn n with hn | hn <;> simp [hn]
  | poll hp hm =>
    exact ⟨h.posted, by simp [hp], by simp [hp], by simpa [note, noteDm, hp] using h.snaps⟩
  | _ => exact ⟨h.posted, by simp, by simp, by simpa [note, noteDm, *] using h.snaps⟩

/-- The other steps keep it where they keep it of the byte that is handed over. -/
theorem statusKept_rt {o : Obs} {s' : Sys} {a : Act} (hs : Step o.state a s') (ha : a ≠ .dm)
    (hl : Sane o.state) (h : StatusKept P o) (h80 : P 0x80)
    (hkeep : o.state.rd = 1 ∨ o.state.dm = .copy 0 → P (o.state.area 0) → P (s'.area 0)) :
    StatusKept P ⟨s', note o.state a o.hist⟩ := by
  obtain ⟨hdm, hlst, -⟩ := hs.rt_frame ha
  refine ⟨?_, ?_, ?_, by rw [note_snaps ha]; exact h.snaps⟩
  · intro hrd
    -- Either `rd` was posted before, or this is the post, after the store of 0x80.
    by_cases h1 : o.state.rd = 1
    · exact hkeep (Or.inl h1) (h.posted h1)
    · cases hs with
      | endPost c val hp =>
        simp only
        rw [(hl.at_post hp).1]
        exact h80
      | _ => first | exact absurd hrd h1 | exact absurd rfl ha
  · intro hp
    rw [hdm] at hp
    exact hkeep (Or.inr hp) (h.first hp)
  · intro n hp
    rw [hdm] at hp
    rw [hlst]
    exact h.copied n hp

/-- One step, where the byte that is handed over is kept. -/
theorem statusKept_step {o o' : Obs} {a : Act} (hstep : observe step note o a = some o')
    (hl : Sane o.state) (h : StatusKept P o) (h80 : P 0x80)
    (hkeep : o.state.rd = 1 ∨ o.state.dm = .copy 0 → P (o.state.area 0) → P (o'.state.area 0)) :
    StatusKept P o' := by
  obtain ⟨s', hs, rfl⟩ := observe_next hstep
  by_cases ha : a = .dm
  · subst ha
    exact statusKept_dm hs hl h
  · exact statusKept_rt hs ha hl h h80 hkeep

end kept

/-- As `MapEnv`, with every next execution unhurried. -/
def UnhurriedEnv : Env := fun o a => MapEnv o a ∧ Unhurried o a

theorem UnhurriedEnv.of_map {o : Obs} {a : Act} (h : MapEnv o a) (ha : a ≠ .rt) :
    UnhurriedEnv o a := ⟨h, fun hrt => absurd hrt ha⟩

/-- The acts that are never early. -/
theorem UnhurriedEnv.of_tidy {o : Obs} {a : Act} (h : TidyEnv o a)
    (ha : a ≠ .rt ∧ ∀ i, a ≠ .store i) : UnhurriedEnv o a :=
  .of_map (.of_tidy h ha.2) ha.1

theorem UnhurriedEnv.rt {o : Obs} (hrd : o.state.rd = 0) (hdm : o.state.dm ≠ .copy 0) :
    UnhurriedEnv o .rt :=
  ⟨.of_tidy trivial (by simp), fun _ _ => ⟨hrd, hdm⟩⟩

theorem statusKept_reached {o : Obs} (h : Reached UnhurriedEnv o) :
    StatusKept (fun v => v = 0x80) o := by
  have key : Sane o.state ∧ StatusKept (fun v => v = 0x80) o := by
    apply h.inv (P := fun o => Sane o.state ∧ StatusKept (fun v => v = 0x80) o)
      ⟨sane_boot, statusKept_boot⟩
    rintro o o' a ⟨hl, hk⟩ ⟨hmap, hun⟩ hstep
    obtain ⟨hs, -⟩ := observe_cases hstep
    refine ⟨sane_step hs hl, statusKept_step hstep hl hk rfl fun hor h0 => ?_⟩
    rcases status_cases hs hl with hsame | h80 | ⟨hrt, hp, -⟩ | ⟨rfl, -⟩
    · exact hsame.trans h0
    · exact h80
    · obtain ⟨h1, h2⟩ := hun hrt hp
      rcases hor with hor | hor
      · omega
      · exact absurd hor h2
    · exact absurd rfl (hmap.2 0 rfl)
  exact key.2

/-- The status byte has no influence on the coverage in every run in which each
execution sets its marker only after the daemon has copied byte 0 of the
execution before it. -/
theorem the_status_byte_is_neutral_when_unhurried (o o' : Obs) (h : Reached UnhurriedEnv o)
    (h' : Reached UnhurriedEnv o') : StatusNeutral o o' := by
  have hk := statusKept_reached h
  have hk' := statusKept_reached h'
  refine ⟨hk.snaps, ?_⟩
  intro j k l l' e e' hl hl' he he' hsame
  have hlocked := locked_of_tidy (h.mono fun _ _ hm => hm.1.1)
  have hlocked' := locked_of_tidy (h'.mono fun _ _ hm => hm.1.1)
  obtain ⟨d, hd, hld⟩ := hlocked.snaps j l hl
  obtain ⟨d', hd', hld'⟩ := hlocked'.snaps k l' hl'
  have hde : d = e := by simpa [he] using hd.symm
  have hde' : d' = e' := by simpa [he'] using hd'.symm
  subst hde hde'
  have heq : l = l' := by
    apply Area.ext_of_holds hld hld'
    · rw [hk.snaps l (List.mem_of_getElem? hl), hk'.snaps l' (List.mem_of_getElem? hl')]
    · exact fun i _ => hsame i
  exact ⟨heq, by rw [heq]⟩

/-- With no second execution there is no hurry. -/
theorem unhurried_first : Reached UnhurriedEnv firstCopied :=
  reached_firstCopied (fun _ => .of_tidy trivial (by simp)) (fun _ h => .of_tidy h (by simp))
    (fun _ hrd hdm => .rt hrd hdm) (fun _ _ h hi => .of_map (.store h hi) (by simp))
    (fun _ => .of_tidy trivial (by simp))

/-- The lstate of the first execution, with the status byte as its end left it. -/
theorem the_first_lstate_is_neutral :
    firstCopied.hist.snaps = [firstEnded.state.area] ∧ StatusNeutral firstCopied firstCopied :=
  ⟨rfl, the_status_byte_is_neutral_when_unhurried firstCopied firstCopied unhurried_first
    unhurried_first⟩

/-- The daemon took `rd` for the first execution, and the second execution set its
marker before the daemon copied byte 0. -/
def hurried : Obs :=
  ⟨{ firstEnded.state with
      rd := 0
      area := firstEnded.state.area.set 0 0x81
      lstate := firstEnded.state.area.set 0 0x81
      rt := .main (.startExec .wait)
      dm := .mark },
    { firstEnded.hist with
      calls := 2
      snaps := [firstEnded.state.area.set 0 0x81]
      trace := [.call] }⟩

theorem reached_hurried : Reached MapEnv hurried := by
  have hdm : ∀ o, MapEnv o .dm := fun _ => .of_tidy trivial (by simp)
  have hcall : ∀ o : Obs, o.state.rt = .started → MapEnv o .call :=
    fun _ h => .of_tidy h (by simp)
  have hrt : ∀ o : Obs, MapEnv o .rt := fun _ => .of_tidy trivial (by simp)
  have hexit : ∀ o, MapEnv o .exit := fun _ => .of_tidy trivial (by simp)
  have hspawn : ∀ o, MapEnv o (.spawn false) := fun _ => .of_tidy rfl (by simp)
  refine Reach.trans (reached_firstEnded hdm hcall (fun o _ _ => hrt o)
    (fun _ _ h hi => .store h hi) hexit) ?_
  refine Reach.trans (solo (hdm _) (.getvalueRd rfl (by decide)) rfl) ?_
  refine Reach.trans (solo (hdm _) (.semWait rfl (by decide)) rfl) ?_
  refine Reach.trans (solo (hspawn _) (.spawn false rfl) rfl) ?_
  refine Reach.trans (enter_runs _ (hcall _ rfl) (fun o _ _ => hrt o) rfl
    (by simp [firstEnded]) (Nat.zero_le 1)) ?_
  have hcopy := copied_runs hdm 0 (Nat.zero_le _)
    ⟨{ firstEnded.state with
        rd := 0
        area := firstEnded.state.area.set 0 0x81
        rt := .main (.startExec .wait)
        dm := .copy 0 },
      { firstEnded.hist with calls := 2, trace := [.call] }⟩ rfl
  simp only [copiedFrom_zero] at hcopy
  exact hcopy

/-- The lstate of the first execution has the status byte 0x81 when the second one
starts early. -/
theorem an_early_start_changes_the_lstate :
    ¬ ∀ o o', Reached MapEnv o → Reached MapEnv o' → StatusNeutral o o' := by
  intro h
  have h81 := (h hurried hurried reached_hurried reached_hurried).1 _ (List.mem_singleton_self _)
  simp at h81

end lscov
