-- The runtime and the daemon as one machine, with every interleaving of
-- their steps. One target process runs at a time; the fuzzer may kill it and
-- start the next one. `Step` says once what each step can do, so that every
-- law of the protocol is proved from it.
import LogicStateCoverage.Runs
import LogicStateCoverage.Daemon

namespace lscov

open runs

/-! ## The machine -/

/-- The shared memory, what only the daemon touches, and the two places. -/
structure Sys extends Shm, daemon.Own where
  rt : rt.Pc
  dm : daemon.Pc

/-- What can happen next. -/
inductive Act
  | rt                 -- a step of the runtime code of the target process
  | call               -- the target calls `__lscov_main`
  | store (i : Idx)    -- a block of the target stores 1 to `__lscov_area_ptr[i]`
  | exit               -- the target ends, and its destructors call `__lscov_fin`
  | kill               -- the target process crashes, or the fuzzer kills it
  | spawn (init : Bool) -- the next process starts, with or without `__lscov_init`
  | dm                 -- a step of the daemon

def step (s : Sys) : Act → Option Sys
  | .rt => (rt.step s.toShm s.rt).map fun (m, p) => { s with toShm := m, rt := p }
  | .call => if s.rt = .started ∨ s.rt = .target then some { s with rt := .main .test } else none
  | .store i =>
    if s.rt = .started ∨ s.rt = .target then some { s with area := s.area.set i 1 } else none
  | .exit => if s.rt = .target then some { s with rt := .fin .mark } else none
  | .kill => if s.rt = .dead then none else some { s with rt := .dead }
  | .spawn init =>
    if s.rt = .dead then some { s with rt := if init then .init else .started } else none
  | .dm =>
    (daemon.step s.toShm s.toOwn s.dm).map fun (m, d, p) =>
      { s with toShm := m, toOwn := d, dm := p }

/-- The start: `hcount_init` is done, the daemon is in `lscov_wait`, and the
first target process is in `__lscov_init`. -/
def boot : Sys where
  rd := 0
  dr := 1
  area := Area.zero
  lstate := Area.zero
  bfilter := daemon.Bfilter.zero
  rt := .init
  dm := .wait

/-! ## What a step can do -/

/-- The two callers of `__lscov_end_exec`. -/
inductive Caller
  | main
  | fin

/-- The place of a process inside `__lscov_end_exec`. -/
def Caller.ending : Caller → rt.EndExec → rt.Pc
  | .main, p => .main (.endExec p)
  | .fin, p => .fin p

/-- The place of a process after `__lscov_end_exec`. -/
def Caller.ended : Caller → rt.Pc
  | .main => .main .getvalue
  | .fin => .dead

inductive Step (s : Sys) : Act → Sys → Prop
  | init (h : s.rt = .init) : Step s .rt { s with area := s.area.set 0 0x80, rt := .started }
  | unfinished (h : s.rt = .main .test) (hm : s.area 0 > 0x80) :
      Step s .rt { s with rt := .main (.endExec .mark) }
  | finished (h : s.rt = .main .test) (hm : ¬ s.area 0 > 0x80) :
      Step s .rt { s with rt := .main .getvalue }
  | endMark (c : Caller) (h : s.rt = c.ending .mark) :
      Step s .rt { s with area := s.area.set 0 0x80, rt := c.ending .getvalue }
  | endGetvalue (c : Caller) (h : s.rt = c.ending .getvalue) :
      Step s .rt { s with rt := c.ending (.post s.rd) }
  | endPost (c : Caller) (val : Nat) (h : s.rt = c.ending (.post val)) :
      Step s .rt { s with rd := if val = 0 then s.rd + 1 else s.rd, rt := c.ended }
  | abortDr (h : s.rt = .main .getvalue) (hd : s.dr > 1) :
      Step s .rt { s with rt := .aborted (.semaDr s.dr) }
  | getvalueDr (h : s.rt = .main .getvalue) (hd : ¬ s.dr > 1) :
      Step s .rt { s with rt := .main (.startExec .mark) }
  | startMark (h : s.rt = .main (.startExec .mark)) :
      Step s .rt { s with area := s.area.set 0 0x81, rt := .main (.startExec .wait) }
  | startWait (h : s.rt = .main (.startExec .wait)) (hd : 0 < s.dr) :
      Step s .rt { s with dr := s.dr - 1, rt := .main (.startExec (.clear 1)) }
  | clear (i : Nat) (h : s.rt = .main (.startExec (.clear i))) (hi : i < LSTATE_SIZE) :
      Step s .rt { s with area := s.area.set ⟨i, hi⟩ 0, rt := .main (.startExec (.clear (i + 1))) }
  | cleared (i : Nat) (h : s.rt = .main (.startExec (.clear i))) (hi : ¬ i < LSTATE_SIZE) :
      Step s .rt { s with rt := .main (.check 1 0) }
  | check (i : Nat) (hc : UInt8) (h : s.rt = .main (.check i hc)) (hi : i < LSTATE_SIZE >>> 6) :
      Step s .rt
        { s with rt := .main (.check (i + 1) (hc ||| s.area ⟨i <<< 6, rt.sample_lt hi⟩)) }
  | abortTainted (i : Nat) (hc : UInt8) (h : s.rt = .main (.check i hc))
      (hi : ¬ i < LSTATE_SIZE >>> 6) (ht : hc ≠ 0) : Step s .rt { s with rt := .aborted .tainted }
  | checked (i : Nat) (hc : UInt8) (h : s.rt = .main (.check i hc))
      (hi : ¬ i < LSTATE_SIZE >>> 6) (ht : hc = 0) : Step s .rt { s with rt := .target }
  | call (h : s.rt = .started ∨ s.rt = .target) : Step s .call { s with rt := .main .test }
  | store (i : Idx) (h : s.rt = .started ∨ s.rt = .target) :
      Step s (.store i) { s with area := s.area.set i 1 }
  | exit (h : s.rt = .target) : Step s .exit { s with rt := .fin .mark }
  | kill (h : s.rt ≠ .dead) : Step s .kill { s with rt := .dead }
  | spawn (init : Bool) (h : s.rt = .dead) :
      Step s (.spawn init) { s with rt := if init then .init else .started }
  | poll (h : s.dm = .wait) (hm : s.area 0 ≠ 0x80) : Step s .dm s
  | polled (h : s.dm = .wait) (hm : s.area 0 = 0x80) : Step s .dm { s with dm := .getvalue }
  | fatalRd (h : s.dm = .getvalue) (hd : s.rd > 1) :
      Step s .dm { s with dm := .fatal (.semaRd s.rd) }
  | getvalueRd (h : s.dm = .getvalue) (hd : ¬ s.rd > 1) : Step s .dm { s with dm := .semWait }
  | semWait (h : s.dm = .semWait) (hd : 0 < s.rd) :
      Step s .dm { s with rd := s.rd - 1, dm := .copy 0 }
  | copy (i : Nat) (h : s.dm = .copy i) (hi : i < LSTATE_SIZE) :
      Step s .dm { s with lstate := s.lstate.set ⟨i, hi⟩ (s.area ⟨i, hi⟩), dm := .copy (i + 1) }
  | copied (i : Nat) (h : s.dm = .copy i) (hi : ¬ i < LSTATE_SIZE) :
      Step s .dm { s with dm := .mark }
  | mark (h : s.dm = .mark) : Step s .dm { s with dm := .markPost s.dr }
  | markPost (val : Nat) (h : s.dm = .markPost val) :
      Step s .dm { s with dr := if val = 0 then s.dr + 1 else s.dr, dm := .update 0 }
  | update (n : Nat) (h : s.dm = .update n) :
      Step s .dm { s with toOwn := (daemon.update_turn s.toOwn n).1,
                          dm := (daemon.update_turn s.toOwn n).2 }

theorem step_end_exec (s : Sys) (c : Caller) (p : rt.EndExec) (h : s.rt = c.ending p) :
    step s .rt = some { s with
      toShm := (rt.lscov_end_exec s.toShm p).1,
      rt := match (rt.lscov_end_exec s.toShm p).2 with
        | some q => c.ending q
        | none => c.ended } := by
  cases c <;> cases p <;>
    simp_all [step, rt.step, rt.lscov_main, rt.lscov_end_exec, Caller.ending, Caller.ended]

theorem Step.step_eq {s s' : Sys} {a : Act} (h : Step s a s') : step s a = some s' := by
  cases h with
  | endMark c h | endGetvalue c h =>
    rw [step_end_exec s c _ h]
    rfl
  | endPost c val h =>
    rw [step_end_exec s c _ h]
    simp only [rt.lscov_end_exec]
    split <;> rfl
  | cleared i h hi =>
    simp [step, rt.step, rt.lscov_main, rt.lscov_start_exec, h, hi]
  | poll h hm =>
    simp only [step, daemon.step, h, daemon.lscov_wait, if_pos hm, Option.map_some]
    rw [← h]
  | markPost val h =>
    simp only [step, daemon.step, h, Option.map_some]
    split <;> rfl
  | _ => simp_all [step, rt.step, rt.lscov_main, rt.lscov_start_exec, daemon.step,
      daemon.lscov_wait, Shm.mark]

theorem step_rt_cases {s s' : Sys} (h : step s .rt = some s') : Step s .rt s' := by
  have hend : ∀ c p, s.rt = Caller.ending c p → Step s .rt s' := by
    intro c p hp
    rw [step_end_exec s c p hp] at h
    cases h
    cases p with
    | mark => exact .endMark c hp
    | getvalue => exact .endGetvalue c hp
    | post val =>
      have := Step.endPost c val hp
      simp only [rt.lscov_end_exec]
      split <;> simp_all
  cases hpc : s.rt with
  | dead => simp [step, rt.step, hpc] at h
  | started => simp [step, rt.step, hpc] at h
  | target => simp [step, rt.step, hpc] at h
  | aborted why => simp [step, rt.step, hpc] at h
  | init =>
    simp only [step, rt.step, hpc, Option.map_some, Option.some.injEq] at h
    subst h
    exact .init hpc
  | fin p => exact hend .fin p hpc
  | main p =>
    cases p with
    | endExec p => exact hend .main p hpc
    | test =>
      simp only [step, rt.step, rt.lscov_main, hpc, Option.map_some, Option.some.injEq] at h
      subst h
      split
      · exact .unfinished hpc ‹_›
      · exact .finished hpc ‹_›
    | getvalue =>
      simp only [step, rt.step, rt.lscov_main, hpc, Option.map_some, Option.some.injEq] at h
      subst h
      split
      · exact .abortDr hpc ‹_›
      · exact .getvalueDr hpc ‹_›
    | startExec p =>
      simp only [step, rt.step, rt.lscov_main, hpc] at h
      cases p with
      | mark =>
        simp only [rt.lscov_start_exec, Option.map_some, Option.some.injEq] at h
        subst h
        exact .startMark hpc
      | wait =>
        by_cases hd : 0 < s.dr
        · simp only [rt.lscov_start_exec, hd, if_true, Option.map_some, Option.some.injEq] at h
          subst h
          exact .startWait hpc hd
        · simp [rt.lscov_start_exec, hd] at h
      | clear i =>
        by_cases hi : i < LSTATE_SIZE
        · simp only [rt.lscov_start_exec, hi, dite_true, Option.map_some, Option.some.injEq] at h
          subst h
          exact .clear i hpc hi
        · simp only [rt.lscov_start_exec, hi, dite_false, Option.map_some, Option.some.injEq] at h
          subst h
          exact .cleared i hpc hi
    | check i hc =>
      by_cases hi : i < LSTATE_SIZE >>> 6
      · simp only [step, rt.step, rt.lscov_main, hpc, hi, dite_true, Option.map_some,
          Option.some.injEq] at h
        subst h
        exact .check i hc hpc hi
      · simp only [step, rt.step, rt.lscov_main, hpc, hi, dite_false, Option.map_some,
          Option.some.injEq] at h
        subst h
        split
        · exact .abortTainted i hc hpc hi ‹_›
        · exact .checked i hc hpc hi (not_not.mp ‹_›)

theorem step_dm_cases {s s' : Sys} (h : step s .dm = some s') : Step s .dm s' := by
  cases hpc : s.dm with
  | wait =>
    simp only [step, daemon.step, daemon.lscov_wait, hpc, Option.map_some, Option.some.injEq] at h
    by_cases hm : s.area 0 = 0x80
    · simp only [hm, ne_eq, not_true, if_false] at h
      subst h
      exact .polled hpc hm
    · simp only [ne_eq, hm, not_false_eq_true, if_true] at h
      have hs : s = s' := by rw [← h, ← hpc]
      exact hs ▸ .poll hpc hm
  | getvalue =>
    simp only [step, daemon.step, hpc, Option.map_some, Option.some.injEq] at h
    subst h
    split
    · exact .fatalRd hpc ‹_›
    · exact .getvalueRd hpc ‹_›
  | semWait =>
    by_cases hd : 0 < s.rd
    · simp only [step, daemon.step, hpc, hd, if_true, Option.map_some, Option.some.injEq] at h
      subst h
      exact .semWait hpc hd
    · simp [step, daemon.step, hpc, hd] at h
  | copy i =>
    by_cases hi : i < LSTATE_SIZE
    · simp only [step, daemon.step, hpc, hi, dite_true, Option.map_some, Option.some.injEq] at h
      subst h
      exact .copy i hpc hi
    · simp only [step, daemon.step, hpc, hi, dite_false, Option.map_some, Option.some.injEq] at h
      subst h
      exact .copied i hpc hi
  | mark =>
    simp only [step, daemon.step, hpc, Option.map_some, Option.some.injEq] at h
    subst h
    exact .mark hpc
  | markPost val =>
    simp only [step, daemon.step, hpc, Option.map_some, Option.some.injEq] at h
    subst h
    have := Step.markPost val hpc
    split <;> simp_all
  | update n =>
    simp only [step, daemon.step, hpc, Option.map_some, Option.some.injEq] at h
    subst h
    exact .update n hpc
  | fatal why => simp [step, daemon.step, hpc] at h

/-- `Step` says all that a step can do. -/
theorem step_cases {s s' : Sys} {a : Act} (h : step s a = some s') : Step s a s' := by
  cases a with
  | rt => exact step_rt_cases h
  | dm => exact step_dm_cases h
  | call =>
    simp only [step, Option.ite_none_right_eq_some, Option.some.injEq] at h
    obtain ⟨hpc, rfl⟩ := h
    exact .call hpc
  | store i =>
    simp only [step, Option.ite_none_right_eq_some, Option.some.injEq] at h
    obtain ⟨hpc, rfl⟩ := h
    exact .store i hpc
  | exit =>
    simp only [step, Option.ite_none_right_eq_some, Option.some.injEq] at h
    obtain ⟨hpc, rfl⟩ := h
    exact .exit hpc
  | kill =>
    simp only [step, Option.ite_none_left_eq_some, Option.some.injEq] at h
    obtain ⟨hpc, rfl⟩ := h
    exact .kill hpc
  | spawn init =>
    simp only [step, Option.ite_none_right_eq_some, Option.some.injEq] at h
    obtain ⟨hpc, rfl⟩ := h
    exact .spawn init hpc

/-- The act decides what happens. -/
theorem Step.det {s t u : Sys} {a : Act} (h1 : Step s a t) (h2 : Step s a u) : t = u := by
  have := h1.step_eq.symm.trans h2.step_eq
  simpa using this

/-! ## The record of a run -/

/-- What an observer writes down. No step reads it. -/
structure Hist where
  calls : Nat             -- the calls of `__lscov_main`
  past : List (List Idx)  -- the stores of each execution before the last one
  cur : Option (List Idx) -- the stores of the last execution that `sem_wait(dr)` let in
  posts : Nat             -- the posts of `rd`
  snaps : List Area       -- the lstates that the daemon copied
  pending : Bool          -- the last execution was cut off, and nobody posted `rd` for it
  trace : List Act        -- the calls and stores of the process that runs

def Hist.empty : Hist := ⟨0, [], none, 0, [], false, []⟩

/-- The executions, oldest first, each with the indices that it stored. -/
def Hist.execs (h : Hist) : List (List Idx) := h.past ++ h.cur.toList

def noteRt (h : Hist) : rt.Pc → Hist
  | .main (.startExec .wait) => { h with past := h.execs, cur := some [] }
  | .main (.endExec (.post val)) | .fin (.post val) =>
    if val = 0 then { h with posts := h.posts + 1, pending := false } else h
  | _ => h

def noteDm (lstate : Area) (h : Hist) : daemon.Pc → Hist
  | .copy i => if i < LSTATE_SIZE then h else { h with snaps := h.snaps ++ [lstate] }
  | _ => h

/-- The record of the runtime changes at a return of `sem_wait(dr)`, at a post
of `rd`, and nowhere else. -/
theorem noteRt_cases (h : Hist) (p : rt.Pc) :
    (p = .main (.startExec .wait) ∧ noteRt h p = { h with past := h.execs, cur := some [] }) ∨
      (∃ c, p = Caller.ending c (.post 0) ∧
        noteRt h p = { h with posts := h.posts + 1, pending := false }) ∨
      ((∀ c, p ≠ Caller.ending c (.post 0)) ∧ p ≠ .main (.startExec .wait) ∧ noteRt h p = h) := by
  have hpost : ∀ (c : Caller) (val : Nat), p = c.ending (.post val) →
      noteRt h p = if val = 0 then { h with posts := h.posts + 1, pending := false } else h := by
    rintro c val rfl
    cases c <;> rfl
  by_cases hw : p = .main (.startExec .wait)
  · exact Or.inl ⟨hw, by rw [hw]; rfl⟩
  by_cases hp : ∃ c, p = Caller.ending c (.post 0)
  · obtain ⟨c, hc⟩ := hp
    exact Or.inr (Or.inl ⟨c, hc, by rw [hpost c 0 hc, if_pos rfl]⟩)
  refine Or.inr (Or.inr ⟨fun c hc => hp ⟨c, hc⟩, hw, ?_⟩)
  unfold noteRt
  split
  · exact absurd rfl hw
  · rename_i val
    exact if_neg fun hv => hp ⟨.main, by rw [hv]; rfl⟩
  · rename_i val
    exact if_neg fun hv => hp ⟨.fin, by rw [hv]; rfl⟩
  · rfl

/-- The record of the daemon changes at the end of `memcpy`, and nowhere else. -/
theorem noteDm_cases (l : Area) (h : Hist) (p : daemon.Pc) :
    (∃ i, p = .copy i ∧ ¬ i < LSTATE_SIZE ∧ noteDm l h p = { h with snaps := h.snaps ++ [l] }) ∨
      ((∀ i, p = .copy i → i < LSTATE_SIZE) ∧ noteDm l h p = h) := by
  unfold noteDm
  split
  · split
    · exact Or.inr ⟨by rintro i hi; cases hi; assumption, rfl⟩
    · exact Or.inl ⟨_, rfl, ‹_›, rfl⟩
  · exact Or.inr ⟨by rintro i rfl; simp_all, rfl⟩

def note (s : Sys) : Act → Hist → Hist
  | .rt, h => noteRt h s.rt
  | .call, h =>
    { h with
      calls := h.calls + 1
      pending := h.pending || decide (s.rt = .target)
      trace := h.trace ++ [.call] }
  | .store i, h =>
    { h with
      cur := if s.rt = .target then h.cur.map (· ++ [i]) else h.cur
      trace := h.trace ++ [.store i] }
  | .exit, h => h
  | .kill, h => { h with pending := h.pending || decide (s.rt = .target) }
  | .spawn _, h => { h with trace := [] }
  | .dm, h => noteDm s.lstate h s.dm

/-- Only the daemon writes down lstates. -/
theorem note_snaps {s : Sys} {h : Hist} {a : Act} (ha : a ≠ .dm) :
    (note s a h).snaps = h.snaps := by
  cases a with
  | rt =>
    simp only [note]
    rcases noteRt_cases h s.rt with ⟨-, he⟩ | ⟨c, -, he⟩ | ⟨-, -, he⟩ <;> rw [he]
  | dm => exact absurd rfl ha
  | _ => rfl

/-- Only calls of `__lscov_main` are counted as calls. -/
theorem note_calls {s : Sys} {h : Hist} {a : Act} (ha : a ≠ .call) :
    (note s a h).calls = h.calls := by
  cases a with
  | rt =>
    simp only [note]
    rcases noteRt_cases h s.rt with ⟨-, he⟩ | ⟨c, -, he⟩ | ⟨-, -, he⟩ <;> rw [he]
  | dm =>
    simp only [note]
    rcases noteDm_cases s.lstate h s.dm with ⟨i, -, -, he⟩ | ⟨-, he⟩ <;> rw [he]
  | call => exact absurd rfl ha
  | _ => rfl

/-- The runtime and the daemon add nothing to the trace of the process. -/
theorem note_trace {s : Sys} {h : Hist} {a : Act} (ha : a = .rt ∨ a = .dm) :
    (note s a h).trace = h.trace := by
  rcases ha with rfl | rfl
  · simp only [note]
    rcases noteRt_cases h s.rt with ⟨-, he⟩ | ⟨c, -, he⟩ | ⟨-, -, he⟩ <;> rw [he]
  · simp only [note]
    rcases noteDm_cases s.lstate h s.dm with ⟨i, -, -, he⟩ | ⟨-, he⟩ <;> rw [he]

theorem note_dm_cur {s : Sys} {h : Hist} : (note s .dm h).cur = h.cur := by
  simp only [note]
  rcases noteDm_cases s.lstate h s.dm with ⟨i, -, -, he⟩ | ⟨-, he⟩ <;> rw [he]

abbrev Obs := Observed Sys Hist

/-- The environments: which acts may happen in which state. -/
abbrev Env := Obs → Act → Prop

/-- The states that the protocol reaches from `boot`. -/
abbrev Reached (env : Env) : Obs → Prop := Reach (observe step note) env ⟨boot, Hist.empty⟩

theorem observe_cases {o o' : Obs} {a : Act} (h : observe step note o a = some o') :
    Step o.state a o'.state ∧ o'.hist = note o.state a o.hist := by
  obtain ⟨h1, h2⟩ := observe_eq_some.mp h
  exact ⟨step_cases h1, h2⟩

/-- An observed step gives the next state, and writes down the act. -/
theorem observe_next {o o' : Obs} {a : Act} (h : observe step note o a = some o') :
    ∃ s', Step o.state a s' ∧ o' = ⟨s', note o.state a o.hist⟩ := by
  obtain ⟨hs, hh⟩ := observe_cases h
  exact ⟨o'.state, hs, by rw [← hh]⟩

theorem Step.observe_eq {o : Obs} {s : Sys} {a : Act} (h : Step o.state a s) :
    observe step note o a = some ⟨s, note o.state a o.hist⟩ :=
  observe_eq_some.mpr ⟨h.step_eq, rfl⟩

end lscov
