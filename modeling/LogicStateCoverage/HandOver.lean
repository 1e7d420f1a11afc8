-- The laws of the hand-over. One token goes around: `dr`, the runtime, `rd`,
-- the daemon. While there is at most one, the runtime never touches the area
-- that the daemon copies, so each lstate is the one of a single execution.
import LogicStateCoverage.SanityChecks

namespace lscov

open runs

/-! ## The token -/

/-- The runtime side has the token: a process is past `sem_wait(dr)` and has
not posted `rd`, or the status byte says that an execution never ended. -/
def rtOwns (status : UInt8) : rt.Pc → Bool
  | .dead | .init | .started | .main .test | .aborted _ => decide (status > 0x80)
  | .main .getvalue | .main (.startExec .mark) | .main (.startExec .wait) => false
  | .main (.endExec _) | .main (.startExec (.clear _)) | .main (.check _ _) => true
  | .target | .fin _ => true

/-- The daemon has the token: it is past `sem_wait(rd)` and has not posted `dr`. -/
def dmOwns : daemon.Pc → Bool
  | .copy _ | .mark | .markPost _ => true
  | _ => false

def tokens (s : Sys) : Nat :=
  s.rd + s.dr + (rtOwns (s.area 0) s.rt).toNat + (dmOwns s.dm).toNat

/-- The values that the two conditional posts test are 0. -/
structure PostsGo (s : Sys) : Prop where
  rt : ∀ c val, s.rt = Caller.ending c (.post val) → val = 0
  dm : ∀ val, s.dm = .markPost val → val = 0

theorem rtOwns_ending (v : UInt8) (c : Caller) (p : rt.EndExec) : rtOwns v (c.ending p) = true := by
  cases c <;> rfl

theorem rtOwns_ended (c : Caller) : rtOwns 0x80 c.ended = false := by
  cases c <;> rfl

theorem postsGo_step {s s' : Sys} {a : Act} (h : Step s a s') (hp : PostsGo s)
    (h1 : tokens s ≤ 1) : PostsGo s' := by
  unfold tokens at h1
  constructor
  · intro c val hval
    cases h with
    | endGetvalue c' h =>
      rw [h, rtOwns_ending] at h1
      have hrd : s.rd = 0 := by simp at h1; omega
      cases c <;> cases c' <;> simp_all [Caller.ending]
    | endMark c' h | endPost c' _ h =>
      cases c <;> cases c' <;> simp_all [Caller.ending, Caller.ended]
    | spawn init h => cases c <;> cases init <;> simp_all [Caller.ending]
    | update n h => exact hp.rt c val hval
    | _ => first | exact hp.rt c val hval | (cases c <;> simp_all [Caller.ending])
  · intro val hval
    cases h with
    | mark h =>
      rw [h] at h1
      have hdr : s.dr = 0 := by simp [dmOwns] at h1; omega
      simp_all
    | update n h =>
      rcases daemon.update_turn_pc s.toOwn n with hn | hn <;> simp [hn] at hval
    | _ => first | exact hp.dm val hval | simp_all

/-- The steps that keep the token where they find it, or pass it on. -/
theorem tokens_step {s s' : Sys} {a : Act} (h : Step s a s') (hs : Sane s) (hp : PostsGo s)
    (hstore : ∀ i, a = .store i → s.rt = .target)
    (hinit : a = .rt → s.rt = .init → ¬ s.area 0 > 0x80)
    (hcall : a = .call → s.rt = .target → s.area 0 > 0x80)
    (hkill : a = .kill → rtOwns (s.area 0) .dead = rtOwns (s.area 0) s.rt) :
    tokens s' = tokens s := by
  unfold tokens
  cases h with
  | endPost c val h =>
    have hv := hp.rt c val h
    have h80 := (hs.at_post h).1
    simp only [hv, if_true, h, h80, rtOwns_ending, rtOwns_ended]
    simp
    omega
  | markPost val h =>
    have hv := hp.dm val h
    simp [hv, h, dmOwns]
    omega
  | endMark c h | endGetvalue c h => simp [h, rtOwns_ending]
  | init h => simp [h, rtOwns, hinit rfl h]
  | unfinished h hm => simp [h, rtOwns, hm]
  | finished h hm => simp [h, rtOwns, hm]
  | startWait h hd =>
    simp [h, rtOwns]
    omega
  | semWait h hd =>
    simp [h, dmOwns]
    omega
  | call h =>
    rcases h with h | h
    · simp [h, rtOwns]
    · simp [h, rtOwns, hcall rfl h]
  | store i h => simp [hstore i rfl, rtOwns]
  | kill h => rw [hkill rfl]
  | spawn init h => cases init <;> simp [h, rtOwns]
  | update n h =>
    rcases daemon.update_turn_pc s.toOwn n with hn | hn <;> simp [h, hn, dmOwns]
  | abortDr h hd =>
    have := hs.dr_le
    omega
  | abortTainted i c h hi ht => exact absurd (hs.at_check h).2 ht
  | _ => simp_all [rtOwns, dmOwns]

/-- A dead process has the token only if it had it alive, unless it died at
`sem_wait(dr)`, where its own marker is already in the status byte. -/
theorem rtOwns_kill {m : Shm} {p : rt.Pc} (hc : CodeOk m p) (hw : p ≠ .main (.startExec .wait))
    (h : rtOwns (m.area 0) .dead = true) : rtOwns (m.area 0) p = true := by
  simp only [rtOwns, decide_eq_true_eq] at h
  cases p with
  | main p =>
    cases p with
    | test => simpa [rtOwns] using h
    | getvalue => exact absurd h hc
    | startExec p =>
      cases p with
      | mark => exact absurd h hc
      | wait => exact absurd rfl hw
      | clear i => rfl
    | _ => rfl
  | target => rfl
  | fin p => rfl
  | _ => simpa [rtOwns] using h

/-- No second token comes up, unless a process dies at `sem_wait(dr)` while
the token is elsewhere. -/
theorem tokens_le_one_step {s s' : Sys} {a : Act} (h : Step s a s') (hs : Sane s) (hp : PostsGo s)
    (h1 : tokens s ≤ 1) (hstore : ∀ i, a = .store i → s.rt = .target)
    (hkill : a = .kill → s.rt = .main (.startExec .wait) → tokens s = 0) : tokens s' ≤ 1 := by
  -- Each exception only takes the token away from the runtime.
  have hless : ∀ t : Sys, s' = t → t.rd = s.rd → t.dr = s.dr → t.dm = s.dm →
      (rtOwns (t.area 0) t.rt = true → rtOwns (s.area 0) s.rt = true) → tokens s' ≤ 1 := by
    intro t ht hrd hdr hdm hown
    subst ht
    unfold tokens at h1 ⊢
    rw [hrd, hdr, hdm]
    cases hx : rtOwns (s'.area 0) s'.rt with
    | false => simp; omega
    | true => simpa [hown hx] using h1
  by_cases hk : a = .kill
  · subst hk
    cases h with
    | kill h =>
      by_cases hw : s.rt = .main (.startExec .wait)
      · have h0 := hkill rfl hw
        simp only [tokens, hw] at h0 ⊢
        have hb := Bool.toNat_le (rtOwns (s.area 0) .dead)
        omega
      · exact hless _ rfl rfl rfl rfl (rtOwns_kill hs.code hw)
  by_cases hi : a = .rt ∧ s.rt = .init
  · obtain ⟨rfl, hi⟩ := hi
    exact hless _ (h.det (.init hi)) rfl rfl rfl (by simp [rtOwns])
  by_cases hcl : a = .call
  · subst hcl
    cases h with
    | call h =>
      refine hless _ rfl rfl rfl rfl ?_
      rcases h with h | h <;> simp [rtOwns, h]
  rw [tokens_step h hs hp hstore (fun h1 h2 => absurd ⟨h1, h2⟩ hi) (fun h => absurd h hcl)
    (fun h => absurd h hk)]
  exact h1

/-! ## The stores that the area holds -/

/-- The area holds the stores of the last execution that `sem_wait(dr)` let
in. During its `memset` that execution has stored nothing yet. -/
def AreaHeld (a : Area) (cur : Option (List Idx)) : rt.Pc → Prop
  | .main (.startExec (.clear _)) => cur = some []
  | .main (.check _ _) | .target | .fin _ => cur ≠ none ∧ a.Holds (cur.getD [])
  | _ => a.Holds (cur.getD [])

/-- The lstate is copied, and `dr` is not posted yet. -/
def marking : daemon.Pc → Bool
  | .mark | .markPost _ => true
  | _ => false

theorem marking_le (p : daemon.Pc) : (marking p).toNat ≤ (dmOwns p).toNat := by
  cases p <;> simp [marking, dmOwns]

structure Safe (o : Obs) : Prop where
  sane : Sane o.state
  one : tokens o.state ≤ 1
  go : PostsGo o.state
  held : AreaHeld o.state.area o.hist.cur o.state.rt
  copying : ∀ n, o.state.dm = .copy n →
    ∀ j : Idx, j ≠ 0 → j.val < n → o.state.lstate j = o.state.area j
  first : o.hist.cur = none → o.state.dr = 1
  count : o.hist.execs.length + o.state.dr + (marking o.state.dm).toNat = o.hist.snaps.length + 1
  snaps : ∀ (j : Nat) l, o.hist.snaps[j]? = some l → ∃ e, o.hist.execs[j]? = some e ∧ l.Holds e

/-- The kills that leave at most one token and no half-cleared area: not during
the `memset`, and at `sem_wait(dr)` only when the token is lost anyway. The
target stores only between `__lscov_main` and `__lscov_fin`. -/
def SafeEnv : Env := fun o a =>
  match a with
  | .store _ => o.state.rt = .target
  | .kill =>
    (∀ i, o.state.rt ≠ .main (.startExec (.clear i))) ∧
      (o.state.rt = .main (.startExec .wait) → tokens o.state = 0)
  | _ => True

/-- Only the `memset` and the target change the area past the status byte. -/
theorem Step.area_eq {s s' : Sys} {a : Act} (h : Step s a s')
    (hclear : ∀ i, s.rt ≠ .main (.startExec (.clear i))) (hstore : ∀ i, a ≠ .store i)
    {j : Idx} (hj : j ≠ 0) : s'.area j = s.area j := by
  cases h with
  | init h | endMark c h | startMark h => exact Area.set_ne _ _ hj
  | clear i h hi => exact absurd h (hclear i)
  | store i h => exact absurd rfl (hstore i)
  | _ => rfl

theorem AreaHeld.holds {a : Area} {cur : Option (List Idx)} {p : rt.Pc} (h : AreaHeld a cur p)
    (hp : ∀ i, p ≠ .main (.startExec (.clear i))) : a.Holds (cur.getD []) := by
  cases p with
  | main p =>
    cases p with
    | startExec p =>
      cases p with
      | clear i => exact absurd rfl (hp i)
      | _ => exact h
    | check i c => exact h.2
    | _ => exact h
  | target => exact h.2
  | fin p => exact h.2
  | _ => exact h

theorem holds_nil_of_clear {a : Area} (h : a.ClearTo LSTATE_SIZE) : a.Holds [] := by
  intro i hi
  simpa using h i hi i.isLt

theorem held_step {s s' : Sys} {h : Hist} {a : Act} (hstep : Step s a s') (hs : Sane s)
    (hh : AreaHeld s.area h.cur s.rt) (henv : SafeEnv ⟨s, h⟩ a) :
    AreaHeld s'.area (note s a h).cur s'.rt := by
  have hc := hs.code
  cases hstep with
  | init hp =>
    rw [hp] at hh
    simpa [note, noteRt, hp, AreaHeld] using Area.holds_status 0x80 hh
  | startMark hp =>
    rw [hp] at hh
    simpa [note, noteRt, hp, AreaHeld] using Area.holds_status 0x81 hh
  | endMark c hp =>
    cases c with
    | main =>
      rw [hp] at hh
      simpa [note, noteRt, hp, AreaHeld, Caller.ending] using Area.holds_status 0x80 hh
    | fin =>
      rw [hp] at hh
      simpa [note, noteRt, hp, AreaHeld, Caller.ending] using
        ⟨hh.1, Area.holds_status 0x80 hh.2⟩
  | endGetvalue c hp => cases c <;> simp_all [note, noteRt, AreaHeld, Caller.ending]
  | endPost c val hp =>
    cases c <;> simp only [note, noteRt, hp, Caller.ending] <;>
      split <;> simp_all [AreaHeld, Caller.ending, Caller.ended]
  | startWait hp hd => simp [note, noteRt, hp, AreaHeld]
  | clear i hp hi => simpa [note, noteRt, hp, AreaHeld] using hh
  | cleared i hp hi =>
    simp only [hp, CodeOk] at hc
    have hclear := holds_nil_of_clear (clearTo_mono hc.2.2 (Nat.le_of_not_lt hi))
    simp only [hp, AreaHeld] at hh
    simpa [note, noteRt, hp, AreaHeld, hh] using hclear
  | store i hp =>
    have ht : s.rt = .target := henv
    rw [ht] at hh
    obtain ⟨hcur, hholds⟩ := hh
    obtain ⟨e, he⟩ := Option.ne_none_iff_exists'.mp hcur
    simp only [he, Option.getD_some] at hholds
    simpa [note, ht, he, AreaHeld] using Area.holds_store i hholds
  | kill hp => exact hh.holds henv.1
  | spawn init hp =>
    rw [hp] at hh
    cases init <;> simpa [note, AreaHeld] using hh
  | call hp => rcases hp with hp | hp <;> simp_all [note, AreaHeld]
  | copied i hp hi => simpa [note, noteDm, hp, hi] using hh
  | copy i hp hi => simpa [note, noteDm, hp, hi] using hh
  | _ => simp_all [note, noteRt, noteDm, AreaHeld]

/-- While the daemon has the token, the runtime clears nothing, and no process
is in the code of the target. -/
theorem rt_stays_out {s : Sys} (h1 : tokens s ≤ 1) (hd : dmOwns s.dm = true) :
    (∀ i, s.rt ≠ .main (.startExec (.clear i))) ∧ s.rt ≠ .target := by
  have hown : rtOwns (s.area 0) s.rt = false := by
    unfold tokens at h1
    cases hx : rtOwns (s.area 0) s.rt with
    | false => rfl
    | true => simp [hx, hd] at h1
  constructor
  · intro i hi
    simp [hi, rtOwns] at hown
  · intro ht
    simp [ht, rtOwns] at hown

theorem copying_step {s s' : Sys} {h : Hist} {a : Act} (hstep : Step s a s') (h1 : tokens s ≤ 1)
    (hcopy : ∀ n, s.dm = .copy n → ∀ j : Idx, j ≠ 0 → j.val < n → s.lstate j = s.area j)
    (henv : SafeEnv ⟨s, h⟩ a) :
    ∀ n, s'.dm = .copy n → ∀ j : Idx, j ≠ 0 → j.val < n → s'.lstate j = s'.area j := by
  intro n hn j hj hlt
  by_cases ha : a = .dm
  · subst ha
    cases hstep with
    | copy i hp hi =>
      simp only [daemon.Pc.copy.injEq] at hn
      subst hn
      simp only
      by_cases hji : j = ⟨i, hi⟩
      · rw [hji, Area.set_self]
      · rw [Area.set_ne _ _ hji]
        have : j.val ≠ i := fun he => hji (Fin.ext he)
        exact hcopy i hp j hj (by omega)
    | semWait hp hd =>
      simp only [daemon.Pc.copy.injEq] at hn
      omega
    | update k hp =>
      rcases daemon.update_turn_pc s.toOwn k with hk | hk <;> simp [hk] at hn
    | poll hp hm => simp [hp] at hn
    | _ => simp at hn
  · obtain ⟨hdm, hl, -⟩ := hstep.rt_frame ha
    rw [hdm] at hn
    obtain ⟨hclear, htarget⟩ := rt_stays_out h1 (by rw [hn]; rfl)
    have hstore : ∀ i, a ≠ .store i := by
      rintro i rfl
      exact htarget henv
    rw [hl, hstep.area_eq hclear hstore hj]
    exact hcopy n hn j hj hlt

/-! ## The executions and their lstates -/

@[simp] theorem length_execs (h : Hist) :
    h.execs.length = h.past.length + h.cur.isSome.toNat := by
  cases hc : h.cur <;> simp [Hist.execs, hc]

/-- Each step moves the sum of executions let in and `dr` along with the
number of lstates. -/
theorem count_step {s s' : Sys} {h : Hist} {a : Act} (hstep : Step s a s') (hp : PostsGo s)
    (hcount : h.execs.length + s.dr + (marking s.dm).toNat = h.snaps.length + 1) :
    (note s a h).execs.length + s'.dr + (marking s'.dm).toNat = (note s a h).snaps.length + 1 := by
  rw [length_execs] at hcount ⊢
  cases hstep with
  | startWait hpc hd =>
    simp [note, noteRt, hpc]
    omega
  | endPost c val hpc =>
    cases c <;> simp only [note, noteRt, hpc, Caller.ending] <;> split <;> exact hcount
  | endMark c hpc | endGetvalue c hpc =>
    cases c <;> simpa [note, noteRt, hpc, Caller.ending] using hcount
  | store i hpc =>
    simp only [note]
    split <;> simpa using hcount
  | copied i hpc hi =>
    simp [note, noteDm, hpc, hi, marking] at hcount ⊢
    omega
  | copy i hpc hi => simpa [note, noteDm, hpc, hi, marking] using hcount
  | markPost val hpc =>
    have hv := hp.dm val hpc
    simp [note, noteDm, hpc, hv, marking] at hcount ⊢
    omega
  | update n hpc =>
    rcases daemon.update_turn_pc s.toOwn n with hn | hn <;>
      simpa [note, noteDm, hpc, hn, marking] using hcount
  | _ => simp_all [note, noteRt, noteDm, marking]

/-- An execution that was let in stays on the record. -/
theorem note_cur_isSome {s : Sys} {h : Hist} (a : Act) (hc : h.cur ≠ none) :
    (note s a h).cur ≠ none := by
  cases a with
  | rt =>
    simp only [note]
    rcases noteRt_cases h s.rt with ⟨-, he⟩ | ⟨c, -, he⟩ | ⟨-, -, he⟩ <;> simp [he, hc]
  | store i =>
    simp only [note]
    split <;> simp [hc]
  | dm =>
    simp only [note]
    rcases noteDm_cases s.lstate h s.dm with ⟨i, -, -, he⟩ | ⟨-, he⟩ <;> simp [he, hc]
  | _ => exact hc

theorem first_step {s s' : Sys} {h : Hist} {a : Act} (hstep : Step s a s') (h1 : tokens s ≤ 1)
    (hfirst : h.cur = none → s.dr = 1) : (note s a h).cur = none → s'.dr = 1 := by
  intro hnone
  have hdr : s.dr = 1 := by
    apply hfirst
    by_contra hc
    exact note_cur_isSome a hc hnone
  cases hstep with
  | startWait hp hd => simp [note, noteRt, hp] at hnone
  | markPost val hp => simp [tokens, hp, dmOwns, hdr] at h1
  | _ => exact hdr

/-- An execution that was copied keeps its place and its stores. -/
theorem note_execs {s : Sys} {h : Hist} (a : Act) (henv : SafeEnv ⟨s, h⟩ a) (h1 : tokens s ≤ 1)
    (hfirst : h.cur = none → s.dr = 1)
    (hcount : h.execs.length + s.dr + (marking s.dm).toNat = h.snaps.length + 1)
    {j : Nat} (hj : j < h.snaps.length) : (note s a h).execs[j]? = h.execs[j]? := by
  rw [length_execs] at hcount
  have hmark := marking_le s.dm
  unfold tokens at h1
  cases a with
  | rt =>
    simp only [note]
    rcases noteRt_cases h s.rt with ⟨-, he⟩ | ⟨c, -, he⟩ | ⟨-, -, he⟩
    · rw [he]
      show (h.execs ++ [[]])[j]? = _
      exact List.getElem?_append_left (by rw [length_execs]; omega)
    · rw [he]; rfl
    · rw [he]
  | store i =>
    -- The execution that stores has the token, so its own lstate is not copied yet.
    have ht : s.rt = .target := henv
    have hlen : j < h.past.length := by
      simp only [ht, rtOwns, Bool.toNat_true] at h1
      have hcur : h.cur.isSome = true := by
        rw [Option.isSome_iff_ne_none]
        intro hc
        have := hfirst hc
        omega
      simp only [hcur, Bool.toNat_true] at hcount
      omega
    simp only [note, Hist.execs]
    rw [List.getElem?_append_left hlen, List.getElem?_append_left hlen]
  | dm =>
    simp only [note]
    rcases noteDm_cases s.lstate h s.dm with ⟨i, -, -, he⟩ | ⟨-, he⟩ <;> rw [he]; rfl
  | _ => rfl

/-- At the end of `memcpy` the lstate holds the stores of the last execution. -/
theorem copied_holds {o : Obs} (h : Safe o) {i : Nat} (hp : o.state.dm = .copy i)
    (hi : ¬ i < LSTATE_SIZE) :
    ∃ e, o.hist.execs[o.hist.snaps.length]? = some e ∧ o.state.lstate.Holds e := by
  have h1 := h.one
  have hcount := h.count
  have hout := rt_stays_out h1 (by rw [hp]; rfl)
  obtain ⟨e, he⟩ : ∃ e, o.hist.cur = some e := by
    rw [← Option.ne_none_iff_exists']
    intro hc
    have := h.first hc
    simp [tokens, hp, dmOwns, this] at h1
  refine ⟨e, ?_, ?_⟩
  · have hdr : o.state.dr = 0 := by
      simp [tokens, hp, dmOwns] at h1
      omega
    simp [length_execs, he, hdr, hp, marking] at hcount
    simp [Hist.execs, he, ← hcount]
  · have hholds := h.held.holds hout.1
    intro j hj
    rw [h.copying i hp j hj (by have := j.isLt; omega), hholds j hj, he]
    rfl

theorem snaps_step {o o' : Obs} {a : Act} (hstep : observe step note o a = some o') (h : Safe o)
    (henv : SafeEnv o a) : ∀ (j : Nat) l, o'.hist.snaps[j]? = some l →
      ∃ e, o'.hist.execs[j]? = some e ∧ l.Holds e := by
  obtain ⟨hs, hh⟩ := observe_cases hstep
  intro j l hl
  have hold : ∀ l, o.hist.snaps[j]? = some l → ∃ e, o'.hist.execs[j]? = some e ∧ l.Holds e := by
    intro l hl
    obtain ⟨e, he, hle⟩ := h.snaps j l hl
    obtain ⟨hj, -⟩ := List.getElem?_eq_some_iff.mp hl
    exact ⟨e, by rw [hh, note_execs a henv h.one h.first h.count hj]; exact he, hle⟩
  rw [hh] at hl
  cases a with
  | rt =>
    simp only [note] at hl
    rcases noteRt_cases o.hist o.state.rt with ⟨-, he⟩ | ⟨c, -, he⟩ | ⟨-, -, he⟩ <;>
      rw [he] at hl <;> exact hold l hl
  | dm =>
    simp only [note] at hl
    rcases noteDm_cases o.state.lstate o.hist o.state.dm with ⟨i, hp, hi, he⟩ | ⟨-, he⟩
    · rw [he] at hl
      by_cases hj : j < o.hist.snaps.length
      · rw [List.getElem?_append_left hj] at hl
        exact hold l hl
      · have hje : j = o.hist.snaps.length := by
          obtain ⟨hlt, -⟩ := List.getElem?_eq_some_iff.mp hl
          simp only [List.length_append, List.length_singleton] at hlt
          omega
        subst hje
        simp only [List.getElem?_concat_length, Option.some.injEq] at hl
        subst hl
        obtain ⟨e, he', hle⟩ := copied_holds h hp hi
        refine ⟨e, ?_, hle⟩
        rw [hh, note, he]
        exact he'
    · rw [he] at hl
      exact hold l hl
  | _ => exact hold l hl

/-! ## Every run -/

theorem safe_step {o o' : Obs} {a : Act} (hstep : observe step note o a = some o') (h : Safe o)
    (henv : SafeEnv o a) : Safe o' := by
  obtain ⟨hs, hh⟩ := observe_cases hstep
  have hstore : ∀ i, a = .store i → o.state.rt = .target := by
    rintro i rfl
    exact henv
  have hkill : a = .kill → o.state.rt = .main (.startExec .wait) → tokens o.state = 0 := by
    rintro rfl
    exact henv.2
  refine ⟨sane_step hs h.sane, tokens_le_one_step hs h.sane h.go h.one hstore hkill,
    postsGo_step hs h.go h.one, ?_, copying_step hs h.one h.copying henv, ?_, ?_,
    snaps_step hstep h henv⟩
  · rw [hh]
    exact held_step hs h.sane h.held henv
  · rw [hh]
    exact first_step hs h.one h.first
  · rw [hh]
    exact count_step hs h.go h.count

theorem safe_boot : Safe ⟨boot, Hist.empty⟩ := by
  refine ⟨sane_boot, by decide, ⟨?_, ?_⟩, ?_, ?_, ?_, ?_, ?_⟩
  · intro c val h
    cases c <;> simp [boot, Caller.ending] at h
  · intro val h
    simp [boot] at h
  · intro i _
    rfl
  · intro n h
    simp [boot] at h
  · intro _
    rfl
  · rfl
  · intro j l h
    simp [Hist.empty] at h

theorem safe_reached {o : Obs} (h : Reached SafeEnv o) : Safe o :=
  h.inv safe_boot fun _ _ _ hs he hstep => safe_step hstep hs he

end lscov
