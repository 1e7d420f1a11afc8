-- The law of the channel. The two semaphores and the area are a buffer with one place: each
-- execution that is handed over puts its logic state there, and each lstate that the daemon
-- copies takes one out.
import LogicStateCoverage.Buffers
import LogicStateCoverage.Snapshots
import Mathlib.Data.Set.Basic

namespace lscov

open runs buffers

/-! ## The buffer -/

/-- The indices past the status byte that were hit. -/
def Area.hits (a : Area) : Set Idx := {i | i ≠ 0 ∧ a i ≠ 0}

/-- The logic state of an execution: the indices that it stored to. -/
def logicState (stored : List Idx) : Set Idx := {i | i ≠ 0 ∧ i ∈ stored}

theorem Area.Holds.hits {a : Area} {stored : List Idx} (h : a.Holds stored) :
    a.hits = logicState stored := by
  ext i
  simp only [Area.hits, logicState, Set.mem_ofPred_eq, and_congr_right_iff]
  intro hi
  rw [h i hi]
  by_cases hm : i ∈ stored <;> simp [hm]

theorem Area.hits_congr {a b : Area} (h : ∀ i, i ≠ 0 → a i = b i) : a.hits = b.hits := by
  ext i
  simp only [Area.hits, Set.mem_ofPred_eq, and_congr_right_iff]
  intro hi
  rw [h i hi]

/-- An execution is handed over, and not copied yet. -/
def handed (s : Sys) : Bool := decide (s.rd = 1) || copying s.dm

/-- The buffer that the shared memory and the copies of the daemon are. -/
def asBuffer (o : Obs) : Buffer (Set Idx) where
  slot := if handed o.state then some o.state.area.hits else none
  taken := o.hist.snaps.map Area.hits

/-- A post of `rd` puts the logic state of the last execution. -/
def transferRt (cur : Option (List Idx)) : rt.Pc → List (Op (Set Idx))
  | .main (.endExec (.post 0)) | .fin (.post 0) => [.put (logicState (cur.getD []))]
  | _ => []

/-- The end of `memcpy` takes one. -/
def transferDm : daemon.Pc → List (Op (Set Idx))
  | .copy i => if i < LSTATE_SIZE then [] else [.get]
  | _ => []

/-- What a step puts into the buffer or takes out of it. -/
def transfers (o : Obs) : Act → List (Op (Set Idx))
  | .rt => transferRt o.hist.cur o.state.rt
  | .dm => transferDm o.state.dm
  | _ => []

/-! ## The steps -/

/-- The runtime does not have the area of an execution that is handed over. -/
theorem handed_free {o : Obs} (h : Locked o) (hh : handed o.state = true) :
    rtOwns (o.state.area 0) o.state.rt = false := by
  have h1 := h.exact_one
  cases hr : rtOwns (o.state.area 0) o.state.rt with
  | false => rfl
  | true =>
    simp only [handed, Bool.or_eq_true, decide_eq_true_eq] at hh
    rw [tokens, hr, dmOwns_eq] at h1
    rcases hh with hh | hh <;> simp only [hh, Bool.toNat_true] at h1 <;> omega

/-- The area of an execution that is handed over stays as it is. -/
theorem handed_area {o : Obs} {s' : Sys} {a : Act} (h : Locked o) (henv : LockEnv o a)
    (hs : Step o.state a s') (hh : handed o.state = true) : s'.area.hits = o.state.area.hits := by
  have hown := handed_free h hh
  apply Area.hits_congr
  intro i hi
  apply hs.area_eq _ _ hi
  · intro j hj
    rw [hj] at hown
    cases hown
  · rintro j rfl
    have ht : o.state.rt = .target := henv
    rw [ht] at hown
    cases hown

/-- A step that hands nothing over and copies nothing. -/
theorem buffer_frame {o : Obs} {s' : Sys} {a : Act} (h : Locked o) (henv : LockEnv o a)
    (hs : Step o.state a s') (hh : handed s' = handed o.state)
    (hsnaps : (note o.state a o.hist).snaps = o.hist.snaps) (ht : transfers o a = []) :
    run Buffer.step (asBuffer o) (transfers o a) = some (asBuffer ⟨s', note o.state a o.hist⟩) := by
  rw [ht, run, Option.some.injEq]
  simp only [asBuffer, hh, hsnaps]
  cases hb : handed o.state with
  | false => rfl
  | true => rw [handed_area h henv hs hb]

theorem transferRt_nil {p : rt.Pc} (cur : Option (List Idx))
    (h : ∀ c, p ≠ Caller.ending c (.post 0)) : transferRt cur p = [] := by
  unfold transferRt
  split
  · exact absurd rfl (h .main)
  · exact absurd rfl (h .fin)
  · rfl

/-- The post of `rd` puts the stores of the last execution. -/
theorem buffer_post {o : Obs} {c : Caller} (h : Locked o) (hp : o.state.rt = c.ending (.post 0)) :
    run Buffer.step (asBuffer o) (transfers o .rt) =
      some (asBuffer ⟨{ o.state with rd := o.state.rd + 1, rt := c.ended },
        note o.state .rt o.hist⟩) := by
  have h1 := h.exact_one
  rw [tokens, hp, rtOwns_ending, dmOwns_eq] at h1
  have hrd : o.state.rd = 0 := by simp at h1; omega
  have hcopy : copying o.state.dm = false := by
    cases hc : copying o.state.dm with
    | false => rfl
    | true =>
      simp only [hc, Bool.toNat_true] at h1
      omega
  have hput : transfers o .rt = [.put (logicState (o.hist.cur.getD []))] := by
    rw [transfers, hp]
    cases c <;> rfl
  have hholds : o.state.area.Holds (o.hist.cur.getD []) := by
    apply h.held.holds
    intro i hi
    rw [hp] at hi
    cases c <;> cases hi
  have hempty : (asBuffer o).slot = none := by simp [asBuffer, handed, hrd, hcopy]
  have hsnaps : (note o.state .rt o.hist).snaps = o.hist.snaps := note_snaps (by simp)
  rw [hput]
  simp [run, Buffer.step, hempty]
  simp [asBuffer, handed, hrd, hsnaps, hholds.hits]

/-- The end of `memcpy` takes what the area holds. -/
theorem buffer_copied {o : Obs} {i : Nat} (h : Locked o) (hp : o.state.dm = .copy i)
    (hi : ¬ i < LSTATE_SIZE) :
    run Buffer.step (asBuffer o) (transfers o .dm) =
      some (asBuffer ⟨{ o.state with dm := .mark }, note o.state .dm o.hist⟩) := by
  have h1 := h.exact_one
  have hrd : o.state.rd = 0 := by
    simp [tokens, hp, dmOwns] at h1
    omega
  have hfull : (asBuffer o).slot = some o.state.area.hits := by simp [asBuffer, handed, hp, copying]
  have hlstate : o.state.lstate.hits = o.state.area.hits := by
    apply Area.hits_congr
    intro j hj
    exact h.copying i hp j hj (by have := j.isLt; omega)
  have hget : transfers o .dm = [.get] := by simp [transfers, transferDm, hp, hi]
  rw [hget]
  simp [run, Buffer.step, hfull]
  simp [asBuffer, handed, hrd, copying, note, noteDm, hp, hi, hlstate]

theorem buffer_step {o o' : Obs} {a : Act} (h : Locked o) (henv : LockEnv o a)
    (hstep : observe step note o a = some o') :
    run Buffer.step (asBuffer o) (transfers o a) = some (asBuffer o') := by
  obtain ⟨s', hs, rfl⟩ := observe_next hstep
  by_cases hdm : a = .dm
  · subst hdm
    have hrd := h.sane.rd_le
    cases hs with
    | copied i hp hi => exact buffer_copied h hp hi
    | copy i hp hi =>
      apply buffer_frame h henv (.copy i hp hi)
      · simp [handed, hp, copying]
      · simp [note, noteDm, hp, hi]
      · simp [transfers, transferDm, hp, hi]
    | semWait hp hd =>
      apply buffer_frame h henv (.semWait hp hd)
      · simp [handed, copying]
        omega
      · simp [note, noteDm, hp]
      · simp [transfers, transferDm, hp]
    | update n hp =>
      apply buffer_frame h henv (.update n hp)
      · rcases daemon.update_turn_pc o.state.toOwn n with hn | hn <;>
          simp [handed, hp, hn, copying]
      · simp [note, noteDm, hp]
      · simp [transfers, transferDm, hp]
    | poll hp hm =>
      apply buffer_frame h henv (.poll hp hm) rfl
      · simp [note, noteDm, hp]
      · simp [transfers, transferDm, hp]
    | polled hp hm =>
      apply buffer_frame h henv (.polled hp hm)
      · simp [handed, hp, copying]
      · simp [note, noteDm, hp]
      · simp [transfers, transferDm, hp]
    | fatalRd hp hd =>
      apply buffer_frame h henv (.fatalRd hp hd)
      · simp [handed, hp, copying]
      · simp [note, noteDm, hp]
      · simp [transfers, transferDm, hp]
    | getvalueRd hp hd =>
      apply buffer_frame h henv (.getvalueRd hp hd)
      · simp [handed, hp, copying]
      · simp [note, noteDm, hp]
      · simp [transfers, transferDm, hp]
    | mark hp =>
      apply buffer_frame h henv (.mark hp)
      · simp [handed, hp, copying]
      · simp [note, noteDm, hp]
      · simp [transfers, transferDm, hp]
    | markPost val hp =>
      apply buffer_frame h henv (.markPost val hp)
      · simp [handed, hp, copying]
      · simp [note, noteDm, hp]
      · simp [transfers, transferDm, hp]
  · by_cases hpost : a = .rt ∧ ∃ c, o.state.rt = Caller.ending c (.post 0)
    · obtain ⟨rfl, c, hp⟩ := hpost
      rw [hs.det (.endPost c 0 hp)]
      exact buffer_post h hp
    · have hrd : s'.rd = o.state.rd := by
        cases hs with
        | endPost c val hp =>
          have hv := h.go.rt c val hp
          subst hv
          exact absurd ⟨rfl, c, hp⟩ hpost
        | _ => first | rfl | exact absurd rfl hdm
      obtain ⟨hsame, -, -⟩ := hs.rt_frame hdm
      apply buffer_frame h henv hs
      · simp [handed, hrd, hsame]
      · exact note_snaps hdm
      · cases a with
        | rt =>
          apply transferRt_nil
          intro c hc
          exact hpost ⟨rfl, c, hc⟩
        | dm => exact absurd rfl hdm
        | _ => rfl

/-! ## The law -/

/-- The executions that are copied have the logic states that were taken. -/
theorem taken_eq {o : Obs} (h : Locked o) :
    (asBuffer o).taken = (o.hist.execs.take o.hist.snaps.length).map logicState := by
  have hposts := posts_eq h
  have hexecs := h.posts
  apply List.ext_getElem?
  intro j
  rw [asBuffer, List.getElem?_map, List.getElem?_map]
  by_cases hj : j < o.hist.snaps.length
  · rw [List.getElem?_take_of_lt hj, List.getElem?_eq_getElem hj]
    obtain ⟨e, he, hl⟩ := h.snaps j _ (List.getElem?_eq_getElem hj)
    rw [he, Option.map_some, Option.map_some, hl.hits]
  · rw [List.getElem?_eq_none (by omega),
      List.getElem?_eq_none (Nat.le_trans (List.length_take_le _ _) (by omega))]
    rfl

/-- The place holds the logic state of the execution that is handed over. -/
theorem slot_eq {o : Obs} (h : Locked o) :
    (asBuffer o).slot.toList =
      ((o.hist.execs.take o.hist.posts).drop o.hist.snaps.length).map logicState := by
  have hposts := posts_eq h
  have hexecs := h.posts
  have h1 := h.exact_one
  rw [tokens, dmOwns_eq] at h1
  cases hh : handed o.state with
  | false =>
    simp only [handed, Bool.or_eq_false_iff, decide_eq_false_iff_not] at hh
    have hle := h.sane.rd_le
    have hrd : o.state.rd = 0 := by omega
    simp only [hrd, hh.2, Bool.toNat_false] at hposts
    rw [List.drop_eq_nil_of_le]
    · simp [asBuffer, handed, hrd, hh.2]
    · rw [List.length_take]
      omega
  | true =>
    have hown := handed_free h hh
    have hone : o.state.rd + (copying o.state.dm).toNat = 1 := by
      simp only [handed, Bool.or_eq_true, decide_eq_true_eq] at hh
      rcases hh with hh | hh <;> simp only [hh, Bool.toNat_true] at h1 ⊢ <;> omega
    obtain ⟨e, he⟩ : ∃ e, o.hist.cur = some e := by
      rw [← Option.ne_none_iff_exists']
      intro hc
      have := h.first hc
      omega
    have hholds : o.state.area.Holds (o.hist.cur.getD []) := by
      apply h.held.holds
      intro i hi
      rw [hi] at hown
      cases hown
    simp only [hown, length_execs, he, Option.isSome_some, Bool.toNat_true, Bool.toNat_false]
      at hexecs
    have hlen : o.hist.snaps.length = o.hist.past.length := by omega
    rw [List.take_of_length_le (by rw [length_execs, he]; simp; omega), Hist.execs, he, hlen,
      Option.toList_some, List.drop_left]
    simp [asBuffer, hh, hholds.hits, he]

/-- Every run of the runtime and the daemon is a run of a buffer with one place. What is put
there are the logic states of the executions that are handed over, in their order. -/
theorem the_channel_is_a_buffer (acts : List Act) (o : Obs)
    (ha : Allowed (observe step note) LockEnv ⟨boot, Hist.empty⟩ acts)
    (hr : run (observe step note) ⟨boot, Hist.empty⟩ acts = some o) :
    run Buffer.step Buffer.empty (trace (observe step note) transfers ⟨boot, Hist.empty⟩ acts) =
        some (asBuffer o) ∧
      puts (trace (observe step note) transfers ⟨boot, Hist.empty⟩ acts) =
        (o.hist.execs.take o.hist.posts).map logicState := by
  have hl := locked_reached (reach_of_run ha hr)
  have hrun : run Buffer.step (asBuffer ⟨boot, Hist.empty⟩)
      (trace (observe step note) transfers ⟨boot, Hist.empty⟩ acts) = some (asBuffer o) :=
    run_refines (fun _ _ _ h he hs => locked_step hs h he)
      (fun _ _ _ h he hs => buffer_step h he hs) locked_boot ha hr
  refine ⟨hrun, ?_⟩
  have hfifo := taken_eq_puts hrun
  have hposts := posts_eq hl
  have hsplit : o.hist.execs.take o.hist.snaps.length =
      (o.hist.execs.take o.hist.posts).take o.hist.snaps.length := by
    rw [List.take_take, Nat.min_eq_left (by omega)]
  rw [taken_eq hl, slot_eq hl, hsplit, ← List.map_append, List.take_append_drop] at hfifo
  exact hfifo.symm

/-- A run that ends with the copy of its first execution. -/
theorem the_first_execution_goes_through :
    ∃ acts, run (observe step note) ⟨boot, Hist.empty⟩ acts = some firstCopied ∧
      run Buffer.step Buffer.empty
          (trace (observe step note) transfers ⟨boot, Hist.empty⟩ acts) =
        some ⟨none, [logicState [5]]⟩ := by
  have hreach : Reached LockEnv firstCopied :=
    reached_firstCopied (fun _ => trivial) (fun _ h => LockEnv.of_started h) (fun _ _ _ => trivial)
      (fun _ _ h _ => h) (fun _ => trivial)
  obtain ⟨acts, ha, hr⟩ := hreach.exists_run
  refine ⟨acts, hr, ?_⟩
  rw [(the_channel_is_a_buffer acts firstCopied ha hr).1, Option.some.injEq]
  have hl := locked_reached hreach
  have htaken := taken_eq hl
  have hslot : (asBuffer firstCopied).slot = none := rfl
  rw [← hslot, show [logicState [5]] = (asBuffer firstCopied).taken from htaken.symm]

end lscov
