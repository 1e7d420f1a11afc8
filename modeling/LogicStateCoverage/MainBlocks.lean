-- The laws of the map updates of `main`. The pass inserts the call to
-- `__lscov_main` and the update of the entry block at one place, the update
-- last, so it comes to stand before the call. When the entry block has no
-- update, every update of `main` belongs to its own execution. The lstate shows
-- them all, but for one at index 0, where the status byte is.
import LogicStateCoverage.Pass
import LogicStateCoverage.Kills
import LogicStateCoverage.Progress
import LogicStateCoverage.Restarts
import LogicStateCoverage.Snapshots

namespace lscov

open runs pass

variable {Op : Type}

/-! ## What a run of `main` does -/

/-- A place in a run of a function: the rest of a block, and the thread. -/
structure Frame (Op : Type) where
  insts : List (Inst Op)
  term : Term
  thread : Thread

/-- What an inserted instruction does to the area or the protocol. -/
def insertedActs (t : Thread) : Inst Op → List Act
  | .callLscovMain => [.call]
  | i => (i.mapStore t).toList.map fun s => .store s.1

/-- The runs of a function from its entry: the acts so far, and the place. The `phi`
groups do nothing here. An instruction of the program may call any other code, so
it may do any acts, and it may leave any `__lscov_prev_loc` behind. -/
inductive Run (f : Fn Op) : List Act → Frame Op → Prop
  | entry {b : Block Op} (t : Thread) (hb : f.blocks[0]? = some b) (ht : t.prevLoc < LSTATE_SIZE) :
      Run f [] ⟨b.insts, b.term, t⟩
  | orig {acts : List Act} {op : Op} {is : List (Inst Op)} {term : Term} {t : Thread}
      (own : List Act) (t' : Thread) (h : Run f acts ⟨.orig op :: is, term, t⟩) :
      Run f (acts ++ own) ⟨is, term, t'⟩
  | inserted {acts : List Act} {i : Inst Op} {is : List (Inst Op)} {term : Term} {t : Thread}
      (a : Area) (hi : ∀ op, i ≠ .orig op) (h : Run f acts ⟨i :: is, term, t⟩) :
      Run f (acts ++ insertedActs t i) ⟨is, term, i.next a t⟩
  | jump {acts : List Act} {term : Term} {t : Thread} {d : Nat} {b : Block Op}
      (h : Run f acts ⟨[], term, t⟩) (hd : d ∈ term.succs) (hb : f.blocks[d]? = some b) :
      Run f acts ⟨b.insts, b.term, t⟩

/-- The acts of a run of the function up to some place. -/
def Does (f : Fn Op) (acts : List Act) : Prop := ∃ fr, Run f acts fr

/-- In every run of the function, the call to `__lscov_main` comes before every map
update. -/
def CallsFirst (f : Fn Op) : Prop :=
  ∀ pre i post, Does f (pre ++ .store i :: post) → .call ∈ pre

/-! ## The two insertions at the entry -/

/-- A function that starts with the call does nothing before it. -/
theorem run_call {f : Fn Op} {b : Block Op} {is : List (Inst Op)} (hb : f.blocks[0]? = some b)
    (his : b.insts = .callLscovMain :: is) {acts : List Act} {fr : Frame Op} (h : Run f acts fr) :
    acts.head? = some .call ∨ acts = [] ∧ ∃ is, fr.insts = .callLscovMain :: is := by
  induction h with
  | entry t hb' ht =>
    rw [hb, Option.some.injEq] at hb'
    subst hb'
    exact Or.inr ⟨rfl, is, his⟩
  | orig own t' h ih =>
    rcases ih with hc | ⟨-, is, hi⟩
    · exact Or.inl (by rw [List.head?_append, hc]; rfl)
    · cases hi
  | inserted a hi h ih =>
    rcases ih with hc | ⟨hn, is, hi⟩
    · exact Or.inl (by rw [List.head?_append, hc]; rfl)
    · cases hi
      rw [hn]
      exact Or.inl rfl
  | jump h hd hb ih =>
    rcases ih with hc | ⟨-, is, hi⟩
    · exact Or.inl hc
    · cases hi

theorem callsFirst_of_call {f : Fn Op} {b : Block Op} {is : List (Inst Op)}
    (hb : f.blocks[0]? = some b) (his : b.insts = .callLscovMain :: is) : CallsFirst f := by
  rintro pre i post ⟨fr, h⟩
  rcases run_call hb his h with hc | ⟨hn, -⟩
  · cases pre with
    | nil => simp at hc
    | cons a pre =>
      simp only [List.cons_append, List.head?_cons, Option.some.injEq] at hc
      rw [hc]
      exact List.mem_cons_self
  · simp at hn

/-- A function that starts with a map update stores before it does anything else. -/
theorem run_update {f : Fn Op} {b : Block Op} {is : List (Inst Op)} (build : Build) (c : Idx)
    (hb : f.blocks[0]? = some b) (his : b.insts = mapUpdate build c.val ++ is) :
    Does f [.store c] := by
  have hlt : (0 : Nat) < LSTATE_SIZE := by decide
  have h0 := Run.entry (f := f) ⟨0, 0, 0, 0⟩ hb hlt
  rw [his] at h0
  have h1 := Run.inserted Area.zero (by simp) h0
  have h2 := Run.inserted Area.zero (by simp) h1
  have h3 := Run.inserted Area.zero (by simp) h2
  have h4 := Run.inserted Area.zero (by simp) h3
  cases build with
  | bitmap =>
    have hstore : Does f _ := ⟨_, Run.inserted Area.zero (by simp) h4⟩
    simpa [insertedActs, Inst.next, Inst.mapStore] using hstore
  | bucket =>
    have h5 := Run.inserted Area.zero (by simp) h4
    have h6 := Run.inserted Area.zero (by simp) h5
    have hstore : Does f _ := ⟨_, Run.inserted Area.zero (by simp) h6⟩
    simpa [insertedActs, Inst.next, Inst.mapStore, Area.zero] using hstore

/-- What the pass makes of the entry block of `main`. -/
theorem entry_run {m : Module Op} {f : Fn Op} {b : Block Op} {bs : List (Block Op)}
    (build : Build) (random : Nat → Nat) (hf : m.getFunction "main" = some f)
    (hb : f.blocks = b :: bs) :
    ∃ m' inst_blocks f' n, run build random m = some (m', inst_blocks) ∧
      m'.getFunction "main" = some f' ∧
      f'.blocks[0]? = some (instrumentBlock build random (b.insertFirst [.callLscovMain]) n).1 := by
  obtain ⟨m', inst_blocks, n, hrun, hn⟩ := getFunction_run build random hf hb
  refine ⟨m', inst_blocks, _, n, hrun, hn, ?_⟩
  simp [forEach]

/-- An entry block with a map update stores before it calls. -/
theorem stores_first {f' : Fn Op} {b : Block Op} {build : Build} {random : Nat → Nat} {n : Nat}
    (hb : f'.blocks[0]? =
      some (instrumentBlock build random (b.insertFirst [.callLscovMain]) n).1)
    (hu : ¬ b.term.isUnconditional = true) : ∃ i, Does f' [.store i] := by
  unfold instrumentBlock at hb
  rw [Block.insertFirst_term, if_neg hu] at hb
  have hlt : curLoc random n < LSTATE_SIZE := Nat.mod_lt _ (by decide)
  exact ⟨⟨curLoc random n, hlt⟩, run_update build _ hb rfl⟩

/-- The call comes first just when the entry block has no map update. -/
theorem callsFirst_iff {f' : Fn Op} {b : Block Op} {build : Build} {random : Nat → Nat} {n : Nat}
    (hb : f'.blocks[0]? =
      some (instrumentBlock build random (b.insertFirst [.callLscovMain]) n).1) :
    CallsFirst f' ↔ b.term.isUnconditional = true := by
  constructor
  · intro h
    by_contra hu
    obtain ⟨i, hi⟩ := stores_first hb hu
    simpa using h [] i [] hi
  · intro hu
    unfold instrumentBlock at hb
    rw [Block.insertFirst_term, if_pos hu] at hb
    exact callsFirst_of_call hb rfl

/-! ## The runs of an instrumented `main` -/

/-- Each process runs the function `f` as its `main`, and is killed cleanly if at all. -/
def ProgEnv (f : Fn Op) : Env := fun o a =>
  match a with
  | .call | .store _ => Does f (o.hist.trace ++ [a])
  | .kill => CleanKill o.state
  | _ => True

/-- As `ProgEnv`, where a process ends or crashes in its own code, no `__lscov_init`
comes right after a crash, and no map update has the index 0. -/
def HandedEnv (f : Fn Op) : Env := fun o a => ProgEnv f o a ∧
  match a with
  | .store i => i ≠ 0
  | .kill => o.state.rt = .target
  | .spawn init => init = true → o.hist.pending = false
  | _ => True

/-- The map updates of `main` belong to their own execution. -/
structure Attributed (f : Fn Op) : Prop where
  /-- An update of an execution is made, and put down for that execution, when the
  daemon has copied every execution before it. -/
  own : ∀ o o' i, Reached (ProgEnv f) o → ProgEnv f o (.store i) →
    observe step note o (.store i) = some o' →
    o.state.rt = .target ∧ o.hist.snaps.length + 1 = o.hist.execs.length ∧
      ∃ e, o.hist.cur = some e ∧ o'.hist.cur = some (e ++ [i])
  /-- The lstate of an execution shows no updates of another one. It shows all its
  own just when none of them has the index 0. -/
  shown : ∀ o, Reached (ProgEnv f) o → ∀ (j : Nat) l, o.hist.snaps[j]? = some l →
    ∃ e, o.hist.execs[j]? = some e ∧ l.Holds e ∧ ((∀ i, l i = 1 ↔ i ∈ e) ↔ 0 ∉ e)
  /-- Once the daemon has left `lscov_wait`, the two sides come to rest by themselves,
  with a lstate of every execution that ended. -/
  taken : ∀ o, Reached (HandedEnv f) o → o.state.dm ≠ .wait →
    ∀ acts o', Allowed (observe step note) Alone o acts →
      run (observe step note) o acts = some o' →
        acts.length ≤ 5 * LSTATE_SIZE ∧
          ((∀ a, Alone o' a → observe step note o' a = none) →
            AtRest o' ∧ (Called o.state.rt → o'.state.rt = .target))

/-- Before a process calls `__lscov_main`, its trace has no call. -/
def Uncalled (o : Obs) : Prop :=
  o.state.rt = .init ∨ o.state.rt = .started → .call ∉ o.hist.trace

theorem uncalled_step {s s' : Sys} {h : Hist} {a : Act} (hstep : Step s a s')
    (hu : Uncalled ⟨s, h⟩) : Uncalled ⟨s', note s a h⟩ := by
  intro hrt
  cases hstep with
  | init hp => simpa [note_trace (Or.inl rfl)] using hu (Or.inl hp)
  | endMark c hp | endGetvalue c hp | endPost c val hp =>
    cases c <;> simp [Caller.ending, Caller.ended] at hrt
  | store i hp => simpa [note] using hu hrt
  | spawn init hp => simp [note]
  | call hp | exit hp | kill hp => simp at hrt
  | _ => first | (simp at hrt; done) | simpa [note_trace (Or.inr rfl)] using hu hrt

/-- When the call comes first, a process stores only in the code of the target. -/
theorem target_of_store {f : Fn Op} (hf : CallsFirst f) {o o' : Obs} {i : Idx} (hu : Uncalled o)
    (henv : ProgEnv f o (.store i)) (hstep : observe step note o (.store i) = some o') :
    o.state.rt = .target := by
  obtain ⟨s', hs, rfl⟩ := observe_next hstep
  cases hs with
  | store i hp =>
    rcases hp with hp | hp
    · -- The process would have stored before its call.
      exact absurd (hf o.hist.trace i [] henv) (hu (Or.inr hp))
    · exact hp

/-- A process in the code of the target has the area, so no execution is handed over. -/
theorem not_handed_of_target {s : Sys} (h1 : tokens s ≤ 1) (ht : s.rt = .target) :
    s.rd = 0 ∧ dmOwns s.dm = false := by
  unfold tokens at h1
  simp only [ht, rtOwns, Bool.toNat_true] at h1
  constructor
  · omega
  · cases hd : dmOwns s.dm with
    | false => rfl
    | true =>
      rw [hd, Bool.toNat_true] at h1
      omega

structure Prog (o : Obs) : Prop extends Safe o where
  uncalled : Uncalled o
  /-- No lstate has a map update in its status byte. -/
  status : StatusKept (fun v => v ≠ 1) o

theorem prog_step {f : Fn Op} (hf : CallsFirst f) {o o' : Obs} {a : Act} (h : Prog o)
    (henv : ProgEnv f o a) (hstep : observe step note o a = some o') : Prog o' := by
  have htarget : ∀ i, a = .store i → o.state.rt = .target := by
    rintro i rfl
    exact target_of_store hf h.uncalled henv hstep
  refine ⟨?_, ?_, ?_⟩
  · apply safe_step hstep h.toSafe
    cases a with
    | store i => exact htarget i rfl
    | kill => exact CleanKill.safe henv
    | _ => trivial
  · obtain ⟨s', hst, rfl⟩ := observe_next hstep
    exact uncalled_step hst h.uncalled
  · refine statusKept_step hstep h.sane h.status (by decide) fun hor h0 => ?_
    rcases status_cases (observe_cases hstep).1 h.sane with hsame | h80 | ⟨-, -, h81⟩ | ⟨hs, -⟩
    · rw [hsame]
      exact h0
    · simp [h80]
    · simp [h81]
    · obtain ⟨hrd, hdm⟩ := not_handed_of_target h.one (htarget 0 hs)
      rcases hor with hor | hor
      · omega
      · simp [hor, dmOwns] at hdm

theorem prog_boot : Prog ⟨boot, Hist.empty⟩ :=
  ⟨safe_boot, fun _ => by simp [Hist.empty], statusKept_boot⟩

theorem prog_reached {f : Fn Op} (hf : CallsFirst f) {o : Obs} (h : Reached (ProgEnv f) o) :
    Prog o :=
  h.inv prog_boot fun _ _ _ hp he hstep => prog_step hf hp he hstep

theorem shows_iff {l : Area} {e : List Idx} (h : l.Holds e) (h0 : l 0 ≠ 1) :
    (∀ i, l i = 1 ↔ i ∈ e) ↔ 0 ∉ e := by
  constructor
  · intro hall hmem
    exact h0 ((hall 0).mpr hmem)
  · intro hmem i
    by_cases hi : i = 0
    · subst hi
      exact ⟨fun h1 => absurd h1 h0, fun h1 => absurd h1 hmem⟩
    · rw [h i hi]
      simp

/-- A process in the code of the target has the area, and the daemon has copied every
execution before it. -/
theorem copied_before {o : Obs} (h : Safe o) (ht : o.state.rt = .target) :
    o.hist.snaps.length + 1 = o.hist.execs.length := by
  have h1 := h.one
  have hm := marking_le o.state.dm
  have hc := h.count
  unfold tokens at h1
  simp only [ht, rtOwns, Bool.toNat_true] at h1
  omega

/-- The marker of a process stands until it ends, so an execution that is cut off is
handed over. -/
theorem HandedEnv.lock {f : Fn Op} (hf : CallsFirst f) {o o' : Obs} {a : Act} (hu : Uncalled o)
    (hl : Locked o) (hm : Marked o.state) (h : HandedEnv f o a)
    (hstep : observe step note o a = some o') : LockEnv o a := by
  obtain ⟨hprog, h⟩ := h
  have h81 : o.state.rt = .target → o.state.area 0 > 0x80 := by
    intro ht
    rw [hm ht]
    decide
  cases a with
  | store i => exact target_of_store hf hu hprog hstep
  | call => exact h81
  | kill => exact ⟨h, h81 h⟩
  | spawn init => exact fun hi => quiet_of_spawn hl hstep (h hi)
  | _ => trivial

theorem locked_of_handed {f : Fn Op} (hf : CallsFirst f) {o : Obs} (h : Reached (HandedEnv f) o) :
    Locked o := by
  have key : Uncalled o ∧ Locked o ∧ Marked o.state := by
    apply h.inv (P := fun o => Uncalled o ∧ Locked o ∧ Marked o.state)
    · exact ⟨fun _ => by simp [Hist.empty], locked_boot, by simp [Marked, boot]⟩
    · rintro o o' a ⟨hu, hl, hm⟩ henv hstep
      have hlock := HandedEnv.lock hf hu hl hm henv hstep
      obtain ⟨s', hs, rfl⟩ := observe_next hstep
      refine ⟨uncalled_step hs hu, locked_step hstep hl hlock, marked_step hs hl.sane hm ?_⟩
      rintro i rfl
      exact henv.2
  exact key.2.1

theorem attributed_of_callsFirst {f : Fn Op} (hf : CallsFirst f) : Attributed f := by
  refine ⟨?_, ?_, ?_⟩
  · intro o o' i h henv hstep
    have hp := prog_reached hf h
    have ht := target_of_store hf hp.uncalled henv hstep
    have hcur : o.hist.cur ≠ none := by
      have hheld := hp.held
      rw [ht] at hheld
      exact hheld.1
    obtain ⟨e, he⟩ := Option.ne_none_iff_exists'.mp hcur
    refine ⟨ht, copied_before hp.toSafe ht, e, he, ?_⟩
    rw [(observe_cases hstep).2]
    simp [note, ht, he]
  · intro o h j l hl
    have hp := prog_reached hf h
    obtain ⟨e, he, hholds⟩ := hp.snaps j l hl
    exact ⟨e, he, hholds, shows_iff hholds (hp.status.snaps l (List.mem_of_getElem? hl))⟩
  · intro o h hw acts o' ha hr
    have hl := locked_of_handed hf h
    exact ⟨alone_length ⟨hl.sane, hw⟩ ha hr, alone_last hl hw ha hr⟩

/-- A `main` that stores first does so before its call, into the area of the execution
before it. -/
theorem not_attributed {f : Fn Op} {i : Idx} (h : Does f [.store i]) : ¬ Attributed f := by
  intro ha
  have hr : Reached (ProgEnv f) (ready .wait) := reached_ready_wait fun _ _ _ => trivial
  have hstore : Step (ready .wait).state (.store i) _ := .store i (Or.inl rfl)
  have ht := (ha.own _ _ i hr h hstore.observe_eq).1
  simp [ready] at ht

/-! ## The laws -/

/-- In every module that defines `main`, the map updates of `main` come after its call
to `__lscov_main`, and so belong to their own execution, just when the entry block
of `main` ends in an unconditional branch. Then a lstate shows all the updates of
its execution just when none of them has the index 0. The lstates are those of the
default build. -/
theorem main_is_attributed_iff (build : Build) (random : Nat → Nat) (m : Module Op) (f : Fn Op)
    (b : Block Op) (bs : List (Block Op)) (hf : m.getFunction "main" = some f)
    (hb : f.blocks = b :: bs) :
    ∃ m' inst_blocks f', pass.run build random m = some (m', inst_blocks) ∧
      m'.getFunction "main" = some f' ∧
      (CallsFirst f' ↔ b.term.isUnconditional = true) ∧
      (build = .bitmap → (Attributed f' ↔ b.term.isUnconditional = true)) := by
  obtain ⟨m', inst_blocks, f', n, hrun, hf', hentry⟩ := entry_run build random hf hb
  refine ⟨m', inst_blocks, f', hrun, hf', callsFirst_iff hentry, ?_⟩
  intro _
  constructor
  · intro ha
    by_contra hu
    obtain ⟨i, hi⟩ := stores_first hentry hu
    exact not_attributed hi ha
  · intro hu
    exact attributed_of_callsFirst ((callsFirst_iff hentry).mpr hu)

/-- A `main` that goes from its entry on to one more block. -/
def jumpMain : Module Unit where
  fns := [⟨"main", [⟨[], [.orig ()], .br 1⟩, ⟨[], [.orig ()], .ret⟩]⟩]
  names := by decide

theorem jumpMain_is_attributed :
    ∃ m' inst_blocks f', pass.run .bitmap (fun n => n + 1) jumpMain = some (m', inst_blocks) ∧
      m'.getFunction "main" = some f' ∧ CallsFirst f' ∧ Attributed f' := by
  obtain ⟨m', inst_blocks, f', hrun, hf', h1, h2⟩ :=
    main_is_attributed_iff .bitmap (fun n => n + 1) jumpMain _ _ _ rfl rfl
  exact ⟨m', inst_blocks, f', hrun, hf', h1.mpr rfl, (h2 rfl).mpr rfl⟩

/-- A `main` of one block. -/
def shortMain : Module Unit where
  fns := [⟨"main", [⟨[], [.orig ()], .ret⟩]⟩]
  names := by decide

/-- The one map update of `shortMain` comes before its call, and belongs to the
execution before it. -/
theorem shortMain_is_not_attributed :
    ∃ m' inst_blocks f', pass.run .bitmap (fun n => n + 1) shortMain = some (m', inst_blocks) ∧
      m'.getFunction "main" = some f' ∧ ¬ CallsFirst f' ∧ ¬ Attributed f' := by
  obtain ⟨m', inst_blocks, f', n, hrun, hf', hentry⟩ :=
    entry_run .bitmap (fun n => n + 1) (m := shortMain) rfl rfl
  obtain ⟨i, hi⟩ := stores_first hentry (by decide)
  refine ⟨m', inst_blocks, f', hrun, hf', ?_, not_attributed hi⟩
  intro h
  simpa using h [] i [] hi

end lscov
