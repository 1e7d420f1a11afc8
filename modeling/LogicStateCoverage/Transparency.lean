-- The laws of transparency. In every run of a module that the pass has changed, the acts
-- of the program's own code make up a run of the module before the pass. The inserted
-- code writes to the own `__lscov_prev_loc` and to the map, and never outside of it. No
-- run of the module before the pass is lost.
import LogicStateCoverage.Machine

namespace lscov.machine

open pass runs

/-! ## Before and after the pass -/

/-- A module before the pass: all its instructions are its own. Where `main` is only
declared, there is no module after the pass. -/
structure Source (Op : Type) where
  module : Module Op
  plain : ∀ f ∈ module.fns, ∀ b ∈ f.blocks, ∀ i ∈ b.insts, i.isOrig = true
  main : ∀ f ∈ module.fns, f.name = "main" → f.blocks ≠ []

variable {Op Reg Mem : Type}

def Plain (is : List (Inst Op)) : Prop := ∀ i ∈ is, i.isOrig = true

/-- A call of a function, without the inserted code. -/
def Frame.erase (f : Frame Op Reg) : Frame Op Reg := { f with insts := f.insts.filter Inst.isOrig }

def Task.erase (t : Task Op Reg) : Task Op Reg := ⟨t.frames.map Frame.erase, ⟨0, 0, 0, 0⟩⟩

/-- What the program sees of a state: where its threads are, their registers and its
memory. -/
def State.erase (s : State Op Reg Mem) : State Op Reg Mem :=
  ⟨s.tasks.map Task.erase, s.mem, Area.zero⟩

/-- The `cur_loc` of the block that a call is in. -/
def Frame.curLoc (m : Module Op) (f : Frame Op Reg) : Option Nat :=
  (m.blockAt f.fn f.block).bind fun b => b.insts.findSome? Inst.curLoc

/-- Each access to the map is at `prev_loc ^ cur_loc`, and inside of the map. -/
def InMap (m : Module Op) (s : State Op Reg Mem) : Prop :=
  ∀ (i : Nat) (f : Frame Op Reg) fs rt inst is, s.tasks[i]? = some ⟨f :: fs, rt⟩ →
    f.insts = inst :: is → inst.usesIndex = true →
    ∃ l, f.curLoc m = some l ∧ rt.index = rt.prevLoc ^^^ l ∧ rt.index < LSTATE_SIZE

/-- The step from `s` to `t` changes nothing of the program. It writes to the
`__lscov_prev_loc` of thread `i`, or to the byte of the map at `prev_loc ^ cur_loc`. -/
def WritesOnly (m : Module Op) (i : Nat) (s t : State Op Reg Mem) : Prop :=
  ∃ (f f' : Frame Op Reg) (fs : List (Frame Op Reg)) (rt rt' : Thread),
    s.tasks[i]? = some ⟨f :: fs, rt⟩ ∧ t.tasks = s.tasks.set i ⟨f' :: fs, rt'⟩ ∧
    f'.erase = f.erase ∧ t.mem = s.mem ∧
    (t.area = s.area ∨
      rt'.prevLoc = rt.prevLoc ∧ ∃ l idx v, f.curLoc m = some l ∧
        (idx : Idx).val = rt.prevLoc ^^^ l ∧ t.area = s.area.set idx v)

/-! ## The rest of a block -/

/-- The rest of a block runs well from the registers of a thread on: each access to the
map is at the right index, and `__lscov_prev_loc` ends up in the map. -/
def Safe (c : Option Nat) : List (Inst Op) → Thread → Prop
  | [], rt => rt.prevLoc < LSTATE_SIZE
  | i :: is, rt =>
    if i.isOrig then rt.prevLoc < LSTATE_SIZE ∧ Plain is
    else
      (i.usesIndex = true →
        ∃ l, c = some l ∧ rt.index = rt.prevLoc ^^^ l ∧ rt.index < LSTATE_SIZE) ∧
      ∀ a, Safe c is (i.next a rt)

variable {c : Option Nat} {is : List (Inst Op)} {rt : Thread}

theorem Plain.safe (h : Plain is) (hrt : rt.prevLoc < LSTATE_SIZE) : Safe c is rt := by
  cases is with
  | nil => exact hrt
  | cons i is =>
    unfold Safe
    rw [if_pos (h i List.mem_cons_self)]
    exact ⟨hrt, fun j hj => h j (List.mem_cons_of_mem _ hj)⟩

/-- The call of `__lscov_main` leaves `__lscov_prev_loc` alone. -/
theorem Plain.safe_call (h : Plain is) {call : List (Inst Op)}
    (hcall : call = [] ∨ call = [.callLscovMain]) (hrt : rt.prevLoc < LSTATE_SIZE) :
    Safe c (call ++ is) rt := by
  rcases hcall with rfl | rfl
  · exact h.safe hrt
  · simpa [Safe, Inst.isOrig, Inst.usesIndex, Inst.next] using h.safe hrt

/-- A map update is safe when what follows it is. -/
theorem safe_mapUpdate (build : Build) (l : Idx) (hrt : rt.prevLoc < LSTATE_SIZE)
    (h : ∀ rt : Thread, rt.prevLoc < LSTATE_SIZE → Safe (some l.val) is rt) :
    Safe (some l.val) (mapUpdate build l.val ++ is) rt := by
  have hlt : rt.prevLoc ^^^ l.val < LSTATE_SIZE := (mapIndex ⟨rt.prevLoc, hrt⟩ l).isLt
  have hshift : l.val >>> 1 < LSTATE_SIZE := (shiftLoc l).isLt
  have hnext : ∀ index counter,
      Safe (some l.val) is ⟨l.val >>> 1, rt.prevLoc, index, counter⟩ :=
    fun index counter => h _ hshift
  cases build <;> simp [mapUpdate, Safe, Inst.isOrig, Inst.usesIndex, Inst.next, hlt, hnext]

/-! ## Entering a block -/

variable {P : Sem Op Reg Mem} {src : Source Op} {build : Build} {random : Nat → Nat}
  {f g : Frame Op Reg} {fs frames : List (Frame Op Reg)} {fn : String} {d : Nat}
  {prev : Option Nat} {r : Reg}

theorem Source.isSome_run (src : Source Op) (build : Build) (random : Nat → Nat) :
    (pass.run build random src.module).isSome = true := by
  rw [isSome_run_iff]
  intro f hf
  exact src.main f (List.mem_of_find?_eq_some hf) (getFunction_name hf)

/-- The module after the pass. -/
def Source.instrumented (src : Source Op) (build : Build) (random : Nat → Nat) : Module Op :=
  ((pass.run build random src.module).get (src.isSome_run build random)).1

theorem Source.run_eq (src : Source Op) (build : Build) (random : Nat → Nat) :
    ∃ inst_blocks, pass.run build random src.module =
      some (src.instrumented build random, inst_blocks) :=
  ⟨_, (Option.some_get _).symm⟩

theorem Source.blockAt (src : Source Op) (build : Build) (random : Nat → Nat) (fn : String)
    (d : Nat) :
    ∃ pre, Inserted build random pre ∧ (src.instrumented build random).blockAt fn d =
      (src.module.blockAt fn d).map fun b => b.insertFirst pre := by
  obtain ⟨inst_blocks, hrun⟩ := src.run_eq build random
  exact blockAt_run hrun fn d

theorem Source.plain_blockAt (src : Source Op) {b : Block Op}
    (h : src.module.blockAt fn d = some b) : Plain b.insts := by
  obtain ⟨f, hf, hb⟩ := Option.bind_eq_some_iff.mp h
  exact src.plain f (List.mem_of_find?_eq_some hf) b (List.mem_of_getElem? hb)

theorem Plain.filter (h : Plain is) : is.filter Inst.isOrig = is := List.filter_eq_self.mpr h

/-- None of the inserted code is the program's own. -/
theorem filter_inserted {pre : List (Inst Op)} (h : Inserted build random pre) :
    pre.filter Inst.isOrig = [] := by
  obtain ⟨update, call, rfl, hupdate, hcall⟩ := h
  rw [List.filter_append, List.append_eq_nil_iff]
  constructor
  · rcases hupdate with rfl | ⟨n, rfl⟩
    · rfl
    · cases build <;> rfl
  · rcases hcall with rfl | rfl <;> rfl

/-- The inserted code is safe, with the `cur_loc` that is in it. -/
theorem Plain.safe_inserted (h : Plain is) {pre : List (Inst Op)}
    (hpre : Inserted build random pre) (hrt : rt.prevLoc < LSTATE_SIZE) :
    Safe ((pre ++ is).findSome? Inst.curLoc) (pre ++ is) rt := by
  obtain ⟨update, call, rfl, hupdate, hcall⟩ := hpre
  rw [List.append_assoc]
  rcases hupdate with rfl | ⟨n, rfl⟩
  · exact h.safe_call hcall hrt
  · have hloc : (mapUpdate build (curLoc random n) ++ (call ++ is)).findSome? Inst.curLoc =
        some (curLoc random n) := by
      cases build <;> rfl
    rw [hloc]
    exact safe_mapUpdate build ⟨curLoc random n, Nat.mod_lt _ (by decide)⟩ hrt
      fun rt hrt => h.safe_call hcall hrt

/-- The pass leaves the ways into a block as they are. -/
theorem enter_instrumented (h : enter P (src.instrumented build random) fn d prev r = some g) :
    enter P src.module fn d prev r = some g.erase ∧
      ∀ rt : Thread, rt.prevLoc < LSTATE_SIZE →
        Safe (g.curLoc (src.instrumented build random)) g.insts rt := by
  obtain ⟨b', hb', rfl⟩ := Option.map_eq_some_iff.mp h
  obtain ⟨pre, hpre, hrun⟩ := src.blockAt build random fn d
  rw [hrun] at hb'
  obtain ⟨b, hb, rfl⟩ := Option.map_eq_some_iff.mp hb'
  have hplain := src.plain_blockAt hb
  constructor
  · unfold enter Frame.erase Block.insertFirst
    rw [hb, Option.map_some, List.filter_append, filter_inserted hpre, hplain.filter,
      List.nil_append]
  · intro rt hrt
    unfold Frame.curLoc
    rw [hrun, hb]
    exact hplain.safe_inserted hpre hrt

/-! ## The invariant -/

/-- The last call of a thread is safe, and its callers are back in their own code. -/
def Task.Ok (m : Module Op) (t : Task Op Reg) : Prop :=
  match t.frames with
  | [] => True
  | f :: fs => Safe (f.curLoc m) f.insts t.rt ∧ ∀ g ∈ fs, Plain g.insts

def Ok (m : Module Op) (s : State Op Reg Mem) : Prop := ∀ t ∈ s.tasks, t.Ok m

theorem Safe.own (h : Safe c f.insts rt) (hown : f.atOwn = true) :
    rt.prevLoc < LSTATE_SIZE ∧ Plain f.insts := by
  unfold Frame.atOwn at hown
  cases his : f.insts with
  | nil =>
    rw [his] at h
    exact ⟨h, fun i hi => absurd hi List.not_mem_nil⟩
  | cons i is =>
    rw [his] at h hown
    simp only [Safe, hown, if_true] at h
    exact ⟨h.1, List.forall_mem_cons.mpr ⟨hown, h.2⟩⟩

/-- A thread that is back in its own code is safe. -/
theorem ok_of_plain {m : Module Op} (h : ∀ g ∈ frames, Plain g.insts)
    (hrt : rt.prevLoc < LSTATE_SIZE) : (⟨frames, rt⟩ : Task Op Reg).Ok m := by
  cases frames with
  | nil => trivial
  | cons f fs =>
    obtain ⟨hf, hfs⟩ := List.forall_mem_cons.mp h
    exact ⟨hf.safe hrt, hfs⟩

theorem Plain.erase (h : Plain f.insts) : f.erase = f := by
  unfold Frame.erase
  rw [h.filter]

theorem erase_plain (h : ∀ g ∈ frames, Plain g.insts) : frames.map Frame.erase = frames := by
  have hsame : ∀ g ∈ frames, g.erase = id g := fun g hg => (h g hg).erase
  rw [List.map_congr_left hsame, List.map_id]

theorem drop_plain {n : Nat} {gs : List (Frame Op Reg)} (h : ∀ g ∈ fs, Plain g.insts)
    (hdrop : fs.drop n = g :: gs) : ∀ g' ∈ g :: gs, Plain g'.insts :=
  fun g' hg' => h g' (List.mem_of_mem_drop (hdrop ▸ hg'))

/-- A step of the program's own code: the calls after it are safe, and they are those of
the module before the pass. -/
theorem frames_instrumented {e : Effect Reg Mem} (h : ∀ g ∈ f :: fs, Plain g.insts)
    (hrt : rt.prevLoc < LSTATE_SIZE)
    (he : e.frames P (src.instrumented build random) f fs = some frames) :
    e.frames P src.module f fs = some (frames.map Frame.erase) ∧
      (⟨frames, rt⟩ : Task Op Reg).Ok (src.instrumented build random) := by
  obtain ⟨hf, hfs⟩ := List.forall_mem_cons.mp h
  -- Without a new block to enter, the program goes on with its own code.
  have hown : ∀ gs : List (Frame Op Reg), (∀ g ∈ gs, Plain g.insts) →
      some gs = some (gs.map Frame.erase) ∧
        (⟨gs, rt⟩ : Task Op Reg).Ok (src.instrumented build random) :=
    fun gs hgs => ⟨congrArg some (erase_plain hgs).symm, ok_of_plain hgs hrt⟩
  cases e with
  | stay r mem | spawn r mem fn args =>
    cases he
    apply hown
    exact List.forall_mem_cons.mpr ⟨hf, hfs⟩
  | next r mem =>
    simp only [Effect.frames] at he ⊢
    split at he
    · cases he
    · rename_i i is hinsts
      cases he
      rw [hinsts] at hf
      have his : Plain is := fun j hj => hf j (List.mem_cons_of_mem _ hj)
      apply hown
      exact List.forall_mem_cons.mpr ⟨his, hfs⟩
  | call r mem fn args =>
    obtain ⟨g, hg, rfl⟩ := Option.map_eq_some_iff.mp he
    obtain ⟨henter, hsafe⟩ := enter_instrumented hg
    have hback : ∀ g ∈ { f with regs := r } :: fs, Plain g.insts :=
      List.forall_mem_cons.mpr ⟨hf, hfs⟩
    refine ⟨?_, hsafe rt hrt, hback⟩
    rw [Effect.frames, henter, Option.map_some, List.map_cons, erase_plain hback]
  | goto d r mem =>
    simp only [Effect.frames] at he ⊢
    split at he
    · rename_i hgoto
      obtain ⟨g, hg, rfl⟩ := Option.map_eq_some_iff.mp he
      obtain ⟨henter, hsafe⟩ := enter_instrumented hg
      refine ⟨?_, hsafe rt hrt, hfs⟩
      rw [if_pos hgoto, henter, Option.map_some, List.map_cons, erase_plain hfs]
    · cases he
  | leave n back mem =>
    simp only [Effect.frames] at he ⊢
    split at he
    · cases he
      exact ⟨rfl, trivial⟩
    · rename_i g gs hdrop
      cases he
      obtain ⟨hg, hgs⟩ := List.forall_mem_cons.mp (drop_plain hfs hdrop)
      apply hown
      exact List.forall_mem_cons.mpr ⟨hg, hgs⟩

/-- The same for a new thread. -/
theorem spawned_instrumented {e : Effect Reg Mem} {new : List (Task Op Reg)}
    (he : e.spawned P (src.instrumented build random) = some new) :
    e.spawned P src.module = some (new.map Task.erase) ∧
      ∀ t ∈ new, t.Ok (src.instrumented build random) := by
  cases e with
  | spawn r mem fn args =>
    obtain ⟨g, hg, rfl⟩ := Option.map_eq_some_iff.mp he
    obtain ⟨henter, hsafe⟩ := enter_instrumented hg
    constructor
    · rw [Effect.spawned, henter]
      rfl
    · intro t ht
      rw [List.mem_singleton.mp ht]
      exact ⟨hsafe ⟨0, 0, 0, 0⟩ (by decide), fun g hg => absurd hg List.not_mem_nil⟩
  | stay | next | call | goto | leave =>
    cases he
    exact ⟨rfl, fun t ht => absurd ht List.not_mem_nil⟩

/-! ## Steps -/

variable {s t : State Op Reg Mem} {i : Nat}

theorem ok_set {m : Module Op} {tasks : List (Task Op Reg)} {u : Task Op Reg}
    (h : ∀ t ∈ tasks, t.Ok m) (hu : u.Ok m) : ∀ t ∈ tasks.set i u, t.Ok m := by
  intro t ht
  rcases List.mem_or_eq_of_mem_set ht with hin | rfl
  · exact h t hin
  · exact hu

/-- A thread that only gets on with the inserted code looks the same to the program. -/
theorem erase_set {tasks : List (Task Op Reg)} {u v : Task Op Reg} (hu : tasks[i]? = some u)
    (h : v.erase = u.erase) : (tasks.set i v).map Task.erase = tasks.map Task.erase := by
  apply List.ext_getElem?
  intro k
  rw [List.getElem?_map, List.getElem?_map, List.getElem?_set]
  split
  · rename_i hk
    obtain ⟨hlt, -⟩ := List.getElem?_eq_some_iff.mp hu
    subst hk
    rw [if_pos hlt, hu, Option.map_some, Option.map_some, h]
  · rfl

theorem erase_insts {inst : Inst Op} (hf : f.insts = inst :: is) (hinst : inst.isOrig = false) :
    ({ f with insts := is } : Frame Op Reg).erase = f.erase := by
  unfold Frame.erase
  rw [hf, List.filter_cons_of_neg (by simp [hinst])]

theorem isOrig_of_isUpdate {inst : Inst Op} (h : inst.isUpdate = true) : inst.isOrig = false := by
  cases inst <;> first | rfl | cases h

/-- The thread at `i` is safe, and its callers are back in their own code. -/
theorem Ok.safe {m : Module Op} (h : Ok m s) (htop : s.tasks[i]? = some ⟨f :: fs, rt⟩) :
    Safe (f.curLoc m) f.insts rt ∧ ∀ g ∈ fs, Plain g.insts :=
  h _ (List.mem_of_getElem? htop)

theorem Ok.inMap {m : Module Op} (h : Ok m s) : InMap m s := by
  intro i f fs rt inst is htop hf huses
  have hsafe := (h.safe htop).1
  rw [hf] at hsafe
  have horig : inst.isOrig = false := by
    cases inst <;> first | rfl | cases huses
  simp only [Safe, horig, Bool.false_eq_true, if_false] at hsafe
  exact hsafe.1 huses

theorem Ok.not_wild {m : Module Op} (h : Ok m s) (u : State Op Reg Mem) :
    step P m s (.wild i u) ≠ some t := by
  intro hs
  obtain ⟨f, fs, rt, inst, is, htop, hf, huses, hwild⟩ := step_wild hs
  obtain ⟨-, -, -, hlt⟩ := h.inMap i f fs rt inst is htop hf huses
  exact hwild hlt

theorem ok_step {a : Act Op Reg Mem} (h : Ok (src.instrumented build random) s)
    (hs : step P (src.instrumented build random) s a = some t) :
    Ok (src.instrumented build random) t := by
  cases a with
  | own i e =>
    obtain ⟨f, fs, rt, frames, new, htop, hown, hframes, hnew, rfl⟩ := step_own.mp hs
    obtain ⟨hsafe, hfs⟩ := h.safe htop
    obtain ⟨hrt, hf⟩ := hsafe.own hown
    have hok := (frames_instrumented (List.forall_mem_cons.mpr ⟨hf, hfs⟩) hrt hframes).2
    intro u hu
    rcases List.mem_append.mp hu with hold | hnew'
    · exact ok_set h hok u hold
    · exact (spawned_instrumented hnew).2 u hnew'
  | inserted i =>
    obtain ⟨f, fs, rt, inst, is, htop, hf, hupdate, -, rfl⟩ := step_inserted.mp hs
    obtain ⟨hsafe, hfs⟩ := h.safe htop
    rw [hf] at hsafe
    simp only [Safe, isOrig_of_isUpdate hupdate, Bool.false_eq_true, if_false] at hsafe
    exact ok_set h ⟨hsafe.2 s.area, hfs⟩
  | lscovMain i area =>
    obtain ⟨f, fs, rt, is, htop, hf, rfl⟩ := step_lscovMain.mp hs
    obtain ⟨hsafe, hfs⟩ := h.safe htop
    rw [hf] at hsafe
    exact ok_set h ⟨hsafe.2 s.area, hfs⟩
  | wild i u =>
    exact absurd hs (h.not_wild u)
  | outside area =>
    cases hs
    exact h

/-- What is not the program's own changes nothing that the program sees. -/
theorem erase_step {a : Act Op Reg Mem} (h : Ok (src.instrumented build random) s)
    (hs : step P (src.instrumented build random) s a = some t) (ha : a.isOwn = false) :
    t.erase = s.erase := by
  cases a with
  | own i e => cases ha
  | inserted i =>
    obtain ⟨f, fs, rt, inst, is, htop, hf, hupdate, -, rfl⟩ := step_inserted.mp hs
    unfold State.erase
    rw [erase_set htop]
    unfold Task.erase
    rw [List.map_cons, List.map_cons, erase_insts hf (isOrig_of_isUpdate hupdate)]
  | lscovMain i area =>
    obtain ⟨f, fs, rt, is, htop, hf, rfl⟩ := step_lscovMain.mp hs
    unfold State.erase
    rw [erase_set htop]
    unfold Task.erase
    rw [List.map_cons, List.map_cons, erase_insts hf rfl]
  | wild i u =>
    exact absurd hs (h.not_wild u)
  | outside area =>
    cases hs
    rfl

/-- What is the program's own, the module before the pass does as well. -/
theorem own_step {a : Act Op Reg Mem} (h : Ok (src.instrumented build random) s)
    (hmay : P.may s a) (hs : step P (src.instrumented build random) s a = some t)
    (ha : a.isOwn = true) :
    P.may s.erase a ∧ step P src.module s.erase a = some t.erase := by
  cases a with
  | own i e =>
    obtain ⟨f, fs, rt, frames, new, htop, hown, hframes, hnew, rfl⟩ := step_own.mp hs
    obtain ⟨hsafe, hfs⟩ := h.safe htop
    obtain ⟨hrt, hf⟩ := hsafe.own hown
    have hplain : ∀ g ∈ f :: fs, Plain g.insts := List.forall_mem_cons.mpr ⟨hf, hfs⟩
    have htop' : s.erase.tasks[i]? = some ⟨f :: fs, ⟨0, 0, 0, 0⟩⟩ := by
      unfold State.erase
      rw [List.getElem?_map, htop, Option.map_some, Task.erase, erase_plain hplain]
    constructor
    · obtain ⟨rt', f', fs', htop2, hmay⟩ := hmay
      rw [top_eq_some, htop] at htop2
      cases htop2
      exact ⟨_, f, fs, top_eq_some.mpr htop', hmay⟩
    · refine step_own.mpr ⟨f, fs, _, _, _, htop', hown,
        (frames_instrumented hplain hrt hframes).1, (spawned_instrumented hnew).1, ?_⟩
      unfold State.erase
      rw [List.map_append, List.map_set]
      rfl
  | inserted | lscovMain | wild | outside => cases ha

theorem writesOnly_step {m : Module Op} (h : Ok m s) (hs : step P m s (.inserted i) = some t) :
    WritesOnly m i s t := by
  obtain ⟨f, fs, rt, inst, is, htop, hf, hupdate, -, rfl⟩ := step_inserted.mp hs
  have hindex := h.inMap i f fs rt inst is htop hf
  refine ⟨f, { f with insts := is }, fs, rt, _, htop, rfl,
    erase_insts hf (isOrig_of_isUpdate hupdate), rfl, ?_⟩
  cases inst with
  | storeOne =>
    obtain ⟨l, hl, heq, hlt⟩ := hindex rfl
    refine Or.inr ⟨rfl, l, ⟨rt.index, hlt⟩, 1, hl, heq, ?_⟩
    simp only [Inst.exec, Inst.mapStore, dif_pos hlt]
  | storeIncr =>
    obtain ⟨l, hl, heq, hlt⟩ := hindex rfl
    refine Or.inr ⟨rfl, l, ⟨rt.index, hlt⟩, rt.counter, hl, heq, ?_⟩
    simp only [Inst.exec, Inst.mapStore, dif_pos hlt]
  | _ => exact Or.inl rfl

/-! ## The law -/

theorem ok_starts (h : Starts P (src.instrumented build random) s) :
    Ok (src.instrumented build random) s := by
  intro t ht
  obtain ⟨fn, r, g, hg, rfl⟩ := h t ht
  exact ⟨(enter_instrumented hg).2 ⟨0, 0, 0, 0⟩ (by decide),
    fun g hg => absurd hg List.not_mem_nil⟩

theorem starts_erase (h : Starts P (src.instrumented build random) s) :
    Starts P src.module s.erase := by
  intro t ht
  obtain ⟨u, hu, rfl⟩ := List.mem_map.mp ht
  obtain ⟨fn, r, g, hg, rfl⟩ := h u hu
  exact ⟨fn, r, g.erase, (enter_instrumented hg).1, rfl⟩

/-- In every run after the pass, what the program does is a run before the pass, from
state to state. Each inserted instruction writes to the own `__lscov_prev_loc` or to the
map at `prev_loc ^ cur_loc`, and each index is inside of the map. -/
theorem the_pass_is_transparent (P : Sem Op Reg Mem) (src : Source Op) (build : Build)
    (random : Nat → Nat) {s t : State Op Reg Mem} {acts : List (Act Op Reg Mem)}
    (h0 : Starts P (src.instrumented build random) s)
    (ha : Allowed (step P (src.instrumented build random)) P.may s acts)
    (hr : runs.run (step P (src.instrumented build random)) s acts = some t) :
    (Starts P src.module s.erase ∧
      Allowed (step P src.module) P.may s.erase (acts.filter Act.isOwn) ∧
      runs.run (step P src.module) s.erase (acts.filter Act.isOwn) = some t.erase) ∧
    (∀ i u, step P (src.instrumented build random) t (.inserted i) = some u →
      WritesOnly (src.instrumented build random) i t u) ∧
    InMap (src.instrumented build random) t := by
  have hok : Ok (src.instrumented build random) t :=
    (reach_of_run ha hr).inv (ok_starts h0) fun _ _ _ h _ hs => ok_step h hs
  refine ⟨⟨starts_erase h0, ?_⟩, fun i u hs => writesOnly_step hok hs, hok.inMap⟩
  refine run_filter (P := Ok (src.instrumented build random)) ?_ ?_ ?_ (ok_starts h0) ha hr
  · exact fun _ _ _ h _ hs => ok_step h hs
  · exact fun _ _ _ h hs hk => erase_step h hs hk
  · exact fun _ _ _ h hmay hs hk => own_step h hmay hs hk

/-- A `main` that adds one to its memory, and returns from its second block. -/
def addMain : Source Unit where
  module :=
    { fns := [⟨"main", [⟨[], [.orig ()], .br 1⟩, ⟨[], [], .ret⟩]⟩]
      names := by decide }
  plain := by decide
  main := by decide

def addSem : Sem Unit Unit Nat where
  phi _ _ r := r
  op _ r mem e := e = .next r (mem + 1)
  term _ d r mem e := d = 0 ∧ e = .goto 1 r mem ∨ d = 1 ∧ e = .leave 0 id mem

/-- The process at the entry of `main`, with the call in front. -/
def addStart : State Unit Unit Nat :=
  ⟨[fresh ⟨"main", 0, [.callLscovMain, .orig ()], .br 1, ()⟩], 0, Area.zero⟩

/-- The run of `main` up to the store of its one map update. -/
def addActs : List (Act Unit Unit Nat) :=
  [.lscovMain 0 Area.zero, .own 0 (.next () 1), .own 0 (.goto 1 () 1), .inserted 0, .inserted 0,
    .inserted 0, .inserted 0, .inserted 0]

/-- The run less its inserted code is the run of `main` before the pass. -/
theorem addMain_runs_as_before :
    ∃ t, runs.run (step addSem (addMain.instrumented .bitmap fun _ => 5)) addStart addActs =
        some t ∧
      runs.run (step addSem addMain.module) addStart.erase
        [.own 0 (.next () 1), .own 0 (.goto 1 () 1)] = some t.erase ∧
      t.area 5 = 1 ∧ t.mem = 1 := by
  have hstart : Starts addSem (addMain.instrumented .bitmap fun _ => 5) addStart := by
    intro t ht
    exact ⟨"main", (), _, rfl, List.mem_singleton.mp ht⟩
  have hmay : Allowed (step addSem (addMain.instrumented .bitmap fun _ => 5)) addSem.may addStart
      addActs :=
    .cons trivial rfl <| .cons ⟨_, _, _, rfl, rfl⟩ rfl <|
      .cons ⟨_, _, _, rfl, Or.inl ⟨rfl, rfl⟩⟩ rfl <| .cons trivial rfl <| .cons trivial rfl <|
      .cons trivial rfl <| .cons trivial rfl <| .cons trivial rfl trivial
  exact ⟨_, rfl, (the_pass_is_transparent addSem addMain .bitmap _ hstart hmay rfl).1.2.2, rfl, rfl⟩

/-! ## No run is lost -/

theorem enter_lift (build : Build) (random : Nat → Nat)
    (h : enter P src.module fn d prev r = some g) :
    ∃ g', enter P (src.instrumented build random) fn d prev r = some g' := by
  obtain ⟨b, hb, -⟩ := Option.map_eq_some_iff.mp h
  obtain ⟨pre, -, hrun⟩ := src.blockAt build random fn d
  unfold enter
  rw [hrun, hb]
  exact ⟨_, rfl⟩

theorem frames_lift (build : Build) (random : Nat → Nat) {e : Effect Reg Mem}
    (h : e.frames P src.module f fs = some frames) :
    ∃ gs, e.frames P (src.instrumented build random) f fs = some gs := by
  cases e with
  | stay | spawn | next | leave => exact ⟨frames, h⟩
  | call r mem fn args =>
    obtain ⟨g, hg, -⟩ := Option.map_eq_some_iff.mp h
    obtain ⟨g', hg'⟩ := enter_lift build random hg
    exact ⟨_, by rw [Effect.frames, hg', Option.map_some]⟩
  | goto d r mem =>
    simp only [Effect.frames] at h ⊢
    split at h
    · rename_i hgoto
      obtain ⟨g, hg, -⟩ := Option.map_eq_some_iff.mp h
      obtain ⟨g', hg'⟩ := enter_lift build random hg
      exact ⟨_, by rw [if_pos hgoto, hg', Option.map_some]⟩
    · cases h

theorem spawned_lift (build : Build) (random : Nat → Nat) {e : Effect Reg Mem}
    {new : List (Task Op Reg)} (h : e.spawned P src.module = some new) :
    ∃ new', (e.spawned P (src.instrumented build random) : Option (List (Task Op Reg))) =
      some new' := by
  cases e with
  | spawn r mem fn args =>
    obtain ⟨g, hg, -⟩ := Option.map_eq_some_iff.mp h
    obtain ⟨g', hg'⟩ := enter_lift build random hg
    exact ⟨_, by rw [Effect.spawned, hg', Option.map_some]⟩
  | stay | next | call | goto | leave => exact ⟨[], rfl⟩

/-- The thread `i` is at the call of `__lscov_main`. -/
def State.AtCall (s : State Op Reg Mem) (i : Nat) : Prop :=
  ∃ f fs rt is, s.tasks[i]? = some ⟨f :: fs, rt⟩ ∧ f.insts = .callLscovMain :: is

section returns

variable {returns : State Op Reg Mem → Nat → Area → Prop}
  (hreturns : ∀ s i, s.AtCall i → ∃ area, returns s i area)

include hreturns

/-- A thread in the inserted code can go on. -/
theorem goes_on {m : Module Op} {inst : Inst Op} (h : Ok m s)
    (htop : s.tasks[i]? = some ⟨f :: fs, rt⟩) (hf : f.insts = inst :: is)
    (hinst : inst.isOrig = false) :
    ∃ a u rt', a.isOwn = false ∧ P.mayReturn returns s a ∧ step P m s a = some u ∧
      u.tasks[i]? = some ⟨{ f with insts := is } :: fs, rt'⟩ := by
  obtain ⟨hlt, -⟩ := List.getElem?_eq_some_iff.mp htop
  by_cases hupdate : inst.isUpdate = true
  · have hindex : inst.usesIndex = true → rt.index < LSTATE_SIZE := by
      intro huses
      obtain ⟨-, -, -, hlt⟩ := h.inMap i f fs rt inst is htop hf huses
      exact hlt
    exact ⟨.inserted i, _, (inst.exec (rt, s.area)).1, rfl, ⟨trivial, by simp⟩,
      step_inserted.mpr ⟨f, fs, rt, inst, is, htop, hf, hupdate, hindex, rfl⟩,
      List.getElem?_set_self hlt⟩
  · cases inst with
    | callLscovMain =>
      obtain ⟨area, harea⟩ := hreturns s i ⟨f, fs, rt, is, htop, hf⟩
      refine ⟨.lscovMain i area, _, rt, rfl, ⟨trivial, ?_⟩,
        step_lscovMain.mpr ⟨f, fs, rt, is, htop, hf, rfl⟩, List.getElem?_set_self hlt⟩
      intro j area' ha
      cases ha
      exact harea
    | orig op => cases hinst
    | _ => exact absurd rfl hupdate

/-- A thread comes through the inserted code, back to the program's own. -/
theorem comes_through (h : Ok (src.instrumented build random) s)
    (htop : s.tasks[i]? = some ⟨f :: fs, rt⟩) :
    ∃ acts u rt', Allowed (step P (src.instrumented build random)) (P.mayReturn returns) s acts ∧
      runs.run (step P (src.instrumented build random)) s acts = some u ∧
      acts.filter Act.isOwn = [] ∧ u.erase = s.erase ∧ Ok (src.instrumented build random) u ∧
      u.tasks[i]? = some ⟨f.erase :: fs, rt'⟩ := by
  -- The induction is on what is left of the block.
  induction hf : f.insts generalizing s f rt with
  | nil =>
    have hplain : Plain f.insts := fun j hj => absurd (hf ▸ hj) List.not_mem_nil
    exact ⟨[], s, rt, trivial, rfl, rfl, rfl, h, by rw [hplain.erase]; exact htop⟩
  | cons inst is ih =>
    cases hinst : inst.isOrig with
    | true =>
      have hown : f.atOwn = true := by
        unfold Frame.atOwn
        rw [hf]
        exact hinst
      have hplain := ((h.safe htop).1.own hown).2
      exact ⟨[], s, rt, trivial, rfl, rfl, rfl, h, by rw [hplain.erase]; exact htop⟩
    | false =>
      obtain ⟨a, u, rt', ha, hmay, hu, htop'⟩ :=
        goes_on (P := P) hreturns h htop hf hinst
      obtain ⟨acts, v, rt'', hacts, hv, hdrop, herase, hok, hown⟩ := ih (ok_step h hu) htop' rfl
      refine ⟨a :: acts, v, rt'', .cons hmay hu hacts, ?_, ?_, ?_, hok, ?_⟩
      · rw [runs.run, hu]
        exact hv
      · rw [List.filter_cons_of_neg (by simp [ha])]
        exact hdrop
      · exact herase.trans (erase_step h hu ha)
      · rw [← erase_insts hf hinst]
        exact hown

/-- What the program does before the pass, it can do after it. -/
theorem own_lift {a : Act Op Reg Mem} {v : State Op Reg Mem}
    (h : Ok (src.instrumented build random) s) (hmay : P.may s.erase a) (ha : a.isOwn = true)
    (hs : step P src.module s.erase a = some v) :
    ∃ acts t, Allowed (step P (src.instrumented build random)) (P.mayReturn returns) s acts ∧
      runs.run (step P (src.instrumented build random)) s acts = some t ∧
      acts.filter Act.isOwn = [a] ∧ t.erase = v ∧ Ok (src.instrumented build random) t := by
  cases a with
  | own i e =>
    obtain ⟨f', fs', rt', frames, new, htop', hown, hframes, hnew, rfl⟩ := step_own.mp hs
    -- The thread of the program is that of the state, without the inserted code.
    obtain ⟨⟨_ | ⟨f, fs⟩, rt⟩, htop, herase⟩ : ∃ t, s.tasks[i]? = some t ∧
        t.erase = ⟨f' :: fs', rt'⟩ := by
      unfold State.erase at htop'
      rw [List.getElem?_map] at htop'
      exact Option.map_eq_some_iff.mp htop'
    · cases herase
    · obtain ⟨acts, u, rt'', hacts, hu, hdrop, hsame, hok, htop''⟩ :=
        comes_through (P := P) hreturns h htop
      have hfs : fs.map Frame.erase = fs := erase_plain (h.safe htop).2
      unfold Task.erase at herase
      rw [List.map_cons, hfs] at herase
      cases herase
      obtain ⟨gs, hgs⟩ := frames_lift build random hframes
      obtain ⟨new', hnew'⟩ := spawned_lift build random hnew
      have hstep := step_own.mpr ⟨_, _, rt'', gs, new', htop'', hown, hgs, hnew', rfl⟩
      have hmay' : P.may u (.own i e) := by
        obtain ⟨rt0, f0, fs0, htop0, hsem⟩ := hmay
        rw [top_eq_some, htop'] at htop0
        cases htop0
        refine ⟨rt'', _, _, top_eq_some.mpr htop'', ?_⟩
        have hmem : u.erase.mem = s.erase.mem := by
          rw [hsame]
        change u.mem = s.mem at hmem
        rw [hmem]
        exact hsem
      refine ⟨acts ++ [.own i e], _, hacts.append hu (.cons ⟨hmay', by simp⟩ hstep trivial), ?_, ?_,
        ?_, ok_step hok hstep⟩
      · rw [run_append _ hu, runs.run, hstep]
        rfl
      · rw [List.filter_append, hdrop]
        rfl
      · have hv := (own_step hok hmay' hstep rfl).2
        rw [hsame, hs, Option.some.injEq] at hv
        exact hv.symm
  | inserted | lscovMain | wild | outside => cases ha

end returns

/-- Where each call of `__lscov_main` returns, every run of the program before the pass is a
run after the pass, less its inserted code. -/
theorem the_pass_keeps_every_run (P : Sem Op Reg Mem) (src : Source Op) (build : Build)
    (random : Nat → Nat) (returns : State Op Reg Mem → Nat → Area → Prop)
    (hreturns : ∀ s i, s.AtCall i → ∃ area, returns s i area) {s v : State Op Reg Mem}
    {acts : List (Act Op Reg Mem)} (h0 : Starts P (src.instrumented build random) s)
    (ha : Allowed (step P src.module) (fun s a => P.may s a ∧ a.isOwn = true) s.erase acts)
    (hr : runs.run (step P src.module) s.erase acts = some v) :
    ∃ acts' t, Allowed (step P (src.instrumented build random)) (P.mayReturn returns) s acts' ∧
      runs.run (step P (src.instrumented build random)) s acts' = some t ∧
      acts'.filter Act.isOwn = acts ∧ t.erase = v :=
  run_lift (P := Ok (src.instrumented build random))
    (fun _ _ _ h ha hs => own_lift hreturns h ha.1 ha.2 hs) (ok_starts h0) ha hr

/-- The area as `__lscov_main` leaves it, when it returns. -/
def returnsMarked (_ : State Unit Unit Nat) (_ : Nat) (area : Area) : Prop :=
  area = Area.zero.set 0 0x81

/-- The run of `main` before the pass is one after it, with its memory. -/
theorem addMain_keeps_its_run :
    ∃ acts t,
      Allowed (step addSem (addMain.instrumented .bitmap fun _ => 5))
        (addSem.mayReturn returnsMarked) addStart acts ∧
      runs.run (step addSem (addMain.instrumented .bitmap fun _ => 5)) addStart acts = some t ∧
      acts.filter Act.isOwn = [.own 0 (.next () 1), .own 0 (.goto 1 () 1)] ∧ t.mem = 1 := by
  have hstart : Starts addSem (addMain.instrumented .bitmap fun _ => 5) addStart := by
    intro t ht
    exact ⟨"main", (), _, rfl, List.mem_singleton.mp ht⟩
  have hmay : Allowed (step addSem addMain.module)
      (fun s a => addSem.may s a ∧ a.isOwn = true) addStart.erase
      [.own 0 (.next () 1), .own 0 (.goto 1 () 1)] :=
    .cons ⟨⟨_, _, _, rfl, rfl⟩, rfl⟩ rfl <|
      .cons ⟨⟨_, _, _, rfl, Or.inl ⟨rfl, rfl⟩⟩, rfl⟩ rfl trivial
  obtain ⟨acts, t, hacts, hrun, hown, herase⟩ :=
    the_pass_keeps_every_run addSem addMain .bitmap _ returnsMarked (fun _ _ _ => ⟨_, rfl⟩) hstart
      hmay rfl
  refine ⟨acts, t, hacts, hrun, hown, ?_⟩
  change t.erase.mem = 1
  rw [herase]
  rfl

end lscov.machine
