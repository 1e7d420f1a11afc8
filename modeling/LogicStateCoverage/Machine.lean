-- The machine that runs a module: any number of threads, each with its stack of calls,
-- over the memory of the program and the map. What the program's own code means is a
-- parameter, so the laws hold for every program.
import LogicStateCoverage.Pass
import LogicStateCoverage.Runs

namespace lscov.machine

open pass

/-! ## The program's own code -/

/-- What a step of the program's own code does, with the registers of the function and
the memory after it. -/
inductive Effect (Reg Mem : Type)
  /-- A part of the work. The instruction or the terminator goes on. -/
  | stay (r : Reg) (mem : Mem)
  /-- The instruction is done. -/
  | next (r : Reg) (mem : Mem)
  /-- A call. The instruction or the `invoke` goes on after it. -/
  | call (r : Reg) (mem : Mem) (fn : String) (args : Reg)
  /-- A new thread. -/
  | spawn (r : Reg) (mem : Mem) (fn : String) (args : Reg)
  /-- A jump to another block. -/
  | goto (d : Nat) (r : Reg) (mem : Mem)
  /-- A return, or an exception that also leaves `n` callers. `back` gives the registers
  of the function that goes on. -/
  | leave (n : Nat) (back : Reg → Reg) (mem : Mem)

def Effect.mem {Reg Mem : Type} : Effect Reg Mem → Mem
  | .stay _ mem | .next _ mem | .call _ mem _ _ | .spawn _ mem _ _ | .goto _ _ mem
  | .leave _ _ mem => mem

/-- What the program's own code means. It sees its registers and its memory, and neither
the map nor `__lscov_prev_loc`. -/
structure Sem (Op Reg Mem : Type) where
  /-- The `phi` or landing-pad group of a block, on the way from another block. -/
  phi : List Op → Option Nat → Reg → Reg
  op : Op → Reg → Mem → Effect Reg Mem → Prop
  /-- The terminator of a block of a function. -/
  term : String → Nat → Reg → Mem → Effect Reg Mem → Prop

variable {Op Reg Mem : Type}

/-! ## States -/

/-- A call of a function: the rest of its block, and its registers. -/
structure Frame (Op Reg : Type) where
  fn : String
  block : Nat
  insts : List (Inst Op)
  term : Term
  regs : Reg

/-- A thread: its calls, the last one first, and what the inserted code uses of it. -/
structure Task (Op Reg : Type) where
  frames : List (Frame Op Reg)
  rt : Thread

structure State (Op Reg Mem : Type) where
  tasks : List (Task Op Reg)
  mem : Mem
  area : Area

/-- The call that a thread is in, and its callers. -/
def State.top (s : State Op Reg Mem) (i : Nat) :
    Option (Thread × Frame Op Reg × List (Frame Op Reg)) :=
  match s.tasks[i]? with
  | some ⟨f :: fs, rt⟩ => some (rt, f, fs)
  | _ => none

/-- The next thing to do is the program's own. -/
def Frame.atOwn (f : Frame Op Reg) : Bool :=
  match f.insts with
  | [] => true
  | i :: _ => i.isOrig

/-- A thread that starts has a `__lscov_prev_loc` of 0. -/
def fresh (g : Frame Op Reg) : Task Op Reg := ⟨[g], ⟨0, 0, 0, 0⟩⟩

/-! ## Steps -/

section step

variable (P : Sem Op Reg Mem) (m : Module Op)

def enter (fn : String) (d : Nat) (prev : Option Nat) (r : Reg) : Option (Frame Op Reg) :=
  (m.blockAt fn d).map fun b => ⟨fn, d, b.insts, b.term, P.phi b.phis prev r⟩

/-- The calls of a thread after an effect. -/
def Effect.frames (f : Frame Op Reg) (fs : List (Frame Op Reg)) :
    Effect Reg Mem → Option (List (Frame Op Reg))
  | .stay r _ | .spawn r _ _ _ => some ({ f with regs := r } :: fs)
  | .next r _ =>
    match f.insts with
    | [] => none
    | _ :: is => some ({ f with insts := is, regs := r } :: fs)
  | .call r _ fn args =>
    (enter P m fn 0 none args).map fun g => g :: { f with regs := r } :: fs
  | .goto d r _ =>
    if f.insts.isEmpty ∧ d ∈ f.term.succs then
      (enter P m f.fn d (some f.block) r).map fun g => g :: fs
    else none
  | .leave n back _ =>
    match fs.drop n with
    | [] => some []
    | g :: gs => some ({ g with regs := back g.regs } :: gs)

/-- The threads that an effect starts. -/
def Effect.spawned : Effect Reg Mem → Option (List (Task Op Reg))
  | .spawn _ _ fn args => (enter P m fn 0 none args).map fun g => [fresh g]
  | _ => some []

inductive Act (Op Reg Mem : Type)
  /-- A step of the program's own code in thread `i`. -/
  | own (i : Nat) (e : Effect Reg Mem)
  /-- An inserted instruction in thread `i`. -/
  | inserted (i : Nat)
  /-- The call of `__lscov_main` returns in thread `i`. It may also block, or abort the
  process. Then this act does not happen. -/
  | lscovMain (i : Nat) (area : Area)
  /-- An access outside of the map, in thread `i`. Then anything may happen. -/
  | wild (i : Nat) (s : State Op Reg Mem)
  /-- The daemon or another process writes to the map. -/
  | outside (area : Area)

def Act.isOwn : Act Op Reg Mem → Bool
  | .own _ _ => true
  | _ => false

def step (s : State Op Reg Mem) : Act Op Reg Mem → Option (State Op Reg Mem)
  | .own i e =>
    match s.top i with
    | none => none
    | some (rt, f, fs) =>
      if f.atOwn then
        (e.frames P m f fs).bind fun frames => (e.spawned P m).map fun new =>
          ⟨s.tasks.set i ⟨frames, rt⟩ ++ new, e.mem, s.area⟩
      else none
  | .inserted i =>
    match s.top i with
    | some (rt, ⟨fn, block, inst :: is, term, regs⟩, fs) =>
      if inst.isUpdate ∧ (inst.usesIndex → rt.index < LSTATE_SIZE) then
        let (rt, area) := inst.exec (rt, s.area)
        some ⟨s.tasks.set i ⟨⟨fn, block, is, term, regs⟩ :: fs, rt⟩, s.mem, area⟩
      else none
    | _ => none
  | .lscovMain i area =>
    match s.top i with
    | some (rt, ⟨fn, block, .callLscovMain :: is, term, regs⟩, fs) =>
      some ⟨s.tasks.set i ⟨⟨fn, block, is, term, regs⟩ :: fs, rt⟩, s.mem, area⟩
    | _ => none
  | .wild i t =>
    match s.top i with
    | some (rt, ⟨_, _, inst :: _, _, _⟩, _) =>
      if inst.usesIndex ∧ ¬ rt.index < LSTATE_SIZE then some t else none
    | _ => none
  | .outside area => some ⟨s.tasks, s.mem, area⟩

/-- What the program's own code may do in a state. -/
def Sem.may (s : State Op Reg Mem) : Act Op Reg Mem → Prop
  | .own i e => ∃ rt f fs, s.top i = some (rt, f, fs) ∧
      match f.insts with
      | .orig op :: _ => P.op op f.regs s.mem e
      | _ => P.term f.fn f.block f.regs s.mem e
  | _ => True

/-- The same, where the calls of `__lscov_main` return as `returns` says: the call in a
thread of a state, with this area after it. -/
def Sem.mayReturn (returns : State Op Reg Mem → Nat → Area → Prop) (s : State Op Reg Mem)
    (a : Act Op Reg Mem) : Prop :=
  P.may s a ∧ ∀ i area, a = .lscovMain i area → returns s i area

/-- A state that a process may start in: each thread at the entry of some function. -/
def Starts (s : State Op Reg Mem) : Prop :=
  ∀ t ∈ s.tasks, ∃ fn r g, enter P m fn 0 none r = some g ∧ t = fresh g

end step

/-! ## What a step can do -/

variable {P : Sem Op Reg Mem} {m : Module Op} {s t : State Op Reg Mem} {i : Nat}

theorem top_eq_some {rt : Thread} {f : Frame Op Reg} {fs : List (Frame Op Reg)} :
    s.top i = some (rt, f, fs) ↔ s.tasks[i]? = some ⟨f :: fs, rt⟩ := by
  unfold State.top
  split
  · rename_i g gs rt' h
    rw [h]
    simp only [Option.some.injEq, Prod.mk.injEq, Task.mk.injEq, List.cons.injEq]
    tauto
  · rename_i h
    constructor
    · intro hn
      cases hn
    · intro hs
      exact absurd hs (h f fs rt)

theorem step_own {e : Effect Reg Mem} :
    step P m s (.own i e) = some t ↔
      ∃ f fs rt frames new, s.tasks[i]? = some ⟨f :: fs, rt⟩ ∧ f.atOwn = true ∧
        e.frames P m f fs = some frames ∧ e.spawned P m = some new ∧
        t = ⟨s.tasks.set i ⟨frames, rt⟩ ++ new, e.mem, s.area⟩ := by
  constructor
  · intro h
    simp only [step] at h
    split at h
    · cases h
    · rename_i rt f fs htop
      split at h
      · rename_i hown
        obtain ⟨frames, hframes, hrest⟩ := Option.bind_eq_some_iff.mp h
        obtain ⟨new, hnew, rfl⟩ := Option.map_eq_some_iff.mp hrest
        exact ⟨f, fs, rt, frames, new, top_eq_some.mp htop, hown, hframes, hnew, rfl⟩
      · cases h
  · rintro ⟨f, fs, rt, frames, new, htop, hown, hframes, hnew, rfl⟩
    simp only [step, top_eq_some.mpr htop, hown, hframes, hnew, if_true, Option.bind_some,
      Option.map_some]

theorem step_inserted :
    step P m s (.inserted i) = some t ↔
      ∃ f fs rt inst is, s.tasks[i]? = some ⟨f :: fs, rt⟩ ∧ f.insts = inst :: is ∧
        inst.isUpdate = true ∧ (inst.usesIndex = true → rt.index < LSTATE_SIZE) ∧
        t = ⟨s.tasks.set i ⟨{ f with insts := is } :: fs, (inst.exec (rt, s.area)).1⟩, s.mem,
          (inst.exec (rt, s.area)).2⟩ := by
  constructor
  · intro h
    simp only [step] at h
    split at h
    · rename_i rt fn block inst is term regs fs htop
      split at h
      · rename_i hin
        cases h
        exact ⟨_, fs, rt, inst, is, top_eq_some.mp htop, rfl, hin.1, hin.2, rfl⟩
      · cases h
    · cases h
  · rintro ⟨⟨fn, block, insts, term, regs⟩, fs, rt, inst, is, htop, rfl, hupdate, huses, rfl⟩
    simp only [step, top_eq_some.mpr htop, if_pos (And.intro hupdate huses)]

theorem step_lscovMain {area : Area} :
    step P m s (.lscovMain i area) = some t ↔
      ∃ f fs rt is, s.tasks[i]? = some ⟨f :: fs, rt⟩ ∧ f.insts = .callLscovMain :: is ∧
        t = ⟨s.tasks.set i ⟨{ f with insts := is } :: fs, rt⟩, s.mem, area⟩ := by
  constructor
  · intro h
    simp only [step] at h
    split at h
    · rename_i rt fn block is term regs fs htop
      cases h
      exact ⟨_, fs, rt, is, top_eq_some.mp htop, rfl, rfl⟩
    · cases h
  · rintro ⟨⟨fn, block, insts, term, regs⟩, fs, rt, is, htop, rfl, rfl⟩
    simp only [step, top_eq_some.mpr htop]

theorem step_wild {t' : State Op Reg Mem} (h : step P m s (.wild i t') = some t) :
    ∃ f fs rt inst is, s.tasks[i]? = some ⟨f :: fs, rt⟩ ∧ f.insts = inst :: is ∧
      inst.usesIndex = true ∧ ¬ rt.index < LSTATE_SIZE := by
  simp only [step] at h
  split at h
  · rename_i rt fn block inst is term regs fs htop
    split at h
    · rename_i hwild
      exact ⟨_, fs, rt, inst, is, top_eq_some.mp htop, rfl, hwild.1, hwild.2⟩
    · cases h
  · cases h

end lscov.machine
