-- The laws of threads. Each thread has its own `__lscov_prev_loc`, and all of them write to
-- one map. What a thread stores to is told by the blocks that it enters before the pass, so
-- the map does not depend on the order in which the threads run. A bucket build may lose
-- updates, but no visit goes unseen.
import LogicStateCoverage.Transparency
import Mathlib.Algebra.BigOperators.Group.Finset.Piecewise

namespace lscov.machine

open pass runs

variable {Op Reg Mem : Type}

/-! ## What a thread does -/

/-- The blocks that a thread in the call `f` enters. -/
def Effect.enters (f : Frame Op Reg) : Effect Reg Mem → List (String × Nat)
  | .call _ _ fn _ => [(fn, 0)]
  | .goto d _ _ => [(f.fn, d)]
  | _ => []

/-- The blocks that a new thread starts with. -/
def Effect.starts : Effect Reg Mem → List (String × Nat)
  | .spawn _ _ fn _ => [(fn, 0)]
  | _ => []

/-- The blocks that an act enters, each with its thread. -/
def entered (s : State Op Reg Mem) : Act Op Reg Mem → List (Nat × String × Nat)
  | .own i e =>
    match s.top i with
    | some (_, f, _) =>
      (e.enters f).map (fun b => (i, b)) ++ e.starts.map fun b => (s.tasks.length, b)
    | none => []
  | _ => []

/-- The bytes of the map that an act stores to, each with its thread. -/
def stores (s : State Op Reg Mem) : Act Op Reg Mem → List (Nat × Idx)
  | .inserted i =>
    match s.top i with
    | some (rt, ⟨_, _, inst :: _, _, _⟩, _) => ((inst.mapStore rt).map fun p => (i, p.1)).toList
    | _ => []
  | _ => []

/-- The part of one thread. -/
def ofThread {α : Type} (i : Nat) (l : List (Nat × α)) : List α :=
  (l.filter fun p => p.1 = i).map Prod.snd

/-- The `cur_loc` of a block. -/
def locAt (m : Module Op) (b : String × Nat) : Option Idx :=
  ((m.blockAt b.1 b.2).bind fun b => b.insts.findSome? Inst.curLoc).map (Fin.ofNat LSTATE_SIZE)

/-- The bytes of the map for a walk through some blocks, from a `__lscov_prev_loc` on. -/
def walked (m : Module Op) (prev : Idx) (bs : List (String × Nat)) : List Idx :=
  visited prev (bs.filterMap (locAt m))

/-- The `__lscov_prev_loc` of a thread. -/
def State.prevLoc (s : State Op Reg Mem) (i : Nat) : Idx :=
  match s.tasks[i]? with
  | some t => Fin.ofNat LSTATE_SIZE t.rt.prevLoc
  | none => 0

/-- No thread is in the inserted code. -/
def Settled (s : State Op Reg Mem) : Prop :=
  ∀ (i : Nat) (f : Frame Op Reg) fs rt, s.tasks[i]? = some ⟨f :: fs, rt⟩ → f.atOwn = true

/-- An act of the threads. Nothing else writes to the map. -/
def Act.isInside : Act Op Reg Mem → Bool
  | .own _ _ | .inserted _ => true
  | _ => false

/-- The blocks that thread `i` enters in the run of the module before the pass. -/
def Source.walk (src : Source Op) (P : Sem Op Reg Mem) (s : State Op Reg Mem)
    (acts : List (Act Op Reg Mem)) (i : Nat) : List (String × Nat) :=
  ofThread i (trace (step P src.module) entered s.erase (acts.filter Act.isOwn))

/-! ## What is ahead of a thread -/

/-- The bytes that the rest of a block stores to, and the `__lscov_prev_loc` after it. -/
def ahead : List (Inst Op) → Thread → List Idx × Idx
  | [], rt => ([], Fin.ofNat LSTATE_SIZE rt.prevLoc)
  | i :: is, rt =>
    (((i.mapStore rt).map Prod.fst).toList ++ (ahead is (i.next Area.zero rt)).1,
      (ahead is (i.next Area.zero rt)).2)

def Task.ahead (t : Task Op Reg) : List Idx × Idx :=
  match t.frames with
  | [] => ([], Fin.ofNat LSTATE_SIZE t.rt.prevLoc)
  | f :: _ => machine.ahead f.insts t.rt

def State.ahead (s : State Op Reg Mem) (i : Nat) : List Idx × Idx :=
  s.tasks[i]?.elim ([], 0) Task.ahead

/-- The `__lscov_prev_loc` after the visits of some locations. -/
def lastLoc (prev : Idx) (cs : List Idx) : Idx := cs.foldl (fun _ c => shiftLoc c) prev

theorem visited_append (prev : Idx) (cs ds : List Idx) :
    visited prev (cs ++ ds) = visited prev cs ++ visited (lastLoc prev cs) ds := by
  induction cs generalizing prev with
  | nil => rfl
  | cons c cs ih =>
    rw [List.cons_append, visited, visited, ih, List.cons_append]
    rfl

theorem lastLoc_append (prev : Idx) (cs ds : List Idx) :
    lastLoc prev (cs ++ ds) = lastLoc (lastLoc prev cs) ds := List.foldl_append

variable {is : List (Inst Op)} {rt : Thread}

/-- No store goes by the counter: it tells the value of the byte, and not its place. -/
theorem ahead_counter (is : List (Inst Op)) (rt : Thread) (c : UInt8) :
    ahead is { rt with counter := c } = ahead is rt := by
  induction is generalizing rt c with
  | nil => rfl
  | cons i is ih =>
    have hplace : (i.mapStore { rt with counter := c }).map Prod.fst =
        (i.mapStore rt).map Prod.fst := by
      cases i with
      | storeIncr =>
        simp only [Inst.mapStore]
        split <;> rfl
      | _ => rfl
    have hnext : ∃ c', i.next Area.zero { rt with counter := c } =
        { i.next Area.zero rt with counter := c' } := by
      cases i with
      | loadCounter =>
        simp only [Inst.next]
        split
        · exact ⟨_, rfl⟩
        · exact ⟨c, rfl⟩
      | _ => exact ⟨_, rfl⟩
    obtain ⟨c', hc'⟩ := hnext
    rw [ahead, ahead, hplace, hc', ih]

/-- So what is ahead does not depend on the map. -/
theorem ahead_next (i : Inst Op) (a : Area) (is : List (Inst Op)) (rt : Thread) :
    ahead is (i.next a rt) = ahead is (i.next Area.zero rt) := by
  cases i with
  | loadCounter =>
    simp only [Inst.next]
    split
    · exact (ahead_counter is rt _).trans (ahead_counter is rt _).symm
    · rfl
  | _ => rfl

theorem Plain.ahead (h : Plain is) :
    machine.ahead is rt = ([], Fin.ofNat LSTATE_SIZE rt.prevLoc) := by
  induction is with
  | nil => rfl
  | cons i is ih =>
    cases i with
    | orig op => exact ih fun j hj => h j (List.mem_cons_of_mem _ hj)
    | _ => cases h _ List.mem_cons_self

theorem Plain.ahead_call (h : Plain is) {call : List (Inst Op)}
    (hcall : call = [] ∨ call = [.callLscovMain]) :
    machine.ahead (call ++ is) rt = ([], Fin.ofNat LSTATE_SIZE rt.prevLoc) := by
  rcases hcall with rfl | rfl
  · exact h.ahead
  · exact h.ahead

theorem Plain.no_curLoc (h : Plain is) {call : List (Inst Op)}
    (hcall : call = [] ∨ call = [.callLscovMain]) :
    (call ++ is).findSome? Inst.curLoc = none := by
  have hnone : ∀ i ∈ call ++ is, i.curLoc = none := by
    intro i hi
    rcases List.mem_append.mp hi with hi | hi
    · rcases hcall with rfl | rfl
      · cases hi
      · rw [List.mem_singleton.mp hi]
        rfl
    · cases i with
      | orig op => rfl
      | _ => cases h _ hi
  exact List.findSome?_eq_none_iff.mpr hnone

theorem ofNat_val (l : Idx) : Fin.ofNat LSTATE_SIZE l.val = l := Fin.ext (Nat.mod_eq_of_lt l.isLt)

/-- A block is entered: its map update is ahead, if it has one. -/
theorem ahead_inserted {build : Build} {random : Nat → Nat} {pre : List (Inst Op)} {p : Idx}
    (h : Plain is) (hpre : Inserted build random pre) (hp : rt.prevLoc = p.val) :
    ahead (pre ++ is) rt =
      (visited p (((pre ++ is).findSome? Inst.curLoc).map (Fin.ofNat LSTATE_SIZE)).toList,
        lastLoc p (((pre ++ is).findSome? Inst.curLoc).map (Fin.ofNat LSTATE_SIZE)).toList) := by
  obtain ⟨update, call, rfl, hupdate, hcall⟩ := hpre
  rw [List.append_assoc]
  rcases hupdate with rfl | ⟨n, rfl⟩
  · rw [List.nil_append, h.ahead_call hcall, h.no_curLoc hcall, hp, ofNat_val]
    rfl
  · have hloc : (mapUpdate build (curLoc random n) ++ (call ++ is)).findSome? Inst.curLoc =
        some (curLoc random n) := by
      cases build <;> rfl
    have hlt : curLoc random n < LSTATE_SIZE := Nat.mod_lt _ (by decide)
    have hindex : p.val ^^^ curLoc random n < LSTATE_SIZE := (mapIndex p ⟨_, hlt⟩).isLt
    rw [hloc, Option.map_some, ofNat_val ⟨curLoc random n, hlt⟩]
    have hshift := ofNat_val (shiftLoc ⟨curLoc random n, hlt⟩)
    cases build
    · simp [mapUpdate, ahead, Inst.mapStore, Inst.next, hp, hindex, h.ahead_call hcall, visited,
        mapIndex, lastLoc]
      exact hshift
    · simp [mapUpdate, ahead, Inst.mapStore, Inst.next, hp, hindex, h.ahead_call hcall, visited,
        mapIndex, lastLoc]
      exact hshift

/-! ## Steps -/

variable {P : Sem Op Reg Mem} {src : Source Op} {build : Build} {random : Nat → Nat}
  {f g : Frame Op Reg} {fs frames : List (Frame Op Reg)} {fn : String} {d i k : Nat}
  {prev : Option Nat} {r : Reg} {s t : State Op Reg Mem} {a : Act Op Reg Mem}

theorem ahead_enter {p : Idx} (h : enter P (src.instrumented build random) fn d prev r = some g)
    (hp : rt.prevLoc = p.val) :
    ahead g.insts rt =
      (visited p (locAt (src.instrumented build random) (fn, d)).toList,
        lastLoc p (locAt (src.instrumented build random) (fn, d)).toList) := by
  obtain ⟨b', hb', rfl⟩ := Option.map_eq_some_iff.mp h
  obtain ⟨pre, hpre, hrun⟩ := src.blockAt build random fn d
  rw [hrun] at hb'
  obtain ⟨b, hb, rfl⟩ := Option.map_eq_some_iff.mp hb'
  unfold locAt
  rw [hrun, hb]
  exact ahead_inserted (src.plain_blockAt hb) hpre hp

@[simp] theorem ofThread_nil {α : Type} (k : Nat) : ofThread k ([] : List (Nat × α)) = [] := rfl

theorem ofThread_append {α : Type} (k : Nat) (l l' : List (Nat × α)) :
    ofThread k (l ++ l') = ofThread k l ++ ofThread k l' := by
  unfold ofThread
  rw [List.filter_append, List.map_append]

theorem ofThread_map_self {α : Type} (k : Nat) (xs : List α) :
    ofThread k (xs.map fun x => (k, x)) = xs := by
  simp [ofThread, List.filter_map, Function.comp_def]

theorem ofThread_map_ne {α : Type} (h : i ≠ k) (xs : List α) :
    ofThread k (xs.map fun x => (i, x)) = [] := by
  simp [ofThread, List.filter_map, Function.comp_def, h]

/-- What an act takes from what is ahead of a thread, and what it adds to it. -/
def Moves (m : Module Op) (s t : State Op Reg Mem) (a : Act Op Reg Mem) (k : Nat) : Prop :=
  (s.ahead k).1 ++ visited (s.ahead k).2 ((ofThread k (entered s a)).filterMap (locAt m)) =
    ofThread k (stores s a) ++ (t.ahead k).1 ∧
  lastLoc (s.ahead k).2 ((ofThread k (entered s a)).filterMap (locAt m)) = (t.ahead k).2

/-- A thread that an act leaves alone. -/
theorem moves_of_same {m : Module Op} (hahead : t.ahead k = s.ahead k)
    (hentered : ofThread k (entered s a) = []) (hstores : ofThread k (stores s a) = []) :
    Moves m s t a k := by
  unfold Moves
  rw [hentered, hstores, hahead]
  exact ⟨List.append_nil _, rfl⟩

/-- A step of the program's own code goes on in own code, or enters a block. -/
theorem frames_cases {m : Module Op} {e : Effect Reg Mem} (h : ∀ g ∈ f :: fs, Plain g.insts)
    (he : e.frames P m f fs = some frames) :
    (e.enters f = [] ∧ ∀ g ∈ frames, Plain g.insts) ∨
      ∃ fn d prev r g gs, e.enters f = [(fn, d)] ∧ enter P m fn d prev r = some g ∧
        frames = g :: gs ∧ ∀ g' ∈ gs, Plain g'.insts := by
  obtain ⟨hf, hfs⟩ := List.forall_mem_cons.mp h
  cases e with
  | stay r mem | spawn r mem fn args =>
    cases he
    exact Or.inl ⟨rfl, List.forall_mem_cons.mpr ⟨hf, hfs⟩⟩
  | next r mem =>
    simp only [Effect.frames] at he
    split at he
    · cases he
    · rename_i i is hinsts
      cases he
      rw [hinsts] at hf
      have his : Plain is := fun j hj => hf j (List.mem_cons_of_mem _ hj)
      exact Or.inl ⟨rfl, List.forall_mem_cons.mpr ⟨his, hfs⟩⟩
  | call r mem fn args =>
    obtain ⟨g, hg, rfl⟩ := Option.map_eq_some_iff.mp he
    exact Or.inr ⟨fn, 0, none, args, g, _, rfl, hg, rfl, List.forall_mem_cons.mpr ⟨hf, hfs⟩⟩
  | goto d r mem =>
    simp only [Effect.frames] at he
    split at he
    · obtain ⟨g, hg, rfl⟩ := Option.map_eq_some_iff.mp he
      exact Or.inr ⟨f.fn, d, some f.block, r, g, fs, rfl, hg, rfl, hfs⟩
    · cases he
  | leave n back mem =>
    simp only [Effect.frames] at he
    split at he
    · cases he
      exact Or.inl ⟨rfl, fun g hg => absurd hg List.not_mem_nil⟩
    · rename_i g gs hdrop
      cases he
      obtain ⟨hg, hgs⟩ := List.forall_mem_cons.mp (drop_plain hfs hdrop)
      exact Or.inl ⟨rfl, List.forall_mem_cons.mpr ⟨hg, hgs⟩⟩

/-- What is ahead of a thread after a step of the program's own code. -/
theorem ahead_frames {e : Effect Reg Mem} {p : Idx} (h : ∀ g ∈ f :: fs, Plain g.insts)
    (hp : rt.prevLoc = p.val)
    (he : e.frames P (src.instrumented build random) f fs = some frames) :
    (⟨frames, rt⟩ : Task Op Reg).ahead =
      (visited p ((e.enters f).filterMap (locAt (src.instrumented build random))),
        lastLoc p ((e.enters f).filterMap (locAt (src.instrumented build random)))) := by
  rcases frames_cases h he with ⟨hnone, hplain⟩ | ⟨fn, d, prev, r, g, gs, hone, hg, rfl, -⟩
  · have hown : (⟨frames, rt⟩ : Task Op Reg).ahead = ([], p) := by
      rw [← ofNat_val p, ← hp]
      cases frames with
      | nil => rfl
      | cons g gs => exact (hplain g List.mem_cons_self).ahead
    rw [hown, hnone]
    rfl
  · rw [hone]
    exact ahead_enter hg hp

/-- The same for a new thread. -/
theorem ahead_spawned {e : Effect Reg Mem} {new : List (Task Op Reg)}
    (he : e.spawned P (src.instrumented build random) = some new) :
    new[0]?.elim ([], 0) Task.ahead =
      (visited 0 (e.starts.filterMap (locAt (src.instrumented build random))),
        lastLoc 0 (e.starts.filterMap (locAt (src.instrumented build random)))) ∧
      new[k + 1]? = none := by
  cases e with
  | spawn r mem fn args =>
    obtain ⟨g, hg, rfl⟩ := Option.map_eq_some_iff.mp he
    exact ⟨ahead_enter hg rfl, rfl⟩
  | stay | next | call | goto | leave =>
    cases he
    exact ⟨rfl, rfl⟩

theorem moves_own {e : Effect Reg Mem} (h : Ok (src.instrumented build random) s)
    (hs : step P (src.instrumented build random) s (.own i e) = some t) :
    Moves (src.instrumented build random) s t (.own i e) k := by
  obtain ⟨f, fs, rt, frames, new, htop, hown, hframes, hnew, rfl⟩ := step_own.mp hs
  obtain ⟨hsafe, hfs⟩ := h.safe htop
  obtain ⟨hrt, hf⟩ := hsafe.own hown
  obtain ⟨hi, -⟩ := List.getElem?_eq_some_iff.mp htop
  have hlen : (s.tasks.set i ⟨frames, rt⟩).length = s.tasks.length := List.length_set
  have hentered : entered s (.own i e) =
      (e.enters f).map (fun b => (i, b)) ++ e.starts.map fun b => (s.tasks.length, b) := by
    simp only [entered, top_eq_some.mpr htop]
  rcases lt_trichotomy k s.tasks.length with hk | hk | hk
  · by_cases hik : i = k
    · -- The thread itself: there was nothing ahead of it in its block.
      subst hik
      have hbefore : s.ahead i = ([], Fin.ofNat LSTATE_SIZE rt.prevLoc) := by
        unfold State.ahead
        rw [htop]
        exact hf.ahead
      have hp : rt.prevLoc = (Fin.ofNat LSTATE_SIZE rt.prevLoc).val := (Nat.mod_eq_of_lt hrt).symm
      have hafter : State.ahead (⟨s.tasks.set i ⟨frames, rt⟩ ++ new, e.mem, s.area⟩ :
          State Op Reg Mem) i = (⟨frames, rt⟩ : Task Op Reg).ahead := by
        unfold State.ahead
        rw [List.getElem?_append_left (hlen ▸ hi), List.getElem?_set_self hi]
        rfl
      unfold Moves
      rw [hbefore, hafter, ahead_frames (List.forall_mem_cons.mpr ⟨hf, hfs⟩) hp hframes, hentered,
        ofThread_append, ofThread_map_self, ofThread_map_ne (Nat.ne_of_gt hi), List.append_nil]
      exact ⟨rfl, rfl⟩
    · refine moves_of_same ?_ ?_ rfl
      · unfold State.ahead
        rw [List.getElem?_append_left (hlen ▸ hk), List.getElem?_set_ne hik]
      · rw [hentered, ofThread_append, ofThread_map_ne hik, ofThread_map_ne (Nat.ne_of_gt hk)]
        rfl
  · -- The new thread, if there is one.
    subst hk
    have hbefore : s.ahead s.tasks.length = ([], 0) := by
      unfold State.ahead
      rw [List.getElem?_eq_none (Nat.le_refl _)]
      rfl
    have hafter : State.ahead (⟨s.tasks.set i ⟨frames, rt⟩ ++ new, e.mem, s.area⟩ :
        State Op Reg Mem) s.tasks.length = new[0]?.elim ([], 0) Task.ahead := by
      unfold State.ahead
      rw [List.getElem?_append_right (Nat.le_of_eq hlen), hlen, Nat.sub_self]
    unfold Moves
    rw [hbefore, hafter, (ahead_spawned (k := 0) hnew).1, hentered, ofThread_append,
      ofThread_map_ne (Nat.ne_of_lt hi), ofThread_map_self, List.nil_append]
    exact ⟨rfl, rfl⟩
  · refine moves_of_same ?_ ?_ rfl
    · unfold State.ahead
      obtain ⟨j, hj⟩ := Nat.exists_eq_add_of_lt hk
      rw [List.getElem?_append_right (by omega), List.getElem?_eq_none (Nat.le_of_lt hk), hlen,
        show k - s.tasks.length = j + 1 by omega, (ahead_spawned hnew).2]
    · rw [hentered, ofThread_append, ofThread_map_ne (by omega), ofThread_map_ne (Nat.ne_of_lt hk)]
      rfl

/-- A thread gets on with its block, and the others stay where they are. -/
theorem ahead_set {u : Task Op Reg} {mem : Mem} {area : Area} (hi : i < s.tasks.length) :
    State.ahead ⟨s.tasks.set i u, mem, area⟩ k = if i = k then u.ahead else s.ahead k := by
  unfold State.ahead
  split
  · rename_i hik
    rw [← hik, List.getElem?_set_self hi]
    rfl
  · rename_i hik
    rw [List.getElem?_set_ne hik]

theorem moves_step (h : Ok (src.instrumented build random) s)
    (hs : step P (src.instrumented build random) s a = some t) :
    Moves (src.instrumented build random) s t a k := by
  cases a with
  | own i e => exact moves_own h hs
  | inserted i =>
    obtain ⟨f, fs, rt, inst, is, htop, hf, -, -, rfl⟩ := step_inserted.mp hs
    obtain ⟨hi, -⟩ := List.getElem?_eq_some_iff.mp htop
    obtain ⟨fn, block, insts, term, regs⟩ := f
    subst hf
    have hstores : stores s (.inserted i) =
        ((inst.mapStore rt).map Prod.fst).toList.map fun j => (i, j) := by
      simp only [stores, top_eq_some.mpr htop]
      cases inst.mapStore rt <;> rfl
    by_cases hik : i = k
    · subst hik
      have hbefore : s.ahead i = ahead (inst :: is) rt := by
        unfold State.ahead
        rw [htop]
        rfl
      have hnext : Task.ahead (⟨⟨fn, block, is, term, regs⟩ :: fs, (inst.exec (rt, s.area)).1⟩ :
          Task Op Reg) = ahead is (inst.next Area.zero rt) := ahead_next inst s.area is rt
      unfold Moves
      rw [ahead_set hi, if_pos rfl, hstores, ofThread_map_self, hbefore, hnext]
      exact ⟨List.append_nil _, rfl⟩
    · refine moves_of_same ?_ rfl ?_
      · rw [ahead_set hi, if_neg hik]
      · rw [hstores, ofThread_map_ne hik]
  | lscovMain i area =>
    obtain ⟨f, fs, rt, is, htop, hf, rfl⟩ := step_lscovMain.mp hs
    obtain ⟨hi, -⟩ := List.getElem?_eq_some_iff.mp htop
    refine moves_of_same ?_ rfl rfl
    rw [ahead_set hi]
    split
    · rename_i hik
      subst hik
      have hbefore : s.ahead i = ahead f.insts rt := by
        unfold State.ahead
        rw [htop]
        rfl
      rw [hbefore, hf]
      rfl
    · rfl
  | wild i u =>
    exact absurd hs (h.not_wild u)
  | outside area =>
    cases hs
    exact moves_of_same rfl rfl rfl

/-! ## Runs -/

/-- The blocks that each thread has entered tell the bytes that it has stored to, up to what
is ahead of it. -/
def Told (m : Module Op) (prev : Nat → Idx) (s : State Op Reg Mem)
    (blocks : List (Nat × String × Nat)) (bytes : List (Nat × Idx)) : Prop :=
  ∀ k, walked m (prev k) (ofThread k blocks) = ofThread k bytes ++ (s.ahead k).1 ∧
    lastLoc (prev k) ((ofThread k blocks).filterMap (locAt m)) = (s.ahead k).2

theorem told_step {pr : Nat → Idx} {blocks : List (Nat × String × Nat)} {bytes : List (Nat × Idx)}
    (hok : Ok (src.instrumented build random) s)
    (h : Told (src.instrumented build random) pr s blocks bytes)
    (hs : step P (src.instrumented build random) s a = some t) :
    Told (src.instrumented build random) pr t (blocks ++ entered s a) (bytes ++ stores s a) := by
  intro k
  obtain ⟨hbytes, hlast⟩ := h k
  obtain ⟨hmoved, hlast'⟩ := moves_step (k := k) hok hs
  unfold walked at hbytes ⊢
  rw [ofThread_append, ofThread_append, List.filterMap_append, lastLoc_append, visited_append,
    hlast, hbytes, List.append_assoc, hmoved, List.append_assoc]
  exact ⟨rfl, hlast'⟩

/-- A thread in its own code has nothing ahead. -/
theorem Settled.ahead {m : Module Op} (h : Settled s) (hok : Ok m s) (k : Nat) :
    s.ahead k = ([], s.prevLoc k) := by
  unfold State.ahead State.prevLoc
  cases hk : s.tasks[k]? with
  | none => rfl
  | some u =>
    obtain ⟨_ | ⟨f, fs⟩, rt⟩ := u
    · rfl
    · exact ((hok.safe hk).1.own (h k f fs rt hk)).2.ahead

theorem entered_erase (ha : a.isOwn = true)
    (hs : step P (src.instrumented build random) s a = some t) :
    entered s a = entered s.erase a := by
  cases a with
  | own i e =>
    obtain ⟨f, fs, rt, -, -, htop, hown, -, -, -⟩ := step_own.mp hs
    have htop' : s.erase.tasks[i]? = some (Task.erase ⟨f :: fs, rt⟩) := by
      unfold State.erase
      rw [List.getElem?_map, htop, Option.map_some]
    have hlen : s.erase.tasks.length = s.tasks.length := List.length_map ..
    simp only [entered, top_eq_some.mpr htop, top_eq_some.mpr htop', hlen]
    cases e <;> rfl
  | inserted | lscovMain | wild | outside => cases ha

/-- Between two states with all threads in their own code, each thread has stored to the
bytes that its walk before the pass tells. -/
theorem stores_of_walk {acts : List (Act Op Reg Mem)} (hok : Ok (src.instrumented build random) s)
    (hs : Settled s) (ha : Allowed (step P (src.instrumented build random)) P.may s acts)
    (hr : runs.run (step P (src.instrumented build random)) s acts = some t) (ht : Settled t)
    (k : Nat) :
    ofThread k (trace (step P (src.instrumented build random)) stores s acts) =
      walked (src.instrumented build random) (s.prevLoc k) (src.walk P s acts k) := by
  have h0 : Told (src.instrumented build random) s.prevLoc s [] [] := by
    intro k
    rw [hs.ahead hok k]
    exact ⟨rfl, rfl⟩
  obtain ⟨hok', htold⟩ : Ok (src.instrumented build random) t ∧
      Told (src.instrumented build random) s.prevLoc t
        (trace (step P (src.instrumented build random)) entered s acts)
        (trace (step P (src.instrumented build random)) stores s acts) := by
    refine run_inv (Q := fun u acts => Ok (src.instrumented build random) u ∧
      Told (src.instrumented build random) s.prevLoc u
        (trace (step P (src.instrumented build random)) entered s acts)
        (trace (step P (src.instrumented build random)) stores s acts)) ⟨hok, h0⟩ ?_ ha hr
    intro u v a acts hu h _ hstep
    rw [trace_concat a hu, trace_concat a hu]
    exact ⟨ok_step h.1 hstep, told_step h.1 h.2 hstep⟩
  have hwalk : trace (step P (src.instrumented build random)) entered s acts =
      trace (step P src.module) entered s.erase (acts.filter Act.isOwn) := by
    refine trace_filter (P := Ok (src.instrumented build random)) ?_ ?_ ?_ hok ha hr
    · exact fun _ _ _ h _ hs => ok_step h hs
    · intro u v a h hs hk
      refine ⟨erase_step h hs hk, ?_⟩
      cases a with
      | own i e => cases hk
      | inserted | lscovMain | wild | outside => rfl
    · exact fun _ _ _ h hmay hs hk => ⟨(own_step h hmay hs hk).2, entered_erase hk hs⟩
  have hk := (htold k).1
  rw [ht.ahead hok' k, List.append_nil, hwalk] at hk
  exact hk.symm

/-! ## What the rest of a block looks like -/

/-- The counter of a byte is loaded, and not stored yet. -/
def midUpdate : List (Inst Op) → Bool
  | .addOne :: _ | .storeIncr :: _ => true
  | _ => false

/-- The stores are those of the build. In a bucket build the load of the counter, the
addition and the store follow each other. -/
def Formed (build : Build) : List (Inst Op) → Prop
  | [] => True
  | .loadCounter :: is => (∃ is', is = .addOne :: .storeIncr :: is') ∧ Formed build is
  | .addOne :: is => (∃ is', is = .storeIncr :: is') ∧ Formed build is
  | .storeOne :: is => (build = .bitmap ∧ midUpdate is = false) ∧ Formed build is
  | .storeIncr :: is => (build = .bucket ∧ midUpdate is = false) ∧ Formed build is
  | _ :: is => midUpdate is = false ∧ Formed build is

theorem Formed.tail {inst : Inst Op} (h : Formed build (inst :: is)) : Formed build is := by
  cases inst <;> exact h.2

theorem Plain.not_mid (h : Plain is) : midUpdate is = false := by
  cases is with
  | nil => rfl
  | cons i is =>
    cases i with
    | orig op => rfl
    | _ => cases h _ List.mem_cons_self

theorem Plain.formed (h : Plain is) : Formed build is := by
  induction is with
  | nil => trivial
  | cons i is ih =>
    have his : Plain is := fun j hj => h j (List.mem_cons_of_mem _ hj)
    cases i with
    | orig op => exact ⟨his.not_mid, ih his⟩
    | _ => cases h _ List.mem_cons_self

/-- The code of a block that is not begun, or the own code that is left of one. -/
def Unbegun (build : Build) (random : Nat → Nat) (insts : List (Inst Op)) : Prop :=
  ∃ pre is, Inserted build random pre ∧ Plain is ∧ insts = pre ++ is

theorem Plain.unbegun (h : Plain is) : Unbegun build random is :=
  ⟨[], is, ⟨[], [], rfl, Or.inl rfl, Or.inl rfl⟩, h, rfl⟩

theorem Unbegun.formed (h : Unbegun build random is) :
    Formed build is ∧ midUpdate is = false := by
  obtain ⟨pre, is, ⟨update, call, rfl, hupdate, hcall⟩, hplain, rfl⟩ := h
  have hrest : Formed build (call ++ is) ∧ midUpdate (call ++ is) = false := by
    rcases hcall with rfl | rfl
    · exact ⟨hplain.formed, hplain.not_mid⟩
    · exact ⟨⟨hplain.not_mid, hplain.formed⟩, rfl⟩
  rw [List.append_assoc]
  rcases hupdate with rfl | ⟨n, rfl⟩
  · exact hrest
  · cases build <;> simpa [mapUpdate, Formed, midUpdate] using hrest.symm

theorem unbegun_enter (h : enter P (src.instrumented build random) fn d prev r = some g) :
    Unbegun build random g.insts := by
  obtain ⟨b', hb', rfl⟩ := Option.map_eq_some_iff.mp h
  obtain ⟨pre, hpre, hrun⟩ := src.blockAt build random fn d
  rw [hrun] at hb'
  obtain ⟨b, hb, rfl⟩ := Option.map_eq_some_iff.mp hb'
  exact ⟨pre, b.insts, hpre, src.plain_blockAt hb, rfl⟩

/-- After a step of the program's own code, each thread is where it was, or in a block that
is not begun. -/
theorem tops_own {e : Effect Reg Mem} (h : Ok (src.instrumented build random) s)
    (hs : step P (src.instrumented build random) s (.own i e) = some t)
    (htop : t.tasks[k]? = some ⟨g :: frames, rt⟩) :
    s.tasks[k]? = some ⟨g :: frames, rt⟩ ∨ Unbegun build random g.insts := by
  obtain ⟨f, fs, rt', frames', new, htop', hown, hframes, hnew, rfl⟩ := step_own.mp hs
  obtain ⟨hsafe, hfs⟩ := h.safe htop'
  have hplain : ∀ g ∈ f :: fs, Plain g.insts :=
    List.forall_mem_cons.mpr ⟨(hsafe.own hown).2, hfs⟩
  rw [List.getElem?_append, List.getElem?_set] at htop
  split at htop
  · split at htop
    · right
      simp only [(List.getElem?_eq_some_iff.mp htop').1, if_true, Option.some.injEq] at htop
      cases htop
      rcases frames_cases hplain hframes with ⟨-, hall⟩ | ⟨fn, d, prev, r, g', gs, -, hg, heq, -⟩
      · exact (hall g List.mem_cons_self).unbegun
      · cases heq
        exact unbegun_enter hg
    · exact Or.inl htop
  · right
    cases e with
    | spawn r mem fn args =>
      obtain ⟨g', hg', rfl⟩ := Option.map_eq_some_iff.mp hnew
      have heq := List.mem_singleton.mp (List.mem_of_getElem? htop)
      cases heq
      exact unbegun_enter hg'
    | stay | next | call | goto | leave =>
      cases hnew
      cases htop

def AllFormed (build : Build) (s : State Op Reg Mem) : Prop :=
  ∀ (i : Nat) (f : Frame Op Reg) fs rt, s.tasks[i]? = some ⟨f :: fs, rt⟩ → Formed build f.insts

/-- After an inserted instruction, each other thread is where it was. -/
theorem tops_inserted {u : Task Op Reg}
    (htop : (s.tasks.set i u)[k]? = some ⟨g :: frames, rt⟩) :
    s.tasks[k]? = some ⟨g :: frames, rt⟩ ∧ i ≠ k ∨ i = k ∧ u = ⟨g :: frames, rt⟩ := by
  rw [List.getElem?_set] at htop
  split at htop
  · rename_i hik
    split at htop
    · exact Or.inr ⟨hik, Option.some.inj htop⟩
    · cases htop
  · rename_i hik
    exact Or.inl ⟨htop, hik⟩

theorem formed_step (hok : Ok (src.instrumented build random) s) (h : AllFormed build s)
    (ha : a.isInside = true) (hs : step P (src.instrumented build random) s a = some t) :
    AllFormed build t := by
  intro k g gs rt htop
  cases a with
  | own i e =>
    rcases tops_own hok hs htop with hsame | hnew
    · exact h k g gs rt hsame
    · exact hnew.formed.1
  | inserted i =>
    obtain ⟨f, fs, rt', inst, is, htop', hf, -, -, rfl⟩ := step_inserted.mp hs
    rcases tops_inserted htop with ⟨hsame, -⟩ | ⟨-, heq⟩
    · exact h k g gs rt hsame
    · cases heq
      have hbefore := h i f _ rt' htop'
      rw [hf] at hbefore
      exact hbefore.tail
  | lscovMain | wild | outside => cases ha

theorem formed_settled (h : Settled s) {m : Module Op} (hok : Ok m s) : AllFormed build s :=
  fun i f fs rt htop => ((hok.safe htop).1.own (h i f fs rt htop)).2.formed

/-! ## The default build -/

theorem area_step {m : Module Op} (h : AllFormed .bitmap s) (ha : a.isInside = true)
    (hs : step P m s a = some t) :
    t.area = s.area.storeAll ((stores s a).map Prod.snd) := by
  cases a with
  | own i e =>
    obtain ⟨f, fs, rt, frames, new, -, -, -, -, rfl⟩ := step_own.mp hs
    rfl
  | inserted i =>
    obtain ⟨⟨fn, block, insts, term, regs⟩, fs, rt, inst, is, htop, rfl, -, hindex, rfl⟩ :=
      step_inserted.mp hs
    simp only [stores, top_eq_some.mpr htop]
    cases inst with
    | storeOne =>
      have hlt := hindex rfl
      simp only [Inst.exec, Inst.mapStore, dif_pos hlt]
      rfl
    | storeIncr => cases (h i _ fs rt htop).1.1
    | _ => rfl
  | lscovMain | wild | outside => cases ha

theorem Area.storeAll_append (a : Area) (js js' : List Idx) :
    a.storeAll (js ++ js') = (a.storeAll js).storeAll js' := List.foldl_append

theorem mem_stored {bytes : List (Nat × Idx)} {j : Idx} :
    j ∈ bytes.map Prod.snd ↔ ∃ k, j ∈ ofThread k bytes := by
  simp [ofThread]

/-- The stores of a run without writes from outside, one after the other. -/
theorem area_run {acts : List (Act Op Reg Mem)} (hok : Ok (src.instrumented .bitmap random) s)
    (hs : Settled s)
    (ha : Allowed (step P (src.instrumented .bitmap random))
      (fun s a => P.may s a ∧ a.isInside = true) s acts)
    (hr : runs.run (step P (src.instrumented .bitmap random)) s acts = some t) :
    t.area = s.area.storeAll
      ((trace (step P (src.instrumented .bitmap random)) stores s acts).map Prod.snd) := by
  obtain ⟨-, -, harea⟩ : Ok (src.instrumented .bitmap random) t ∧ AllFormed .bitmap t ∧
      t.area = s.area.storeAll
        ((trace (step P (src.instrumented .bitmap random)) stores s acts).map Prod.snd) := by
    refine run_inv (Q := fun u acts => Ok (src.instrumented .bitmap random) u ∧
      AllFormed .bitmap u ∧ u.area = s.area.storeAll
        ((trace (step P (src.instrumented .bitmap random)) stores s acts).map Prod.snd))
      ⟨hok, formed_settled hs hok, rfl⟩ ?_ ha hr
    rintro u v a acts hu ⟨hok, hformed, harea⟩ ⟨-, hin⟩ hstep
    refine ⟨ok_step hok hstep, formed_step hok hformed hin hstep, ?_⟩
    rw [trace_concat a hu, area_step hformed hin hstep, harea, List.map_append,
      Area.storeAll_append]
  exact harea

/-- Any number of threads run, in any order, from one state with all of them in their own
code to another. Then the map is told by the blocks that each thread enters in the module
before the pass: a byte is 1 if the walk of some thread visits it, and as it was if none
does. -/
theorem the_map_is_that_of_the_walks (P : Sem Op Reg Mem) (src : Source Op) (random : Nat → Nat)
    {s0 s t : State Op Reg Mem} {acts : List (Act Op Reg Mem)}
    (h0 : Starts P (src.instrumented .bitmap random) s0)
    (hreach : Reach (step P (src.instrumented .bitmap random)) P.may s0 s) (hs : Settled s)
    (ha : Allowed (step P (src.instrumented .bitmap random))
      (fun s a => P.may s a ∧ a.isInside = true) s acts)
    (hr : runs.run (step P (src.instrumented .bitmap random)) s acts = some t) (ht : Settled t)
    (j : Idx) :
    (∀ k, j ∈ walked (src.instrumented .bitmap random) (s.prevLoc k) (src.walk P s acts k) →
      t.area j = 1) ∧
    ((∀ k, j ∉ walked (src.instrumented .bitmap random) (s.prevLoc k) (src.walk P s acts k)) →
      t.area j = s.area j) := by
  have hok : Ok (src.instrumented .bitmap random) s :=
    hreach.inv (ok_starts h0) fun _ _ _ h _ hs => ok_step h hs
  have hmay : Allowed (step P (src.instrumented .bitmap random)) P.may s acts :=
    ha.mono fun _ _ h => h.1
  have hwalks := stores_of_walk hok hs hmay hr ht
  rw [area_run hok hs ha hr]
  constructor
  · intro k hk
    apply Area.storeAll_of_mem
    rw [mem_stored]
    exact ⟨k, hwalks k ▸ hk⟩
  · intro hnone
    apply Area.storeAll_of_not_mem
    rw [mem_stored]
    rintro ⟨k, hk⟩
    exact hnone k (hwalks k ▸ hk)

/-- A `main` that starts a thread. Both go through a block with a map update after that. -/
def spawnMain : Source Unit where
  module :=
    { fns := [⟨"main", [⟨[], [.orig ()], .condBr 1 1⟩, ⟨[], [], .ret⟩]⟩, ⟨"work", [⟨[], [], .ret⟩]⟩]
      names := by decide }
  plain := by decide
  main := by decide

def spawnSem : Sem Unit Unit Nat where
  phi _ _ r := r
  op _ r mem e := mem = 0 ∧ e = .spawn r 1 "work" r ∨ mem = 1 ∧ e = .next r mem
  term fn d r mem e := fn = "main" ∧ d = 0 ∧ e = .goto 1 r mem

/-- The process at the entry of `main`. -/
def spawnStart (build : Build) (random : Nat → Nat) : State Unit Unit Nat :=
  ⟨[fresh ⟨"main", 0, mapUpdate build (curLoc random 0) ++ [.callLscovMain, .orig ()],
    .condBr 1 1, ()⟩], 0, Area.zero⟩

/-- The process after the call of `__lscov_main`. -/
def spawnReady (build : Build) (random : Nat → Nat) : State Unit Unit Nat :=
  ⟨[⟨[⟨"main", 0, [.orig ()], .condBr 1 1, ()⟩],
    ((mapUpdate build (curLoc random 0)).foldl (fun rt (i : Inst Unit) => i.next Area.zero rt)
      ⟨0, 0, 0, 0⟩)⟩], 0, Area.zero⟩

/-- The threads take turns in their map updates. -/
def spawnActs (n : Nat) : List (Act Unit Unit Nat) :=
  [.own 0 (.spawn () 1 "work" ()), .own 0 (.next () 1), .own 0 (.goto 1 () 1)] ++
    (List.replicate n [.inserted 0, .inserted 1]).flatten

theorem spawn_starts (build : Build) (random : Nat → Nat) :
    Starts spawnSem (spawnMain.instrumented build random) (spawnStart build random) := by
  intro t ht
  refine ⟨"main", (), _, ?_, List.mem_singleton.mp ht⟩
  cases build <;> rfl

/-- Inserted instructions may come in any order. -/
theorem allowed_inserted {m : Module Op} {acts : List (Act Op Reg Mem)}
    (h : ∀ a ∈ acts, ∃ i, a = .inserted i) :
    Allowed (step P m) (fun s a => P.may s a ∧ a.isInside = true) s acts := by
  induction acts generalizing s with
  | nil => trivial
  | cons a acts ih =>
    obtain ⟨ha, hacts⟩ := List.forall_mem_cons.mp h
    obtain ⟨i, rfl⟩ := ha
    exact ⟨⟨trivial, rfl⟩, fun t _ => ih hacts⟩

theorem allowed_not_own {m : Module Op} {acts : List (Act Op Reg Mem)}
    (h : ∀ a ∈ acts, a.isOwn = false) : Allowed (step P m) P.may s acts := by
  induction acts generalizing s with
  | nil => trivial
  | cons a acts ih =>
    obtain ⟨ha, hacts⟩ := List.forall_mem_cons.mp h
    refine ⟨?_, fun t _ => ih hacts⟩
    cases a with
    | own i e => cases ha
    | inserted | lscovMain | wild | outside => trivial

/-- The process gets to the end of `__lscov_main`. -/
def readyActs (n : Nat) : List (Act Unit Unit Nat) :=
  List.replicate n (.inserted 0) ++ [.lscovMain 0 Area.zero]

theorem settled_of_insts (h : ∀ t ∈ s.tasks, ∀ f ∈ t.frames, f.atOwn = true) : Settled s :=
  fun _ f _ _ htop => h _ (List.mem_of_getElem? htop) f List.mem_cons_self

theorem spawn_allowed (build : Build) (random : Nat → Nat) (n : Nat) :
    Allowed (step spawnSem (spawnMain.instrumented build random))
      (fun s a => spawnSem.may s a ∧ a.isInside = true) (spawnReady build random)
      (spawnActs n) := by
  refine .cons ⟨⟨_, _, _, rfl, Or.inl ⟨rfl, rfl⟩⟩, rfl⟩ rfl <|
    .cons ⟨⟨_, _, _, rfl, Or.inr ⟨rfl, rfl⟩⟩, rfl⟩ rfl <|
    .cons ⟨⟨_, _, _, rfl, rfl, rfl, rfl⟩, rfl⟩ rfl <| allowed_inserted ?_
  intro a ha
  obtain ⟨l, hl, ha⟩ := List.mem_flatten.mp ha
  rw [List.eq_of_mem_replicate hl] at ha
  simp only [List.mem_cons, List.not_mem_nil, or_false] at ha
  rcases ha with rfl | rfl
  · exact ⟨0, rfl⟩
  · exact ⟨1, rfl⟩

/-- The bytes of both threads are set. -/
theorem both_threads_are_seen :
    ∃ t, runs.run (step spawnSem (spawnMain.instrumented .bitmap fun n => n + 5))
        (spawnReady .bitmap fun n => n + 5) (spawnActs 6) = some t ∧
      t.area 4 = 1 ∧ t.area 7 = 1 := by
  have hready : runs.run (step spawnSem (spawnMain.instrumented .bitmap fun n => n + 5))
      (spawnStart .bitmap fun n => n + 5) (readyActs 6) =
        some (spawnReady .bitmap fun n => n + 5) :=
    rfl
  have hmap := the_map_is_that_of_the_walks spawnSem spawnMain (fun n => n + 5)
    (spawn_starts .bitmap _) (reach_of_run (allowed_not_own (by decide)) hready)
    (settled_of_insts (by decide)) (spawn_allowed .bitmap _ 6) rfl (settled_of_insts (by decide))
  exact ⟨_, rfl, (hmap 4).1 0 (by decide), (hmap 7).1 1 (by decide)⟩

/-! ## The bucket build -/

/-- A counter on its way into the map, after `n` stores to each byte: it is above the byte
at the start, and counts no more than the stores. -/
def Pending (low n : Idx → Nat) : List (Inst Op) → Thread → Prop
  | .addOne :: _, rt => ∀ j : Idx, j.val = rt.index → low j + n j < 256 →
      low j ≤ rt.counter.toNat ∧ rt.counter.toNat ≤ low j + n j
  | .storeIncr :: _, rt => ∀ j : Idx, j.val = rt.index → low j + n j + 1 < 256 →
      low j + 1 ≤ rt.counter.toNat ∧ rt.counter.toNat ≤ low j + n j + 1
  | _, _ => True

/-- The bytes and the counters after `n` stores to each byte, from the bytes `low` on. -/
structure Bounded (low n : Idx → Nat) (s : State Op Reg Mem) : Prop where
  bytes : ∀ j, low j + n j < 256 →
    low j + min 1 (n j) ≤ (s.area j).toNat ∧ (s.area j).toNat ≤ low j + n j
  pending : ∀ (i : Nat) (f : Frame Op Reg) fs rt, s.tasks[i]? = some ⟨f :: fs, rt⟩ →
    Pending low n f.insts rt

variable {low n n' : Idx → Nat}

theorem pending_of_not_mid (h : midUpdate is = false) : Pending low n is rt := by
  unfold midUpdate at h
  split at h
  · cases h
  · cases h
  · rename_i h1 h2
    unfold Pending
    split
    · exact absurd rfl (h1 _)
    · exact absurd rfl (h2 _)
    · trivial

theorem Pending.mono (h : Pending low n is rt) (hle : ∀ j, n j ≤ n' j) : Pending low n' is rt := by
  unfold Pending at h ⊢
  split at h
  · intro j hj hlt
    have := hle j
    obtain ⟨hlow, hhigh⟩ := h j hj (by omega)
    exact ⟨hlow, by omega⟩
  · intro j hj hlt
    have := hle j
    obtain ⟨hlow, hhigh⟩ := h j hj (by omega)
    exact ⟨hlow, by omega⟩
  · trivial

/-- The store of a counter. -/
theorem bytes_store {j : Idx} {c : UInt8}
    (hbytes : ∀ j, low j + n j < 256 →
      low j + min 1 (n j) ≤ (s.area j).toNat ∧ (s.area j).toNat ≤ low j + n j)
    (hc : low j + n j + 1 < 256 → low j + 1 ≤ c.toNat ∧ c.toNat ≤ low j + n j + 1) (k : Idx)
    (hlt : low k + (n k + [j].count k) < 256) :
    low k + min 1 (n k + [j].count k) ≤ (s.area.set j c k).toNat ∧
      (s.area.set j c k).toNat ≤ low k + (n k + [j].count k) := by
  by_cases hjk : k = j
  · subst hjk
    rw [List.count_singleton_self] at hlt ⊢
    rw [Area.set_self]
    obtain ⟨hlow, hhigh⟩ := hc (by omega)
    omega
  · rw [Area.set_ne _ _ hjk]
    rw [List.count_singleton, beq_eq_false_iff_ne.mpr (Ne.symm hjk)] at hlt ⊢
    exact hbytes k hlt

/-- The inserted instruction of a bucket build, with what it makes of its counter. -/
theorem pending_next {inst : Inst Op} (hformed : Formed .bucket (inst :: is))
    (h : Pending low n (inst :: is) rt)
    (hbytes : ∀ j, low j + n j < 256 →
      low j + min 1 (n j) ≤ (s.area j).toNat ∧ (s.area j).toNat ≤ low j + n j)
    (hindex : inst.usesIndex = true → rt.index < LSTATE_SIZE) :
    Pending low n is (inst.next s.area rt) := by
  cases inst with
  | loadCounter =>
    obtain ⟨⟨is', rfl⟩, -⟩ := hformed
    intro j hj hlt
    have hj' : (⟨rt.index, hindex rfl⟩ : Idx) = j := by
      apply Fin.ext
      rw [hj]
      simp only [Inst.next, dif_pos (hindex rfl)]
    simp only [Inst.next, dif_pos (hindex rfl), hj']
    obtain ⟨hlow, hhigh⟩ := hbytes j hlt
    exact ⟨by omega, hhigh⟩
  | addOne =>
    obtain ⟨⟨is', rfl⟩, -⟩ := hformed
    intro j hj hlt
    obtain ⟨hlow, hhigh⟩ := h j hj (by omega)
    have hadd : (rt.counter + 1).toNat = rt.counter.toNat + 1 := by
      rw [UInt8.toNat_add]
      exact Nat.mod_eq_of_lt (by simp only [UInt8.toNat_one]; omega)
    simp only [Inst.next, hadd]
    omega
  | storeOne => cases hformed.1.1
  | storeIncr => exact pending_of_not_mid hformed.1.2
  | _ => exact pending_of_not_mid hformed.1

theorem bounded_step (hok : Ok (src.instrumented .bucket random) s)
    (hformed : AllFormed .bucket s) (h : Bounded low n s) (ha : a.isInside = true)
    (hs : step P (src.instrumented .bucket random) s a = some t) :
    Bounded low (fun j => n j + ((stores s a).map Prod.snd).count j) t := by
  cases a with
  | own i e =>
    constructor
    · obtain ⟨f, fs, rt, frames, new, -, -, -, -, rfl⟩ := step_own.mp hs
      exact h.bytes
    · intro k g gs rt htop
      rcases tops_own hok hs htop with hsame | hnew
      · exact h.pending k g gs rt hsame
      · exact pending_of_not_mid hnew.formed.2
  | inserted i =>
    obtain ⟨⟨fn, block, insts, term, regs⟩, fs, rt, inst, is, htop, rfl, -, hindex, rfl⟩ :=
      step_inserted.mp hs
    have hform := hformed i _ fs rt htop
    have hpend := h.pending i _ fs rt htop
    constructor
    · simp only [stores, top_eq_some.mpr htop]
      cases inst with
      | storeIncr =>
        have hlt := hindex rfl
        simp only [Inst.exec, Inst.mapStore, dif_pos hlt]
        exact bytes_store h.bytes (hpend ⟨rt.index, hlt⟩ rfl)
      | storeOne => cases hform.1.1
      | _ => exact h.bytes
    · intro k g gs rt' htop'
      have hle : ∀ j, n j ≤ n j + ((stores s (.inserted i)).map Prod.snd).count j :=
        fun j => Nat.le_add_right _ _
      rcases tops_inserted htop' with ⟨hsame, -⟩ | ⟨-, heq⟩
      · exact (h.pending k g gs rt' hsame).mono hle
      · cases heq
        exact (pending_next hform hpend h.bytes hindex).mono hle
  | lscovMain | wild | outside => cases ha

theorem bounded_settled {m : Module Op} (h : Settled s) (hok : Ok m s) :
    Bounded (fun j => (s.area j).toNat) (fun _ => 0) s := by
  constructor
  · intro j _
    exact ⟨Nat.le_refl _, Nat.le_refl _⟩
  · intro i f fs rt htop
    exact pending_of_not_mid ((hok.safe htop).1.own (h i f fs rt htop)).2.not_mid

/-- The bytes after a run without writes from outside, from the number of stores to them. -/
theorem bytes_run {acts : List (Act Op Reg Mem)} (hok : Ok (src.instrumented .bucket random) s)
    (hs : Settled s)
    (ha : Allowed (step P (src.instrumented .bucket random))
      (fun s a => P.may s a ∧ a.isInside = true) s acts)
    (hr : runs.run (step P (src.instrumented .bucket random)) s acts = some t) :
    Bounded (fun j => (s.area j).toNat)
      (fun j =>
        ((trace (step P (src.instrumented .bucket random)) stores s acts).map Prod.snd).count j)
      t := by
  suffices h : Ok (src.instrumented .bucket random) t ∧ AllFormed .bucket t ∧
      Bounded (fun j => (s.area j).toNat)
        (fun j =>
          ((trace (step P (src.instrumented .bucket random)) stores s acts).map Prod.snd).count j)
        t from
    h.2.2
  refine run_inv (Q := fun u acts => Ok (src.instrumented .bucket random) u ∧
    AllFormed .bucket u ∧ Bounded (fun j => (s.area j).toNat) (fun j =>
      ((trace (step P (src.instrumented .bucket random)) stores s acts).map Prod.snd).count j) u)
    ⟨hok, formed_settled hs hok, bounded_settled hs hok⟩ ?_ ha hr
  rintro u v a acts hu ⟨hok, hformed, hbounded⟩ ⟨-, hin⟩ hstep
  refine ⟨ok_step hok hstep, formed_step hok hformed hin hstep, ?_⟩
  simp only [trace_concat a hu, List.map_append, List.count_append]
  exact bounded_step hok hformed hbounded hin hstep

/-- Each store is of some thread. -/
theorem stores_lt {acts : List (Act Op Reg Mem)} (hok : Ok (src.instrumented build random) s)
    (ha : Allowed (step P (src.instrumented build random)) P.may s acts)
    (hr : runs.run (step P (src.instrumented build random)) s acts = some t) :
    ∀ b ∈ trace (step P (src.instrumented build random)) stores s acts, b.1 < t.tasks.length := by
  suffices h : Ok (src.instrumented build random) t ∧
      ∀ b ∈ trace (step P (src.instrumented build random)) stores s acts, b.1 < t.tasks.length from
    h.2
  refine run_inv (Q := fun u acts => Ok (src.instrumented build random) u ∧
    ∀ b ∈ trace (step P (src.instrumented build random)) stores s acts, b.1 < u.tasks.length)
    ⟨hok, fun b hb => absurd hb List.not_mem_nil⟩ ?_ ha hr
  rintro u v a acts hu ⟨hok, hlt⟩ - hstep
  refine ⟨ok_step hok hstep, ?_⟩
  have hgrows : u.tasks.length ≤ v.tasks.length := by
    cases a with
    | own i e =>
      obtain ⟨f, fs, rt, frames, new, -, -, -, -, rfl⟩ := step_own.mp hstep
      simp only [List.length_append, List.length_set]
      omega
    | inserted i =>
      obtain ⟨f, fs, rt, inst, is, -, -, -, -, rfl⟩ := step_inserted.mp hstep
      simp only [List.length_set, Nat.le_refl]
    | lscovMain i area =>
      obtain ⟨f, fs, rt, is, -, -, rfl⟩ := step_lscovMain.mp hstep
      simp only [List.length_set, Nat.le_refl]
    | wild i w => exact absurd hstep (hok.not_wild w)
    | outside area =>
      cases hstep
      exact Nat.le_refl _
  intro b hb
  rw [trace_concat a hu] at hb
  rcases List.mem_append.mp hb with hold | hnew
  · exact Nat.lt_of_lt_of_le (hlt b hold) hgrows
  · cases a with
    | inserted i =>
      obtain ⟨⟨fn, block, insts, term, regs⟩, fs, rt, inst, is, htop, rfl, -, -, -⟩ :=
        step_inserted.mp hstep
      simp only [stores, top_eq_some.mpr htop, Option.mem_toList,
        Option.map_eq_some_iff] at hnew
      obtain ⟨-, -, rfl⟩ := hnew
      exact Nat.lt_of_lt_of_le (List.getElem?_eq_some_iff.mp htop).1 hgrows
    | own | lscovMain | wild | outside => cases hnew

theorem count_eq_sum {bytes : List (Nat × Idx)} {N : Nat} (h : ∀ b ∈ bytes, b.1 < N) (j : Idx) :
    (bytes.map Prod.snd).count j = ∑ k ∈ Finset.range N, (ofThread k bytes).count j := by
  induction bytes with
  | nil => simp
  | cons b bytes ih =>
    obtain ⟨hb, hrest⟩ := List.forall_mem_cons.mp h
    have hcons : ∀ k, (ofThread k (b :: bytes)).count j =
        (ofThread k bytes).count j + if k = b.1 then [b.2].count j else 0 := by
      intro k
      rw [← List.singleton_append, ofThread_append, List.count_append, Nat.add_comm]
      congr 1
      split
      · rename_i hk
        rw [hk]
        exact congrArg _ (ofThread_map_self b.1 [b.2])
      · rename_i hk
        exact congrArg _ (ofThread_map_ne (Ne.symm hk) [b.2])
    rw [Finset.sum_congr rfl fun k _ => hcons k, Finset.sum_add_distrib, ← ih hrest,
      Finset.sum_ite_eq', if_pos (Finset.mem_range.mpr hb), List.map_cons, ← List.singleton_append,
      List.count_append, Nat.add_comm]

/-- The visits of a byte by all threads. -/
def Source.visits (src : Source Op) (P : Sem Op Reg Mem) (random : Nat → Nat)
    (s t : State Op Reg Mem) (acts : List (Act Op Reg Mem)) (j : Idx) : Nat :=
  ∑ k ∈ Finset.range t.tasks.length,
    (walked (src.instrumented .bucket random) (s.prevLoc k) (src.walk P s acts k)).count j

/-- The threads of a bucket build may lose updates to each other. As long as its visits fit
into a byte, each byte that is visited goes up, and by no more than its visits. -/
theorem no_visit_goes_unseen (P : Sem Op Reg Mem) (src : Source Op) (random : Nat → Nat)
    {s0 s t : State Op Reg Mem} {acts : List (Act Op Reg Mem)}
    (h0 : Starts P (src.instrumented .bucket random) s0)
    (hreach : Reach (step P (src.instrumented .bucket random)) P.may s0 s) (hs : Settled s)
    (ha : Allowed (step P (src.instrumented .bucket random))
      (fun s a => P.may s a ∧ a.isInside = true) s acts)
    (hr : runs.run (step P (src.instrumented .bucket random)) s acts = some t) (ht : Settled t)
    (j : Idx) (hj : (s.area j).toNat + src.visits P random s t acts j < 256) :
    (s.area j).toNat + min 1 (src.visits P random s t acts j) ≤ (t.area j).toNat ∧
      (t.area j).toNat ≤ (s.area j).toNat + src.visits P random s t acts j := by
  have hok : Ok (src.instrumented .bucket random) s :=
    hreach.inv (ok_starts h0) fun _ _ _ h _ hs => ok_step h hs
  have hmay : Allowed (step P (src.instrumented .bucket random)) P.may s acts :=
    ha.mono fun _ _ h => h.1
  have hcount : ((trace (step P (src.instrumented .bucket random)) stores s acts).map
      Prod.snd).count j = src.visits P random s t acts j := by
    rw [count_eq_sum (stores_lt hok hmay hr)]
    unfold Source.visits
    apply Finset.sum_congr rfl
    intro k _
    rw [stores_of_walk hok hs hmay hr ht k]
  rw [← hcount] at hj ⊢
  exact (bytes_run hok hs ha hr).bytes j hj

/-- The locations that make both threads visit one byte. -/
def sameByte : Nat → Nat
  | 0 => 2
  | 1 => 5
  | _ => 4

/-- Both threads load the counter before one of them stores it. The byte shows one of the
two visits. -/
theorem a_lost_update_is_seen :
    ∃ t, runs.run (step spawnSem (spawnMain.instrumented .bucket sameByte))
        (spawnReady .bucket sameByte) (spawnActs 8) = some t ∧
      spawnMain.visits spawnSem sameByte (spawnReady .bucket sameByte) t (spawnActs 8) 4 = 2 ∧
      1 ≤ (t.area 4).toNat ∧ (t.area 4).toNat ≤ 2 ∧ t.area 4 = 1 := by
  have hready : runs.run (step spawnSem (spawnMain.instrumented .bucket sameByte))
      (spawnStart .bucket sameByte) (readyActs 8) = some (spawnReady .bucket sameByte) := rfl
  have hseen := no_visit_goes_unseen spawnSem spawnMain sameByte (spawn_starts .bucket _)
    (reach_of_run (allowed_not_own (by decide)) hready) (settled_of_insts (by decide))
    (spawn_allowed .bucket _ 8) rfl (settled_of_insts (by decide)) 4 (by decide)
  exact ⟨_, rfl, by decide, hseen.1, hseen.2, by decide⟩

end lscov.machine
