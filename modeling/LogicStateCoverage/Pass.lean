-- The LLVM pass (`lscov-llvm-pass.so.cc`): the call to `__lscov_main` in `main`,
-- and the map update in every block that does not end in an unconditional
-- branch. The laws say what the pass does to each function, and what one map
-- update does to the map.
import LogicStateCoverage.LogicState
import Mathlib.Data.List.Infix
import Mathlib.Data.List.Nodup
import Mathlib.Data.Nat.Bitwise

namespace lscov

/-! ## The map index -/

/-- `prev_loc ^ cur_loc`, for two locations of the map. -/
def mapIndex (prev cur : Idx) : Idx :=
  ⟨prev.val ^^^ cur.val, Nat.xor_lt_two_pow (n := LSTATE_SIZE_POW2) prev.isLt cur.isLt⟩

/-- `cur_loc >> 1`. -/
def shiftLoc (cur : Idx) : Idx :=
  ⟨cur.val >>> 1, Nat.lt_of_le_of_lt (Nat.shiftRight_le _ _) cur.isLt⟩

/-- The indices that a sequence of visited locations stores to, from a `prev_loc` on. -/
def visited (prev : Idx) : List Idx → List Idx
  | [] => []
  | c :: cs => mapIndex prev c :: visited (shiftLoc c) cs

theorem mapIndex_eq_zero {prev cur : Idx} : mapIndex prev cur = 0 ↔ cur = prev := by
  rw [Fin.ext_iff, Fin.ext_iff]
  show prev.val ^^^ cur.val = 0 ↔ cur.val = prev.val
  constructor
  · intro h
    have hc := Nat.xor_xor_cancel_left prev.val cur.val
    rw [h] at hc
    simpa using hc.symm
  · intro h
    rw [h]
    exact Nat.xor_self _

namespace pass

/-! ## Modules -/

/-- The instructions of a block: its own ones, and those that the pass inserts. -/
inductive Inst (Op : Type)
  | orig (op : Op)
  | callLscovMain
  | loadPrevLoc                 -- `PrevLoc`
  | loadMapPtr                  -- `MapPtr`
  | xorCurLoc (curLoc : Nat)    -- `CreateXor(PrevLocCasted, CurLoc)`
  | gepMapPtr                   -- `MapPtrIdx`
  | loadCounter                 -- `Counter`, with `LSCOV_BUCKET`
  | addOne                      -- `Incr`, with `LSCOV_BUCKET`
  | storeIncr                   -- with `LSCOV_BUCKET`
  | storeOne                    -- without `LSCOV_BUCKET`
  | storePrevLoc (loc : Nat)
  deriving DecidableEq, Repr

/-- The terminators, with the numbers of the blocks that they may go to. -/
inductive Term
  | br (dest : Nat)
  | condBr (ifTrue ifFalse : Nat)
  | multi (dests : List Nat)    -- `switch`, `indirectbr`, `invoke`
  | ret
  | unreachable                 -- also `resume` out of the function
  deriving DecidableEq, Repr

/-- A `BranchInst` that `isUnconditional`. -/
def Term.isUnconditional : Term → Bool
  | .br _ => true
  | _ => false

def Term.succs : Term → List Nat
  | .br d => [d]
  | .condBr t f => [t, f]
  | .multi ds => ds
  | .ret | .unreachable => []

/-- A block. Its leading `phi` or landing-pad group stands before the place that
`getFirstInsertionPt` gives, and everything else after it. -/
structure Block (Op : Type) where
  phis : List Op
  insts : List (Inst Op)
  term : Term
  deriving DecidableEq, Repr

/-- An insertion at `getFirstInsertionPt`. -/
def Block.insertFirst {Op : Type} (b : Block Op) (is : List (Inst Op)) : Block Op :=
  { b with insts := is ++ b.insts }

@[simp] theorem Block.insertFirst_term {Op : Type} (b : Block Op) (is : List (Inst Op)) :
    (b.insertFirst is).term = b.term := rfl

/-- A function. The first block is the entry, and a declaration has no block. -/
structure Fn (Op : Type) where
  name : String
  blocks : List (Block Op)
  deriving DecidableEq, Repr

/-- A module. No two functions have one name. -/
structure Module (Op : Type) where
  fns : List (Fn Op)
  names : (fns.map Fn.name).Nodup

variable {Op : Type}

def Module.getFunction (m : Module Op) (name : String) : Option (Fn Op) :=
  m.fns.find? fun f => f.name = name

/-- The same functions under the same names, each with other blocks. -/
def Module.withFns (m : Module Op) (fns : List (Fn Op)) (h : fns.map Fn.name = m.fns.map Fn.name) :
    Module Op :=
  ⟨fns, h ▸ m.names⟩

def Module.getOrInsertFunction (m : Module Op) (name : String) : Module Op :=
  if h : name ∈ m.fns.map Fn.name then m
  else
    { fns := m.fns ++ [⟨name, []⟩]
      names := by
        rw [List.map_append]
        exact m.names.append (List.nodup_singleton _) (by simpa [List.disjoint_singleton] using h) }

/-! ## The pass -/

/-- The call to `__lscov_main` at the first insertion point of the entry. A declaration
has no entry block, and `getEntryBlock` fails. -/
def Fn.insertCall (f : Fn Op) : Option (Fn Op) :=
  match f.blocks with
  | [] => none
  | b :: bs => some { f with blocks := b.insertFirst [.callLscovMain] :: bs }

theorem Fn.insertCall_eq_some {f f' : Fn Op} (h : f.insertCall = some f') :
    ∃ b bs, f.blocks = b :: bs ∧
      f' = { f with blocks := b.insertFirst [.callLscovMain] :: bs } := by
  unfold Fn.insertCall at h
  cases hb : f.blocks with
  | nil => simp [hb] at h
  | cons b bs => exact ⟨b, bs, rfl, by simpa [hb] using h.symm⟩

theorem Fn.insertCall_name {f f' : Fn Op} (h : f.insertCall = some f') : f'.name = f.name := by
  obtain ⟨b, bs, -, rfl⟩ := Fn.insertCall_eq_some h
  rfl

/-- The module with another function under the name. -/
def Module.setFunction (m : Module Op) (f : Fn Op) : Module Op :=
  m.withFns (m.fns.map fun g => if g.name = f.name then f else g) <| by
    rw [List.map_map]
    apply List.map_congr_left
    intro g _
    simp only [Function.comp_apply]
    split
    · next h => exact h.symm
    · rfl

/-- The pass on `main`. There is no module after it where `main` is only declared. -/
def insertMainCall (m : Module Op) : Option (Module Op) :=
  match m.getFunction "main" with
  | none => some m
  | some f => f.insertCall.map (m.getOrInsertFunction "__lscov_main").setFunction

/-- The two builds: the default one, and the one with `LSCOV_BUCKET`. -/
inductive Build
  | bitmap
  | bucket
  deriving DecidableEq, Repr

/-- The code that the pass inserts into a block. `CreateZExt` from `i32` to `i32`
gives its operand back, so there is no instruction for it. -/
def mapUpdate (build : Build) (curLoc : Nat) : List (Inst Op) :=
  [.loadPrevLoc, .loadMapPtr, .xorCurLoc curLoc, .gepMapPtr] ++
    (match build with
      | .bucket => [.loadCounter, .addOne, .storeIncr]
      | .bitmap => [.storeOne]) ++
    [.storePrevLoc (curLoc >>> 1)]

/-- A loop over a list that changes each element and counts `inst_blocks`. -/
def forEach {α : Type} (body : α → Nat → α × Nat) : List α → Nat → List α × Nat
  | [], n => ([], n)
  | a :: as, n =>
    let (a', n') := body a n
    let (as', n'') := forEach body as n'
    (a' :: as', n'')

/-- `RANDOM(LSTATE_SIZE)`, from the `n`-th value of `random()`. -/
def curLoc (random : Nat → Nat) (n : Nat) : Nat := random n % LSTATE_SIZE

/-- The body of the loop over the blocks of a function. -/
def instrumentBlock (build : Build) (random : Nat → Nat) (b : Block Op) (n : Nat) :
    Block Op × Nat :=
  if b.term.isUnconditional then (b, n)
  else (b.insertFirst (mapUpdate build (curLoc random n)), n + 1)

/-- The body of the loop over the functions of a module. -/
def instrumentFn (build : Build) (random : Nat → Nat) (f : Fn Op) (n : Nat) : Fn Op × Nat :=
  if "sancov".toList <:+: f.name.toList then (f, n)
  else
    let (bs, n) := forEach (instrumentBlock build random) f.blocks n
    ({ f with blocks := bs }, n)

/-! ## The loops of the pass -/

section loops

variable {α β : Type} {body : α → Nat → α × Nat}

/-- What no turn changes, the loop does not change. -/
theorem map_forEach (g : α → β) (h : ∀ a n, g (body a n).1 = g a) (as : List α) (n : Nat) :
    (forEach body as n).1.map g = as.map g := by
  induction as generalizing n with
  | nil => rfl
  | cons a as ih => simp [forEach, h, ih]

/-- The `k`-th turn starts from the count that the turns before it leave. -/
theorem getElem?_forEach (as : List α) (n k : Nat) :
    (forEach body as n).1[k]? =
      as[k]?.map fun a => (body a (forEach body (as.take k) n).2).1 := by
  induction as generalizing n k with
  | nil => simp [forEach]
  | cons a as ih =>
    cases k with
    | zero => simp [forEach]
    | succ k => simp [forEach, ih]

/-- A search after the loop finds what it finds before, with its turn done. -/
theorem find?_forEach {p : α → Bool} (h : ∀ a n, p (body a n).1 = p a) (as : List α) (n : Nat) :
    ∃ k, (forEach body as n).1.find? p = (as.find? p).map fun a => (body a k).1 := by
  induction as generalizing n with
  | nil => exact ⟨0, rfl⟩
  | cons b as ih =>
    cases hb : p b with
    | true => exact ⟨n, by simp [forEach, h, hb]⟩
    | false =>
      obtain ⟨k, hk⟩ := ih (body b n).2
      exact ⟨k, by simpa [forEach, List.find?_cons, h, hb] using hk⟩

end loops

theorem instrumentFn_name (build : Build) (random : Nat → Nat) (f : Fn Op) (n : Nat) :
    (instrumentFn build random f n).1.name = f.name := by
  unfold instrumentFn
  split <;> rfl

/-- The loop over the functions: the module, and the number of instrumented blocks. -/
def instrument (build : Build) (random : Nat → Nat) (m : Module Op) : Module Op × Nat :=
  (m.withFns (forEach (instrumentFn build random) m.fns 0).1
    (map_forEach Fn.name (instrumentFn_name build random) m.fns 0),
    (forEach (instrumentFn build random) m.fns 0).2)

/-- `LSCovPass::run` -/
def run (build : Build) (random : Nat → Nat) (m : Module Op) : Option (Module Op × Nat) :=
  (insertMainCall m).map (instrument build random)

/-! ## What the pass makes of `main` -/

theorem getFunction_getOrInsertFunction {m : Module Op} {name : String} {f : Fn Op}
    (h : m.getFunction name = some f) (other : String) :
    (m.getOrInsertFunction other).getFunction name = some f := by
  unfold Module.getOrInsertFunction
  split
  · exact h
  · unfold Module.getFunction at h ⊢
    rw [List.find?_append, h, Option.some_or]

/-- The functions of a module after one of them has changed. -/
theorem getFunction_setFunction (m : Module Op) (f : Fn Op) (name : String) :
    (m.setFunction f).getFunction name =
      (m.getFunction name).map fun g => if g.name = f.name then f else g := by
  have hsame : ∀ g : Fn Op, (if g.name = f.name then f else g).name = g.name := by
    intro g
    split
    · next h => exact h.symm
    · rfl
  unfold Module.getFunction Module.setFunction Module.withFns
  simp only [List.find?_map, Function.comp_def, hsame]

theorem getFunction_name {m : Module Op} {name : String} {f : Fn Op}
    (h : m.getFunction name = some f) : f.name = name := by
  simpa using List.find?_some h

theorem run_eq_some {m : Module Op} (build : Build) (random : Nat → Nat)
    (h : ∀ f, m.getFunction "main" = some f → f.blocks ≠ []) :
    ∃ m', insertMainCall m = some m' ∧ run build random m = some (instrument build random m') := by
  unfold run insertMainCall
  cases hf : m.getFunction "main" with
  | none => exact ⟨m, rfl, rfl⟩
  | some f =>
    cases hb : f.blocks with
    | nil => exact absurd hb (h f hf)
    | cons b bs => simp [Fn.insertCall, hb]

/-- There is a module after the pass just when `main`, if it is there, has an entry. -/
theorem isSome_run_iff (m : Module Op) (build : Build) (random : Nat → Nat) :
    (run build random m).isSome = true ↔ ∀ f, m.getFunction "main" = some f → f.blocks ≠ [] := by
  constructor
  · intro h f hf hb
    simp [run, insertMainCall, hf, Fn.insertCall, hb] at h
  · intro h
    obtain ⟨m', -, hrun⟩ := run_eq_some build random h
    rw [hrun, Option.isSome_some]

theorem getFunction_insertMainCall {m m' : Module Op} {f : Fn Op} {b : Block Op}
    {bs : List (Block Op)} (h : insertMainCall m = some m') (hf : m.getFunction "main" = some f)
    (hb : f.blocks = b :: bs) :
    m'.getFunction "main" =
      some { f with blocks := b.insertFirst [.callLscovMain] :: bs } := by
  unfold insertMainCall at h
  simp only [hf, Fn.insertCall, hb, Option.map_some, Option.some.injEq] at h
  subst h
  rw [getFunction_setFunction, getFunction_getOrInsertFunction hf, Option.map_some, if_pos rfl]

/-- The loop over the functions, seen from one of them. -/
theorem getFunction_instrument (build : Build) (random : Nat → Nat) (m : Module Op)
    (name : String) :
    ∃ n, (instrument build random m).1.getFunction name =
      (m.getFunction name).map fun f => (instrumentFn build random f n).1 := by
  apply find?_forEach (p := fun f : Fn Op => decide (f.name = name))
  intro f n
  rw [instrumentFn_name]

/-- The call is inserted first, and the map updates of the blocks after it. -/
theorem getFunction_run {m : Module Op} {f : Fn Op} {b : Block Op} {bs : List (Block Op)}
    (build : Build) (random : Nat → Nat) (hf : m.getFunction "main" = some f)
    (hb : f.blocks = b :: bs) :
    ∃ m' inst_blocks n, run build random m = some (m', inst_blocks) ∧
      m'.getFunction "main" =
        some { f with blocks := (forEach (instrumentBlock build random)
          (b.insertFirst [.callLscovMain] :: bs) n).1 } := by
  have hname := getFunction_name hf
  obtain ⟨m', hcall, hrun⟩ := run_eq_some (m := m) build random fun g hg => by
    rw [hf, Option.some.injEq] at hg
    subst hg
    simp [hb]
  obtain ⟨n, hn⟩ := getFunction_instrument build random m' "main"
  refine ⟨(instrument build random m').1, (instrument build random m').2, n, hrun, ?_⟩
  rw [hn, getFunction_insertMainCall hcall hf hb, Option.map_some]
  unfold instrumentFn
  rw [if_neg (by rw [hname]; decide)]

/-! ## What the pass makes of a block -/

/-- A block of a module, by its function and its number. -/
def Module.blockAt (m : Module Op) (name : String) (d : Nat) : Option (Block Op) :=
  (m.getFunction name).bind fun f => f.blocks[d]?

@[simp] theorem Block.insertFirst_nil (b : Block Op) : b.insertFirst [] = b := rfl

theorem Block.insertFirst_insertFirst (b : Block Op) (is js : List (Inst Op)) :
    (b.insertFirst js).insertFirst is = b.insertFirst (is ++ js) := by
  unfold Block.insertFirst
  rw [List.append_assoc]

/-- A new declaration has no block. -/
theorem blockAt_getOrInsertFunction (m : Module Op) (other name : String) (d : Nat) :
    (m.getOrInsertFunction other).blockAt name d = m.blockAt name d := by
  unfold Module.blockAt
  cases hf : m.getFunction name with
  | some f => rw [getFunction_getOrInsertFunction hf]
  | none =>
    unfold Module.getOrInsertFunction
    split
    · rw [hf]
    · unfold Module.getFunction at hf ⊢
      rw [List.find?_append, hf, Option.none_or]
      by_cases hname : other = name <;> simp [hname]

theorem getElem?_insertCall {f f' : Fn Op} (h : f.insertCall = some f') (d : Nat) :
    ∃ pre, (pre = [] ∨ pre = [.callLscovMain]) ∧
      f'.blocks[d]? = f.blocks[d]?.map fun b => b.insertFirst pre := by
  obtain ⟨b, bs, hb, rfl⟩ := Fn.insertCall_eq_some h
  rw [hb]
  cases d with
  | zero => exact ⟨[.callLscovMain], Or.inr rfl, rfl⟩
  | succ d => exact ⟨[], Or.inl rfl, by simp⟩

theorem blockAt_insertMainCall {m m' : Module Op} (h : insertMainCall m = some m') (name : String)
    (d : Nat) :
    ∃ pre, (pre = [] ∨ pre = [.callLscovMain]) ∧
      m'.blockAt name d = (m.blockAt name d).map fun b => b.insertFirst pre := by
  unfold insertMainCall at h
  split at h
  · cases h
    exact ⟨[], Or.inl rfl, by simp⟩
  · next f hf =>
    obtain ⟨f', hf', rfl⟩ := Option.map_eq_some_iff.mp h
    have hname : f'.name = "main" := (Fn.insertCall_name hf').trans (getFunction_name hf)
    have hmain := getFunction_getOrInsertFunction hf "__lscov_main"
    rw [← blockAt_getOrInsertFunction m "__lscov_main" name d]
    unfold Module.blockAt
    rw [getFunction_setFunction]
    by_cases hn : name = "main"
    · obtain ⟨pre, hpre, hd⟩ := getElem?_insertCall hf' d
      rw [hn, hmain, Option.map_some, if_pos ((getFunction_name hf).trans hname.symm)]
      exact ⟨pre, hpre, hd⟩
    · refine ⟨[], Or.inl rfl, ?_⟩
      cases hg : (m.getOrInsertFunction "__lscov_main").getFunction name with
      | none => rfl
      | some g =>
        have hne : ¬ g.name = f'.name := by
          rw [getFunction_name hg, hname]
          exact hn
        simp [hne]

theorem blockAt_instrument (build : Build) (random : Nat → Nat) (m : Module Op) (name : String)
    (d : Nat) :
    ∃ update, (update = [] ∨ ∃ n, update = mapUpdate build (curLoc random n)) ∧
      (instrument build random m).1.blockAt name d =
        (m.blockAt name d).map fun b => b.insertFirst update := by
  obtain ⟨n, hn⟩ := getFunction_instrument build random m name
  unfold Module.blockAt
  rw [hn]
  cases m.getFunction name with
  | none => exact ⟨[], Or.inl rfl, rfl⟩
  | some f =>
    simp only [Option.map_some, Option.bind_some]
    unfold instrumentFn
    split
    · exact ⟨[], Or.inl rfl, by simp⟩
    · rw [getElem?_forEach]
      cases f.blocks[d]? with
      | none => exact ⟨[], Or.inl rfl, rfl⟩
      | some b =>
        simp only [Option.map_some]
        unfold instrumentBlock
        split
        · exact ⟨[], Or.inl rfl, rfl⟩
        · exact ⟨_, Or.inr ⟨_, rfl⟩, rfl⟩

/-- The code that the pass inserts at the first insertion point of a block: a map update
or nothing, and then the call or nothing. -/
def Inserted (build : Build) (random : Nat → Nat) (pre : List (Inst Op)) : Prop :=
  ∃ update call, pre = update ++ call ∧
    (update = [] ∨ ∃ n, update = mapUpdate build (curLoc random n)) ∧
    (call = [] ∨ call = [.callLscovMain])

/-- The pass keeps every block, with some code in front. -/
theorem blockAt_run {build : Build} {random : Nat → Nat} {m m' : Module Op} {inst_blocks : Nat}
    (h : run build random m = some (m', inst_blocks)) (name : String) (d : Nat) :
    ∃ pre, Inserted build random pre ∧
      m'.blockAt name d = (m.blockAt name d).map fun b => b.insertFirst pre := by
  obtain ⟨called, hcalled, hinst⟩ := Option.map_eq_some_iff.mp h
  obtain ⟨call, hcall, hb⟩ := blockAt_insertMainCall hcalled name d
  obtain ⟨update, hupdate, hr⟩ := blockAt_instrument build random called name d
  refine ⟨update ++ call, ⟨update, call, rfl, hupdate, hcall⟩, ?_⟩
  rw [hinst] at hr
  rw [hr, hb, Option.map_map]
  congr 1
  funext b
  exact b.insertFirst_insertFirst update call

/-! ## What one map update does -/

/-- What the inserted code uses of a thread: its `__lscov_prev_loc`, and the values
that the inserted instructions compute. -/
structure Thread where
  prevLoc : Nat
  loaded : Nat
  index : Nat
  counter : UInt8

/-- What an inserted instruction computes. -/
def Inst.next (a : Area) (t : Thread) : Inst Op → Thread
  | .loadPrevLoc => { t with loaded := t.prevLoc }
  | .xorCurLoc c => { t with index := t.loaded ^^^ c }
  | .loadCounter =>
    if h : t.index < LSTATE_SIZE then { t with counter := a ⟨t.index, h⟩ } else t
  | .addOne => { t with counter := t.counter + 1 }
  | .storePrevLoc v => { t with prevLoc := v }
  | _ => t

/-- The store of an inserted instruction to `__lscov_area_ptr`. -/
def Inst.mapStore (t : Thread) : Inst Op → Option (Idx × UInt8)
  | .storeOne => if h : t.index < LSTATE_SIZE then some (⟨t.index, h⟩, 1) else none
  | .storeIncr => if h : t.index < LSTATE_SIZE then some (⟨t.index, h⟩, t.counter) else none
  | _ => none

def Inst.exec (s : Thread × Area) (i : Inst Op) : Thread × Area :=
  (i.next s.2 s.1,
    match i.mapStore s.1 with
    | some (j, v) => s.2.set j v
    | none => s.2)

/-- An instruction of the program. -/
def Inst.isOrig : Inst Op → Bool
  | .orig _ => true
  | _ => false

/-- An instruction of a map update. -/
def Inst.isUpdate : Inst Op → Bool
  | .orig _ | .callLscovMain => false
  | _ => true

/-- An access to the byte at `MapPtrIdx`. -/
def Inst.usesIndex : Inst Op → Bool
  | .loadCounter | .storeIncr | .storeOne => true
  | _ => false

/-- The `cur_loc` in an instruction. -/
def Inst.curLoc : Inst Op → Option Nat
  | .xorCurLoc c => some c
  | _ => none

/-- A map update in the default build: one store, and the next `__lscov_prev_loc`. -/
theorem exec_mapUpdate (Op : Type) (t : Thread) (a : Area) (p c : Idx) (hp : t.prevLoc = p.val) :
    ∃ t', ((mapUpdate .bitmap c.val : List (Inst Op)).foldl Inst.exec (t, a)) =
        (t', a.set (mapIndex p c) 1) ∧
      t'.prevLoc = (shiftLoc c).val := by
  have hlt : p.val ^^^ c.val < LSTATE_SIZE := (mapIndex p c).isLt
  simp [mapUpdate, Inst.exec, Inst.next, Inst.mapStore, hp, hlt, mapIndex, shiftLoc]

/-- A map update in a bucket build: the byte goes up by one, and wraps around. -/
theorem exec_mapUpdate_bucket (Op : Type) (t : Thread) (a : Area) (p c : Idx)
    (hp : t.prevLoc = p.val) :
    ∃ t', ((mapUpdate .bucket c.val : List (Inst Op)).foldl Inst.exec (t, a)) =
        (t', a.set (mapIndex p c) (a (mapIndex p c) + 1)) ∧
      t'.prevLoc = (shiftLoc c).val := by
  have hlt : p.val ^^^ c.val < LSTATE_SIZE := (mapIndex p c).isLt
  simp [mapUpdate, Inst.exec, Inst.next, Inst.mapStore, hp, hlt, mapIndex, shiftLoc]

end pass

end lscov
