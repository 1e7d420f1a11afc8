-- The laws of locations. The pass hands out the values of `random()` one after the other,
-- over all the functions and blocks of a module.
import LogicStateCoverage.Transparency

namespace lscov.pass

variable {Op : Type}

/-! ## Loops that hand out numbers -/

section loops

variable {α β : Type} {body : α → Nat → α × Nat} {emit : α → List β} {value : Nat → β}
  {needs : α → Nat} {as : List α}

/-- Each turn hands out as many numbers as it needs, from the count on. Then so does the
loop. -/
theorem flatMap_forEach
    (h : ∀ a ∈ as, ∀ n, emit (body a n).1 = (List.range' n (needs a)).map value ∧
      (body a n).2 = n + needs a) (n : Nat) :
    (forEach body as n).1.flatMap emit = (List.range' n (as.map needs).sum).map value ∧
      (forEach body as n).2 = n + (as.map needs).sum := by
  induction as generalizing n with
  | nil => exact ⟨rfl, rfl⟩
  | cons a as ih =>
    obtain ⟨hemit, hcount⟩ := h a List.mem_cons_self n
    obtain ⟨hrest, hcount'⟩ := ih (fun a ha => h a (List.mem_cons_of_mem _ ha)) (n + needs a)
    simp only [forEach, hcount, List.flatMap_cons, hemit, hrest, hcount', List.map_cons,
      List.sum_cons]
    rw [← List.map_append, List.range'_append_1]
    exact ⟨rfl, Nat.add_assoc _ _ _⟩

end loops

/-! ## The locations of a module -/

/-- The values of `cur_loc` in the code of a block. -/
def Block.locations (b : Block Op) : List Nat := b.insts.filterMap Inst.curLoc

def Fn.locations (f : Fn Op) : List Nat := f.blocks.flatMap Block.locations

/-- The locations of a module, in the order of its functions and blocks. -/
def Module.locations (m : Module Op) : List Nat := m.fns.flatMap Fn.locations

def Block.targets (b : Block Op) : Nat := if b.term.isUnconditional then 0 else 1

def Fn.targets (f : Fn Op) : Nat :=
  if "sancov".toList <:+: f.name.toList then 0 else (f.blocks.map Block.targets).sum

/-- The number of blocks that do not end in an unconditional branch, in the functions that
have nothing to do with `sancov`. -/
def Module.targets (m : Module Op) : Nat := (m.fns.map Fn.targets).sum

/-- There is no map update in the code of the function. -/
def Fn.Bare (f : Fn Op) : Prop := ∀ b ∈ f.blocks, b.locations = []

variable {build : Build} {random : Nat → Nat}

theorem locations_instrumentBlock {b : Block Op} (h : b.locations = []) (n : Nat) :
    (instrumentBlock build random b n).1.locations =
        (List.range' n b.targets).map (curLoc random) ∧
      (instrumentBlock build random b n).2 = n + b.targets := by
  unfold instrumentBlock Block.targets
  split
  · exact ⟨h, rfl⟩
  · refine ⟨?_, rfl⟩
    have hpre : (mapUpdate build (curLoc random n) : List (Inst Op)).filterMap Inst.curLoc =
        [curLoc random n] := by
      cases build <;> rfl
    have hrest : b.insts.filterMap Inst.curLoc = [] := h
    unfold Block.locations Block.insertFirst
    rw [List.filterMap_append, hpre, hrest]
    rfl

theorem locations_instrumentFn (build : Build) (random : Nat → Nat) {f : Fn Op} (h : f.Bare)
    (n : Nat) :
    (instrumentFn build random f n).1.locations =
        (List.range' n f.targets).map (curLoc random) ∧
      (instrumentFn build random f n).2 = n + f.targets := by
  unfold instrumentFn Fn.targets
  split
  · exact ⟨List.flatMap_eq_nil_iff.mpr h, rfl⟩
  · exact flatMap_forEach (fun b hb n => locations_instrumentBlock (h b hb) n) n

theorem locations_instrument (build : Build) (random : Nat → Nat) {m : Module Op}
    (h : ∀ f ∈ m.fns, f.Bare) :
    (instrument build random m).1.locations = (List.range m.targets).map (curLoc random) ∧
      (instrument build random m).2 = m.targets := by
  obtain ⟨hlocs, hcount⟩ := flatMap_forEach
    (fun f hf n => locations_instrumentFn build random (h f hf) n) 0
  rw [List.range_eq_range']
  exact ⟨hlocs, hcount.trans (Nat.zero_add _)⟩

/-! ## The call in `main` -/

/-- The call is no map update, and it leaves the ends of the blocks as they are. -/
theorem Fn.insertCall_bare {f f' : Fn Op} (h : f.Bare) (hcall : f.insertCall = some f') :
    f'.Bare ∧ f'.targets = f.targets := by
  obtain ⟨b, bs, hb, rfl⟩ := Fn.insertCall_eq_some hcall
  unfold Fn.Bare at h
  rw [hb] at h
  obtain ⟨hfirst, hrest⟩ := List.forall_mem_cons.mp h
  refine ⟨List.forall_mem_cons.mpr ⟨hfirst, hrest⟩, ?_⟩
  unfold Fn.targets
  rw [hb]
  rfl

theorem bare_getOrInsertFunction {m : Module Op} (h : ∀ f ∈ m.fns, f.Bare) (name : String) :
    (∀ f ∈ (m.getOrInsertFunction name).fns, f.Bare) ∧
      (m.getOrInsertFunction name).targets = m.targets := by
  unfold Module.getOrInsertFunction
  split
  · exact ⟨h, rfl⟩
  · have hdecl : (⟨name, []⟩ : Fn Op).Bare := fun b hb => absurd hb List.not_mem_nil
    have hnone : (⟨name, []⟩ : Fn Op).targets = 0 := by
      unfold Fn.targets
      split <;> rfl
    refine ⟨List.forall_mem_append.mpr ⟨h, List.forall_mem_singleton.mpr hdecl⟩, ?_⟩
    unfold Module.targets
    rw [List.map_append, List.sum_append, List.map_singleton, List.sum_singleton, hnone,
      Nat.add_zero]

/-- Two functions of a module with one name are the same. -/
theorem Module.eq_of_name (m : Module Op) {f g : Fn Op} (hf : f ∈ m.fns) (hg : g ∈ m.fns)
    (h : f.name = g.name) : f = g :=
  List.inj_on_of_nodup_map m.names hf hg h

theorem bare_insertMainCall {m m' : Module Op} (h : ∀ f ∈ m.fns, f.Bare)
    (hcall : insertMainCall m = some m') :
    (∀ f ∈ m'.fns, f.Bare) ∧ m'.targets = m.targets := by
  unfold insertMainCall at hcall
  split at hcall
  · cases hcall
    exact ⟨h, rfl⟩
  · next f hf =>
    obtain ⟨f', hf', rfl⟩ := Option.map_eq_some_iff.mp hcall
    obtain ⟨hbare, htargets⟩ := bare_getOrInsertFunction h "__lscov_main"
    have hmem := List.mem_of_find?_eq_some (getFunction_getOrInsertFunction hf "__lscov_main")
    obtain ⟨hbare', htargets'⟩ := Fn.insertCall_bare (hbare f hmem) hf'
    have hset : ∀ g ∈ (m.getOrInsertFunction "__lscov_main").fns,
        (if g.name = f'.name then f' else g).Bare ∧
          (if g.name = f'.name then f' else g).targets = g.targets := by
      intro g hg
      split
      · next hn =>
        rw [Module.eq_of_name _ hg hmem (hn.trans (Fn.insertCall_name hf'))]
        exact ⟨hbare', htargets'⟩
      · exact ⟨hbare g hg, rfl⟩
    constructor
    · exact List.forall_mem_map.mpr fun g hg => (hset g hg).1
    · rw [← htargets]
      unfold Module.targets Module.setFunction Module.withFns
      rw [List.map_map]
      exact congrArg List.sum (List.map_congr_left fun g hg => (hset g hg).2)

end lscov.pass

namespace lscov.machine

open pass

variable {Op : Type}

theorem Source.bare (src : Source Op) : ∀ f ∈ src.module.fns, f.Bare := by
  intro f hf b hb
  refine List.filterMap_eq_nil_iff.mpr ?_
  intro i hi
  cases i with
  | orig op => rfl
  | _ => cases src.plain f hf b hb _ hi

/-- The locations of a module are the first values of `random()`, in the order of its
functions and blocks: one for each block that does not end in an unconditional branch,
outside of `sancov`. All of them are in the map, and the pass says how many they are. -/
theorem the_locations_are_handed_out_in_order (src : Source Op) (build : Build)
    (random : Nat → Nat) :
    pass.run build random src.module =
        some (src.instrumented build random, src.module.targets) ∧
      (src.instrumented build random).locations =
        (List.range src.module.targets).map (curLoc random) ∧
      ∀ c ∈ (src.instrumented build random).locations, c < LSTATE_SIZE := by
  obtain ⟨inst_blocks, hrun⟩ := src.run_eq build random
  obtain ⟨called, hcalled, hinst⟩ := Option.map_eq_some_iff.mp hrun
  obtain ⟨hbare, htargets⟩ := bare_insertMainCall src.bare hcalled
  obtain ⟨hlocs, hcount⟩ := locations_instrument build random hbare
  simp only [hinst, htargets] at hlocs hcount
  refine ⟨by rw [hrun, hcount], hlocs, ?_⟩
  intro c hc
  rw [hlocs] at hc
  obtain ⟨n, -, rfl⟩ := List.mem_map.mp hc
  exact Nat.mod_lt _ (by decide)

end lscov.machine
