-- The laws of branches. The map after a run of a function shows the pairs of
-- instrumented blocks that the run visits one after the other. The branches that a
-- run takes tell its map. The map tells which branches the run took just when no two
-- ways on from a branch meet again before the next instrumented block.
import LogicStateCoverage.Pass
import LogicStateCoverage.Walks

namespace lscov

open pass walks

/-! ## Runs of one function -/

/-- A control-flow graph: a function that the pass does not ignore, with instructions
of the program only. None of them calls anything. -/
structure Cfg (Op : Type) where
  fn : Fn Op
  plain : ∀ b ∈ fn.blocks, ∀ i ∈ b.insts, ∃ op, i = .orig op
  named : ¬ "sancov".toList <:+: fn.name.toList

variable {Op : Type}

def Cfg.term (g : Cfg Op) (k : Nat) : Option Term := g.fn.blocks[k]?.map Block.term

def Cfg.Edge (g : Cfg Op) (k d : Nat) : Prop := ∃ t, g.term k = some t ∧ d ∈ t.succs

def Cfg.Returns (g : Cfg Op) (k : Nat) : Prop := g.term k = some .ret

/-- The block has a conditional or a multi-way branch. -/
def Cfg.Branching (g : Cfg Op) (k : Nat) : Prop :=
  (∃ t f, g.term k = some (.condBr t f)) ∨ ∃ ds, g.term k = some (.multi ds)

/-- The pass does not skip the block. -/
def Cfg.instrumented (g : Cfg Op) (k : Nat) : Bool :=
  match g.term k with
  | some t => !t.isUnconditional
  | none => false

/-- A run from the entry to a return, with the blocks that it visits. -/
def Cfg.Run (g : Cfg Op) (π : List Nat) : Prop := Walk g.Edge g.Returns 0 π

/-- One visit of a block. -/
def visitBlock (f : Fn Op) (s : Thread × Area) (k : Nat) : Thread × Area :=
  match f.blocks[k]? with
  | some b => b.insts.foldl Inst.exec s
  | none => s

section run

variable (g : Cfg Op) (random : Nat → Nat) (n : Nat) (prev : Idx)

/-- The map that a run of the instrumented function leaves, from a cleared map. The
function is instrumented when `inst_blocks` is `n`. -/
def Cfg.mapAfter (π : List Nat) : Area :=
  (π.foldl (visitBlock (instrumentFn .bitmap random g.fn n).1)
    (⟨prev.val, 0, 0, 0⟩, Area.zero)).2

/-- The `cur_loc` of a block. -/
def Cfg.loc (k : Nat) : Idx :=
  ⟨curLoc random (forEach (instrumentBlock .bitmap random) (g.fn.blocks.take k) n).2,
    Nat.mod_lt _ (by decide)⟩

end run

variable {g : Cfg Op} {random : Nat → Nat} {n : Nat} {prev : Idx}

/-- The instructions of the program leave the map and `__lscov_prev_loc` alone. -/
theorem exec_plain {is : List (Inst Op)} (h : ∀ i ∈ is, ∃ op, i = .orig op) (s : Thread × Area) :
    is.foldl Inst.exec s = s := by
  induction is with
  | nil => rfl
  | cons i is ih =>
    obtain ⟨op, rfl⟩ := h _ List.mem_cons_self
    exact ih fun i hi => h i (List.mem_cons_of_mem _ hi)

theorem instrumented_iff {k : Nat} :
    g.instrumented k = true ↔ ∃ b, g.fn.blocks[k]? = some b ∧ b.term.isUnconditional = false := by
  unfold Cfg.instrumented Cfg.term
  cases g.fn.blocks[k]? <;> simp

/-- The `k`-th block after the pass. -/
theorem block_after (k : Nat) :
    (instrumentFn .bitmap random g.fn n).1.blocks[k]? = g.fn.blocks[k]?.map fun b =>
      if b.term.isUnconditional then b
      else b.insertFirst (mapUpdate .bitmap (g.loc random n k).val) := by
  unfold instrumentFn
  rw [if_neg g.named]
  simp only [getElem?_forEach]
  congr 1
  funext b
  unfold instrumentBlock Cfg.loc
  split <;> rfl

theorem visit_instrumented (random : Nat → Nat) (n : Nat) {k : Nat} (hk : g.instrumented k = true)
    (t : Thread) (a : Area) (p : Idx) (hp : t.prevLoc = p.val) :
    ∃ t', visitBlock (instrumentFn .bitmap random g.fn n).1 (t, a) k =
        (t', a.set (mapIndex p (g.loc random n k)) 1) ∧
      t'.prevLoc = (shiftLoc (g.loc random n k)).val := by
  obtain ⟨b, hb, hu⟩ := instrumented_iff.mp hk
  obtain ⟨t', ht', hp'⟩ := exec_mapUpdate Op t a p (g.loc random n k) hp
  refine ⟨t', ?_, hp'⟩
  unfold visitBlock
  rw [block_after, hb]
  simp only [Option.map_some, hu, Bool.false_eq_true, if_false, Block.insertFirst,
    List.foldl_append, ht']
  exact exec_plain (g.plain b (List.mem_of_getElem? hb)) _

theorem visit_skipped {k : Nat} (hk : g.instrumented k = false) (s : Thread × Area) :
    visitBlock (instrumentFn .bitmap random g.fn n).1 s k = s := by
  unfold visitBlock
  rw [block_after]
  cases hb : g.fn.blocks[k]? with
  | none => rfl
  | some b =>
    have hu : b.term.isUnconditional = true := by
      by_contra hu
      have := instrumented_iff.mpr ⟨b, hb, by simpa using hu⟩
      rw [hk] at this
      cases this
    simp only [Option.map_some, hu, if_true]
    exact exec_plain (g.plain b (List.mem_of_getElem? hb)) s

/-- A run stores to the indices of its instrumented blocks. -/
theorem run_stores (π : List Nat) (t : Thread) (a : Area) (p : Idx) (hp : t.prevLoc = p.val) :
    (π.foldl (visitBlock (instrumentFn .bitmap random g.fn n).1) (t, a)).2 =
      a.storeAll (visited p ((π.filter g.instrumented).map (g.loc random n))) := by
  induction π generalizing t a p with
  | nil => rfl
  | cons k π ih =>
    rw [List.foldl_cons]
    cases hk : g.instrumented k with
    | true =>
      obtain ⟨t', hv, hp'⟩ := visit_instrumented random n hk t a p hp
      rw [hv, ih t' _ _ hp', List.filter_cons_of_pos hk]
      rfl
    | false =>
      rw [visit_skipped hk, ih t a p hp, List.filter_cons_of_neg (by simp [hk])]

/-! ## The pairs that the map shows -/

/-- Each block with the block before it, and the first one with what is before it. -/
def pairs (q : Option Nat) : List Nat → List (Option Nat × Nat)
  | [] => []
  | k :: ks => (q, k) :: pairs (some k) ks

theorem mem_pairs {q : Option Nat} {ks : List Nat} {a b : Nat} :
    (some a, b) ∈ pairs q ks ↔ q = some a ∧ ks.head? = some b ∨ Follows ks a b := by
  induction ks generalizing q with
  | nil => simp [pairs, Follows]
  | cons k ks ih =>
    rw [pairs, List.mem_cons, ih, follows_cons]
    simp [Prod.ext_iff, eq_comm]

theorem mem_pairs_none {ks : List Nat} {b : Nat} :
    (none, b) ∈ pairs none ks ↔ ks.head? = some b := by
  have hlater : ∀ (ks : List Nat) (a : Nat), (none, b) ∉ pairs (some a) ks := by
    intro ks
    induction ks with
    | nil => simp [pairs]
    | cons k ks ih =>
      intro a
      simp [pairs, ih]
  cases ks with
  | nil => simp [pairs]
  | cons k ks => simp [pairs, hlater, eq_comm]

/-- The `prev_loc` that a block leaves, or the one from before the run. -/
def prevOf (prev : Idx) (loc : Nat → Idx) : Option Nat → Idx
  | none => prev
  | some a => shiftLoc (loc a)

/-- The map index of a pair of blocks. -/
def pairIndex (prev : Idx) (loc : Nat → Idx) (q : Option Nat × Nat) : Idx :=
  mapIndex (prevOf prev loc q.1) (loc q.2)

theorem visited_eq (prev : Idx) (loc : Nat → Idx) (q : Option Nat) (ks : List Nat) :
    visited (prevOf prev loc q) (ks.map loc) = (pairs q ks).map (pairIndex prev loc) := by
  induction ks generalizing q with
  | nil => rfl
  | cons k ks ih =>
    rw [pairs, List.map_cons, List.map_cons, visited, ← ih (some k)]
    rfl

/-- The pairs that a run of the function shows. -/
def Cfg.shown (g : Cfg Op) (π : List Nat) : List (Option Nat × Nat) :=
  pairs none (π.filter g.instrumented)

theorem mapAfter_eq_one (π : List Nat) (i : Idx) :
    g.mapAfter random n prev π i = 1 ↔
      ∃ q ∈ g.shown π, pairIndex prev (g.loc random n) q = i := by
  unfold Cfg.mapAfter Cfg.shown
  rw [run_stores π _ _ prev rfl]
  have heq := visited_eq prev (g.loc random n) none (π.filter g.instrumented)
  rw [show prevOf prev (g.loc random n) none = prev from rfl] at heq
  rw [heq, ← List.mem_map]
  constructor
  · intro h
    by_contra hi
    rw [Area.storeAll_of_not_mem _ hi] at h
    simp [Area.zero] at h
  · exact Area.storeAll_of_mem _

/-- A run stores nothing but ones. -/
theorem mapAfter_eq_zero_or_one (π : List Nat) (i : Idx) :
    g.mapAfter random n prev π i = 0 ∨ g.mapAfter random n prev π i = 1 := by
  unfold Cfg.mapAfter
  rw [run_stores π _ _ prev rfl]
  by_cases hi : i ∈ visited prev ((π.filter g.instrumented).map (g.loc random n))
  · exact Or.inr (Area.storeAll_of_mem _ hi)
  · exact Or.inl (Area.storeAll_of_not_mem _ hi)

/-- The map depends on the set of pairs alone. -/
theorem mapAfter_of_shown {π π' : List Nat} (h : ∀ q, q ∈ g.shown π ↔ q ∈ g.shown π') :
    g.mapAfter random n prev π = g.mapAfter random n prev π' := by
  funext i
  have hone : g.mapAfter random n prev π i = 1 ↔ g.mapAfter random n prev π' i = 1 := by
    simp only [mapAfter_eq_one, h]
  rcases mapAfter_eq_zero_or_one π i with hz | ho
  · rcases mapAfter_eq_zero_or_one π' i with hz' | ho'
    · rw [hz, hz']
    · rw [hone.mpr ho', ho']
  · rw [ho, hone.mp ho]

/-- The map depends on the instrumented blocks alone. -/
theorem mapAfter_congr {π π' : List Nat} (h : π.filter g.instrumented = π'.filter g.instrumented) :
    g.mapAfter random n prev π = g.mapAfter random n prev π' := by
  apply mapAfter_of_shown
  unfold Cfg.shown
  rw [h]
  exact fun q => Iff.rfl

/-! ## The laws -/

/-- Distinct pairs of instrumented blocks, the first pair of a run included, have
distinct map indices. -/
def Cfg.Distinct (g : Cfg Op) (random : Nat → Nat) (n : Nat) (prev : Idx) : Prop :=
  ∀ π π', g.Run π → g.Run π' → ∀ q ∈ g.shown π, ∀ q' ∈ g.shown π',
    pairIndex prev (g.loc random n) q = pairIndex prev (g.loc random n) q' → q = q'

/-- Runs that leave the same map have taken the same edges out of branching blocks. -/
def Cfg.Identifies (g : Cfg Op) (random : Nat → Nat) (n : Nat) (prev : Idx) : Prop :=
  ∀ π π', g.Run π → g.Run π' → g.mapAfter random n prev π = g.mapAfter random n prev π' →
    ∀ a b, g.Branching a → (Follows π a b ↔ Follows π' a b)

/-- No branching block has two successors that lead, through blocks that end in an
unconditional branch, to one instrumented block on the way to a return. -/
def Cfg.BranchesKept (g : Cfg Op) : Prop := Separated g.Edge g.Returns g.instrumented 0

theorem Cfg.one_way (g : Cfg Op) (b c c' : Nat) (hb : g.instrumented b = false)
    (hc : g.Edge b c) (hc' : g.Edge b c') : c = c' := by
  obtain ⟨t, ht, hd⟩ := hc
  obtain ⟨t', ht', hd'⟩ := hc'
  rw [ht, Option.some.injEq] at ht'
  subst ht'
  unfold Cfg.instrumented at hb
  rw [ht] at hb
  cases t with
  | br d => simp_all [Term.succs]
  | _ => simp [Term.isUnconditional] at hb

theorem Cfg.returns_instrumented (g : Cfg Op) (k : Nat) (h : g.Returns k) :
    g.instrumented k = true := by
  unfold Cfg.Returns at h
  unfold Cfg.instrumented
  rw [h]
  rfl

/-- A block with a way on is branching just when it is instrumented. -/
theorem branching_iff {a b : Nat} (h : g.Edge a b) : g.Branching a ↔ g.instrumented a = true := by
  obtain ⟨t, ht, hb⟩ := h
  unfold Cfg.Branching Cfg.instrumented
  rw [ht]
  cases t <;> simp_all [Term.isUnconditional, Term.succs]

/-- When distinct pairs have distinct indices, the map tells the pairs. -/
theorem pairs_of_map {π π' : List Nat} (hd : g.Distinct random n prev) (h : g.Run π)
    (h' : g.Run π') (hm : g.mapAfter random n prev π = g.mapAfter random n prev π') {a d : Nat}
    (hf : Follows (π.filter g.instrumented) a d) : Follows (π'.filter g.instrumented) a d := by
  have hq : (some a, d) ∈ g.shown π := mem_pairs.mpr (Or.inr hf)
  have hone : g.mapAfter random n prev π (pairIndex prev (g.loc random n) (some a, d)) = 1 :=
    (mapAfter_eq_one π _).mpr ⟨_, hq, rfl⟩
  rw [hm] at hone
  obtain ⟨q', hq', hidx⟩ := (mapAfter_eq_one π' _).mp hone
  have heq := hd π' π h' h q' hq' _ hq hidx
  rw [heq] at hq'
  rcases mem_pairs.mp hq' with ⟨hnone, -⟩ | hf'
  · cases hnone
  · exact hf'

theorem branch_of_map {π π' : List Nat} (hd : g.Distinct random n prev) (hk : g.BranchesKept)
    (h : g.Run π) (h' : g.Run π')
    (hm : g.mapAfter random n prev π = g.mapAfter random n prev π') {a b : Nat}
    (ha : g.Branching a) (hf : Follows π a b) : Follows π' a b := by
  have hinst := (branching_iff (h.after hf).1).mp ha
  exact edges_of_pairs g.one_way g.returns_instrumented hk h h'
    (fun _ _ => pairs_of_map hd h h' hm) hinst hf

theorem branchesKept_of_identifies (hi : g.Identifies random n prev) : g.BranchesKept := by
  intro a b b' d hreach ha hab hab' hd hd' hs
  by_contra hne
  obtain ⟨π, π', h, h', hsame, hf, hno⟩ :=
    exists_hidden g.one_way g.returns_instrumented hreach ha hab hab' hd hd' hs hne
  have hbr := (branching_iff hab).mpr ha
  exact hno ((hi π π' h h' (mapAfter_congr hsame) a b hbr).mp hf)

/-- When distinct pairs have distinct indices, the map tells the branches that a run
took just when no two ways on from a branch meet before the next instrumented
block. -/
theorem the_map_identifies_the_branches_iff (g : Cfg Op) (random : Nat → Nat) (n : Nat) (prev : Idx)
    (hd : g.Distinct random n prev) : g.Identifies random n prev ↔ g.BranchesKept := by
  constructor
  · exact branchesKept_of_identifies
  · intro hk π π' h h' hm a b ha
    exact ⟨branch_of_map hd hk h h' hm ha, branch_of_map hd hk h' h hm.symm ha⟩

/-- A run that takes all the branches of another run shows all its pairs. -/
theorem shown_of_branches {π π' : List Nat} (h : g.Run π) (h' : g.Run π')
    (hs : ∀ a b, g.Branching a → Follows π a b → Follows π' a b) {q : Option Nat × Nat}
    (hq : q ∈ g.shown π) : q ∈ g.shown π' := by
  obtain ⟨a | a, d⟩ := q
  · rw [Cfg.shown, mem_pairs_none] at hq ⊢
    rw [← h.same_first g.one_way g.returns_instrumented h']
    exact hq
  · rw [Cfg.shown, mem_pairs] at hq ⊢
    rcases hq with ⟨hnone, -⟩ | hf
    · cases hnone
    · apply Or.inr
      apply pairs_of_edges g.one_way g.returns_instrumented h h' _ hf
      intro a b ha hab
      exact hs a b ((branching_iff (h.after hab).1).mpr ha) hab

/-- Runs that take the same edges out of branching blocks, in any order and any number
of times, leave the same map. -/
theorem same_branches_leave_the_same_map (g : Cfg Op) (random : Nat → Nat) (n : Nat) (prev : Idx)
    (π π' : List Nat) (h : g.Run π) (h' : g.Run π')
    (hs : ∀ a b, g.Branching a → (Follows π a b ↔ Follows π' a b)) :
    g.mapAfter random n prev π = g.mapAfter random n prev π' := by
  apply mapAfter_of_shown
  intro q
  constructor
  · exact shown_of_branches h h' fun a b ha => (hs a b ha).mp
  · exact shown_of_branches h' h fun a b ha => (hs a b ha).mpr

/-- A loop that is left by a return. -/
def loop : Cfg Unit where
  fn := ⟨"f", [⟨[], [.orig ()], .condBr 1 2⟩, ⟨[], [.orig ()], .br 0⟩, ⟨[], [], .ret⟩]⟩
  plain := by simp
  named := by decide

/-- Once and twice round the loop leave the same map. -/
theorem loop_leaves_one_map :
    loop.Run [0, 1, 0, 2] ∧ loop.Run [0, 1, 0, 1, 0, 2] ∧
      loop.mapAfter (fun n => n + 1) 0 7 [0, 1, 0, 2] =
        loop.mapAfter (fun n => n + 1) 0 7 [0, 1, 0, 1, 0, 2] := by
  have hout : loop.Run [0, 2] :=
    .step ⟨.condBr 1 2, rfl, by simp [Term.succs]⟩ (.stop rfl)
  have hround : ∀ π, loop.Run π → loop.Run (0 :: 1 :: π) := by
    intro π h
    exact .step ⟨.condBr 1 2, rfl, by simp [Term.succs]⟩
      (.step ⟨.br 0, rfl, by simp [Term.succs]⟩ h)
  refine ⟨hround _ hout, hround _ (hround _ hout), ?_⟩
  apply same_branches_leave_the_same_map loop _ 0 7 _ _ (hround _ hout) (hround _ (hround _ hout))
  intro a b _
  have hnil : ¬ Follows [] a b := by simp [Follows]
  simp only [follows_cons, List.head?_cons, List.head?_nil, Option.some.injEq, hnil]
  tauto

/-- One branch whose two ways on are a return each. -/
def twoReturns : Cfg Unit where
  fn := ⟨"f", [⟨[], [.orig ()], .condBr 1 2⟩, ⟨[], [], .ret⟩, ⟨[], [], .ret⟩]⟩
  plain := by simp
  named := by decide

theorem edge_twoReturns {k d : Nat} : twoReturns.Edge k d ↔ k = 0 ∧ (d = 1 ∨ d = 2) := by
  unfold Cfg.Edge Cfg.term
  rcases k with _ | _ | _ | k <;> simp [twoReturns, Term.succs]

theorem run_twoReturns {π : List Nat} (h : twoReturns.Run π) : π = [0, 1] ∨ π = [0, 2] := by
  cases h with
  | stop h => simp [Cfg.Returns, Cfg.term, twoReturns] at h
  | step he hl =>
    obtain ⟨-, hd⟩ := edge_twoReturns.mp he
    cases hl with
    | stop _ => rcases hd with rfl | rfl <;> simp
    | step he' _ =>
      have := (edge_twoReturns.mp he').1
      omega

theorem twoReturns_distinct : twoReturns.Distinct (fun n => n + 1) 0 0 := by
  intro π π' h h'
  rcases run_twoReturns h with rfl | rfl <;> rcases run_twoReturns h' with rfl | rfl <;> decide

theorem twoReturns_identifies :
    twoReturns.Distinct (fun n => n + 1) 0 0 ∧ twoReturns.Identifies (fun n => n + 1) 0 0 := by
  refine ⟨twoReturns_distinct, ?_⟩
  apply (the_map_identifies_the_branches_iff twoReturns _ 0 0 twoReturns_distinct).mpr
  intro a b b' d _ _ hb hb' hd hd' _
  have hinst : ∀ c, twoReturns.Edge a c → twoReturns.instrumented c = true := by
    intro c hc
    rcases (edge_twoReturns.mp hc).2 with rfl | rfl <;> rfl
  rw [hd.eq_of_kept (hinst b hb), hd'.eq_of_kept (hinst b' hb')]

/-- One branch whose two ways on are skipped and meet again. -/
def diamond : Cfg Unit where
  fn := ⟨"f", [⟨[], [.orig ()], .condBr 1 2⟩, ⟨[], [], .br 3⟩, ⟨[], [], .br 3⟩, ⟨[], [], .ret⟩]⟩
  plain := by simp
  named := by decide

theorem edge_diamond {k d : Nat} :
    diamond.Edge k d ↔ k = 0 ∧ (d = 1 ∨ d = 2) ∨ (k = 1 ∨ k = 2) ∧ d = 3 := by
  unfold Cfg.Edge Cfg.term
  rcases k with _ | _ | _ | _ | k <;> simp [diamond, Term.succs]

theorem returns_diamond {k : Nat} : diamond.Returns k ↔ k = 3 := by
  unfold Cfg.Returns Cfg.term
  rcases k with _ | _ | _ | _ | k <;> simp [diamond]

theorem run_diamond {π : List Nat} : diamond.Run π ↔ π = [0, 1, 3] ∨ π = [0, 2, 3] := by
  constructor
  · intro h
    cases h with
    | stop h =>
      have := returns_diamond.mp h
      omega
    | step he hl =>
      have hw := edge_diamond.mp he
      cases hl with
      | stop h =>
        have := returns_diamond.mp h
        omega
      | step he' hl' =>
        have hw' := edge_diamond.mp he'
        cases hl' with
        | stop h =>
          obtain rfl := returns_diamond.mp h
          rcases hw with ⟨-, rfl | rfl⟩ | ⟨hz, -⟩
          · exact Or.inl rfl
          · exact Or.inr rfl
          · omega
        | step he'' _ =>
          have := edge_diamond.mp he''
          omega
  · have hstop : Walk diamond.Edge diamond.Returns 3 [3] := .stop (returns_diamond.mpr rfl)
    rintro (rfl | rfl)
    · exact .step (edge_diamond.mpr (by simp)) (.step (edge_diamond.mpr (by simp)) hstop)
    · exact .step (edge_diamond.mpr (by simp)) (.step (edge_diamond.mpr (by simp)) hstop)

/-- Both runs of the diamond leave one map, and they take different branches. -/
theorem the_diamond_hides_its_branch :
    diamond.Distinct (fun n => 256 * 16 ^ n) 0 0 ∧
      ¬ diamond.Identifies (fun n => 256 * 16 ^ n) 0 0 := by
  constructor
  · intro π π' h h'
    rcases run_diamond.mp h with rfl | rfl <;> rcases run_diamond.mp h' with rfl | rfl <;> decide
  · intro hi
    have hsame : [0, 1, 3].filter diamond.instrumented = [0, 2, 3].filter diamond.instrumented := by
      decide
    have hbr : diamond.Branching 0 := Or.inl ⟨1, 2, rfl⟩
    have h1 := hi _ _ (run_diamond.mpr (Or.inl rfl)) (run_diamond.mpr (Or.inr rfl))
      (mapAfter_congr hsame) 0 1 hbr
    unfold Follows at h1
    exact absurd (h1.mp (by decide)) (by decide)

end lscov
