-- The laws of the edge index (`LSCovPass::run`): the shift of `cur_loc` tells the
-- two directions of an edge apart, and the self-loops, for every size of the map.
import LogicStateCoverage.Pass
import LogicStateCoverage.Words

namespace lscov.pass

/-! ## The index of an edge -/

/-- The index that the code of block `b` computes right after the code of block `a`. Each
block is given by its `cur_loc`, and `t` is the thread before it enters `a`. -/
def edgeIndex (Op : Type) (build : Build) (area : Area) (t : Thread) (a b : Nat) : Nat :=
  ((mapUpdate build a ++ mapUpdate build b : List (Inst Op)).foldl (Inst.next area) t).index

/-- One map update: the index from the old `prev_loc`, and the new `prev_loc`. -/
theorem next_mapUpdate (Op : Type) (build : Build) (area : Area) (t : Thread) (c : Nat) :
    ((mapUpdate build c : List (Inst Op)).foldl (Inst.next area) t).index = t.prevLoc ^^^ c ∧
    ((mapUpdate build c : List (Inst Op)).foldl (Inst.next area) t).prevLoc = c >>> 1 := by
  cases build with
  | bitmap => exact ⟨rfl, rfl⟩
  | bucket =>
    -- the load of the counter leaves both alone, inside the map and outside
    by_cases h : t.prevLoc ^^^ c < LSTATE_SIZE <;> simp [mapUpdate, Inst.next, h]

theorem edgeIndex_eq (Op : Type) (build : Build) (area : Area) (t : Thread) (a b : Nat) :
    edgeIndex Op build area t a b = a >>> 1 ^^^ b := by
  unfold edgeIndex
  rw [List.foldl_append, (next_mapUpdate Op build area _ b).1, (next_mapUpdate Op build area t a).2]

/-! ## The laws -/

/-- Numbers with one half differ at most in the lowest bit. -/
theorem shiftRight_one_eq_iff {a b : Nat} :
    a >>> 1 = b >>> 1 ↔ ∀ i, 0 < i → a.testBit i = b.testBit i := by
  constructor
  · intro h i hi
    have hb := congrArg (Nat.testBit · (i - 1)) h
    simpa only [Nat.testBit_shiftRight, Nat.add_sub_cancel' hi] using hb
  · intro h
    apply Nat.eq_of_testBit_eq
    intro i
    rw [Nat.testBit_shiftRight, Nat.testBit_shiftRight]
    exact h _ (by omega)

theorem edges_are_told_apart (Op : Type) (build : Build) (area : Area) (t : Thread) (w : Nat)
    (a a' b b' c : Fin (2 ^ w)) :
    (edgeIndex Op build area t a b = edgeIndex Op build area t b a ↔ a = b) ∧
    (edgeIndex Op build area t a a = edgeIndex Op build area t b b ↔ a = b) ∧
    (edgeIndex Op build area t a c = edgeIndex Op build area t a' c ↔
      ∀ i, 0 < i → a.val.testBit i = a'.val.testBit i) ∧
    (edgeIndex Op build area t a b = edgeIndex Op build area t a b' ↔ b = b') := by
  simp only [edgeIndex_eq]
  refine ⟨?_, ?_, ?_, ?_⟩
  · -- the two directions agree just when the Gray codes of the two locations do
    have hgray := words.xor_shiftRight_eq_iff (x := a.val) (y := b.val) Nat.one_pos
    rw [words.xor_eq_xor_iff, Fin.val_inj] at hgray
    rw [words.xor_eq_xor_iff, Nat.xor_comm b.val, eq_comm]
    exact hgray
  · rw [Nat.xor_comm _ a.val, Nat.xor_comm _ b.val, words.xor_shiftRight_eq_iff Nat.one_pos,
      Fin.val_inj]
  · rw [Nat.xor_left_inj, shiftRight_one_eq_iff]
  · rw [Nat.xor_right_inj, Fin.val_inj]

end lscov.pass
