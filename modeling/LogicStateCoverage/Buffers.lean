-- The law of a buffer with one place. What is put is taken once and in order, and the
-- buffer holds at most the last of it.
import LogicStateCoverage.Runs

namespace buffers

open runs

variable {α : Type}

/-- The place of the buffer, and what was taken out of it so far. -/
structure Buffer (α : Type) where
  slot : Option α
  taken : List α

def Buffer.empty : Buffer α := ⟨none, []⟩

inductive Op (α : Type)
  | put (a : α)
  | get

/-- A `put` waits for an empty place, and a `get` for a full one. -/
def Buffer.step (b : Buffer α) : Op α → Option (Buffer α)
  | .put a =>
    match b.slot with
    | none => some { b with slot := some a }
    | some _ => none
  | .get =>
    match b.slot with
    | none => none
    | some a => some ⟨none, b.taken ++ [a]⟩

def puts : List (Op α) → List α
  | [] => []
  | .put a :: ops => a :: puts ops
  | .get :: ops => puts ops

/-- Nothing is lost, nothing is taken twice, and the order is kept. -/
theorem taken_eq_puts {b b' : Buffer α} {ops : List (Op α)}
    (h : run Buffer.step b ops = some b') :
    b'.taken ++ b'.slot.toList = b.taken ++ b.slot.toList ++ puts ops := by
  induction ops generalizing b with
  | nil =>
    simp only [run, Option.some.injEq] at h
    rw [h, puts, List.append_nil]
  | cons op ops ih =>
    obtain ⟨c, hc, hrest⟩ := Option.bind_eq_some_iff.mp h
    rw [ih hrest]
    cases op with
    | put a =>
      cases hs : b.slot with
      | none =>
        simp only [Buffer.step, hs, Option.some.injEq] at hc
        subst hc
        simp [puts]
      | some x => simp [Buffer.step, hs] at hc
    | get =>
      cases hs : b.slot with
      | none => simp [Buffer.step, hs] at hc
      | some x =>
        simp only [Buffer.step, hs, Option.some.injEq] at hc
        subst hc
        simp [puts]

end buffers
