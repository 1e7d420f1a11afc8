-- The logic state: one byte for each edge index, as `stuff.h` sizes it. The
-- runtime, the daemon and the instrumented target all share one such area.
import Mathlib.Algebra.GroupWithZero.Nat
import Mathlib.Data.Fin.Basic
import Mathlib.Logic.Function.Basic

namespace lscov

def LSTATE_SIZE_POW2 : Nat := 16

def LSTATE_SIZE : Nat := 1 <<< LSTATE_SIZE_POW2

theorem LSTATE_SIZE_eq : LSTATE_SIZE = 65536 := rfl

instance : NeZero LSTATE_SIZE := ⟨by decide⟩

/-- An index of the area. -/
abbrev Idx := Fin LSTATE_SIZE

theorem idx_ne_zero {i : Nat} (hi : i < LSTATE_SIZE) (h : 1 ≤ i) : (⟨i, hi⟩ : Idx) ≠ 0 := by
  intro he
  have := congrArg Fin.val he
  simp only [Fin.val_zero] at this
  omega

/-- The bytes of the area, or of an lstate that was copied from it. -/
abbrev Area := Idx → UInt8

/-- The area as `shmget` and `memset` in `hcount_init` leave it. -/
def Area.zero : Area := fun _ => 0

/-- One byte store. -/
def Area.set (a : Area) (i : Idx) (v : UInt8) : Area := Function.update a i v

@[simp] theorem Area.set_self (a : Area) (i : Idx) (v : UInt8) : a.set i v i = v := by
  simp [Area.set]

theorem Area.set_ne (a : Area) {i j : Idx} (v : UInt8) (h : j ≠ i) : a.set i v j = a j := by
  simp [Area.set, h]

/-- The bytes past the status byte are 1 at the stored indices, and 0 elsewhere. -/
def Area.Holds (a : Area) (stored : List Idx) : Prop :=
  ∀ i, i ≠ 0 → a i = if i ∈ stored then 1 else 0

theorem Area.holds_status {a : Area} {stored : List Idx} (v : UInt8) (h : a.Holds stored) :
    (a.set 0 v).Holds stored := by
  intro i hi
  rw [Area.set_ne a v hi]
  exact h i hi

theorem Area.holds_store {a : Area} {stored : List Idx} (j : Idx) (h : a.Holds stored) :
    (a.set j 1).Holds (stored ++ [j]) := by
  intro i hi
  by_cases hij : i = j
  · subst hij
    simp
  · rw [Area.set_ne a 1 hij, h i hi]
    simp [hij]

/-- Two areas with the same status byte that hold the same stores are the same. -/
theorem Area.ext_of_holds {a b : Area} {s t : List Idx} (ha : a.Holds s) (hb : b.Holds t)
    (h0 : a 0 = b 0) (hst : ∀ i, i ≠ 0 → (i ∈ s ↔ i ∈ t)) : a = b := by
  funext i
  by_cases hi : i = 0
  · rw [hi, h0]
  · rw [ha i hi, hb i hi]
    simp [hst i hi]

/-- Stores of 1, one after the other. -/
def Area.storeAll (a : Area) (stored : List Idx) : Area := stored.foldl (fun a i => a.set i 1) a

theorem Area.storeAll_of_not_mem (a : Area) {stored : List Idx} {i : Idx} (h : i ∉ stored) :
    a.storeAll stored i = a i := by
  unfold Area.storeAll
  induction stored generalizing a with
  | nil => rfl
  | cons j stored ih =>
    rw [List.mem_cons, not_or] at h
    rw [List.foldl_cons, ih _ h.2, Area.set_ne a 1 h.1]

theorem Area.storeAll_of_mem (a : Area) {stored : List Idx} {i : Idx} (h : i ∈ stored) :
    a.storeAll stored i = 1 := by
  induction stored generalizing a with
  | nil => simp at h
  | cons j stored ih =>
    by_cases hi : i ∈ stored
    · exact ih (a.set j 1) hi
    · rcases List.mem_cons.mp h with rfl | hm
      · exact (Area.storeAll_of_not_mem _ hi).trans (Area.set_self a i 1)
      · exact absurd hm hi

end lscov
