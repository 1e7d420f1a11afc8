-- The laws of bitmaps. A bitmap is a row of bytes. Its bits are set one at a time
-- and counted a 64-bit word at a time: the counts of the words add up to the number
-- of set bits.
import Mathlib.Data.Nat.Count
import Mathlib.Data.Nat.Digits.Defs
import Mathlib.Data.Set.Card

namespace bitmaps

/-! ## Bits -/

/-- The bytes of a bitmap. -/
abbrev Bytes := Nat → UInt8

/-- Bit `i` of the bitmap: bit `i % 8` of byte `i / 8`. -/
def bit (m : Bytes) (i : Nat) : Bool := (m (i / 8)).toNat.testBit (i % 8)

/-- The bitmap with bit `i` set. -/
def setBit (m : Bytes) (i : Nat) : Bytes :=
  Function.update m (i / 8) (m (i / 8) ||| 1 <<< UInt8.ofNat (i % 8))

/-- Every bit of `m` is a bit of `m'`. -/
def Sub (m m' : Bytes) : Prop := ∀ i, bit m i = true → bit m' i = true

variable {m m' : Bytes}

theorem toNat_one_shiftLeft : ∀ k < 8, (1 <<< UInt8.ofNat k : UInt8).toNat = 2 ^ k := by
  decide

theorem bit_setBit (m : Bytes) (i j : Nat) : bit (setBit m i) j = (bit m j || decide (i = j)) := by
  unfold bit setBit
  by_cases hbyte : j / 8 = i / 8
  · rw [hbyte, Function.update_self, UInt8.toNat_or,
      toNat_one_shiftLeft _ (Nat.mod_lt i (by decide)), Nat.testBit_or, Nat.testBit_two_pow]
    congr 2
    apply propext
    omega
  · rw [Function.update_of_ne hbyte]
    have hne : i ≠ j := fun h => hbyte (by rw [h])
    simp [hne]

theorem sub_setBit (m : Bytes) (i : Nat) : Sub m (setBit m i) := by
  intro j hj
  rw [bit_setBit, hj, Bool.true_or]

theorem Sub.refl (m : Bytes) : Sub m m := fun _ h => h

theorem Sub.trans {m'' : Bytes} (h : Sub m m') (h' : Sub m' m'') : Sub m m'' :=
  fun i hi => h' i (h i hi)

/-- The bitmap with each bit of the list set. -/
def setAll (m : Bytes) (is : List Nat) : Bytes := is.foldl setBit m

theorem bit_setAll (m : Bytes) (is : List Nat) (j : Nat) :
    bit (setAll m is) j = true ↔ bit m j = true ∨ j ∈ is := by
  unfold setAll
  induction is generalizing m with
  | nil => simp
  | cons i is ih =>
    rw [List.foldl_cons, ih, bit_setBit, List.mem_cons, Bool.or_eq_true, decide_eq_true_iff,
      or_assoc, eq_comm (a := i)]

/-- The bits tell the bitmap. -/
theorem ext_bit (h : ∀ i, bit m i = bit m' i) : m = m' := by
  funext k
  apply UInt8.toNat_inj.mp
  apply Nat.eq_of_testBit_eq
  intro j
  by_cases hj : j < 8
  · have hk := h (8 * k + j)
    unfold bit at hk
    rw [show (8 * k + j) / 8 = k by omega, show (8 * k + j) % 8 = j by omega] at hk
    exact hk
  · have hlt : ∀ x : UInt8, x.toNat.testBit j = false := by
      intro x
      apply Nat.testBit_lt_two_pow
      exact lt_of_lt_of_le x.toNat_lt (Nat.pow_le_pow_right (by decide) (by omega))
    rw [hlt, hlt]

/-! ## Words -/

/-- The 64-bit word `w` of the bitmap, as a little-endian machine reads it. -/
def word (m : Bytes) (w : Nat) : UInt64 :=
  UInt64.ofNat (Nat.ofDigits 256 ((List.range 8).map fun j => (m (8 * w + j)).toNat))

/-- The number of 1 bits of a word. -/
def popcount (x : UInt64) : Nat := Nat.count (fun i => x.toNat.testBit i = true) 64

/-- The number of 1 bits among the first `n` bits. -/
def ones (m : Bytes) (n : Nat) : Nat := Nat.count (fun i => bit m i = true) n

theorem testBit_ofDigits (bytes : List UInt8) (i : Nat) :
    (Nat.ofDigits 256 (bytes.map UInt8.toNat)).testBit i =
      (bytes[i / 8]?.getD 0).toNat.testBit (i % 8) := by
  induction bytes generalizing i with
  | nil => simp
  | cons b bytes ih =>
    rw [List.map_cons, Nat.ofDigits_cons, Nat.add_comm]
    rw [Nat.testBit_two_pow_mul_add (i := 8) _ b.toNat_lt]
    by_cases hi : i < 8
    · rw [if_pos hi, Nat.div_eq_of_lt hi, Nat.mod_eq_of_lt hi]
      rfl
    · rw [if_neg hi, ih, show i / 8 = (i - 8) / 8 + 1 by omega, List.getElem?_cons_succ,
        show (i - 8) % 8 = i % 8 by omega]

theorem testBit_word (m : Bytes) (w : Nat) {i : Nat} (hi : i < 64) :
    (word m w).toNat.testBit i = bit m (64 * w + i) := by
  unfold word bit
  rw [UInt64.toNat_ofNat', Nat.testBit_mod_two_pow, decide_eq_true hi, Bool.true_and]
  have hmap : (List.range 8).map (fun j => (m (8 * w + j)).toNat) =
      ((List.range 8).map fun j => m (8 * w + j)).map UInt8.toNat := by
    rw [List.map_map]
    rfl
  have hbyte : (((List.range 8).map fun j => m (8 * w + j))[i / 8]?.getD 0) =
      m ((64 * w + i) / 8) := by
    rw [List.getElem?_map, List.getElem?_range (by omega), Option.map_some, Option.getD_some]
    congr 1
    omega
  rw [hmap, testBit_ofDigits, hbyte, show (64 * w + i) % 8 = i % 8 by omega]

theorem popcount_word_mono (h : Sub m m') (w : Nat) :
    popcount (word m w) ≤ popcount (word m' w) := by
  apply Nat.count_mono_left
  intro i hi hbit
  rw [testBit_word m w hi] at hbit
  rw [testBit_word m' w hi]
  exact h _ hbit

/-- The count of a word is the number of its bits in the bitmap. -/
theorem ones_add_popcount (m : Bytes) (w : Nat) :
    ones m (64 * w) + popcount (word m w) = ones m (64 * (w + 1)) := by
  have hword : popcount (word m w) = Nat.count (fun i => bit m (64 * w + i) = true) 64 := by
    apply le_antisymm
    · apply Nat.count_mono_left
      intro i hi h
      rw [← testBit_word m w hi]
      exact h
    · apply Nat.count_mono_left
      intro i hi h
      rw [testBit_word m w hi]
      exact h
  rw [hword]
  exact (Nat.count_add _ _ 64).symm

theorem ones_le (m : Bytes) (n : Nat) : ones m n ≤ n := Nat.count_le _

/-- When all the set bits are counted, the count is the number of set bits. -/
theorem ones_eq_ncard {n : Nat} (h : ∀ i, bit m i = true → i < n) :
    ones m n = {i | bit m i = true}.ncard := by
  unfold ones
  rw [Nat.count_eq_card_filter_range, ← Set.ncard_coe_finset]
  congr 1
  ext i
  simp only [Finset.coe_filter, Finset.mem_range, Set.mem_ofPred_eq]
  exact ⟨And.right, fun hi => ⟨h i hi, hi⟩⟩

theorem ones_mono (h : Sub m m') (n : Nat) : ones m n ≤ ones m' n :=
  Nat.count_mono_left fun i _ hi => h i hi

end bitmaps
