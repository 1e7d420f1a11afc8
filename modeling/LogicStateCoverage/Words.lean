-- The laws of words that a hash mixes: an xor, a shift that is xored back,
-- an odd factor and a rotation each lose nothing. The first law holds for
-- numbers of every width, the others are about words of 32 bits.
import Mathlib.Algebra.GroupWithZero.Nat
import Mathlib.Data.Fintype.EquivFin
import Mathlib.Data.Int.CardIntervalMod
import Mathlib.Data.Nat.Bitwise
import Mathlib.Data.Set.Card

namespace words

/-! ## Shifts that are xored back -/

theorem eq_zero_of_shiftRight_eq {z k : Nat} (hk : 0 < k) (h : z >>> k = z) : z = 0 := by
  rw [Nat.shiftRight_eq_div_pow] at h
  by_contra hz
  have hlt := Nat.div_lt_self (Nat.pos_of_ne_zero hz) (Nat.one_lt_two_pow hk.ne')
  omega

theorem xor_eq_xor_iff {a b c d : Nat} : a ^^^ b = c ^^^ d ↔ a ^^^ c = b ^^^ d := by
  rw [← Nat.xor_eq_zero_iff, ← Nat.xor_eq_zero_iff (x := a ^^^ c)]
  rw [show a ^^^ b ^^^ (c ^^^ d) = a ^^^ c ^^^ (b ^^^ d) by ac_rfl]

/-- A number and its own shift, xored, name the number. With `k = 1` this is the Gray code. -/
theorem xor_shiftRight_eq_iff {x y k : Nat} (hk : 0 < k) :
    x ^^^ x >>> k = y ^^^ y >>> k ↔ x = y := by
  refine ⟨fun h => ?_, fun h => h ▸ rfl⟩
  have hz : (x ^^^ y) >>> k = x ^^^ y := by
    rw [Nat.shiftRight_xor_distrib]
    exact (xor_eq_xor_iff.mp h).symm
  exact Nat.xor_eq_zero_iff.mp (eq_zero_of_shiftRight_eq hk hz)

/-! ## Words of 32 bits -/

variable {x y k r c d : UInt32}

theorem xor_shiftRight_injective (hk : 0 < k.toNat % 32) :
    Function.Injective fun x : UInt32 => x ^^^ x >>> k := by
  intro x y h
  have hn := congrArg UInt32.toNat h
  simp only [UInt32.toNat_xor, UInt32.toNat_shiftRight] at hn
  exact UInt32.toNat_inj.mp ((xor_shiftRight_eq_iff hk).mp hn)

/-- A factor with an inverse loses nothing. Modulo a power of two, these are the odd ones. -/
theorem mul_injective (h : c * d = 1) : Function.Injective (· * c) := by
  intro x y hxy
  have hd := congrArg (· * d) hxy
  simpa only [UInt32.mul_assoc, h, UInt32.mul_one] using hd

theorem pow_mul_pow (hr : r.toNat < 32) : 2 ^ (32 - r.toNat) * 2 ^ r.toNat = 2 ^ 32 := by
  rw [← Nat.pow_add, Nat.sub_add_cancel hr.le]

theorem high_lt (x : UInt32) (hr : r.toNat < 32) :
    x.toNat / 2 ^ (32 - r.toNat) < 2 ^ r.toNat := by
  rw [Nat.div_lt_iff_lt_mul (Nat.two_pow_pos _), Nat.mul_comm, pow_mul_pow hr]
  exact x.toNat_lt

/-- A rotation puts the high bits under the low ones. -/
theorem toNat_rotl (h0 : 0 < r.toNat) (hr : r.toNat < 32) :
    (x <<< r ||| x >>> (32 - r)).toNat =
      x.toNat % 2 ^ (32 - r.toNat) * 2 ^ r.toNat + x.toNat / 2 ^ (32 - r.toNat) := by
  have hsub : (32 - r).toNat = 32 - r.toNat :=
    UInt32.toNat_sub_of_le 32 r (UInt32.le_iff_toNat_le.mpr hr.le)
  have hlow : x.toNat * 2 ^ r.toNat % 2 ^ 32 = x.toNat % 2 ^ (32 - r.toNat) * 2 ^ r.toNat := by
    rw [← pow_mul_pow hr, Nat.mul_mod_mul_right]
  rw [UInt32.toNat_or, UInt32.toNat_shiftLeft, UInt32.toNat_shiftRight, hsub,
    Nat.mod_eq_of_lt hr, Nat.mod_eq_of_lt (Nat.sub_lt (by decide) h0), Nat.shiftLeft_eq,
    Nat.shiftRight_eq_div_pow, hlow, ← Nat.shiftLeft_eq,
    Nat.shiftLeft_add_eq_or_of_lt (high_lt x hr)]

theorem rotl_injective (h0 : 0 < r.toNat) (hr : r.toNat < 32) :
    Function.Injective fun x : UInt32 => x <<< r ||| x >>> (32 - r) := by
  intro x y h
  have hn := congrArg UInt32.toNat h
  simp only [toNat_rotl h0 hr] at hn
  have hdiv : x.toNat / 2 ^ (32 - r.toNat) = y.toNat / 2 ^ (32 - r.toNat) := by
    have hm := congrArg (· % 2 ^ r.toNat) hn
    simpa [Nat.mod_eq_of_lt (high_lt _ hr)] using hm
  have hmod : x.toNat % 2 ^ (32 - r.toNat) = y.toNat % 2 ^ (32 - r.toNat) := by
    rw [hdiv] at hn
    exact Nat.eq_of_mul_eq_mul_right (Nat.two_pow_pos _) (Nat.add_right_cancel hn)
  apply UInt32.toNat_inj.mp
  rw [← Nat.div_add_mod x.toNat (2 ^ (32 - r.toNat)), hdiv, hmod, Nat.div_add_mod]

/-- A word that is put beside one with room under it. -/
theorem toNat_or_shiftLeft (hr : r.toNat < 32) (hx : x.toNat < 2 ^ r.toNat)
    (hy : y.toNat * 2 ^ r.toNat < 2 ^ 32) :
    (x ||| y <<< r).toNat = x.toNat + y.toNat * 2 ^ r.toNat := by
  rw [UInt32.toNat_or, UInt32.toNat_shiftLeft, Nat.mod_eq_of_lt hr, Nat.shiftLeft_eq,
    Nat.mod_eq_of_lt hy, ← Nat.shiftLeft_eq, Nat.or_comm, ← Nat.shiftLeft_add_eq_or_of_lt hx,
    Nat.add_comm]

/-- Every map of words that loses nothing is a permutation of the words. -/
theorem bijective_of_injective {f : UInt32 → UInt32} (h : Function.Injective f) :
    Function.Bijective f := by
  have : Finite UInt32 := Finite.of_injective UInt32.toFin fun x y hxy => UInt32.toFin_inj.mp hxy
  exact Finite.injective_iff_bijective.mp h

/-! ## Remainders -/

/-- The number of words with the remainder `i` modulo `m`. -/
def shares (m i : UInt32) : Nat :=
  UInt32.size / m.toNat + if i.toNat < UInt32.size % m.toNat then 1 else 0

theorem ncard_mod_eq {m i : UInt32} (h : i < m) :
    Set.ncard {x : UInt32 | x % m = i} = shares m i := by
  have hlt := UInt32.lt_iff_toNat_lt.mp h
  have himage : UInt32.toNat '' {x : UInt32 | x % m = i} =
      ↑((Finset.range UInt32.size).filter (· ≡ i.toNat [MOD m.toNat])) := by
    ext n
    simp only [Set.mem_image, Set.mem_ofPred_eq, Finset.coe_filter, Finset.mem_range, Nat.ModEq,
      Nat.mod_eq_of_lt hlt]
    constructor
    · rintro ⟨x, hx, rfl⟩
      exact ⟨x.toNat_lt_size, by rw [← hx, UInt32.toNat_mod]⟩
    · rintro ⟨hn, hmod⟩
      refine ⟨UInt32.ofNat n, ?_, UInt32.toNat_ofNat_of_lt' hn⟩
      rw [← UInt32.toNat_inj, UInt32.toNat_mod, UInt32.toNat_ofNat_of_lt' hn, hmod]
  have hinj : Function.Injective UInt32.toNat := fun _ _ => UInt32.toNat_inj.mp
  rw [← Set.ncard_image_of_injective _ hinj, himage, Set.ncard_coe_finset,
    ← Nat.count_eq_card_filter_range, Nat.count_modEq_card _ (by omega), Nat.mod_eq_of_lt hlt,
    shares]

/-- A map of words that loses nothing shares them out among the remainders. -/
theorem ncard_mod {f : UInt32 → UInt32} (hf : Function.Injective f) {m i : UInt32} (h : i < m) :
    Set.ncard {x | f x % m = i} = shares m i := by
  have hrange : {x : UInt32 | x % m = i} ⊆ Set.range f := fun y _ =>
    (bijective_of_injective hf).surjective y
  rw [← ncard_mod_eq h, ← Set.ncard_preimage_of_injective_subset_range hf hrange]
  rfl

end words
