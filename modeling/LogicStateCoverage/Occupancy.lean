-- The laws of occupancy. Balls are thrown into `m` bins, `k` of them for each element. The
-- number of bins that are hit gives an estimate of the number of elements: on average over
-- all throws it is exact, and it is never far from the number of bins that are hit by `k`.
import Mathlib.Analysis.SpecialFunctions.Log.Basic
import Mathlib.Data.Fintype.BigOperators

namespace occupancy

/-! ## The mean -/

variable {ι : Type} [Fintype ι] [DecidableEq ι] {m : ℕ}

/-- The throws that leave bin `j` empty. -/
theorem card_avoiding (j : Fin m) :
    (Finset.univ.filter fun f : ι → Fin m => ∀ i, f i ≠ j).card = (m - 1) ^ Fintype.card ι := by
  have hpi : (Finset.univ.filter fun f : ι → Fin m => ∀ i, f i ≠ j) =
      Fintype.piFinset fun _ => Finset.univ.erase j := by
    ext f
    simp [Fintype.mem_piFinset]
  rw [hpi, Fintype.card_piFinset, Finset.prod_const, Finset.card_univ,
    Finset.card_erase_of_mem (Finset.mem_univ j), Finset.card_univ, Fintype.card_fin]

/-- The number of bins that are hit, summed over all throws. -/
theorem sum_card_image :
    ∑ f : ι → Fin m, (Finset.univ.image f).card =
      m * (m ^ Fintype.card ι - (m - 1) ^ Fintype.card ι) := by
  have hbin : ∀ j : Fin m, (Finset.univ.filter fun f : ι → Fin m => j ∈ Finset.univ.image f).card =
      m ^ Fintype.card ι - (m - 1) ^ Fintype.card ι := by
    intro j
    have hsplit := Finset.card_filter_add_card_filter_not (s := Finset.univ)
      (fun f : ι → Fin m => ∀ i, f i ≠ j)
    have hhit : (Finset.univ.filter fun f : ι → Fin m => j ∈ Finset.univ.image f) =
        Finset.univ.filter fun f : ι → Fin m => ¬ ∀ i, f i ≠ j := by
      ext f
      simp
    rw [card_avoiding, Finset.card_univ, Fintype.card_fun, Fintype.card_fin] at hsplit
    rw [hhit]
    omega
  calc ∑ f : ι → Fin m, (Finset.univ.image f).card
      = ∑ f : ι → Fin m, ∑ j : Fin m, if j ∈ Finset.univ.image f then 1 else 0 := by
        apply Finset.sum_congr rfl
        intro f _
        rw [Finset.sum_ite_mem, Finset.univ_inter, Finset.card_eq_sum_ones]
    _ = ∑ j : Fin m, ∑ f : ι → Fin m, if j ∈ Finset.univ.image f then 1 else 0 :=
        Finset.sum_comm
    _ = ∑ _j : Fin m, (m ^ Fintype.card ι - (m - 1) ^ Fintype.card ι) := by
        apply Finset.sum_congr rfl
        intro j _
        rw [← hbin j, Finset.card_filter]
    _ = m * (m ^ Fintype.card ι - (m - 1) ^ Fintype.card ι) := by simp

/-! ## The estimate -/

/-- The number of elements that `n` of `m` bins tell of, where each element hits `k` bins. -/
noncomputable def estimate (k m : ℕ) (n : ℝ) : ℝ :=
  Real.log (1 - n / m) / (k * Real.log (1 - 1 / m))

/-- The share of bins that one ball leaves empty. -/
theorem share_bounds (hm : 2 ≤ m) : (0 : ℝ) < 1 - 1 / m ∧ (1 : ℝ) - 1 / m < 1 := by
  have hpos : (0 : ℝ) < m := by positivity
  have hlt : (1 : ℝ) / m < 1 := by
    rw [div_lt_one hpos]
    exact_mod_cast hm
  constructor
  · linarith
  · have : (0 : ℝ) < 1 / m := by positivity
    linarith

theorem log_share_neg (hm : 2 ≤ m) : Real.log (1 - 1 / (m : ℝ)) < 0 :=
  Real.log_neg (share_bounds hm).1 (share_bounds hm).2

/-- The logarithm of the share is at most `-1 / m`. -/
theorem log_share_le (hm : 2 ≤ m) : Real.log (1 - 1 / (m : ℝ)) ≤ -(1 / m) := by
  have h := Real.log_le_sub_one_of_pos (share_bounds hm).1
  linarith

/-- Each element hits at most `k` bins, so there are at least `n / k` of them. -/
theorem le_estimate {k n : ℕ} (hk : 0 < k) (hm : 2 ≤ m) (hn : n < m) :
    (n : ℝ) / k ≤ estimate k m n := by
  have hkpos : (0 : ℝ) < k := by exact_mod_cast hk
  have hmpos : (0 : ℝ) < m := by positivity
  have hneg : (k : ℝ) * Real.log (1 - 1 / m) < 0 :=
    mul_neg_of_pos_of_neg hkpos (log_share_neg hm)
  -- Bernoulli's inequality, under the logarithm
  have hbern : (1 : ℝ) - n / m ≤ (1 - 1 / m) ^ n := by
    have hlow : (-2 : ℝ) ≤ -(1 / m) := by
      have := (share_bounds hm).1
      linarith
    have h := one_add_mul_le_pow hlow n
    calc (1 : ℝ) - n / m = 1 + n * -(1 / m) := by ring
      _ ≤ (1 + -(1 / m)) ^ n := h
      _ = (1 - 1 / m) ^ n := by ring
  have hpos : (0 : ℝ) < 1 - n / m := by
    rw [sub_pos, div_lt_one hmpos]
    exact_mod_cast hn
  have hlog : Real.log (1 - n / m) ≤ n * Real.log (1 - 1 / m) := by
    rw [← Real.log_pow]
    exact Real.log_le_log hpos hbern
  rw [estimate, le_div_iff_of_neg hneg]
  calc Real.log (1 - n / m) ≤ n * Real.log (1 - 1 / m) := hlog
    _ = n / k * (k * Real.log (1 - 1 / m)) := by field_simp

/-- Bins that are hit twice make for more elements, by at most the share of empty bins. -/
theorem estimate_le {k : ℕ} {n : ℝ} (hk : 0 < k) (hm : 2 ≤ m) (h0 : 0 ≤ n) (hn : n < m) :
    estimate k m n ≤ n * m / (k * (m - n)) := by
  have hkpos : (0 : ℝ) < k := by exact_mod_cast hk
  have hmpos : (0 : ℝ) < m := by positivity
  have hgap : (0 : ℝ) < m - n := sub_pos.mpr hn
  have hneg : (k : ℝ) * Real.log (1 - 1 / m) < 0 :=
    mul_neg_of_pos_of_neg hkpos (log_share_neg hm)
  have hpos : (0 : ℝ) < 1 - n / m := by
    rw [sub_pos, div_lt_one hmpos]
    exact hn
  have hlow : -(n / (m - n)) ≤ Real.log (1 - n / m) := by
    calc -(n / (m - n)) = 1 - (1 - n / m)⁻¹ := by
          have hne : (m : ℝ) - n ≠ 0 := hgap.ne'
          have hinv : (1 - n / m)⁻¹ = m / (m - n) := by
            rw [← inv_div]
            field_simp
          rw [hinv]
          field_simp
          ring
      _ ≤ Real.log (1 - n / m) := Real.one_sub_inv_le_log_of_pos hpos
  rw [estimate, div_le_iff_of_neg hneg]
  calc n * m / (k * (m - n)) * (k * Real.log (1 - 1 / m))
      = n * m / (m - n) * Real.log (1 - 1 / m) := by
        have hne : (m : ℝ) - n ≠ 0 := hgap.ne'
        field_simp
    _ ≤ n * m / (m - n) * -(1 / m) := by
        apply mul_le_mul_of_nonneg_left (log_share_le hm)
        positivity
    _ = -(n / (m - n)) := by
        have hne : (m : ℝ) - n ≠ 0 := hgap.ne'
        field_simp
    _ ≤ Real.log (1 - n / m) := hlow

theorem estimate_mono {k : ℕ} {n n' : ℝ} (hk : 0 < k) (hm : 2 ≤ m) (h : n ≤ n') (hn : n' < m) :
    estimate k m n ≤ estimate k m n' := by
  have hkpos : (0 : ℝ) < k := by exact_mod_cast hk
  have hmpos : (0 : ℝ) < m := by positivity
  have hneg : (k : ℝ) * Real.log (1 - 1 / m) < 0 :=
    mul_neg_of_pos_of_neg hkpos (log_share_neg hm)
  unfold estimate
  rw [div_le_div_right_of_neg hneg]
  apply Real.log_le_log
  · rw [sub_pos, div_lt_one hmpos]
    exact hn
  · gcongr

/-- The mean number of bins that are hit gives the number of elements back. -/
theorem estimate_mean {k : ℕ} (hk : 0 < k) (hm : 2 ≤ m) (d : ℕ) :
    estimate k m ((∑ f : Fin d × Fin k → Fin m, ((Finset.univ.image f).card : ℝ)) /
      Fintype.card (Fin d × Fin k → Fin m)) = d := by
  have hkpos : (0 : ℝ) < k := by exact_mod_cast hk
  have hmpos : (0 : ℝ) < m := by positivity
  have hneg : (k : ℝ) * Real.log (1 - 1 / m) ≠ 0 :=
    (mul_neg_of_pos_of_neg hkpos (log_share_neg hm)).ne
  have hcard : Fintype.card (Fin d × Fin k) = d * k := by simp
  have hle : (m - 1) ^ (d * k) ≤ m ^ (d * k) := Nat.pow_le_pow_left (by omega) _
  have hsum : (∑ f : Fin d × Fin k → Fin m, ((Finset.univ.image f).card : ℝ)) =
      m * ((m : ℝ) ^ (d * k) - ((m : ℝ) - 1) ^ (d * k)) := by
    rw [← Nat.cast_sum, sum_card_image, hcard]
    push_cast [hle, Nat.cast_sub (show 1 ≤ m by omega)]
    ring
  have hshare : ((m : ℝ) - 1) ^ (d * k) / (m : ℝ) ^ (d * k) = (1 - 1 / m) ^ (d * k) := by
    rw [← div_pow]
    congr 1
    field_simp
  rw [hsum, Fintype.card_fun, hcard, Fintype.card_fin, estimate]
  have harg : 1 - m * ((m : ℝ) ^ (d * k) - ((m : ℝ) - 1) ^ (d * k)) / ((m ^ (d * k) : ℕ) : ℝ) / m =
      (1 - 1 / m) ^ (d * k) := by
    rw [← hshare]
    push_cast
    field_simp
    ring
  rw [harg, Real.log_pow, div_eq_iff hneg]
  push_cast
  ring

end occupancy
