-- The laws of the reported number. With exact logarithms, `bfilter_calc_cardinality` is never
-- below the number of set bits by the number of hashes, and while the logic states are few it
-- is never above their number.
import LogicStateCoverage.Coverage
import LogicStateCoverage.Occupancy

namespace lscov.daemon

open bitmaps occupancy

/-! ## The estimate -/

/-- `bfilter_calc_cardinality`, with its `double`s in exact arithmetic. `none` is a conversion
to `u32` that is not defined: of the logarithm of 0, or of what does not fit. -/
noncomputable def bfilter_calc_cardinality (num_hashes : UInt8)
    (bfilter_size_bits num_1s : UInt32) : Option UInt32 :=
  let cov := estimate num_hashes.toNat bfilter_size_bits.toNat num_1s.toNat
  if num_1s < bfilter_size_bits ∧ cov < 2 ^ 32 then some (UInt32.ofNat ⌊cov⌋₊) else none

variable {nh : UInt8} {bits num_1s cov : UInt32}

/-- Where the estimate is defined, it is rounded down. -/
theorem calc_eq_some_iff :
    bfilter_calc_cardinality nh bits num_1s = some cov ↔
      num_1s < bits ∧ estimate nh.toNat bits.toNat num_1s.toNat < 2 ^ 32 ∧
        cov.toNat = ⌊estimate nh.toNat bits.toNat num_1s.toNat⌋₊ := by
  unfold bfilter_calc_cardinality
  simp only
  split
  · next h =>
    have hfloor : ⌊estimate nh.toNat bits.toNat num_1s.toNat⌋₊ < 2 ^ 32 := by
      by_cases h0 : 0 ≤ estimate nh.toNat bits.toNat num_1s.toNat
      · rw [Nat.floor_lt h0]
        exact_mod_cast h.2
      · rw [Nat.floor_of_nonpos (le_of_not_ge h0)]
        decide
    rw [Option.some.injEq, ← UInt32.toNat_inj, UInt32.toNat_ofNat', Nat.mod_eq_of_lt hfloor]
    constructor
    · intro hc
      exact ⟨h.1, h.2, hc.symm⟩
    · intro hc
      exact hc.2.2.symm
  · next h =>
    constructor
    · intro hc
      cases hc
    · intro hc
      exact absurd ⟨hc.1, hc.2.1⟩ h

/-- The bits of the daemon's filter. -/
theorem toNat_shipped_bits : (bfilter_size_bits bfilter_size).toNat = 2 ^ 29 := by decide

/-- With the sizes of the daemon, an estimate always fits a `u32`: it is largest where one bit
is still 0. -/
theorem shipped_estimate_lt {n : ℕ} (hn : n < 2 ^ 29) : estimate 4 (2 ^ 29) n < 2 ^ 32 := by
  have hm : 2 ≤ 2 ^ 29 := by decide
  have hle : estimate 4 (2 ^ 29) n ≤ estimate 4 (2 ^ 29) ((2 ^ 29 - 1 : ℕ) : ℝ) := by
    apply estimate_mono (by decide) hm
    · exact_mod_cast Nat.le_sub_one_of_lt hn
    · norm_num
  apply lt_of_le_of_lt hle
  have hneg : ((4 : ℕ) : ℝ) * Real.log (1 - 1 / ((2 ^ 29 : ℕ) : ℝ)) < 0 :=
    mul_neg_of_pos_of_neg (by norm_num) (log_share_neg hm)
  have hshare := log_share_le hm
  have hlog : Real.log (1 - ((2 ^ 29 - 1 : ℕ) : ℝ) / ((2 ^ 29 : ℕ) : ℝ)) = -(29 * Real.log 2) := by
    have harg : (1 : ℝ) - ((2 ^ 29 - 1 : ℕ) : ℝ) / ((2 ^ 29 : ℕ) : ℝ) = (2 ^ 29)⁻¹ := by norm_num
    rw [harg, Real.log_inv, Real.log_pow]
    norm_num
  rw [estimate, hlog, div_lt_iff_of_neg hneg]
  have hlog2 := Real.log_le_sub_one_of_pos (show (0 : ℝ) < 2 by norm_num)
  calc (2 : ℝ) ^ 32 * (((4 : ℕ) : ℝ) * Real.log (1 - 1 / ((2 ^ 29 : ℕ) : ℝ)))
      ≤ 2 ^ 32 * (((4 : ℕ) : ℝ) * -(1 / ((2 ^ 29 : ℕ) : ℝ))) := by gcongr
    _ < -(29 * Real.log 2) := by
        norm_num
        linarith

/-- Each logic state sets at most `num_hashes` bits, and some of them twice. -/
theorem calc_bounds (hk : 0 < nh.toNat) (hm : 2 ≤ bits.toNat)
    (h : bfilter_calc_cardinality nh bits num_1s = some cov) :
    num_1s.toNat / nh.toNat ≤ cov.toNat ∧
      cov.toNat * (nh.toNat * (bits.toNat - num_1s.toNat)) ≤ num_1s.toNat * bits.toNat := by
  obtain ⟨hlt, -, hcov⟩ := calc_eq_some_iff.mp h
  have hn := UInt32.lt_iff_toNat_lt.mp hlt
  have hlow := le_estimate hk hm hn
  have hhigh := estimate_le hk hm (Nat.cast_nonneg num_1s.toNat) (by exact_mod_cast hn)
  have h0 : 0 ≤ estimate nh.toNat bits.toNat num_1s.toNat := le_trans (by positivity) hlow
  rw [hcov]
  constructor
  · exact Nat.le_floor (le_trans Nat.cast_div_le hlow)
  · have hgap : (0 : ℝ) < nh.toNat * ((bits.toNat : ℝ) - num_1s.toNat) := by
      have hlt' : (num_1s.toNat : ℝ) < bits.toNat := by exact_mod_cast hn
      have hk' : (0 : ℝ) < nh.toNat := by exact_mod_cast hk
      exact mul_pos hk' (sub_pos.mpr hlt')
    have hfloor := (Nat.floor_le h0).trans hhigh
    rw [le_div_iff₀ hgap, ← Nat.cast_sub hn.le] at hfloor
    exact_mod_cast hfloor

/-- More set bits never give less. -/
theorem calc_mono {less cov' : UInt32} (hk : 0 < nh.toNat) (hm : 2 ≤ bits.toNat)
    (h : bfilter_calc_cardinality nh bits num_1s = some cov)
    (h' : bfilter_calc_cardinality nh bits less = some cov') (hle : less ≤ num_1s) :
    cov' ≤ cov := by
  obtain ⟨hlt, -, hcov⟩ := calc_eq_some_iff.mp h
  obtain ⟨-, -, hcov'⟩ := calc_eq_some_iff.mp h'
  rw [UInt32.le_iff_toNat_le] at hle ⊢
  rw [hcov, hcov']
  apply Nat.floor_mono
  apply estimate_mono hk hm
  · exact_mod_cast hle
  · exact_mod_cast UInt32.lt_iff_toNat_lt.mp hlt

/-- Where the estimate fits, there is one. -/
theorem exists_calc (hlt : num_1s < bits)
    (hfit : estimate nh.toNat bits.toNat num_1s.toNat < 2 ^ 32) :
    ∃ cov, bfilter_calc_cardinality nh bits num_1s = some cov := by
  unfold bfilter_calc_cardinality
  simp only [if_pos (And.intro hlt hfit)]
  exact ⟨_, rfl⟩

/-- The daemon has no estimate just for a filter that is full. Any other estimate is at least
the number of set bits by the number of hashes, it exceeds that at most by the share of bits
that are 0, and more set bits never give less. -/
theorem the_estimate_is_bracketed (num_1s : UInt32) :
    (bfilter_calc_cardinality num_hashes (bfilter_size_bits bfilter_size) num_1s = none ↔
      bfilter_size_bits bfilter_size ≤ num_1s) ∧
    ∀ cov, bfilter_calc_cardinality num_hashes (bfilter_size_bits bfilter_size) num_1s = some cov →
      num_1s.toNat / 4 ≤ cov.toNat ∧
      cov.toNat * (4 * (2 ^ 29 - num_1s.toNat)) ≤ num_1s.toNat * 2 ^ 29 ∧
      ∀ less cov', less ≤ num_1s →
        bfilter_calc_cardinality num_hashes (bfilter_size_bits bfilter_size) less = some cov' →
        cov' ≤ cov := by
  have hk : 0 < num_hashes.toNat := by decide
  have hm : 2 ≤ (bfilter_size_bits bfilter_size).toNat := by decide
  constructor
  · constructor
    · intro hnone
      by_contra hnot
      have hlt := UInt32.not_le.mp hnot
      have hn := UInt32.lt_iff_toNat_lt.mp hlt
      rw [toNat_shipped_bits] at hn
      have hfit : estimate num_hashes.toNat (bfilter_size_bits bfilter_size).toNat
          num_1s.toNat < 2 ^ 32 := by
        rw [toNat_shipped_bits, toNat_num_hashes]
        exact shipped_estimate_lt hn
      obtain ⟨cov, hcov⟩ := exists_calc hlt hfit
      rw [hcov] at hnone
      cases hnone
    · intro hle
      rw [Option.eq_none_iff_forall_ne_some]
      intro cov hcov
      exact absurd (calc_eq_some_iff.mp hcov).1 (UInt32.not_lt.mpr hle)
  · intro cov hcov
    have hbounds := calc_bounds hk hm hcov
    rw [toNat_shipped_bits, toNat_num_hashes] at hbounds
    exact ⟨hbounds.1, hbounds.2, fun less cov' hle h' => calc_mono hk hm hcov h' hle⟩

/-- Four set bits are one logic state. -/
theorem four_bits_are_one_logic_state :
    bfilter_calc_cardinality num_hashes (bfilter_size_bits bfilter_size) 4 = some 1 := by
  obtain ⟨hnone, hsome⟩ := the_estimate_is_bracketed 4
  cases hcov : bfilter_calc_cardinality num_hashes (bfilter_size_bits bfilter_size) 4 with
  | none => exact absurd (hnone.mp hcov) (by decide)
  | some cov =>
    obtain ⟨hlow, hhigh, -⟩ := hsome cov hcov
    have h4 : UInt32.toNat 4 = 4 := by decide
    rw [h4] at hlow hhigh
    have hone : cov.toNat = UInt32.toNat 1 := by
      show cov.toNat = 1
      omega
    rw [UInt32.toNat_inj.mp hone]

/-! ## Few logic states -/

/-- While the elements are few, the bits that they set do not tell of one element more. -/
theorem estimate_lt_succ {k m n d : ℕ} (hk : 0 < k) (hm : 2 ≤ m) (hn : n ≤ k * d)
    (hfew : k * d * (d + 1) < m) : n < m ∧ estimate k m n < d + 1 := by
  have hnm : n < m := by
    rcases Nat.eq_zero_or_pos d with rfl | hd
    · omega
    · calc n ≤ k * d := hn
        _ ≤ k * d * (d + 1) := Nat.le_mul_of_pos_right _ (by omega)
        _ < m := hfew
  refine ⟨hnm, ?_⟩
  have hnR : (n : ℝ) < m := by exact_mod_cast hnm
  have hkR : (0 : ℝ) < k := by exact_mod_cast hk
  apply lt_of_le_of_lt (estimate_le hk hm (Nat.cast_nonneg n) hnR)
  rw [div_lt_iff₀ (mul_pos hkR (sub_pos.mpr hnR))]
  have hnkd : (n : ℝ) ≤ k * d := by exact_mod_cast hn
  have hfewR : (k : ℝ) * d * (d + 1) < m := by exact_mod_cast hfew
  have hsum : (n : ℝ) * (m + (d + 1) * k) < k * ((d + 1) * m) := by
    calc (n : ℝ) * (m + (d + 1) * k) ≤ k * d * (m + (d + 1) * k) := by gcongr
      _ = k * (d * m + k * d * (d + 1)) := by ring
      _ < k * (d * m + m) := by gcongr
      _ = k * ((d + 1) * m) := by ring
  linarith

/-- The estimate for a filter that holds the indices of some logic states, while these are
few. -/
theorem calc_of_few {size : FilterSize} {b : Bfilter} {d : ℕ} (hk : 0 < nh.toNat)
    (hn : (bfilter_get_num_1s size.bytes b).toNat ≤ nh.toNat * d)
    (hfew : nh.toNat * d * (d + 1) < (bfilter_size_bits size.bytes).toNat) :
    ∃ cov, bfilter_calc_cardinality nh (bfilter_size_bits size.bytes)
          (bfilter_get_num_1s size.bytes b) = some cov ∧
      cov.toNat ≤ d ∧ (bfilter_get_num_1s size.bytes b).toNat / nh.toNat ≤ cov.toNat := by
  have hm : 2 ≤ (bfilter_size_bits size.bytes).toNat := by
    have hpos := size.pos
    rw [size.toNat_bits]
    omega
  obtain ⟨hlt, hest⟩ := estimate_lt_succ hk hm hn hfew
  have hd : (d : ℝ) + 1 ≤ 2 ^ 32 := by
    have hbits := (bfilter_size_bits size.bytes).toNat_lt
    have hle : d + 1 ≤ 2 ^ 32 := by
      rcases Nat.eq_zero_or_pos d with rfl | hd
      · decide
      · have hone : 1 ≤ nh.toNat * d := Nat.mul_pos hk hd
        have := Nat.le_mul_of_pos_left (d + 1) hone
        omega
    exact_mod_cast hle
  obtain ⟨cov, hcov⟩ := exists_calc (UInt32.lt_iff_toNat_lt.mpr hlt) (lt_of_lt_of_le hest hd)
  refine ⟨cov, hcov, ?_, (calc_bounds hk hm hcov).1⟩
  obtain ⟨-, -, hfloor⟩ := calc_eq_some_iff.mp hcov
  rw [hfloor]
  have hfl : ⌊estimate nh.toNat (bfilter_size_bits size.bytes).toNat
      (bfilter_get_num_1s size.bytes b).toNat⌋₊ < d + 1 :=
    Nat.floor_lt' (by omega) |>.mpr (by exact_mod_cast hest)
  omega

/-- While `d` logic states are few enough for the filter, the coverage that is reported for
them is never more than `d`. It is at least the number of set bits by the number of hashes,
and so it is `d` where no two hash indices are the same. -/
theorem few_logic_states_are_never_overcounted (size : FilterSize) (nh : UInt8)
    (hk : 0 < nh.toNat) (states : List Area) (b : Bfilter)
    (hb : recordAll size nh Bfilter.zero states = some b)
    (hfew : nh.toNat * {s | s ∈ states}.ncard * ({s | s ∈ states}.ncard + 1) <
      (bfilter_size_bits size.bytes).toNat) :
    ∃ cov, bfilter_calc_cardinality nh (bfilter_size_bits size.bytes)
          (bfilter_get_num_1s size.bytes b) = some cov ∧
      cov.toNat ≤ {s | s ∈ states}.ncard ∧
      (indices size nh states).ncard / nh.toNat ≤ cov.toNat ∧
      ((indices size nh states).ncard = nh.toNat * {s | s ∈ states}.ncard →
        cov.toNat = {s | s ∈ states}.ncard) := by
  obtain ⟨b', hb', hbits⟩ := recordAll_zero size nh states
  have heq : b' = b := Option.some.inj (hb'.symm.trans hb)
  subst heq
  have hnum := num_1s_of_bits hbits
  have hle := ncard_indices_le size nh states
  obtain ⟨cov, hcov, hhigh, hlow⟩ := calc_of_few hk (hnum.le.trans hle) hfew
  rw [hnum] at hlow
  refine ⟨cov, hcov, hhigh, hlow, ?_⟩
  intro hall
  rw [hall, Nat.mul_div_cancel_left _ hk] at hlow
  omega

/-- Two logic states in the filter of the daemon, one of them recorded twice. -/
theorem two_logic_states_are_at_most_two :
    ∃ b cov, recordAll FilterSize.shipped num_hashes Bfilter.zero
        [lstateWith 5, lstateWith 7, lstateWith 5] = some b ∧
      bfilter_calc_cardinality num_hashes (bfilter_size_bits FilterSize.shipped.bytes)
        (bfilter_get_num_1s FilterSize.shipped.bytes b) = some cov ∧ cov.toNat ≤ 2 := by
  have hne : lstateWith 5 ≠ lstateWith 7 := by
    intro heq
    have h5 := congrFun heq 5
    simp [lstateWith, Area.set, freshArea, Area.zero] at h5
  have htwo : {s | s ∈ [lstateWith 5, lstateWith 7, lstateWith 5]}.ncard = 2 := by
    have hpair : {s | s ∈ [lstateWith 5, lstateWith 7, lstateWith 5]} =
        {lstateWith 5, lstateWith 7} := by
      ext s
      simp only [List.mem_cons, List.not_mem_nil, or_false, Set.mem_ofPred_eq, Set.mem_insert_iff,
        Set.mem_singleton_iff]
      rw [or_comm (b := s = lstateWith 5), or_self_left]
    rw [hpair, Set.ncard_pair hne]
  obtain ⟨b, hb, -⟩ := recordAll_zero FilterSize.shipped num_hashes
    [lstateWith 5, lstateWith 7, lstateWith 5]
  obtain ⟨cov, hcov, hle, -⟩ := few_logic_states_are_never_overcounted FilterSize.shipped
    num_hashes (by decide) _ b hb (by rw [htwo]; decide)
  exact ⟨b, cov, hb, hcov, htwo ▸ hle⟩

/-! ## The mean over all hashes -/

/-- The updates of `lscov_loop`, with any hash in the place of MurmurHash. -/
def recordBy {σ : Type} (size : FilterSize) (nh : Nat) (index : σ → Nat → UInt32) (b : Bfilter)
    (states : List σ) : Option Bfilter :=
  states.foldlM (fun b s => (List.range nh).foldlM
    (fun b h => bfilter_set_1_by_index size.bytes b (index s h)) b) b

theorem recordAll_eq_recordBy (size : FilterSize) (nh : UInt8) (b : Bfilter) (states : List Area) :
    recordAll size nh b states = recordBy size nh.toNat (hash_index size) b states := rfl

/-- The hash that gives hash `h` of the `s`-th logic state the index `f (s, h)`. -/
def indexBy {d k m : ℕ} (f : Fin d × Fin k → Fin m) (s : Fin d) (h : Nat) : UInt32 :=
  if hk : h < k then UInt32.ofNat (f (s, ⟨h, hk⟩)) else 0

theorem recordBy_spec {σ : Type} {size : FilterSize} {k : Nat} {index : σ → Nat → UInt32}
    (hlt : ∀ s, ∀ h < k, (index s h).toNat < 8 * size.bytes.toNat) (b : Bfilter)
    (states : List σ) :
    ∃ b', recordBy size k index b states = some b' ∧
      ∀ i, bit b' i = true ↔ bit b i = true ∨ ∃ s ∈ states, ∃ h < k, i = (index s h).toNat := by
  have hturn : ∀ (s : σ) (b : Bfilter), (List.range k).foldlM
      (fun b h => bfilter_set_1_by_index size.bytes b (index s h)) b =
        some (setAll b ((List.range k).map fun h => (index s h).toNat)) := by
    intro s b
    exact foldlM_set (fun h hh => hlt s h (List.mem_range.mp hh)) b
  unfold recordBy
  induction states generalizing b with
  | nil => exact ⟨b, rfl, by simp⟩
  | cons s states ih =>
    rw [List.foldlM_cons, hturn]
    obtain ⟨b', hb', hbits⟩ := ih (setAll b _)
    refine ⟨b', hb', ?_⟩
    intro i
    rw [hbits, bit_setAll, List.mem_map]
    constructor
    · rintro ((h | ⟨h, hh, rfl⟩) | ⟨t, ht, h, hh, rfl⟩)
      · exact Or.inl h
      · exact Or.inr ⟨s, List.mem_cons_self, h, List.mem_range.mp hh, rfl⟩
      · exact Or.inr ⟨t, List.mem_cons_of_mem s ht, h, hh, rfl⟩
    · rintro (h | ⟨t, ht, h, hh, rfl⟩)
      · exact Or.inl (Or.inl h)
      · rcases List.mem_cons.mp ht with rfl | ht
        · exact Or.inl (Or.inr ⟨h, List.mem_range.mpr hh, rfl⟩)
        · exact Or.inr ⟨t, ht, h, hh, rfl⟩

/-- Over all ways to give `d` logic states their hash indices, the tally is such that the
estimate for its mean is `d` exactly. -/
theorem the_estimate_is_exact_on_average (size : FilterSize) (nh : UInt8) (hk : 0 < nh.toNat)
    (d : ℕ) :
    ∃ b : (Fin d × Fin nh.toNat → Fin (bfilter_size_bits size.bytes).toNat) → Bfilter,
      (∀ f, recordBy size nh.toNat (indexBy f) Bfilter.zero (List.finRange d) = some (b f)) ∧
      estimate nh.toNat (bfilter_size_bits size.bytes).toNat
        ((∑ f, ((bfilter_get_num_1s size.bytes (b f)).toNat : ℝ)) /
          Fintype.card (Fin d × Fin nh.toNat → Fin (bfilter_size_bits size.bytes).toNat)) = d := by
  have hm : 2 ≤ (bfilter_size_bits size.bytes).toNat := by
    have hpos := size.pos
    rw [size.toNat_bits]
    omega
  have hindex : ∀ (f : Fin d × Fin nh.toNat → Fin (bfilter_size_bits size.bytes).toNat) s h
      (hh : h < nh.toNat), (indexBy f s h).toNat = (f (s, ⟨h, hh⟩)).val := by
    intro f s h hh
    have hlt := (f (s, ⟨h, hh⟩)).isLt
    have hbits := (bfilter_size_bits size.bytes).toNat_lt
    rw [indexBy, dif_pos hh, UInt32.toNat_ofNat', Nat.mod_eq_of_lt (by omega)]
  have hspec : ∀ f : Fin d × Fin nh.toNat → Fin (bfilter_size_bits size.bytes).toNat,
      ∃ b, recordBy size nh.toNat (indexBy f) Bfilter.zero (List.finRange d) = some b ∧
        (bfilter_get_num_1s size.bytes b).toNat = (Finset.univ.image f).card := by
    intro f
    have hlt : ∀ s, ∀ h < nh.toNat, (indexBy f s h).toNat < 8 * size.bytes.toNat := by
      intro s h hh
      rw [hindex f s h hh, ← size.toNat_bits]
      exact (f (s, ⟨h, hh⟩)).isLt
    obtain ⟨b, hb, hbits⟩ := recordBy_spec hlt Bfilter.zero (List.finRange d)
    have hhit : {i | bit b i = true} = ((Finset.univ.image f).image Fin.val : Finset ℕ) := by
      ext i
      simp only [Set.mem_ofPred_eq, hbits, bit_zero, Finset.coe_image, Finset.coe_univ,
        Set.image_univ, Set.mem_image, Set.mem_range]
      constructor
      · rintro (h0 | ⟨s, -, h, hh, rfl⟩)
        · cases h0
        · exact ⟨_, ⟨(s, ⟨h, hh⟩), rfl⟩, (hindex f s h hh).symm⟩
      · rintro ⟨j, ⟨⟨s, h, hh⟩, rfl⟩, rfl⟩
        exact Or.inr ⟨s, List.mem_finRange s, h, hh, (hindex f s h hh).symm⟩
    have hinside : ∀ i, bit b i = true → i < 8 * size.bytes.toNat := by
      intro i hi
      rcases (hbits i).mp hi with h0 | ⟨s, -, h, hh, rfl⟩
      · rw [bit_zero] at h0
        cases h0
      · exact hlt s h hh
    refine ⟨b, hb, ?_⟩
    rw [num_1s_eq_ncard hinside, hhit, Set.ncard_coe_finset,
      Finset.card_image_of_injective _ Fin.val_injective]
  choose b hb hcard using hspec
  refine ⟨b, hb, ?_⟩
  simp only [hcard]
  exact estimate_mean hk hm d

/-- The filter of the daemon, with two logic states. -/
theorem two_logic_states_are_two_on_average :
    ∃ b : (Fin 2 × Fin num_hashes.toNat →
        Fin (bfilter_size_bits FilterSize.shipped.bytes).toNat) → Bfilter,
      (∀ f, recordBy FilterSize.shipped num_hashes.toNat (indexBy f) Bfilter.zero
        (List.finRange 2) = some (b f)) ∧
      estimate num_hashes.toNat (bfilter_size_bits FilterSize.shipped.bytes).toNat
        ((∑ f, ((bfilter_get_num_1s FilterSize.shipped.bytes (b f)).toNat : ℝ)) /
          Fintype.card (Fin 2 × Fin num_hashes.toNat →
            Fin (bfilter_size_bits FilterSize.shipped.bytes).toNat)) = 2 := by
  obtain ⟨b, hrec, hb⟩ :=
    the_estimate_is_exact_on_average FilterSize.shipped num_hashes (by decide) 2
  exact ⟨b, hrec, by exact_mod_cast hb⟩

end lscov.daemon

namespace lscov

open runs daemon occupancy

/-! ## The coverage of a run -/

/-- `d` logic states are few enough for the filter of the daemon. -/
def Few (d : ℕ) : Prop := num_hashes.toNat * d * (d + 1) < (bfilter_size_bits bfilter_size).toNat

instance (d : ℕ) : Decidable (Few d) := inferInstanceAs (Decidable (_ < _))

/-- What `lscov_report` takes for the coverage in a state of the daemon. -/
noncomputable def reported (o : Obs) : Option UInt32 :=
  bfilter_calc_cardinality num_hashes (bfilter_size_bits bfilter_size)
    (bfilter_get_num_1s bfilter_size o.state.bfilter)

theorem reported_le {o : Obs} {d : ℕ} (hfew : Few d)
    (hn : (bfilter_get_num_1s bfilter_size o.state.bfilter).toNat ≤ num_hashes.toNat * d) :
    ∃ cov, reported o = some cov ∧ cov.toNat ≤ d := by
  rw [← shipped_bytes] at hn
  obtain ⟨cov, hcov, hle, -⟩ := calc_of_few (by decide) hn hfew
  exact ⟨cov, hcov, hle⟩

/-- In every state of every run, the coverage is at most the number of logic states of the
executions that were copied, where no execution starts early, and at most twice that number
otherwise. -/
theorem the_coverage_is_at_most_the_logic_states (o : Obs) :
    (Reached UnhurriedEnv o → Few (covered o).ncard →
      ∃ cov, reported o = some cov ∧ cov.toNat ≤ (covered o).ncard) ∧
    (Reached MapEnv o → Few (2 * (covered o).ncard) →
      ∃ cov, reported o = some cov ∧ cov.toNat ≤ 2 * (covered o).ncard) := by
  constructor
  · intro h hfew
    exact reported_le hfew (num_1s_le_of_unhurried h)
  · intro h hfew
    exact reported_le hfew (num_1s_le_of_map h)

/-- A run with one execution has a coverage of at most one. -/
theorem one_execution_covers_at_most_one :
    ∃ b cov, Reached UnhurriedEnv (firstRecorded b) ∧ reported (firstRecorded b) = some cov ∧
      cov.toNat ≤ 1 := by
  obtain ⟨b, hb⟩ :=
    reached_firstRecorded unhurried_first fun _ => .of_tidy trivial (by simp)
  have hone : (covered (firstRecorded b)).ncard = 1 := by
    rw [covered_first, Set.ncard_singleton]
  obtain ⟨cov, hcov, hle⟩ := (the_coverage_is_at_most_the_logic_states (firstRecorded b)).1 hb
    (by rw [hone]; decide)
  exact ⟨b, cov, hb, hcov, hone ▸ hle⟩

end lscov
