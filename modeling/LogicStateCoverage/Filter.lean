-- The law of the filter. For any sequence of logic states, the bits of the Bloom
-- filter are the hash indices of the states, and the tally counts them.
import LogicStateCoverage.BloomFilter
import LogicStateCoverage.Bitmaps
import Mathlib.Order.Interval.Set.Nat

namespace lscov.daemon

open bitmaps

/-! ## Recording -/

/-- A size of the filter, in bytes: whole 64-bit words, and the size in bits is a `u32`. -/
structure FilterSize where
  bytes : UInt32
  pos : 0 < bytes.toNat
  words : 8 ∣ bytes.toNat
  fits : bytes.toNat < 2 ^ 29

/-- The size that the daemon has. -/
def FilterSize.shipped : FilterSize := ⟨bfilter_size, by decide, by decide, by decide⟩

section record

variable (size : FilterSize) (nh : UInt8)

/-- The index that hash `h` gives a logic state. -/
@[irreducible] def hash_index (s : Area) (h : Nat) : UInt32 :=
  bfilter_get_hash_index (bfilter_size_bits size.bytes) s (UInt32.ofNat h)

/-- The loop over the hashes in `lscov_loop`, with `nh` for `num_hashes`. -/
def record (b : Bfilter) (s : Area) : Option Bfilter :=
  (List.range nh.toNat).foldlM
    (fun b h => bfilter_set_1_by_index size.bytes b (hash_index size s h)) b

/-- The updates of `lscov_loop` for a sequence of logic states. -/
def recordAll (b : Bfilter) (states : List Area) : Option Bfilter :=
  states.foldlM (record size nh) b

/-- The hash indices of the states. -/
def indices (states : List Area) : Set Nat :=
  {i | ∃ s ∈ states, ∃ h < nh.toNat, i = (hash_index size s h).toNat}

end record

variable {size : FilterSize} {nh : UInt8} {b : Bfilter}

theorem FilterSize.toNat_bits (size : FilterSize) :
    (bfilter_size_bits size.bytes).toNat = 8 * size.bytes.toNat := by
  have hfits := size.fits
  unfold bfilter_size_bits
  rw [UInt32.toNat_shiftLeft, show UInt32.toNat 3 % 32 = 3 by decide, Nat.shiftLeft_eq]
  omega

theorem hash_index_lt (size : FilterSize) (s : Area) (h : Nat) :
    (hash_index size s h).toNat < 8 * size.bytes.toNat := by
  have hpos := size.pos
  unfold hash_index bfilter_get_hash_index
  generalize hash (List.ofFn s) (UInt32.ofNat h) = x
  rw [UInt32.toNat_mod, size.toNat_bits]
  exact Nat.mod_lt _ (by omega)

theorem byte_idx_toNat (idx : UInt32) : (idx >>> 3).toNat = idx.toNat / 8 := by
  rw [UInt32.toNat_shiftRight, show UInt32.toNat 3 % 32 = 3 by decide, Nat.shiftRight_eq_div_pow]

theorem bit_idx_eq (idx : UInt32) : (idx &&& 0x07).toUInt8 = UInt8.ofNat (idx.toNat % 8) := by
  apply UInt8.toNat_inj.mp
  rw [UInt32.toNat_toUInt8, UInt32.toNat_and, UInt8.toNat_ofNat',
    show UInt32.toNat 0x07 = 2 ^ 3 - 1 by decide, Nat.and_two_pow_sub_one_eq_mod]

/-- An index inside the filter sets its bit. -/
theorem set_1_of_lt {size idx : UInt32} (b : Bfilter) (h : idx.toNat < 8 * size.toNat) :
    bfilter_set_1_by_index size b idx = some (setBit b idx.toNat) := by
  unfold bfilter_set_1_by_index setBit
  have hlt : ¬ idx >>> 3 ≥ size := by
    rw [ge_iff_le, UInt32.le_iff_toNat_le, byte_idx_toNat]
    omega
  rw [if_neg hlt, byte_idx_toNat, bit_idx_eq]

theorem record_eq (size : FilterSize) (nh : UInt8) (b : Bfilter) (s : Area) :
    record size nh b s =
      some (setAll b ((List.range nh.toNat).map fun h => (hash_index size s h).toNat)) := by
  unfold record setAll
  induction List.range nh.toNat generalizing b with
  | nil => rfl
  | cons h hs ih =>
    rw [List.foldlM_cons, set_1_of_lt b (hash_index_lt size s h)]
    exact ih _

theorem indices_cons (size : FilterSize) (nh : UInt8) (s : Area) (states : List Area) (i : Nat) :
    i ∈ indices size nh (s :: states) ↔
      i ∈ (List.range nh.toNat).map (fun h => (hash_index size s h).toNat) ∨
        i ∈ indices size nh states := by
  rw [List.mem_map]
  constructor
  · rintro ⟨t, ht, h, hh, rfl⟩
    rcases List.mem_cons.mp ht with rfl | ht
    · exact Or.inl ⟨h, List.mem_range.mpr hh, rfl⟩
    · exact Or.inr ⟨t, ht, h, hh, rfl⟩
  · rintro (⟨h, hh, rfl⟩ | ⟨t, ht, h, hh, rfl⟩)
    · exact ⟨s, List.mem_cons_self, h, List.mem_range.mp hh, rfl⟩
    · exact ⟨t, List.mem_cons_of_mem _ ht, h, hh, rfl⟩

/-- What the updates do to the bits. -/
theorem recordAll_spec (size : FilterSize) (nh : UInt8) (b : Bfilter) (states : List Area) :
    ∃ b', recordAll size nh b states = some b' ∧
      ∀ i, bit b' i = true ↔ bit b i = true ∨ i ∈ indices size nh states := by
  unfold recordAll
  induction states generalizing b with
  | nil => exact ⟨b, rfl, by simp [indices]⟩
  | cons s states ih =>
    rw [List.foldlM_cons, record_eq]
    obtain ⟨b', hb', hbits⟩ := ih (setAll b _)
    refine ⟨b', hb', ?_⟩
    intro i
    rw [hbits, bit_setAll, or_assoc, indices_cons]

/-! ## The tally -/

/-- The number of 1 bits, as GCC's builtin gives it. -/
def popcountll (x : UInt64) : UInt32 := UInt32.ofNat (popcount x)

/-- A tally on its way: the words still to read, the next word and the count so far. -/
structure Tally where
  rem_size : UInt32
  bfilter64 : Nat
  num_1s : UInt32

def Tally.init (size : UInt32) : Tally := ⟨size >>> 3, 0, 0⟩

/-- The body of the loop: one word is read. -/
def Tally.read (b : Bfilter) (t : Tally) : Tally :=
  ⟨t.rem_size - 1, t.bfilter64 + 1, t.num_1s + popcountll (word b t.bfilter64)⟩

@[simp] theorem Tally.read_rem_size (b : Bfilter) (t : Tally) :
    (t.read b).rem_size = t.rem_size - 1 := rfl

@[simp] theorem Tally.read_bfilter64 (b : Bfilter) (t : Tally) :
    (t.read b).bfilter64 = t.bfilter64 + 1 := rfl

@[simp] theorem Tally.read_num_1s (b : Bfilter) (t : Tally) :
    (t.read b).num_1s = t.num_1s + popcountll (word b t.bfilter64) := rfl

def bfilter_get_num_1s (size : UInt32) (b : Bfilter) : UInt32 :=
  ((Tally.read b)^[(size >>> 3).toNat] (Tally.init size)).num_1s

/-- After `n` words of a filter at rest, the count is that of their bits, as a `u32`. -/
theorem read_iterate (size : UInt32) (b : Bfilter) (n : Nat) :
    ((Tally.read b)^[n] (Tally.init size)).bfilter64 = n ∧
      ((Tally.read b)^[n] (Tally.init size)).num_1s = UInt32.ofNat (ones b (64 * n)) := by
  induction n with
  | zero => exact ⟨rfl, rfl⟩
  | succ n ih =>
    rw [Function.iterate_succ_apply', Tally.read_bfilter64, Tally.read_num_1s, ih.1, ih.2,
      ← ones_add_popcount, UInt32.ofNat_add]
    exact ⟨rfl, rfl⟩

/-- Without a wrap-around the tally counts all the bits. -/
theorem num_1s_toNat {size : UInt32} (hw : 8 ∣ size.toNat)
    (hlt : ones b (8 * size.toNat) < 2 ^ 32) :
    (bfilter_get_num_1s size b).toNat = ones b (8 * size.toNat) := by
  unfold bfilter_get_num_1s
  rw [(read_iterate size b _).2, byte_idx_toNat,
    show 64 * (size.toNat / 8) = 8 * size.toNat by omega,
    UInt32.toNat_ofNat']
  exact Nat.mod_eq_of_lt hlt

/-! ## The law -/

theorem indices_finite (size : FilterSize) (nh : UInt8) (states : List Area) :
    (indices size nh states).Finite := by
  apply (Set.finite_lt_nat (8 * size.bytes.toNat)).subset
  rintro i ⟨s, -, h, -, rfl⟩
  exact hash_index_lt size s h

/-- Each state has an index for each hash, and some may be the same. -/
theorem ncard_indices_le (size : FilterSize) (nh : UInt8) (states : List Area) :
    (indices size nh states).ncard ≤ nh.toNat * {s | s ∈ states}.ncard := by
  have himage : indices size nh states =
      (fun p : Nat × Area => (hash_index size p.2 p.1).toNat) ''
        (Set.Iio nh.toNat ×ˢ {s | s ∈ states}) := by
    ext i
    constructor
    · rintro ⟨s, hs, h, hh, rfl⟩
      exact ⟨(h, s), ⟨hh, hs⟩, rfl⟩
    · rintro ⟨⟨h, s⟩, ⟨hh, hs⟩, rfl⟩
      exact ⟨s, hs, h, hh, rfl⟩
  have hfin : (Set.Iio nh.toNat ×ˢ {s | s ∈ states}).Finite :=
    (Set.finite_lt_nat _).prod (List.finite_toSet states)
  rw [himage]
  apply (Set.ncard_image_le hfin).trans
  rw [Set.ncard_prod, Set.ncard_Iio_nat]

theorem indices_congr {states states' : List Area} (h : ∀ s, s ∈ states ↔ s ∈ states') :
    indices size nh states = indices size nh states' := by
  unfold indices
  simp only [h]

theorem bit_zero (i : Nat) : bit Bfilter.zero i = false := by
  simp [bit, Bfilter.zero]

/-- The filter after a sequence of states, from the zeroed one. -/
theorem recordAll_zero (size : FilterSize) (nh : UInt8) (states : List Area) :
    ∃ b, recordAll size nh Bfilter.zero states = some b ∧
      ∀ i, bit b i = true ↔ i ∈ indices size nh states := by
  obtain ⟨b, hb, hbits⟩ := recordAll_spec size nh Bfilter.zero states
  refine ⟨b, hb, ?_⟩
  intro i
  rw [hbits, bit_zero]
  simp

/-- The tally of a filter that holds the indices of the states. -/
theorem num_1s_of_bits {states : List Area}
    (hb : ∀ i, bit b i = true ↔ i ∈ indices size nh states) :
    (bfilter_get_num_1s size.bytes b).toNat = (indices size nh states).ncard := by
  have hfits := size.fits
  have hlt : ∀ i, bit b i = true → i < 8 * size.bytes.toNat := by
    intro i hi
    obtain ⟨s, -, h, -, rfl⟩ := (hb i).mp hi
    exact hash_index_lt size s h
  have hle := ones_le b (8 * size.bytes.toNat)
  rw [num_1s_toNat size.words (by omega), ones_eq_ncard hlt]
  congr 1
  ext i
  exact hb i

theorem indices_append (states more : List Area) :
    indices size nh (states ++ more) = indices size nh states ∪ indices size nh more := by
  ext i
  simp only [indices, List.mem_append, Set.mem_ofPred_eq, Set.mem_union]
  constructor
  · rintro ⟨s, hs | hs, h⟩
    · exact Or.inl ⟨s, hs, h⟩
    · exact Or.inr ⟨s, hs, h⟩
  · rintro (⟨s, hs, h⟩ | ⟨s, hs, h⟩)
    · exact ⟨s, Or.inl hs, h⟩
    · exact ⟨s, Or.inr hs, h⟩

/-- The filter is the set of hash indices of the recorded states. The `FATAL` is never
reached, only the set of states matters, and the tally is the number of indices. -/
theorem the_filter_is_the_set_of_indices (size : FilterSize) (nh : UInt8) (states : List Area) :
    ∃ b, recordAll size nh Bfilter.zero states = some b ∧
      (∀ i, bit b i = true ↔
        ∃ s ∈ states, ∃ h < nh.toNat, i = (hash_index size s h).toNat) ∧
      (∀ states', (∀ s, s ∈ states ↔ s ∈ states') →
        recordAll size nh Bfilter.zero states' = some b) ∧
      (∀ s ∈ states, record size nh b s = some b) ∧
      (bfilter_get_num_1s size.bytes b).toNat = (indices size nh states).ncard ∧
      (∀ more, ∃ b', recordAll size nh b more = some b' ∧
        bfilter_get_num_1s size.bytes b ≤ bfilter_get_num_1s size.bytes b') ∧
      (indices size nh states).ncard ≤ nh.toNat * {s | s ∈ states}.ncard ∧
      (indices size nh states).ncard ≤ (bfilter_size_bits size.bytes).toNat := by
  obtain ⟨b, hb, hbits⟩ := recordAll_zero size nh states
  refine ⟨b, hb, hbits, ?_, ?_, num_1s_of_bits hbits, ?_, ncard_indices_le size nh states, ?_⟩
  · intro states' hsame
    obtain ⟨b', hb', hbits'⟩ := recordAll_zero size nh states'
    have heq : b' = b := by
      apply ext_bit
      intro i
      rw [Bool.eq_iff_iff, hbits, hbits', indices_congr hsame]
    rw [hb', heq]
  · intro s hs
    rw [record_eq, Option.some.injEq]
    apply ext_bit
    intro i
    rw [Bool.eq_iff_iff, bit_setAll, or_iff_left_iff_imp, List.mem_map]
    rintro ⟨h, hh, rfl⟩
    exact (hbits _).mpr ⟨s, hs, h, List.mem_range.mp hh, rfl⟩
  · intro more
    obtain ⟨b', hb', hbits'⟩ := recordAll_spec size nh b more
    have hall : ∀ i, bit b' i = true ↔ i ∈ indices size nh (states ++ more) := by
      intro i
      rw [hbits', hbits, indices_append]
      rfl
    refine ⟨b', hb', ?_⟩
    rw [UInt32.le_iff_toNat_le, num_1s_of_bits hbits, num_1s_of_bits hall, indices_append]
    have hfin := (indices_finite size nh states).union (indices_finite size nh more)
    exact Set.ncard_le_ncard Set.subset_union_left hfin
  · rw [← num_1s_of_bits hbits, size.toNat_bits]
    have hfits := size.fits
    have hle := ones_le b (8 * size.bytes.toNat)
    rw [num_1s_toNat size.words (by omega)]
    exact hle

end lscov.daemon
