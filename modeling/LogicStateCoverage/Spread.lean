-- The laws of the spread of the filter indices. Over all seeds, and over all contents of one
-- chunk of the lstate, the indices come equally often, as near as the division allows.
import LogicStateCoverage.Hash

namespace lscov

/-! ## Lstates that differ in one chunk -/

/-- The lstate with `k` in its group `g` of four bytes, in the order of a little-endian
machine. -/
def Area.setChunk (l : Area) (g : Nat) (k : UInt32) : Area := fun j =>
  if j.val / 4 = g then (k >>> UInt32.ofNat (8 * (j.val % 4))).toUInt8 else l j

theorem toNat_setChunk (l : Area) (g : Nat) (k : UInt32) {j : Idx} (hj : j.val / 4 = g) :
    (l.setChunk g k j).toNat = k.toNat / 2 ^ (8 * (j.val % 4)) % 2 ^ 8 := by
  have hr := Nat.mod_lt j.val (show 0 < 4 by decide)
  have hshift : (UInt32.ofNat (8 * (j.val % 4))).toNat % 32 = 8 * (j.val % 4) := by
    rw [UInt32.toNat_ofNat', Nat.mod_eq_of_lt (by omega), Nat.mod_eq_of_lt (by omega)]
  simp only [Area.setChunk, if_pos hj, UInt32.toNat_toUInt8, UInt32.toNat_shiftRight, hshift,
    Nat.shiftRight_eq_div_pow]

/-- The group holds the whole word. -/
theorem setChunk_injective (l : Area) {g : Nat} (hg : 4 * g + 4 ≤ LSTATE_SIZE) :
    Function.Injective (l.setChunk g) := by
  intro k k' h
  have hbyte : ∀ i < 4, k.toNat / 2 ^ (8 * i) % 2 ^ 8 = k'.toNat / 2 ^ (8 * i) % 2 ^ 8 := by
    intro i hi
    have hj : (⟨4 * g + i, by omega⟩ : Idx).val / 4 = g := by
      simp only
      omega
    have hmod : (4 * g + i) % 4 = i := by omega
    have hsame := congrArg (fun a : Area => (a ⟨4 * g + i, by omega⟩).toNat) h
    simpa only [toNat_setChunk l g _ hj, hmod] using hsame
  have h0 := hbyte 0 (by decide)
  have h1 := hbyte 1 (by decide)
  have h2 := hbyte 2 (by decide)
  have h3 := hbyte 3 (by decide)
  have hk := k.toNat_lt
  have hk' := k'.toNat_lt
  apply UInt32.toNat_inj.mp
  omega

theorem setChunk_differ (l : Area) (g : Nat) (k k' : UInt32) :
    daemon.DifferOnlyIn g (List.ofFn (l.setChunk g k)) (List.ofFn (l.setChunk g k')) := by
  refine ⟨by simp, fun n hn => ?_⟩
  simp only [List.getElem?_ofFn]
  by_cases hlt : n < LSTATE_SIZE
  · simp [hlt, Area.setChunk, hn]
  · simp [hlt]

/-! ## The law -/

namespace daemon

/-- A filter index comes for the same number of seeds whatever the lstate, and, with any one
seed, for the same number of contents of a chunk whatever the chunk and the rest. The numbers
of any two indices differ by one at most. -/
theorem the_indices_are_spread_evenly (size_bits idx : UInt32) (h : idx < size_bits) (l : Area) :
    Set.ncard {seed | bfilter_get_hash_index size_bits l seed = idx} =
      words.shares size_bits idx ∧
    ∀ g, 4 * g + 4 ≤ LSTATE_SIZE → ∀ seed,
      Set.ncard {k | bfilter_get_hash_index size_bits (l.setChunk g k) seed = idx} =
        words.shares size_bits idx := by
  have h4 : ∀ l : Area, 4 ∣ (List.ofFn l).length := by
    intro l
    rw [List.length_ofFn, LSTATE_SIZE_eq]
    decide
  refine ⟨words.ncard_mod (hash_injective (h4 l)) h, fun g hg seed => ?_⟩
  have hinj : Function.Injective fun k => hash (List.ofFn (l.setChunk g k)) seed := by
    intro k k' heq
    by_contra hne
    have hlist : List.ofFn (l.setChunk g k) ≠ List.ofFn (l.setChunk g k') := fun hl =>
      hne (setChunk_injective l hg (List.ofFn_injective hl))
    exact hash_ne_of_differ (setChunk_differ l g k k') (h4 _) hlist seed heq
  exact words.ncard_mod hinj h

/-- In the filter of the daemon, eight of the contents of the first chunk lead to the first
bit. -/
theorem eight_contents_for_a_bit :
    Set.ncard {seed | bfilter_get_hash_index (bfilter_size_bits bfilter_size) Area.zero seed = 0} =
      8 ∧
    Set.ncard {k | bfilter_get_hash_index (bfilter_size_bits bfilter_size)
      (Area.zero.setChunk 0 k) 0 = 0} = 8 := by
  have hspread := the_indices_are_spread_evenly (bfilter_size_bits bfilter_size) 0 (by decide)
    Area.zero
  have h8 : words.shares (bfilter_size_bits bfilter_size) 0 = 8 := by decide
  rw [h8] at hspread
  exact ⟨hspread.1, hspread.2 0 (by decide) 0⟩

end daemon

end lscov
