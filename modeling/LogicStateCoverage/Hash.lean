-- The laws of the hash before its reduction (`bfilter_get_hash_index`): every
-- turn of the chunk loop and every step of the last mix is a permutation, so
-- seeds are never confused, and neither are close lstates.
import Mathlib.Algebra.GroupWithZero.Nat
import LogicStateCoverage.BloomFilter
import LogicStateCoverage.Words

namespace lscov.daemon

/-! ## One turn of the chunk loop -/

variable {h h' k k' : UInt32} {key key' : List UInt8}

theorem rotl_15_injective : Function.Injective fun x => rotl x 15 :=
  words.rotl_injective (by decide) (by decide)

theorem rotl_13_injective : Function.Injective fun x => rotl x 13 :=
  words.rotl_injective (by decide) (by decide)

theorem encode_injective : Function.Injective encode := by
  have hc1 := words.mul_injective (c := 0xcc9e2d51) (d := 0xdee13bb1) (by decide)
  have hc2 := words.mul_injective (c := 0x1b873593) (d := 0x56ed309b) (by decide)
  exact hc2.comp (rotl_15_injective.comp hc1)

theorem append_eq_iff : append h k = append h' k' ↔ h ^^^ k = h' ^^^ k' := by
  have hm := words.mul_injective (c := 5) (d := 0xcccccccd) (by decide)
  unfold append
  rw [UInt32.add_left_inj, hm.eq_iff (a := rotl _ 13), rotl_13_injective.eq_iff (a := _ ^^^ _)]

/-- The bytes of a chunk are its digits to base 256. -/
theorem toNat_chunk (b0 b1 b2 b3 : UInt8) :
    (chunk b0 b1 b2 b3).toNat =
      b0.toNat + b1.toNat * 2 ^ 8 + b2.toNat * 2 ^ 16 + b3.toNat * 2 ^ 24 := by
  have h0 := b0.toNat_lt
  have h1 := b1.toNat_lt
  have h2 := b2.toNat_lt
  have h3 := b3.toNat_lt
  have e8 : UInt32.toNat 8 = 8 := rfl
  have e16 : UInt32.toNat 16 = 16 := rfl
  have e24 : UInt32.toNat 24 = 24 := rfl
  have c1 : (b0.toUInt32 ||| b1.toUInt32 <<< 8).toNat = b0.toNat + b1.toNat * 2 ^ 8 := by
    rw [words.toNat_or_shiftLeft] <;> simp only [UInt8.toNat_toUInt32, e8] <;> omega
  have c2 : (b0.toUInt32 ||| b1.toUInt32 <<< 8 ||| b2.toUInt32 <<< 16).toNat =
      b0.toNat + b1.toNat * 2 ^ 8 + b2.toNat * 2 ^ 16 := by
    rw [words.toNat_or_shiftLeft] <;> simp only [UInt8.toNat_toUInt32, e16, c1] <;> omega
  unfold chunk
  rw [words.toNat_or_shiftLeft] <;> simp only [UInt8.toNat_toUInt32, e24, c2] <;> omega

theorem chunk_injective {b0 b1 b2 b3 c0 c1 c2 c3 : UInt8}
    (h : chunk b0 b1 b2 b3 = chunk c0 c1 c2 c3) : b0 = c0 ∧ b1 = c1 ∧ b2 = c2 ∧ b3 = c3 := by
  have hn := congrArg UInt32.toNat h
  rw [toNat_chunk, toNat_chunk] at hn
  simp only [← UInt8.toNat_inj]
  have b0l := b0.toNat_lt
  have b1l := b1.toNat_lt
  have b2l := b2.toNat_lt
  have c0l := c0.toNat_lt
  have c1l := c1.toNat_lt
  have c2l := c2.toNat_lt
  omega

/-! ## The whole loop -/

theorem hash_chunks_cons (h : UInt32) (b0 b1 b2 b3 : UInt8) (rest : List UInt8) :
    hash_chunks h (b0 :: b1 :: b2 :: b3 :: rest) =
      hash_chunks (append h (encode (chunk b0 b1 b2 b3))) rest := by
  conv_lhs => unfold hash_chunks

theorem hash_chunks_of_lt (h : UInt32) {tail : List UInt8} (hlt : tail.length < 4) :
    hash_chunks h tail = (h, tail) := by
  match tail, hlt with
  | [], _ => rfl
  | [_], _ => rfl
  | [_, _], _ => rfl
  | [_, _, _], _ => rfl

/-- The induction of the loop: a tail, or a chunk before a shorter key. -/
theorem chunk_induction {P : List UInt8 → Prop} (tail : ∀ t, t.length < 4 → P t)
    (chunk : ∀ b0 b1 b2 b3 rest, P rest → P (b0 :: b1 :: b2 :: b3 :: rest)) :
    ∀ key, P key
  | [] => tail _ (by simp)
  | [_] => tail _ (by simp)
  | [_, _] => tail _ (by simp)
  | [_, _, _] => tail _ (by simp)
  | b0 :: b1 :: b2 :: b3 :: rest => chunk b0 b1 b2 b3 rest (chunk_induction tail chunk rest)

theorem hash_chunks_injective (key : List UInt8) :
    Function.Injective fun h => (hash_chunks h key).1 := by
  induction key using chunk_induction with
  | tail t hlt =>
    intro h h' heq
    simpa only [hash_chunks_of_lt _ hlt] using heq
  | chunk b0 b1 b2 b3 rest ih =>
    intro h h' heq
    simp only [hash_chunks_cons] at heq
    exact (UInt32.xor_left_inj _).mp (append_eq_iff.mp (ih heq))

/-- A key of whole chunks leaves no tail. -/
theorem hash_chunks_tail (h : UInt32) (h4 : 4 ∣ key.length) : (hash_chunks h key).2 = [] := by
  induction key using chunk_induction generalizing h with
  | tail t hlt =>
    rw [hash_chunks_of_lt h hlt]
    exact List.eq_nil_of_length_eq_zero (Nat.eq_zero_of_dvd_of_lt h4 hlt)
  | chunk b0 b1 b2 b3 rest ih =>
    rw [hash_chunks_cons]
    simp only [List.length_cons] at h4
    exact ih _ (by omega)

/-- Whole chunks at the front are hashed first. -/
theorem hash_chunks_append (h : UInt32) (rest : List UInt8) (h4 : 4 ∣ key.length) :
    hash_chunks h (key ++ rest) = hash_chunks (hash_chunks h key).1 rest := by
  induction key using chunk_induction generalizing h with
  | tail t hlt =>
    obtain rfl := List.eq_nil_of_length_eq_zero (Nat.eq_zero_of_dvd_of_lt h4 hlt)
    rfl
  | chunk b0 b1 b2 b3 front ih =>
    simp only [List.length_cons] at h4
    simp only [List.cons_append, hash_chunks_cons]
    exact ih _ (by omega)

/-! ## The last mix -/

theorem hash_finish_injective (len : UInt32) : Function.Injective fun h => hash_finish h len := by
  have h16 := words.xor_shiftRight_injective (k := 16) (by decide)
  have h13 := words.xor_shiftRight_injective (k := 13) (by decide)
  have m1 := words.mul_injective (c := 0x85ebca6b) (d := 0xa5cb9243) (by decide)
  have m2 := words.mul_injective (c := 0xc2b2ae35) (d := 0x7ed1b41d) (by decide)
  intro h h' heq
  exact (UInt32.xor_left_inj len).mp (h16 (m1 (h13 (m2 (h16 heq)))))

/-- Without a tail, the hash is the last mix of what the loop gives. -/
theorem hash_eq (seed : UInt32) (h4 : 4 ∣ key.length) :
    hash key seed = hash_finish (hash_chunks seed key).1 (UInt32.ofNat key.length) := by
  unfold hash
  rw [show hash_chunks seed key = ((hash_chunks seed key).1, []) from
    Prod.ext rfl (hash_chunks_tail seed h4)]
  rfl

theorem hash_injective (h4 : 4 ∣ key.length) : Function.Injective (hash key) := by
  intro seed seed' heq
  rw [hash_eq seed h4, hash_eq seed' h4] at heq
  exact hash_chunks_injective key (hash_finish_injective _ heq)

/-! ## Keys that differ in one chunk -/

/-- The keys differ at most inside the aligned group `g` of four bytes. -/
def DifferOnlyIn (g : Nat) (key key' : List UInt8) : Prop :=
  key.length = key'.length ∧ ∀ n, n / 4 ≠ g → key[n]? = key'[n]?

theorem exists_chunk {l : List UInt8} (h : 4 ≤ l.length) :
    ∃ b0 b1 b2 b3, l = b0 :: b1 :: b2 :: b3 :: l.drop 4 := by
  match l, h with
  | b0 :: b1 :: b2 :: b3 :: rest, _ => exact ⟨b0, b1, b2, b3, rfl⟩

/-- Different keys that agree outside a group have that group inside them. -/
theorem DifferOnlyIn.group_lt {g : Nat} (hd : DifferOnlyIn g key key') (h4 : 4 ∣ key.length)
    (hne : key ≠ key') : 4 * g + 4 ≤ key.length := by
  by_contra hlt
  apply hne
  apply List.ext_getElem?
  intro n
  by_cases hn : n / 4 = g
  · rw [List.getElem?_eq_none (by omega), List.getElem?_eq_none (by have := hd.1; omega)]
  · exact hd.2 n hn

theorem DifferOnlyIn.split {g : Nat} (hd : DifferOnlyIn g key key') (h4 : 4 ∣ key.length)
    (hne : key ≠ key') :
    ∃ front rest b0 b1 b2 b3 c0 c1 c2 c3, 4 ∣ front.length ∧
      key = front ++ b0 :: b1 :: b2 :: b3 :: rest ∧
      key' = front ++ c0 :: c1 :: c2 :: c3 :: rest := by
  have hlen := hd.group_lt h4 hne
  have hlen' : 4 * g + 4 ≤ key'.length := hd.1 ▸ hlen
  have hfront : key'.take (4 * g) = key.take (4 * g) := by
    apply List.ext_getElem?
    intro n
    rw [List.getElem?_take, List.getElem?_take]
    split
    · exact (hd.2 n (by omega)).symm
    · rfl
  have hrest : (key'.drop (4 * g)).drop 4 = (key.drop (4 * g)).drop 4 := by
    apply List.ext_getElem?
    intro n
    rw [List.drop_drop, List.drop_drop, List.getElem?_drop, List.getElem?_drop]
    exact (hd.2 _ (by omega)).symm
  obtain ⟨b0, b1, b2, b3, hb⟩ := exists_chunk (l := key.drop (4 * g)) (by
    rw [List.length_drop]
    omega)
  obtain ⟨c0, c1, c2, c3, hc⟩ := exists_chunk (l := key'.drop (4 * g)) (by
    rw [List.length_drop]
    omega)
  refine ⟨key.take (4 * g), (key.drop (4 * g)).drop 4, b0, b1, b2, b3, c0, c1, c2, c3, ?_, ?_, ?_⟩
  · rw [List.length_take, Nat.min_eq_left (by omega)]
    exact Nat.dvd_mul_right 4 g
  · rw [← hb, List.take_append_drop]
  · rw [← hfront, ← hrest, ← hc, List.take_append_drop]

/-- One chunk of difference is enough: what comes before it and after it is the same, and
the rounds after it lose nothing. -/
theorem eq_of_hash_chunks_eq {b0 b1 b2 b3 c0 c1 c2 c3 : UInt8} {front rest : List UInt8}
    (seed : UInt32) (h4 : 4 ∣ front.length)
    (h : (hash_chunks seed (front ++ b0 :: b1 :: b2 :: b3 :: rest)).1 =
      (hash_chunks seed (front ++ c0 :: c1 :: c2 :: c3 :: rest)).1) :
    b0 = c0 ∧ b1 = c1 ∧ b2 = c2 ∧ b3 = c3 := by
  simp only [hash_chunks_append _ _ h4, hash_chunks_cons] at h
  have hadd := append_eq_iff.mp (hash_chunks_injective rest h)
  exact chunk_injective (encode_injective ((UInt32.xor_right_inj _).mp hadd))

theorem hash_ne_of_differ {g : Nat} (hd : DifferOnlyIn g key key') (h4 : 4 ∣ key.length)
    (hne : key ≠ key') (seed : UInt32) : hash key seed ≠ hash key' seed := by
  intro heq
  have h4' : 4 ∣ key'.length := hd.1 ▸ h4
  rw [hash_eq seed h4, hash_eq seed h4', hd.1] at heq
  have hchunks := hash_finish_injective _ heq
  obtain ⟨front, rest, b0, b1, b2, b3, c0, c1, c2, c3, hf, rfl, rfl⟩ := hd.split h4 hne
  obtain ⟨rfl, rfl, rfl, rfl⟩ := eq_of_hash_chunks_eq seed hf hchunks
  exact hne rfl

/-! ## The laws -/

/-- On keys of whole chunks, the hash is a permutation of the seeds, so the seeds of
`lscov_loop` never agree. And with one seed, keys that differ inside one aligned group of
four bytes never agree. -/
theorem close_keys_and_seeds_hash_apart (key : List UInt8) (h4 : 4 ∣ key.length) :
    Function.Bijective (hash key) ∧
    (∀ i j, i < j → j < num_hashes.toNat →
      hash key (UInt32.ofNat i) ≠ hash key (UInt32.ofNat j)) ∧
    ∀ key' g, DifferOnlyIn g key key' → key ≠ key' →
      ∀ seed, hash key seed ≠ hash key' seed := by
  refine ⟨words.bijective_of_injective (hash_injective h4), ?_, ?_⟩
  · intro i j hij hj heq
    have hn := congrArg UInt32.toNat (hash_injective h4 heq)
    have h256 := num_hashes.toNat_lt
    simp only [UInt32.toNat_ofNat'] at hn
    omega
  · intro key' g hd hne seed
    exact hash_ne_of_differ hd h4 hne seed

/-- The lstate of the daemon is a key of whole chunks. -/
theorem no_seeds_agree_on_the_empty_lstate :
    4 ∣ (List.ofFn (Area.zero)).length ∧
      hash (List.ofFn Area.zero) 0 ≠ hash (List.ofFn Area.zero) 1 := by
  have h4 : 4 ∣ (List.ofFn Area.zero).length := by
    rw [List.length_ofFn]
    decide
  exact ⟨h4, (close_keys_and_seeds_hash_apart _ h4).2.1 0 1 (by decide) (by decide)⟩

end lscov.daemon
