-- The Bloom filter of the daemon: MurmurHash over an lstate, and the bits
-- that a recorded lstate sets.
import LogicStateCoverage.LogicState

namespace lscov.daemon

/-! ## Parameters -/

/-- Bloom filter size, in bytes. -/
def bfilter_size : UInt32 := 0x4000000

/-- Number of hashes. -/
def num_hashes : UInt8 := 4

/-- Bloom filter size, in bits, as `bfilter_init` sets it. -/
def bfilter_size_bits (size : UInt32) : UInt32 := size <<< 3

/-- The bytes of the filter. -/
abbrev Bfilter := Nat → UInt8

/-- The filter as `mmap` with `MAP_ANONYMOUS` gives it. -/
def Bfilter.zero : Bfilter := fun _ => 0

/-! ## The hash -/

/-- A 4 byte chunk of the key, as a little-endian machine reads it. -/
def chunk (b0 b1 b2 b3 : UInt8) : UInt32 :=
  b0.toUInt32 ||| b1.toUInt32 <<< 8 ||| b2.toUInt32 <<< 16 ||| b3.toUInt32 <<< 24

def rotl (x r : UInt32) : UInt32 := x <<< r ||| x >>> (32 - r)

/-- Encode a chunk: `c1`, `r1`, `c2`. -/
def encode (k : UInt32) : UInt32 := rotl (k * 0xcc9e2d51) 15 * 0x1b873593

/-- Append an encoded chunk to the hash: `r2`, `m`, `n`. -/
def append (h k : UInt32) : UInt32 := rotl (h ^^^ k) 13 * 5 + 0xe6546b64

/-- The loop over the 4 byte chunks. It gives the hash so far and the tail. -/
def hash_chunks (h : UInt32) : List UInt8 → UInt32 × List UInt8
  | b0 :: b1 :: b2 :: b3 :: rest => hash_chunks (append h (encode (chunk b0 b1 b2 b3))) rest
  | tail => (h, tail)

/-- The `switch` on the length of the tail, with its fall-through. -/
def hash_tail (h : UInt32) : List UInt8 → UInt32
  | [t0, t1, t2] => h ^^^ encode (t2.toUInt32 <<< 16 ^^^ t1.toUInt32 <<< 8 ^^^ t0.toUInt32)
  | [t0, t1] => h ^^^ encode (t1.toUInt32 <<< 8 ^^^ t0.toUInt32)
  | [t0] => h ^^^ encode t0.toUInt32
  | _ => h

/-- The last mix: xor-shifts and odd factors. -/
def hash_finish (h len : UInt32) : UInt32 :=
  let h := h ^^^ len
  let h := h ^^^ h >>> 16
  let h := h * 0x85ebca6b
  let h := h ^^^ h >>> 13
  let h := h * 0xc2b2ae35
  h ^^^ h >>> 16

/-- The 32-bit hash of a key, before the reduction to a filter index. -/
def hash (key : List UInt8) (seed : UInt32) : UInt32 :=
  let (h, tail) := hash_chunks seed key
  hash_finish (hash_tail h tail) (UInt32.ofNat key.length)

def bfilter_get_hash_index (size_bits : UInt32) (lstate : Area) (seed : UInt32) : UInt32 :=
  hash (List.ofFn lstate) seed % size_bits

/-- With the sizes of the daemon, every index is inside the filter. -/
theorem bfilter_get_hash_index_lt (lstate : Area) (seed : UInt32) :
    bfilter_get_hash_index (bfilter_size_bits bfilter_size) lstate seed >>> 3 < bfilter_size := by
  unfold bfilter_get_hash_index
  generalize hash (List.ofFn lstate) seed = x
  rw [UInt32.lt_iff_toNat_lt, UInt32.toNat_shiftRight, UInt32.toNat_mod]
  have hbits : (bfilter_size_bits bfilter_size).toNat = 536870912 := by decide
  have hsize : bfilter_size.toNat = 67108864 := by decide
  have hmod := Nat.mod_lt x.toNat (show 0 < 536870912 by decide)
  have h3 : UInt32.toNat 3 % 32 = 3 := by decide
  rw [hbits, hsize, h3, Nat.shiftRight_eq_div_pow]
  omega

/-! ## The filter -/

/-- `none` is the `FATAL` on a bogus `byte_idx`. -/
def bfilter_set_1_by_index (size : UInt32) (bfilter : Bfilter) (idx : UInt32) : Option Bfilter :=
  let byte_idx := idx >>> 3
  let bit_idx := (idx &&& 0x07).toUInt8
  if byte_idx ≥ size then none
  else
    some (Function.update bfilter byte_idx.toNat (bfilter byte_idx.toNat ||| 1 <<< bit_idx))

theorem bfilter_set_1_by_index_ok {size idx : UInt32} (b : Bfilter) (h : idx >>> 3 < size) :
    ∃ b', bfilter_set_1_by_index size b idx = some b' := by
  unfold bfilter_set_1_by_index
  rw [if_neg (UInt32.not_le.mpr h)]
  exact ⟨_, rfl⟩

/-- The filter indices that the update loop of `lscov_loop` sets for one lstate. -/
def hash_indices (lstate : Area) : List UInt32 :=
  (List.range num_hashes.toNat).map fun h =>
    bfilter_get_hash_index (bfilter_size_bits bfilter_size) lstate (UInt32.ofNat h)

end lscov.daemon
