-- The laws of memory. A row of bytes is read and written in words of 16 and 64 bits,
-- on a machine of either byte order.
import Mathlib.Data.Nat.Digits.Defs
import Mathlib.Data.Nat.Digits.Lemmas

namespace memory

abbrev Bytes := Nat → UInt8

inductive ByteOrder where
  | little
  | big

/-- The 16-bit word with the two bytes `hi` and `lo`. -/
def join (hi lo : UInt8) : UInt16 := hi.toUInt16 <<< 8 ||| lo.toUInt16

def lo (v : UInt16) : UInt8 := v.toUInt8

def hi (v : UInt16) : UInt8 := (v >>> 8).toUInt8

theorem toNat_join (h l : UInt8) : (join h l).toNat = 256 * h.toNat + l.toNat := by
  have hh := h.toNat_lt
  have hl := l.toNat_lt
  unfold join
  rw [UInt16.toNat_or, UInt16.toNat_shiftLeft, UInt8.toNat_toUInt16, UInt8.toNat_toUInt16,
    show UInt16.toNat 8 % 16 = 8 by decide, Nat.mod_eq_of_lt (by rw [Nat.shiftLeft_eq]; omega),
    ← Nat.shiftLeft_add_eq_or_of_lt hl, Nat.shiftLeft_eq]
  omega

@[simp] theorem lo_join (h l : UInt8) : lo (join h l) = l := by
  apply UInt8.toNat_inj.mp
  have hl := l.toNat_lt
  unfold lo
  rw [UInt16.toNat_toUInt8, toNat_join]
  omega

@[simp] theorem hi_join (h l : UInt8) : hi (join h l) = h := by
  apply UInt8.toNat_inj.mp
  have hh := h.toNat_lt
  have hl := l.toNat_lt
  unfold hi
  rw [UInt16.toNat_toUInt8, UInt16.toNat_shiftRight, toNat_join,
    show UInt16.toNat 8 % 16 = 8 by decide, Nat.shiftRight_eq_div_pow]
  omega

/-! ## Words of 16 bits -/

def load16 (o : ByteOrder) (m : Bytes) (k : Nat) : UInt16 :=
  match o with
  | .little => join (m (2 * k + 1)) (m (2 * k))
  | .big => join (m (2 * k)) (m (2 * k + 1))

def store16 (o : ByteOrder) (m : Bytes) (k : Nat) (v : UInt16) : Bytes :=
  match o with
  | .little => Function.update (Function.update m (2 * k) (lo v)) (2 * k + 1) (hi v)
  | .big => Function.update (Function.update m (2 * k) (hi v)) (2 * k + 1) (lo v)

/-- The word whose bytes are those of `v`, each changed by `f`. -/
def eachByte (f : UInt8 → UInt8) (v : UInt16) : UInt16 := join (f (hi v)) (f (lo v))

variable {o : ByteOrder} {m mem : Bytes} {f : UInt8 → UInt8} {k w n : Nat}

/-- A word that is loaded, changed byte by byte and stored: so are its bytes. -/
theorem store16_eachByte (h : n / 2 = k) :
    store16 o m k (eachByte f (load16 o mem k)) n = f (mem n) := by
  have hn : n = 2 * k ∨ n = 2 * k + 1 := by omega
  cases o with
  | little => rcases hn with rfl | rfl <;> simp [store16, load16, eachByte]
  | big => rcases hn with rfl | rfl <;> simp [store16, load16, eachByte]

theorem store16_of_ne {v : UInt16} (h : n / 2 ≠ k) : store16 o m k v n = m n := by
  have h0 : n ≠ 2 * k := by omega
  have h1 : n ≠ 2 * k + 1 := by omega
  cases o <;> simp [store16, h0, h1]

/-! ## Words of 64 bits -/

def load64 (o : ByteOrder) (m : Bytes) (w : Nat) : UInt64 :=
  let digits := (List.range 8).map fun j => (m (8 * w + j)).toNat
  match o with
  | .little => UInt64.ofNat (Nat.ofDigits 256 digits)
  | .big => UInt64.ofNat (Nat.ofDigits 256 digits.reverse)

/-- A word of 64 bits with all its bits 0 is stored. -/
def clear64 (m : Bytes) (w : Nat) : Bytes :=
  (List.range 8).foldl (fun m j => Function.update m (8 * w + j) 0) m

theorem clear64_eq (m : Bytes) (w n : Nat) : clear64 m w n = if n / 8 = w then 0 else m n := by
  have hfold : ∀ c ≤ 8, (List.range c).foldl (fun m j => Function.update m (8 * w + j) 0) m n =
      if 8 * w ≤ n ∧ n < 8 * w + c then 0 else m n := by
    intro c hc
    induction c with
    | zero => rw [if_neg (by omega)]; rfl
    | succ c ih =>
      rw [List.range_succ, List.foldl_append, List.foldl_cons, List.foldl_nil]
      by_cases hn : n = 8 * w + c
      · rw [hn, Function.update_self, if_pos (by omega)]
      · rw [Function.update_of_ne hn, ih (by omega)]
        congr 1
        apply propext
        omega
  unfold clear64
  rw [hfold 8 (le_refl 8)]
  congr 1
  apply propext
  omega

/-- Only bytes that are all 0 make a word that is 0. -/
theorem eq_zero_of_ofDigits {bytes : List UInt8} (hlen : bytes.length = 8)
    (h : UInt64.ofNat (Nat.ofDigits 256 (bytes.map UInt8.toNat)) = 0) : ∀ b ∈ bytes, b = 0 := by
  have hlt : Nat.ofDigits 256 (bytes.map UInt8.toNat) < 256 ^ (bytes.map UInt8.toNat).length := by
    apply Nat.ofDigits_lt_base_pow_length (by decide)
    intro d hd
    obtain ⟨b, -, rfl⟩ := List.mem_map.mp hd
    exact b.toNat_lt
  rw [List.length_map, hlen, show 256 ^ 8 = 2 ^ 64 by decide] at hlt
  have hzero : Nat.ofDigits 256 (bytes.map UInt8.toNat) = 0 := by
    have h' := congrArg UInt64.toNat h
    rw [UInt64.toNat_ofNat', Nat.mod_eq_of_lt hlt] at h'
    exact h'
  intro b hb
  apply UInt8.toNat_inj.mp
  exact Nat.digits_zero_of_eq_zero (by decide) hzero _ (List.mem_map_of_mem hb)

theorem eq_zero_of_load64 (h : load64 o m w = 0) (hn : n / 8 = w) : m n = 0 := by
  let bytes := (List.range 8).map fun j => m (8 * w + j)
  have hmem : m n ∈ bytes :=
    List.mem_map.mpr ⟨n % 8, List.mem_range.mpr (by omega), by congr 1; omega⟩
  have hdigits : (List.range 8).map (fun j => (m (8 * w + j)).toNat) = bytes.map UInt8.toNat := by
    rw [List.map_map]
    rfl
  unfold load64 at h
  simp only [hdigits] at h
  cases o with
  | little => exact eq_zero_of_ofDigits (by simp [bytes]) h _ hmem
  | big =>
    simp only [← List.map_reverse] at h
    exact eq_zero_of_ofDigits (by simp [bytes]) h _ (List.mem_reverse.mpr hmem)

end memory
