-- The laws of the counting builds. The daemon buckets the hit counts a word at a
-- time, and each byte of the logic state is the bucket of its own count. A count is a
-- byte that wraps around, so a counting build agrees with the default build just when
-- no count is a positive multiple of 256.
import LogicStateCoverage.Memory
import LogicStateCoverage.Pass

namespace lscov

open memory

/-! ## The bucket tables -/

namespace daemon

/-- The four tables that the daemon is compiled with. -/
inductive Bucket where
  | BUCKET_1
  | BUCKET_LOG2_LOG3p2
  | BUCKET_LOG2_LOG4p1_p1
  | BUCKET_LOG2

def count_bucket_lookup8 (bucket : Bucket) (c : UInt8) : UInt8 :=
  match bucket with
  | .BUCKET_1 => if c = 0 then 0 else 1
  | .BUCKET_LOG2_LOG3p2 => if c = 0 then 0 else if c ≤ 8 then 1 else 2
  | .BUCKET_LOG2_LOG4p1_p1 => if c = 0 then 0 else if c ≤ 3 then 1 else if c ≤ 63 then 2 else 4
  | .BUCKET_LOG2 =>
    if c = 0 then 0 else if c ≤ 1 then 1 else if c ≤ 3 then 2 else if c ≤ 7 then 4
    else if c ≤ 15 then 8 else if c ≤ 31 then 16 else if c ≤ 63 then 32
    else if c ≤ 127 then 64 else 128

/-- An array of 65536 words of 16 bits. -/
abbrev Lookup16 := UInt16 → UInt16

/-- The inner loop of `hcount_init`: the entries for one `b1`. -/
def fill_row (lookup8 : UInt8 → UInt8) (t : Lookup16) (b1 : Nat) : Lookup16 :=
  (List.range 256).foldl (fun t b2 => Function.update t (UInt16.ofNat (b1 <<< 8 + b2))
    ((lookup8 (UInt8.ofNat b1)).toUInt16 <<< 8 ||| (lookup8 (UInt8.ofNat b2)).toUInt16)) t

/-- `count_bucket_lookup16` as the two loops of `hcount_init` leave it. -/
def count_bucket_lookup16 (lookup8 : UInt8 → UInt8) : Lookup16 :=
  (List.range 256).foldl (fill_row lookup8) fun _ => 0

/-- One turn of the loop of `hcount_bucket_to_lstate`. -/
def bucket_word (o : ByteOrder) (lookup16 : Lookup16) (mem dest : Bytes) (w : Nat) : Bytes :=
  if load64 o mem w ≠ 0 then
    (List.range 4).foldl
      (fun dest j => store16 o dest (4 * w + j) (lookup16 (load16 o mem (4 * w + j)))) dest
  else clear64 dest w

/-- The version of a bucket build. -/
def hcount_bucket_to_lstate (o : ByteOrder) (lookup16 : Lookup16) (hit_counts lstate : Bytes) :
    Bytes :=
  (List.range (LSTATE_SIZE >>> 3)).foldl (bucket_word o lookup16 hit_counts) lstate

variable {o : ByteOrder} {f : UInt8 → UInt8} {t : Lookup16} {mem dest lstate : Bytes} {v : UInt16}
  {w n : Nat}

/-! ## The table of words -/

theorem key_eq {b1 b2 : Nat} (h1 : b1 < 256) (h2 : b2 < 256) :
    UInt16.ofNat (b1 <<< 8 + b2) = v ↔ b1 = (hi v).toNat ∧ b2 = (lo v).toNat := by
  have hv := v.toNat_lt
  have hhi : (hi v).toNat = v.toNat / 256 := by
    unfold hi
    rw [UInt16.toNat_toUInt8, UInt16.toNat_shiftRight, show UInt16.toNat 8 % 16 = 8 by decide,
      Nat.shiftRight_eq_div_pow]
    omega
  have hlo : (lo v).toNat = v.toNat % 256 := UInt16.toNat_toUInt8 v
  rw [← UInt16.toNat_inj, UInt16.toNat_ofNat', Nat.shiftLeft_eq, hhi, hlo]
  omega

theorem fill_row_eq {b1 : Nat} (h1 : b1 < 256) :
    fill_row f t b1 v = if b1 = (hi v).toNat then eachByte f v else t v := by
  have hrow : ∀ c ≤ 256, (List.range c).foldl (fun t b2 => Function.update t
      (UInt16.ofNat (b1 <<< 8 + b2))
      ((f (UInt8.ofNat b1)).toUInt16 <<< 8 ||| (f (UInt8.ofNat b2)).toUInt16)) t v =
        if b1 = (hi v).toNat ∧ (lo v).toNat < c then eachByte f v else t v := by
    intro c hc
    induction c with
    | zero => simp
    | succ c ih =>
      rw [List.range_succ, List.foldl_append, List.foldl_cons, List.foldl_nil]
      by_cases hkey : UInt16.ofNat (b1 <<< 8 + c) = v
      · obtain ⟨h1', h2'⟩ := (key_eq h1 (by omega)).mp hkey
        rw [hkey, Function.update_self, if_pos ⟨h1', by omega⟩, h1', h2', UInt8.ofNat_toNat,
          UInt8.ofNat_toNat]
        rfl
      · rw [Function.update_of_ne (fun h => hkey h.symm), ih (by omega)]
        have hne : ¬ (b1 = (hi v).toNat ∧ c = (lo v).toNat) :=
          fun h => hkey ((key_eq h1 (by omega)).mpr h)
        congr 1
        apply propext
        omega
  unfold fill_row
  have hlt := (lo v).toNat_lt
  rw [hrow 256 (le_refl _)]
  congr 1
  apply propext
  omega

/-- The table of words looks each byte of a word up. -/
theorem count_bucket_lookup16_eq : count_bucket_lookup16 f = eachByte f := by
  funext v
  have hrows : ∀ c ≤ 256, (List.range c).foldl (fill_row f) (fun _ => 0) v =
      if (hi v).toNat < c then eachByte f v else 0 := by
    intro c hc
    induction c with
    | zero => rfl
    | succ c ih =>
      rw [List.range_succ, List.foldl_append, List.foldl_cons, List.foldl_nil,
        fill_row_eq (by omega), ih (by omega)]
      by_cases hc' : c = (hi v).toNat
      · rw [if_pos hc', if_pos (by omega)]
      · rw [if_neg hc']
        congr 1
        apply propext
        omega
  unfold count_bucket_lookup16
  rw [hrows 256 (le_refl _), if_pos (hi v).toNat_lt]

/-! ## Bucketing -/

/-- The turn for word `w` buckets its bytes and leaves the others. -/
theorem bucket_word_eq (h0 : f 0 = 0) :
    bucket_word o (eachByte f) mem dest w n = if n / 8 = w then f (mem n) else dest n := by
  unfold bucket_word
  split
  · have hhalves : ∀ c ≤ 4, (List.range c).foldl (fun dest j =>
        store16 o dest (4 * w + j) (eachByte f (load16 o mem (4 * w + j)))) dest n =
          if 4 * w ≤ n / 2 ∧ n / 2 < 4 * w + c then f (mem n) else dest n := by
      intro c hc
      induction c with
      | zero => rw [if_neg (by omega)]; rfl
      | succ c ih =>
        rw [List.range_succ, List.foldl_append, List.foldl_cons, List.foldl_nil]
        by_cases hn : n / 2 = 4 * w + c
        · rw [store16_eachByte hn, if_pos (by omega)]
        · rw [store16_of_ne hn, ih (by omega)]
          congr 1
          apply propext
          omega
    rw [hhalves 4 (le_refl 4)]
    congr 1
    apply propext
    omega
  · rename_i hzero
    rw [clear64_eq]
    split
    · rename_i hn
      rw [eq_zero_of_load64 (not_not.mp hzero) hn, h0]
    · rfl

/-- Bucketing a word at a time is bucketing a byte at a time. -/
theorem hcount_bucket_to_lstate_eq (h0 : f 0 = 0) (hn : n < LSTATE_SIZE) :
    hcount_bucket_to_lstate o (count_bucket_lookup16 f) mem lstate n = f (mem n) := by
  have hwords : ∀ c, (List.range c).foldl (bucket_word o (eachByte f) mem) lstate n =
      if n / 8 < c then f (mem n) else lstate n := by
    intro c
    induction c with
    | zero => rfl
    | succ c ih =>
      rw [List.range_succ, List.foldl_append, List.foldl_cons, List.foldl_nil, bucket_word_eq h0,
        ih]
      by_cases hc : n / 8 = c
      · rw [if_pos hc, if_pos (by omega)]
      · rw [if_neg hc]
        congr 1
        apply propext
        omega
  unfold hcount_bucket_to_lstate
  rw [count_bucket_lookup16_eq, hwords, if_pos]
  rw [LSTATE_SIZE_eq] at hn ⊢
  rw [Nat.shiftRight_eq_div_pow]
  omega

/-- Only a count of 0 has bucket 0. -/
theorem count_bucket_lookup8_eq_zero (bucket : Bucket) (c : UInt8) :
    count_bucket_lookup8 bucket c = 0 ↔ c = 0 := by
  unfold count_bucket_lookup8
  cases bucket <;> grind

/-- With each table and either byte order, each byte of the logic state is the bucket of
its own count, whatever was in the logic state before. -/
theorem bucketing_by_words_is_bucketing_by_bytes (o : ByteOrder) (bucket : Bucket)
    (hit_counts lstate : Bytes) (i : Idx) :
    hcount_bucket_to_lstate o (count_bucket_lookup16 (count_bucket_lookup8 bucket)) hit_counts
        lstate i.val =
      count_bucket_lookup8 bucket (hit_counts i.val) := by
  apply hcount_bucket_to_lstate_eq
  · exact (count_bucket_lookup8_eq_zero bucket 0).mpr rfl
  · exact i.isLt

end daemon

/-! ## Visits -/

open pass daemon

/-- The map that visits of instrumented blocks leave, from a cleared map. -/
def mapOf (build : Build) (prev : Idx) (locs : List Idx) : Area :=
  ((locs.flatMap fun c => (mapUpdate build c.val : List (Inst Empty))).foldl Inst.exec
    (⟨prev.val, 0, 0, 0⟩, Area.zero)).2

/-- The number of visits that index byte `i` of the map. -/
def hits (prev : Idx) (locs : List Idx) (i : Idx) : Nat := (visited prev locs).count i

/-- The bytes of the area, as the daemon reads them. -/
def Area.bytes (a : Area) : Bytes := fun n => if h : n < LSTATE_SIZE then a ⟨n, h⟩ else 0

/-- The logic state of the daemon in a bucket build, from any lstate before. -/
def bucketed (o : ByteOrder) (bucket : Bucket) (lstate : Bytes) (a : Area) : Area := fun i =>
  hcount_bucket_to_lstate o (count_bucket_lookup16 (count_bucket_lookup8 bucket)) a.bytes lstate i

theorem bucketed_eq (o : ByteOrder) (bucket : Bucket) (lstate : Bytes) (a : Area) (i : Idx) :
    bucketed o bucket lstate a i = count_bucket_lookup8 bucket (a i) := by
  unfold bucketed
  rw [hcount_bucket_to_lstate_eq ((count_bucket_lookup8_eq_zero bucket 0).mpr rfl) i.isLt]
  unfold Area.bytes
  rw [dif_pos i.isLt]

/-- The visits, one after the other. -/
theorem exec_visits {build : Build} (store : UInt8 → UInt8)
    (hone : ∀ (t : Thread) (a : Area) (p c : Idx), t.prevLoc = p.val →
      ∃ t', ((mapUpdate build c.val : List (Inst Empty)).foldl Inst.exec (t, a)) =
        (t', a.set (mapIndex p c) (store (a (mapIndex p c)))) ∧ t'.prevLoc = (shiftLoc c).val)
    (locs : List Idx) (t : Thread) (a : Area) (p : Idx) (hp : t.prevLoc = p.val) :
    ((locs.flatMap fun c => (mapUpdate build c.val : List (Inst Empty))).foldl Inst.exec
        (t, a)).2 =
      (visited p locs).foldl (fun a i => a.set i (store (a i))) a := by
  induction locs generalizing t a p with
  | nil => rfl
  | cons c locs ih =>
    obtain ⟨t', ht', hp'⟩ := hone t a p c hp
    rw [List.flatMap_cons, List.foldl_append, ht', ih t' _ _ hp']
    rfl

theorem mapOf_bitmap (prev : Idx) (locs : List Idx) :
    mapOf .bitmap prev locs = Area.zero.storeAll (visited prev locs) :=
  exec_visits (fun _ => 1) (exec_mapUpdate Empty) locs _ _ prev rfl

/-- Increments from `a` on: a byte that wraps around. -/
theorem foldl_incr (is : List Idx) (a : Area) (i : Idx) :
    (is.foldl (fun a j => a.set j (a j + 1)) a) i = a i + UInt8.ofNat (is.count i) := by
  induction is generalizing a with
  | nil => simp
  | cons j is ih =>
    rw [List.foldl_cons, ih]
    by_cases hj : j = i
    · rw [hj, Area.set_self, List.count_cons_self, UInt8.ofNat_add, UInt8.add_assoc,
        UInt8.add_comm (UInt8.ofNat _)]
      rfl
    · rw [Area.set_ne _ _ (Ne.symm hj), List.count_cons_of_ne hj]

theorem mapOf_bucket (prev : Idx) (locs : List Idx) (i : Idx) :
    mapOf .bucket prev locs i = UInt8.ofNat (hits prev locs i) := by
  have hmap : mapOf .bucket prev locs =
      (visited prev locs).foldl (fun a j => a.set j (a j + 1)) Area.zero :=
    exec_visits (fun b => b + 1) (exec_mapUpdate_bucket Empty) locs _ _ prev rfl
  rw [hmap, foldl_incr]
  exact UInt8.zero_add _

/-! ## The law -/

/-- With each table, the visited bytes of the lstate are those that are not 0, and with
`BUCKET_1` the lstate is that of the default build, which copies the map. -/
def BuildsAgree (o : ByteOrder) (lstate : Bytes) (prev : Idx) (locs : List Idx) : Prop :=
  (∀ bucket i, i ≠ 0 →
    (bucketed o bucket lstate (mapOf .bucket prev locs) i ≠ 0 ↔ 0 < hits prev locs i)) ∧
  ∀ i, i ≠ 0 → bucketed o .BUCKET_1 lstate (mapOf .bucket prev locs) i = mapOf .bitmap prev locs i

/-- No byte of the map but the first is hit a positive multiple of 256 times. -/
def NoWrap (prev : Idx) (locs : List Idx) : Prop :=
  ∀ i, i ≠ 0 → 0 < hits prev locs i → ¬ 256 ∣ hits prev locs i

variable {o : ByteOrder} {lstate : Bytes} {prev : Idx} {locs : List Idx} {i : Idx}

theorem ofNat_eq_zero_iff (n : Nat) : UInt8.ofNat n = 0 ↔ 256 ∣ n := by
  rw [← UInt8.toNat_inj, UInt8.toNat_ofNat', Nat.dvd_iff_mod_eq_zero]
  rfl

theorem bucketed_ne_zero (bucket : Bucket) :
    bucketed o bucket lstate (mapOf .bucket prev locs) i ≠ 0 ↔ ¬ 256 ∣ hits prev locs i := by
  rw [bucketed_eq, mapOf_bucket, Ne, count_bucket_lookup8_eq_zero, ofNat_eq_zero_iff]

theorem mapOf_bitmap_of_hit (h : 0 < hits prev locs i) : mapOf .bitmap prev locs i = 1 := by
  rw [mapOf_bitmap]
  exact Area.storeAll_of_mem _ (List.count_pos_iff.mp h)

theorem mapOf_bitmap_of_not_hit (h : hits prev locs i = 0) : mapOf .bitmap prev locs i = 0 := by
  rw [mapOf_bitmap]
  exact Area.storeAll_of_not_mem _ (List.count_eq_zero.mp h)

/-- Without a wrap-around, the lstate with `BUCKET_1` is the map of the default build. -/
theorem bucket_1_eq (h : NoWrap prev locs) (hi : i ≠ 0) :
    bucketed o .BUCKET_1 lstate (mapOf .bucket prev locs) i = mapOf .bitmap prev locs i := by
  rcases Nat.eq_zero_or_pos (hits prev locs i) with h0 | hpos
  · rw [bucketed_eq, mapOf_bucket, mapOf_bitmap_of_not_hit h0, h0]
    rfl
  · have hne : UInt8.ofNat (hits prev locs i) ≠ 0 :=
      fun h0 => h i hi hpos ((ofNat_eq_zero_iff _).mp h0)
    rw [bucketed_eq, mapOf_bucket, mapOf_bitmap_of_hit hpos]
    exact if_neg hne

theorem buildsAgree_of_noWrap (h : NoWrap prev locs) : BuildsAgree o lstate prev locs := by
  refine ⟨?_, fun i hi => bucket_1_eq h hi⟩
  intro bucket i hi
  rw [bucketed_ne_zero]
  constructor
  · intro hd
    apply Nat.pos_of_ne_zero
    intro h0
    exact hd (h0 ▸ Nat.dvd_zero 256)
  · exact h i hi

/-- A counting build agrees with the default build just when no count wraps around to 0.
Then both tell the same logic states apart. -/
theorem the_counting_builds_agree_iff (o : ByteOrder) (lstate : Bytes) :
    (∀ prev locs, BuildsAgree o lstate prev locs ↔ NoWrap prev locs) ∧
    (∀ prev locs prev' locs', NoWrap prev locs → NoWrap prev' locs' →
      ((∀ i, i ≠ 0 → bucketed o .BUCKET_1 lstate (mapOf .bucket prev locs) i =
          bucketed o .BUCKET_1 lstate (mapOf .bucket prev' locs') i) ↔
        ∀ i, i ≠ 0 → mapOf .bitmap prev locs i = mapOf .bitmap prev' locs' i)) := by
  constructor
  · intro prev locs
    constructor
    · intro h i hi hpos
      exact (bucketed_ne_zero .BUCKET_1).mp ((h.1 .BUCKET_1 i hi).mpr hpos)
    · exact buildsAgree_of_noWrap
  · intro prev locs prev' locs' h h'
    constructor
    · intro hsame i hi
      rw [← bucket_1_eq h hi, ← bucket_1_eq h' hi]
      exact hsame i hi
    · intro hsame i hi
      rw [bucket_1_eq h hi, bucket_1_eq h' hi]
      exact hsame i hi

/-- A block with location 1 that is visited again and again hits byte 1. -/
theorem visited_replicate (n : Nat) : visited 0 (List.replicate n 1) = List.replicate n 1 := by
  induction n with
  | zero => rfl
  | succ n ih =>
    rw [List.replicate_succ, visited, show shiftLoc 1 = 0 by decide, ih]
    rfl

/-- A hot loop: 256 visits look like none. -/
theorem a_hot_loop_looks_unvisited :
    hits 0 (List.replicate 256 1) 1 = 256 ∧
      ∀ o lstate, ¬ BuildsAgree o lstate 0 (List.replicate 256 1) := by
  have hhits : hits 0 (List.replicate 256 1) 1 = 256 := by
    unfold hits
    rw [visited_replicate, List.count_replicate_self]
  refine ⟨hhits, ?_⟩
  intro o lstate h
  have hne := (h.1 .BUCKET_1 1 (by decide)).mpr (by rw [hhits]; decide)
  rw [bucketed_ne_zero, hhits] at hne
  exact hne (by decide)

end lscov
