-- The law of tallies. Report threads count the filter one word at a time while the
-- main loop sets bits in it. A tally that does not wrap around is no less than the
-- number of bits when it began and no more than the number when it returned, so
-- tallies that do not overlap never go down.
import LogicStateCoverage.Filter
import LogicStateCoverage.Runs

namespace lscov.daemon

open bitmaps runs

/-! ## Tallies beside the main loop -/

/-- A report thread in `bfilter_get_num_1s`. -/
structure Report where
  tally : Tally
  /-- The filter when the tally began. -/
  before : Bfilter
  /-- The filter when the tally returned. -/
  after : Option Bfilter

structure Tallying where
  bfilter : Bfilter
  reports : List Report

inductive TallyAct where
  /-- The main loop calls `bfilter_set_1_by_index`. -/
  | set (idx : UInt32)
  /-- A new report thread calls `bfilter_get_num_1s`. -/
  | begin
  /-- Report thread `k` reads one word. -/
  | read (k : Nat)
  /-- Report thread `k` returns its count. -/
  | ret (k : Nat)

/-- What report thread `r` does by itself: the next state of the thread, or nothing. -/
def Report.read (b : Bfilter) (r : Report) : Option Report :=
  if r.tally.rem_size ≠ 0 then some { r with tally := r.tally.read b } else none

def Report.ret (b : Bfilter) (r : Report) : Option Report :=
  if r.tally.rem_size = 0 ∧ r.after.isNone then some { r with after := some b } else none

def Tallying.turn (s : Tallying) (k : Nat) (f : Report → Option Report) : Option Tallying :=
  (s.reports[k]?.bind f).map fun r => { s with reports := s.reports.set k r }

def tally_step (size : UInt32) (s : Tallying) : TallyAct → Option Tallying
  | .set idx => (bfilter_set_1_by_index size s.bfilter idx).map fun b => { s with bfilter := b }
  | .begin => some { s with reports := s.reports ++ [⟨Tally.init size, s.bfilter, none⟩] }
  | .read k => s.turn k (Report.read s.bfilter)
  | .ret k => s.turn k (Report.ret s.bfilter)

/-- States that are reached from `s` by any interleaving. -/
def Tallied (size : UInt32) (s t : Tallying) : Prop :=
  Reach (tally_step size) (fun _ _ => True) s t

/-! ## The invariant of one report -/

/-- The count so far lies between the bits of the words read when the tally began and
those of the same words in `cur`. -/
def Bracketed (r : Report) (cur : Bfilter) : Prop :=
  ∃ c, r.tally.num_1s = UInt32.ofNat c ∧ ones r.before (64 * r.tally.bfilter64) ≤ c ∧
    c ≤ ones cur (64 * r.tally.bfilter64)

structure Report.Good (size : UInt32) (b : Bfilter) (r : Report) : Prop where
  words : r.tally.rem_size.toNat + r.tally.bfilter64 = size.toNat / 8
  gained : Sub r.before b
  counted : Bracketed r b
  returned : ∀ a, r.after = some a → r.tally.rem_size = 0 ∧ Sub a b ∧ Bracketed r a

def AllGood (size : UInt32) (s : Tallying) : Prop := ∀ r ∈ s.reports, r.Good size s.bfilter

variable {size : UInt32} {b b' : Bfilter} {r r' : Report} {s t : Tallying}

theorem Bracketed.mono (h : Bracketed r b) (hs : Sub b b') : Bracketed r b' := by
  obtain ⟨c, hc, hlo, hhi⟩ := h
  exact ⟨c, hc, hlo, hhi.trans (ones_mono hs _)⟩

theorem Report.Good.mono (h : r.Good size b) (hs : Sub b b') : r.Good size b' := by
  refine ⟨h.words, h.gained.trans hs, h.counted.mono hs, ?_⟩
  intro a ha
  obtain ⟨hrem, hsub, hbr⟩ := h.returned a ha
  exact ⟨hrem, hsub.trans hs, hbr⟩

theorem good_init (size : UInt32) (b : Bfilter) :
    Report.Good size b ⟨Tally.init size, b, none⟩ := by
  refine ⟨?_, Sub.refl b, ⟨0, rfl, ?_, Nat.zero_le _⟩, ?_⟩
  · exact byte_idx_toNat size
  · exact le_of_eq (Nat.count_zero _)
  · intro a ha
    cases ha

/-- A word adds as many bits as it has now: no fewer than it had when the tally began. -/
theorem bracketed_read (hg : Sub r.before b) (h : Bracketed r b) :
    Bracketed { r with tally := r.tally.read b } b := by
  obtain ⟨c, hc, hlo, hhi⟩ := h
  refine ⟨c + popcount (word b r.tally.bfilter64), ?_, ?_, ?_⟩
  · rw [Tally.read_num_1s, hc, UInt32.ofNat_add]
    rfl
  · rw [Tally.read_bfilter64, ← ones_add_popcount]
    exact Nat.add_le_add hlo (popcount_word_mono hg _)
  · rw [Tally.read_bfilter64, ← ones_add_popcount]
    exact Nat.add_le_add_right hhi _

/-- A turn of the loop leaves one word less. -/
theorem rem_size_read {tally : Tally} (b : Bfilter) (h : tally.rem_size ≠ 0) :
    (tally.read b).rem_size.toNat + 1 = tally.rem_size.toNat := by
  have hpos : tally.rem_size.toNat ≠ 0 := fun h0 => h (UInt32.toNat_inj.mp h0)
  have hone : (1 : UInt32) ≤ tally.rem_size := by
    rw [UInt32.le_iff_toNat_le, show (1 : UInt32).toNat = 1 by decide]
    omega
  rw [Tally.read_rem_size, UInt32.toNat_sub_of_le _ _ hone, show (1 : UInt32).toNat = 1 by decide]
  omega

theorem good_read (h : r.Good size b) (hr : r.read b = some r') : r'.Good size b := by
  unfold Report.read at hr
  split at hr
  · rename_i hrem
    cases hr
    refine ⟨?_, h.gained, bracketed_read h.gained h.counted, ?_⟩
    · have hwords := h.words
      have hleft := rem_size_read b hrem
      simp only [Tally.read_bfilter64]
      omega
    · intro a ha
      exact absurd (h.returned a ha).1 hrem
  · cases hr

theorem good_ret (h : r.Good size b) (hr : r.ret b = some r') : r'.Good size b := by
  unfold Report.ret at hr
  split at hr
  · rename_i hend
    cases hr
    refine ⟨h.words, h.gained, h.counted, ?_⟩
    intro a ha
    cases ha
    exact ⟨hend.1, Sub.refl b, h.counted⟩
  · cases hr

theorem turn_cases {k : Nat} {f : Report → Option Report} (h : s.turn k f = some t) :
    ∃ r r', s.reports[k]? = some r ∧ f r = some r' ∧
      t = { s with reports := s.reports.set k r' } := by
  unfold Tallying.turn at h
  obtain ⟨r', hr', rfl⟩ := Option.map_eq_some_iff.mp h
  obtain ⟨r, hr, hf⟩ := Option.bind_eq_some_iff.mp hr'
  exact ⟨r, r', hr, hf, rfl⟩

theorem good_turn {k : Nat} {f : Report → Option Report}
    (hf : ∀ r r', r.Good size s.bfilter → f r = some r' → r'.Good size s.bfilter)
    (hs : AllGood size s) (h : s.turn k f = some t) : AllGood size t := by
  obtain ⟨r, r', hr, hr', rfl⟩ := turn_cases h
  intro q hq
  rcases List.mem_or_eq_of_mem_set hq with hq | rfl
  · exact hs q hq
  · exact hf r q (hs r (List.mem_of_getElem? hr)) hr'

/-- A set bit stays set. -/
theorem sub_of_set_1 {idx : UInt32} (h : bfilter_set_1_by_index size b idx = some b') :
    Sub b b' := by
  by_cases hlt : idx.toNat < 8 * size.toNat
  · rw [set_1_of_lt b hlt, Option.some.injEq] at h
    subst h
    exact sub_setBit b _
  · unfold bfilter_set_1_by_index at h
    have hge : idx >>> 3 ≥ size := by
      rw [ge_iff_le, UInt32.le_iff_toNat_le, byte_idx_toNat]
      omega
    rw [if_pos hge] at h
    cases h

/-! ## The step and the run -/

theorem allGood_step (a : TallyAct) (hs : AllGood size s) (h : tally_step size s a = some t) :
    AllGood size t := by
  cases a with
  | set idx =>
    obtain ⟨b, hb, rfl⟩ := Option.map_eq_some_iff.mp h
    exact fun r hr => (hs r hr).mono (sub_of_set_1 hb)
  | begin =>
    cases h
    intro r hr
    rcases List.mem_append.mp hr with hr | hr
    · exact hs r hr
    · rw [List.mem_singleton.mp hr]
      exact good_init size s.bfilter
  | read k => exact good_turn (fun _ _ => good_read) hs h
  | ret k => exact good_turn (fun _ _ => good_ret) hs h

theorem allGood_reached (h : Tallied size ⟨b, []⟩ s) : AllGood size s := by
  apply h.inv
  · intro r hr
    cases hr
  · intro t u a ht _ hu
    exact allGood_step a ht hu

/-- The filter has all the bits of `b`, and so it had when the reports from the `n`-th
on began. -/
def BegunAfter (b : Bfilter) (n : Nat) (s : Tallying) : Prop :=
  Sub b s.bfilter ∧ n ≤ s.reports.length ∧
    ∀ j r, n ≤ j → s.reports[j]? = some r → Sub b r.before

theorem read_before (h : r.read b = some r') : r'.before = r.before := by
  unfold Report.read at h
  split at h <;> cases h
  rfl

theorem ret_before (h : r.ret b = some r') : r'.before = r.before := by
  unfold Report.ret at h
  split at h <;> cases h
  rfl

theorem begunAfter_turn {n k : Nat} {f : Report → Option Report}
    (hf : ∀ r r', f r = some r' → r'.before = r.before) (hs : BegunAfter b n s)
    (h : s.turn k f = some t) : BegunAfter b n t := by
  obtain ⟨r, r', hr, hr', rfl⟩ := turn_cases h
  obtain ⟨hb, hn, hbegun⟩ := hs
  refine ⟨hb, by rw [List.length_set]; exact hn, ?_⟩
  intro j q hj hq
  rw [List.getElem?_set] at hq
  split at hq
  · rename_i hkj
    subst hkj
    split at hq <;> cases hq
    rw [hf r r' hr']
    exact hbegun k r hj hr
  · exact hbegun j q hj hq

theorem begunAfter_step {n : Nat} (a : TallyAct) (hs : BegunAfter b n s)
    (h : tally_step size s a = some t) : BegunAfter b n t := by
  cases a with
  | set idx =>
    obtain ⟨b', hb', rfl⟩ := Option.map_eq_some_iff.mp h
    exact ⟨hs.1.trans (sub_of_set_1 hb'), hs.2.1, hs.2.2⟩
  | begin =>
    cases h
    obtain ⟨hb, hn, hbegun⟩ := hs
    refine ⟨hb, by rw [List.length_append]; omega, ?_⟩
    intro j r hj hr
    rw [List.getElem?_append] at hr
    split at hr
    · exact hbegun j r hj hr
    · rw [List.mem_singleton.mp (List.mem_of_getElem? hr)]
      exact hb
  | read k => exact begunAfter_turn (fun _ _ => read_before) hs h
  | ret k => exact begunAfter_turn (fun _ _ => ret_before) hs h

theorem begunAfter_reached (h : Tallied size s t) :
    BegunAfter s.bfilter s.reports.length t := by
  apply h.inv (P := BegunAfter s.bfilter s.reports.length)
  · refine ⟨Sub.refl _, le_refl _, ?_⟩
    intro j r hj hr
    rw [List.getElem?_eq_none hj] at hr
    cases hr
  · intro t u a ht _ hu
    exact begunAfter_step a ht hu

/-! ## The law -/

/-- A tally that returned with fewer than 2^32 bits set is bracketed. -/
theorem bracket_of_good {a : Bfilter} (hw : 8 ∣ size.toNat) (h : r.Good size b)
    (ha : r.after = some a) (hfit : ones a (8 * size.toNat) < 2 ^ 32) :
    ones r.before (8 * size.toNat) ≤ r.tally.num_1s.toNat ∧
      r.tally.num_1s.toNat ≤ ones a (8 * size.toNat) := by
  obtain ⟨hrem, -, c, hc, hlo, hhi⟩ := h.returned a ha
  have hwords := h.words
  rw [hrem, show (0 : UInt32).toNat = 0 by decide] at hwords
  rw [show 64 * r.tally.bfilter64 = 8 * size.toNat by omega] at hlo hhi
  rw [hc, UInt32.toNat_ofNat', Nat.mod_eq_of_lt (by omega)]
  exact ⟨hlo, hhi⟩

/-- Where fewer than 2^32 bits are set when a tally returns, it lies between the number
of bits when it began and when it returned, and it is no less than a tally that
returned before it began. -/
theorem a_tally_is_bracketed (size : UInt32) (hw : 8 ∣ size.toNat) (b : Bfilter) (s t : Tallying)
    (hs : Tallied size ⟨b, []⟩ s) (ht : Tallied size s t) :
    (∀ r ∈ s.reports, ∀ a, r.after = some a → ones a (8 * size.toNat) < 2 ^ 32 →
      ones r.before (8 * size.toNat) ≤ r.tally.num_1s.toNat ∧
        r.tally.num_1s.toNat ≤ ones a (8 * size.toNat)) ∧
    (∀ r ∈ s.reports, r.after.isSome → ∀ j r' a', s.reports.length ≤ j →
      t.reports[j]? = some r' → r'.after = some a' → ones a' (8 * size.toNat) < 2 ^ 32 →
        r.tally.num_1s ≤ r'.tally.num_1s) := by
  have hgood := allGood_reached hs
  have hgood' := allGood_reached (hs.trans ht)
  refine ⟨fun r hr a ha => bracket_of_good hw (hgood r hr) ha, ?_⟩
  intro r hr hsome j r' a' hj hr' ha' hfit
  obtain ⟨a, ha⟩ := Option.isSome_iff_exists.mp hsome
  have hg' := hgood' r' (List.mem_of_getElem? hr')
  obtain ⟨-, hsub, -⟩ := (hgood r hr).returned a ha
  -- The first tally ends inside the filter that the second one begins with.
  have hbefore : Sub a r'.before := hsub.trans ((begunAfter_reached ht).2.2 j r' hj hr')
  have hle := ones_mono hbefore (8 * size.toNat)
  obtain ⟨hlo', hhi'⟩ := bracket_of_good hw hg' ha' hfit
  obtain ⟨-, hhi⟩ := bracket_of_good hw (hgood r hr) ha (by omega)
  rw [UInt32.le_iff_toNat_le]
  omega

/-! ## Tallies of a filter at rest -/

/-- A report thread that has the filter to itself reads the rest of it, and returns. -/
theorem report_returns (size : UInt32) (b : Bfilter) {rs : List Report} {k : Nat} {tally : Tally}
    {before : Bfilter} (hk : rs[k]? = some ⟨tally, before, none⟩) :
    Tallied size ⟨b, rs⟩
      ⟨b, rs.set k ⟨(Tally.read b)^[tally.rem_size.toNat] tally, before, some b⟩⟩ := by
  -- The induction is on the words that are left.
  induction hn : tally.rem_size.toNat generalizing rs tally with
  | zero =>
    have hrem : tally.rem_size = 0 := UInt32.toNat_inj.mp hn
    apply Reach.one (a := TallyAct.ret k) trivial
    simp [tally_step, Tallying.turn, Report.ret, hk, hrem]
  | succ n ih =>
    have hrem : tally.rem_size ≠ 0 := by
      intro h0
      rw [h0] at hn
      cases hn
    have hread : Tallied size ⟨b, rs⟩ ⟨b, rs.set k ⟨tally.read b, before, none⟩⟩ := by
      apply Reach.one (a := TallyAct.read k) trivial
      simp [tally_step, Tallying.turn, Report.read, hk, hrem]
    have hk' : (rs.set k ⟨tally.read b, before, none⟩)[k]? = some ⟨tally.read b, before, none⟩ :=
      List.getElem?_set_self (List.getElem?_eq_some_iff.mp hk).1
    have hleft := rem_size_read b hrem
    have hrest := ih hk' (by omega)
    rw [List.set_set] at hrest
    exact hread.trans hrest

/-- The report of a tally that read the filter at rest. -/
def restReport (size : UInt32) (b : Bfilter) : Report :=
  ⟨(Tally.read b)^[(size >>> 3).toNat] (Tally.init size), b, some b⟩

/-- A tally of a filter at rest returns `bfilter_get_num_1s`. -/
theorem tally_at_rest (size : UInt32) (b : Bfilter) (rs : List Report) :
    Tallied size ⟨b, rs⟩ ⟨b, rs ++ [restReport size b]⟩ := by
  have hbegin : Tallied size ⟨b, rs⟩ ⟨b, rs ++ [⟨Tally.init size, b, none⟩]⟩ :=
    Reach.one (a := TallyAct.begin) trivial rfl
  have hmine : (rs ++ [⟨Tally.init size, b, none⟩])[rs.length]? =
      some ⟨Tally.init size, b, none⟩ := by simp
  have hrest := report_returns size b hmine
  rw [List.set_append_right _ _ (le_refl _), Nat.sub_self, List.set_cons_zero] at hrest
  exact hbegin.trans hrest

/-- One bit is set between the two tallies of a filter of one word. -/
theorem one_word_is_bracketed :
    ∃ s t, Tallied 8 ⟨Bfilter.zero, []⟩ s ∧ Tallied 8 s t ∧
      ∃ r ∈ s.reports, ∃ r', t.reports[1]? = some r' ∧ r.tally.num_1s ≤ r'.tally.num_1s := by
  let b := setBit Bfilter.zero 5
  let r := restReport 8 Bfilter.zero
  have hs : Tallied 8 ⟨Bfilter.zero, []⟩ ⟨Bfilter.zero, [r]⟩ := tally_at_rest 8 Bfilter.zero []
  have hset : Tallied 8 ⟨Bfilter.zero, [r]⟩ ⟨b, [r]⟩ := by
    apply Reach.one (a := TallyAct.set 5) trivial
    have hbit : bfilter_set_1_by_index 8 Bfilter.zero 5 = some b := set_1_of_lt _ (by decide)
    simp only [tally_step, hbit, Option.map_some]
  have ht := hset.trans (tally_at_rest 8 b [r])
  have hlaw := (a_tally_is_bracketed 8 (by decide) Bfilter.zero _ _ hs ht).2
  refine ⟨_, _, hs, ht, r, List.mem_singleton_self r, restReport 8 b, rfl, ?_⟩
  apply hlaw r (List.mem_singleton_self r) rfl 1 _ b (le_refl 1) rfl rfl
  exact lt_of_le_of_lt (ones_le b _) (by decide)

/-- The filter with all its bits set. -/
def fullFilter : Bfilter := fun _ => 0xff

theorem ones_fullFilter (n : Nat) : ones fullFilter n = n := by
  have hbit : ∀ k < 8, (0xff : UInt8).toNat.testBit k = true := by decide
  unfold ones
  rw [Nat.count_iff_forall]
  intro i _
  exact hbit _ (Nat.mod_lt i (by decide))

/-- A full filter of 2^29 bytes has 2^32 bits, and the tally of it is 0. -/
theorem a_full_filter_tallies_to_zero :
    8 ∣ (0x20000000 : UInt32).toNat ∧
      ∃ s r, Tallied 0x20000000 ⟨fullFilter, []⟩ s ∧ r ∈ s.reports ∧ r.after.isSome ∧
        ¬ ones r.before (8 * (0x20000000 : UInt32).toNat) ≤ r.tally.num_1s.toNat := by
  refine ⟨by decide, ?_⟩
  refine ⟨_, _, tally_at_rest 0x20000000 fullFilter [], List.mem_singleton_self _, rfl, ?_⟩
  unfold restReport
  rw [(read_iterate _ _ _).2, ones_fullFilter, ones_fullFilter]
  decide

end lscov.daemon
