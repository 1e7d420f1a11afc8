-- The laws of the coverage. Whatever the fuzzer does, the filter is that of the lstates that
-- the daemon copied. So its bits count logic states, and the status byte makes at most two
-- lstates of one logic state.
import LogicStateCoverage.Channel
import LogicStateCoverage.Filter

namespace lscov

open runs daemon bitmaps

/-! ## The filter of a run -/

/-- The hashes of the last lstate that the daemon has set, while it has not set all of them. -/
def daemon.Pc.hashesSet : daemon.Pc → Option Nat
  | .mark | .markPost _ => some 0
  | .update n => some n
  | _ => none

/-- The first `n` turns of the loop over the hashes. -/
def recordTo (n : Nat) (b : Bfilter) (l : Area) : Option Bfilter :=
  (List.range n).foldlM (fun b h =>
    bfilter_set_1_by_index FilterSize.shipped.bytes b (hash_index FilterSize.shipped l h)) b

/-- The filter of a sequence of lstates, with the sizes of the daemon. -/
abbrev filterOf (ls : List Area) : Option Bfilter :=
  recordAll FilterSize.shipped num_hashes Bfilter.zero ls

/-- The filter has the bits of each lstate that was copied, less what is still to do for the
last one. -/
def Recorded (o : Obs) : Prop :=
  match o.state.dm.hashesSet with
  | none => filterOf o.hist.snaps = some o.state.bfilter
  | some n => ∃ before b, o.hist.snaps = before ++ [o.state.lstate] ∧ filterOf before = some b ∧
      n ≤ num_hashes.toNat ∧ recordTo n b o.state.lstate = some o.state.bfilter

/-- Only the daemon touches its lstate and its filter. -/
theorem Step.own_frame {s s' : Sys} {a : Act} (h : Step s a s') (ha : a ≠ .dm) :
    s'.dm = s.dm ∧ s'.toOwn = s.toOwn := by
  cases h <;> first | exact ⟨rfl, rfl⟩ | exact absurd rfl ha

/-- One turn more of a loop that has come through so far. -/
theorem foldlM_concat {α β : Type} {f : β → α → Option β} {as : List α} {b b' : β}
    (h : as.foldlM f b = some b') (a : α) : (as ++ [a]).foldlM f b = f b' a := by
  rw [List.foldlM_append, h]
  simp

theorem recordTo_succ {n : Nat} {b b' : Bfilter} {l : Area} (h : recordTo n b l = some b') :
    recordTo (n + 1) b l =
      bfilter_set_1_by_index FilterSize.shipped.bytes b' (hash_index FilterSize.shipped l n) := by
  rw [recordTo, List.range_succ]
  exact foldlM_concat h n

/-- All turns of the loop are the update of the filter by one lstate. -/
theorem filterOf_append {before : List Area} {b : Bfilter} (h : filterOf before = some b)
    (l : Area) : filterOf (before ++ [l]) = recordTo num_hashes.toNat b l :=
  foldlM_concat h l

theorem shipped_bytes : FilterSize.shipped.bytes = bfilter_size := rfl

theorem daemon.toNat_num_hashes : num_hashes.toNat = 4 := by decide

theorem update_turn_set (d : Own) {n : Nat} (hn : n < num_hashes.toNat) :
    ∃ b, bfilter_set_1_by_index FilterSize.shipped.bytes d.bfilter
          (hash_index FilterSize.shipped d.lstate n) = some b ∧
      update_turn d n = ({ d with bfilter := b }, .update (n + 1)) := by
  have hidx : hash_index FilterSize.shipped d.lstate n =
      bfilter_get_hash_index (bfilter_size_bits bfilter_size) d.lstate (UInt32.ofNat n) := by
    unfold hash_index
    exact congrArg (fun size => bfilter_get_hash_index (bfilter_size_bits size) d.lstate _)
      shipped_bytes
  obtain ⟨b, hb⟩ := bfilter_set_1_by_index_ok d.bfilter
    (bfilter_get_hash_index_lt d.lstate (UInt32.ofNat n))
  refine ⟨b, hidx ▸ shipped_bytes ▸ hb, ?_⟩
  rw [update_turn, if_pos hn, set_turn, hb]

theorem recorded_dm {o : Obs} {s' : Sys} (hs : Step o.state .dm s') (h : Recorded o) :
    Recorded ⟨s', note o.state .dm o.hist⟩ := by
  unfold Recorded at h ⊢
  cases hs with
  | copied i hp hi =>
    simp only [hp, Pc.hashesSet] at h
    simp only [Pc.hashesSet, note, noteDm, hp, if_neg hi]
    exact ⟨o.hist.snaps, o.state.bfilter, rfl, h, Nat.zero_le _, rfl⟩
  | copy i hp hi => simpa [hp, Pc.hashesSet, note, noteDm, hi] using h
  | update n hp =>
    simp only [hp, Pc.hashesSet] at h
    obtain ⟨before, b, hsnaps, hb, hn, hset⟩ := h
    simp only [note, noteDm, hp]
    by_cases hlt : n < num_hashes.toNat
    · obtain ⟨b', hb', hturn⟩ := update_turn_set o.state.toOwn hlt
      simp only [hturn, Pc.hashesSet]
      exact ⟨before, b, hsnaps, hb, hlt, by rw [recordTo_succ hset]; exact hb'⟩
    · have hall : n = num_hashes.toNat := by omega
      rw [update_turn, if_neg hlt]
      simp only [Pc.hashesSet]
      rw [hsnaps, filterOf_append hb, ← hall]
      exact hset
  | _ => simp_all [Pc.hashesSet, note, noteDm]

theorem recorded_step {o o' : Obs} {a : Act} (hstep : observe step note o a = some o')
    (h : Recorded o) : Recorded o' := by
  obtain ⟨s', hs, rfl⟩ := observe_next hstep
  by_cases ha : a = .dm
  · subst ha
    exact recorded_dm hs h
  · obtain ⟨hdm, hown⟩ := hs.own_frame ha
    unfold Recorded at h ⊢
    have hfilter : s'.bfilter = o.state.bfilter := by rw [hown]
    have hlstate : s'.lstate = o.state.lstate := by rw [hown]
    simp only [hdm, note_snaps ha, hfilter, hlstate]
    exact h

/-- A loop that sets indices inside of the filter. -/
theorem foldlM_set {size : FilterSize} {index : Nat → UInt32} {hs : List Nat}
    (hlt : ∀ h ∈ hs, (index h).toNat < 8 * size.bytes.toNat) (b : Bfilter) :
    hs.foldlM (fun b h => bfilter_set_1_by_index size.bytes b (index h)) b =
      some (setAll b (hs.map fun h => (index h).toNat)) := by
  unfold setAll
  induction hs generalizing b with
  | nil => rfl
  | cons h hs ih =>
    rw [List.foldlM_cons, set_1_of_lt b (hlt h List.mem_cons_self)]
    exact ih (fun x hx => hlt x (List.mem_cons_of_mem h hx)) _

/-- The tally of a filter without bits past its size. -/
theorem num_1s_eq_ncard {size : FilterSize} {b : Bfilter}
    (hlt : ∀ i, bit b i = true → i < 8 * size.bytes.toNat) :
    (bfilter_get_num_1s size.bytes b).toNat = {i | bit b i = true}.ncard := by
  have hones := ones_le b (8 * size.bytes.toNat)
  have hfits := size.fits
  rw [num_1s_toNat size.words (by omega), ones_eq_ncard hlt]

theorem recordTo_eq (n : Nat) (b : Bfilter) (l : Area) :
    recordTo n b l =
      some (setAll b ((List.range n).map fun h => (hash_index FilterSize.shipped l h).toNat)) :=
  foldlM_set (fun h _ => hash_index_lt FilterSize.shipped l h) b

theorem recorded_reached {env : Env} {o : Obs} (h : Reached env o) : Recorded o :=
  h.inv (P := Recorded) rfl fun _ _ _ hr _ hstep => recorded_step hstep hr

/-- Hash `h` of copy `j` is in the filter: all of them, but for those of the last copy that
the daemon has not come to. -/
def Counted (o : Obs) (j h : Nat) : Prop :=
  h < num_hashes.toNat ∧ (j + 1 = o.hist.snaps.length → ∀ n, o.state.dm.hashesSet = some n → h < n)

theorem bits_of_recorded {o : Obs} (hr : Recorded o) (i : Nat) :
    bit o.state.bfilter i = true ↔
      ∃ j l h, o.hist.snaps[j]? = some l ∧ Counted o j h ∧
        i = (hash_index FilterSize.shipped l h).toNat := by
  have hbits : ∀ ls b, filterOf ls = some b → (bit b i = true ↔
      ∃ (j : Nat) (l : Area) (h : Nat), ls[j]? = some l ∧ h < num_hashes.toNat ∧
        i = (hash_index FilterSize.shipped l h).toNat) := by
    intro ls b hb
    obtain ⟨b', hb', hall⟩ := recordAll_zero FilterSize.shipped num_hashes ls
    have heq : b' = b := Option.some.inj (hb'.symm.trans hb)
    rw [← heq, hall]
    constructor
    · rintro ⟨l, hl, h, hh, rfl⟩
      obtain ⟨j, hj⟩ := List.mem_iff_getElem?.mp hl
      exact ⟨j, l, h, hj, hh, rfl⟩
    · rintro ⟨j, l, h, hj, hh, rfl⟩
      exact ⟨l, List.mem_of_getElem? hj, h, hh, rfl⟩
  unfold Recorded at hr
  cases hset : o.state.dm.hashesSet with
  | none =>
    rw [hset] at hr
    simp only [Counted, hset, reduceCtorEq, false_implies, implies_true, and_true]
    exact hbits _ _ hr
  | some n =>
    rw [hset] at hr
    obtain ⟨before, b, hsnaps, hb, hn, hto⟩ := hr
    have heq : setAll b _ = o.state.bfilter := Option.some.inj ((recordTo_eq n b _).symm.trans hto)
    rw [← heq, bit_setAll, hbits before b hb, List.mem_map]
    simp only [Counted, hset, Option.some.injEq, forall_eq', hsnaps, List.length_append,
      List.length_singleton, Nat.add_right_cancel_iff]
    constructor
    · rintro (⟨j, l, h, hj, hh, rfl⟩ | ⟨h, hh, rfl⟩)
      · have hlt := (List.getElem?_eq_some_iff.mp hj).1
        refine ⟨j, l, h, ?_, ⟨hh, fun hl => absurd hl (by omega)⟩, rfl⟩
        rw [List.getElem?_append_left hlt]
        exact hj
      · have hlt := List.mem_range.mp hh
        exact ⟨before.length, _, h, List.getElem?_concat_length, ⟨by omega, fun _ => hlt⟩, rfl⟩
    · rintro ⟨j, l, h, hj, ⟨hh, hlast⟩, rfl⟩
      by_cases hlt : j < before.length
      · rw [List.getElem?_append_left hlt] at hj
        exact Or.inl ⟨j, l, h, hj, hh, rfl⟩
      · have hle := (List.getElem?_eq_some_iff.mp hj).1
        simp only [List.length_append, List.length_singleton] at hle
        have hj' : j = before.length := by omega
        subst hj'
        rw [List.getElem?_concat_length, Option.some.injEq] at hj
        subst hj
        exact Or.inr ⟨h, List.mem_range.mpr (hlast rfl), rfl⟩

/-- In every state of every run, whatever the fuzzer kills and starts, a bit of the filter is
set just when it is a hash index of a copied lstate. -/
theorem the_filter_is_that_of_the_copies (env : Env) (o : Obs) (h : Reached env o) (i : Nat) :
    bit o.state.bfilter i = true ↔
      ∃ j l n, o.hist.snaps[j]? = some l ∧ Counted o j n ∧
        i = (hash_index FilterSize.shipped l n).toNat :=
  bits_of_recorded (recorded_reached h) i

/-- The daemon has recorded the first execution, and comes back to its semaphore. -/
def firstRecorded (b : Bfilter) : Obs :=
  ⟨{ firstCopied.state with dr := 1, bfilter := b, dm := .getvalue }, firstCopied.hist⟩

theorem reached_firstRecorded {env : Env} (h : Reached env firstCopied) (hdm : ∀ o, env o .dm) :
    ∃ b, Reached env (firstRecorded b) := by
  have hmark := h.trans (solo (hdm _) (.mark rfl) rfl)
  have hpost := hmark.trans (solo (hdm _) (.markPost 0 rfl) rfl)
  obtain ⟨b, hb⟩ := update_runs hdm _ 0 rfl
    ⟨{ firstCopied.state with dr := 1, dm := .update 0 }, firstCopied.hist⟩ rfl
  exact ⟨b, hpost.trans hb⟩

/-- The first execution of a run has its first hash index in the filter. -/
theorem the_first_execution_is_in_the_filter :
    ∃ b, Reached LockEnv (firstRecorded b) ∧
      bit b (hash_index FilterSize.shipped firstCopied.state.lstate 0).toNat = true := by
  have hfirst : Reached LockEnv firstCopied :=
    reached_firstCopied (fun _ => trivial) (fun _ h => LockEnv.of_started h) (fun _ _ _ => trivial)
      (fun _ _ h _ => h) (fun _ => trivial)
  obtain ⟨b, hb⟩ := reached_firstRecorded hfirst fun _ => trivial
  refine ⟨b, hb, ?_⟩
  apply (the_filter_is_that_of_the_copies LockEnv (firstRecorded b) hb _).mpr
  exact ⟨0, _, 0, rfl, ⟨by decide, fun _ n hn => by cases hn⟩, rfl⟩

/-! ## The status byte -/

/-- The two values that the runtime gives the status byte. -/
def marks : Set UInt8 := {0x80, 0x81}

/-- The status byte of each lstate is one of the two marks. -/
theorem marks_reached {o : Obs} (h : Reached MapEnv o) : StatusKept (fun v => v ∈ marks) o := by
  have key : Sane o.state ∧ StatusKept (fun v => v ∈ marks) o := by
    apply h.inv (P := fun o => Sane o.state ∧ StatusKept (fun v => v ∈ marks) o)
      ⟨sane_boot, statusKept_boot⟩
    rintro o o' a ⟨hl, hk⟩ henv hstep
    obtain ⟨hs, -⟩ := observe_cases hstep
    refine ⟨sane_step hs hl, statusKept_step hstep hl hk (by simp [marks]) fun _ h0 => ?_⟩
    rcases status_cases hs hl with hsame | h80 | ⟨-, -, h81⟩ | ⟨rfl, -⟩
    · rw [hsame]
      exact h0
    · simp [h80, marks]
    · simp [h81, marks]
    · exact absurd rfl (henv.2 0 rfl)
  exact key.2

/-! ## Logic states and lstates -/

open Classical in
/-- The lstate of a logic state, with a status byte. -/
noncomputable def lstateOf (p : UInt8 × Set Idx) : Area :=
  fun i => if i = 0 then p.1 else if i ∈ p.2 then 1 else 0

theorem eq_lstateOf {l : Area} {e : List Idx} (h : l.Holds e) : l = lstateOf (l 0, l.hits) := by
  funext i
  unfold lstateOf
  split
  · next hi => rw [hi]
  · next hi =>
    rw [h.hits, h i hi]
    simp [logicState, hi]

/-- The logic states of the executions that were copied. -/
def covered (o : Obs) : Set (Set Idx) := {S | ∃ l ∈ o.hist.snaps, S = l.hits}

theorem covered_finite (o : Obs) : (covered o).Finite := by
  apply ((List.finite_toSet o.hist.snaps).image Area.hits).subset
  rintro S ⟨l, hl, rfl⟩
  exact ⟨l, hl, rfl⟩

/-- There are at most as many lstates of one logic state as there are status bytes. -/
theorem ncard_snaps_le {o : Obs} {V : Set UInt8} (h : Safe o) (hV : V.Finite)
    (hsnaps : ∀ l ∈ o.hist.snaps, l 0 ∈ V) :
    {l | l ∈ o.hist.snaps}.ncard ≤ V.ncard * (covered o).ncard := by
  have hsub : {l | l ∈ o.hist.snaps} ⊆ lstateOf '' (V ×ˢ covered o) := by
    intro l hl
    obtain ⟨j, hj⟩ := List.mem_iff_getElem?.mp hl
    obtain ⟨e, -, he⟩ := h.snaps j l hj
    exact ⟨(l 0, l.hits), ⟨hsnaps l hl, l, hl, rfl⟩, (eq_lstateOf he).symm⟩
  have hfin := hV.prod (covered_finite o)
  calc {l | l ∈ o.hist.snaps}.ncard
      ≤ (lstateOf '' (V ×ˢ covered o)).ncard := Set.ncard_le_ncard hsub (hfin.image _)
    _ ≤ (V ×ˢ covered o).ncard := Set.ncard_image_le hfin
    _ = V.ncard * (covered o).ncard := Set.ncard_prod

/-- With one status byte, the copied lstates are those of the covered logic states. -/
theorem mem_snaps_iff {o : Obs} {v : UInt8} (h : Safe o) (hsnaps : ∀ l ∈ o.hist.snaps, l 0 = v)
    (l : Area) : l ∈ o.hist.snaps ↔ ∃ S ∈ covered o, l = lstateOf (v, S) := by
  have heq : ∀ l ∈ o.hist.snaps, l = lstateOf (v, l.hits) := by
    intro l hl
    obtain ⟨j, hj⟩ := List.mem_iff_getElem?.mp hl
    obtain ⟨e, -, he⟩ := h.snaps j l hj
    rw [← hsnaps l hl]
    exact eq_lstateOf he
  constructor
  · intro hl
    exact ⟨l.hits, ⟨l, hl, rfl⟩, heq l hl⟩
  · rintro ⟨S, ⟨k, hk, rfl⟩, rfl⟩
    rw [← heq k hk]
    exact hk

/-- The tally counts hash indices of the copied lstates only. -/
theorem num_1s_le {o : Obs} (h : Recorded o) :
    (bfilter_get_num_1s bfilter_size o.state.bfilter).toNat ≤
      num_hashes.toNat * {l | l ∈ o.hist.snaps}.ncard := by
  have hsub : {i | bit o.state.bfilter i = true} ⊆
      indices FilterSize.shipped num_hashes o.hist.snaps := by
    intro i hi
    obtain ⟨j, l, n, hj, hn, rfl⟩ := (bits_of_recorded h i).mp hi
    exact ⟨l, List.mem_of_getElem? hj, n, hn.1, rfl⟩
  have hlt : ∀ i, bit o.state.bfilter i = true → i < 8 * FilterSize.shipped.bytes.toNat := by
    intro i hi
    obtain ⟨l, -, n, -, rfl⟩ := hsub hi
    exact hash_index_lt FilterSize.shipped l n
  rw [← shipped_bytes, num_1s_eq_ncard hlt]
  exact (Set.ncard_le_ncard hsub (indices_finite _ _ _)).trans (ncard_indices_le _ _ _)

/-- The tally of a run in which the status bytes of the copies are of some set. -/
theorem num_1s_le_of_status {env : Env} {o : Obs} {V : Set UInt8} (h : Reached env o) (hs : Safe o)
    (hV : V.Finite) (hsnaps : ∀ l ∈ o.hist.snaps, l 0 ∈ V) :
    (bfilter_get_num_1s bfilter_size o.state.bfilter).toNat ≤
      num_hashes.toNat * (V.ncard * (covered o).ncard) :=
  (num_1s_le (recorded_reached h)).trans (Nat.mul_le_mul_left _ (ncard_snaps_le hs hV hsnaps))

theorem safe_of_map {o : Obs} (h : Reached MapEnv o) : Safe o :=
  (locked_of_tidy (h.mono fun _ _ hm => hm.1)).toSafe

theorem num_1s_le_of_map {o : Obs} (h : Reached MapEnv o) :
    (bfilter_get_num_1s bfilter_size o.state.bfilter).toNat ≤
      num_hashes.toNat * (2 * (covered o).ncard) := by
  have hle := num_1s_le_of_status h (safe_of_map h) (Set.toFinite {0x80, 0x81})
    (marks_reached h).snaps
  rw [Set.ncard_pair (by decide)] at hle
  exact hle

theorem num_1s_le_of_unhurried {o : Obs} (h : Reached UnhurriedEnv o) :
    (bfilter_get_num_1s bfilter_size o.state.bfilter).toNat ≤
      num_hashes.toNat * (covered o).ncard := by
  have hle := num_1s_le_of_status h (safe_of_map (h.mono fun _ _ hm => hm.1))
    (Set.finite_singleton 0x80) (statusKept_reached h).snaps
  rw [Set.ncard_singleton, Nat.one_mul] at hle
  exact hle

/-! ## The laws -/

theorem covered_first (b : Bfilter) :
    covered (firstRecorded b) = {firstCopied.state.lstate.hits} := by
  ext S
  constructor
  · rintro ⟨l, hl, rfl⟩
    rw [List.mem_singleton.mp hl]
    rfl
  · rintro rfl
    exact ⟨_, List.mem_singleton_self _, rfl⟩

/-- Where no execution starts early, the filter depends only on the set of logic states of the
executions, and the tally is at most the number of hashes for each of them. -/
theorem the_filter_is_that_of_the_logic_states (o o' : Obs) (h : Reached UnhurriedEnv o)
    (h' : Reached UnhurriedEnv o') (hset : o.state.dm.hashesSet = none)
    (hset' : o'.state.dm.hashesSet = none) (hcov : covered o = covered o') :
    o.state.bfilter = o'.state.bfilter ∧
      (bfilter_get_num_1s bfilter_size o.state.bfilter).toNat ≤
        num_hashes.toNat * (covered o).ncard := by
  refine ⟨?_, num_1s_le_of_unhurried h⟩
  have hsafe := safe_of_map (h.mono fun _ _ hm => hm.1)
  have hsafe' := safe_of_map (h'.mono fun _ _ hm => hm.1)
  have hkept := (statusKept_reached h).snaps
  have hkept' := (statusKept_reached h').snaps
  have hr := recorded_reached h
  have hr' := recorded_reached h'
  simp only [Recorded, hset, hset'] at hr hr'
  have hmem : ∀ l, l ∈ o.hist.snaps ↔ l ∈ o'.hist.snaps := by
    intro l
    rw [mem_snaps_iff hsafe hkept, mem_snaps_iff hsafe' hkept', hcov]
  obtain ⟨b, hb, hbits⟩ := recordAll_zero FilterSize.shipped num_hashes o.hist.snaps
  obtain ⟨b', hb', hbits'⟩ := recordAll_zero FilterSize.shipped num_hashes o'.hist.snaps
  have hfilter : o.state.bfilter = b := Option.some.inj (hr.symm.trans hb)
  have hfilter' : o'.state.bfilter = b' := Option.some.inj (hr'.symm.trans hb')
  rw [hfilter, hfilter']
  apply ext_bit
  intro i
  rw [Bool.eq_iff_iff, hbits, hbits', indices_congr hmem]

/-- A process is about to call `__lscov_main`, and the daemon is back at its semaphore. -/
structure Between (o : Obs) : Prop where
  rt : o.state.rt = .started
  dm : o.state.dm = .getvalue
  rd : o.state.rd = 0
  dr : o.state.dr = 1
  status : o.state.area 0 = 0x80

/-- The lstate of an execution that stores to one index. -/
def lstateWith (i : Idx) : Area := (freshArea.set i 1).set 0 0x80

theorem lstateWith_zero (i : Idx) : lstateWith i 0 = 0x80 := Area.set_self _ _ _

/-- An execution from its call of `__lscov_main` to its post of `rd`. -/
theorem handed_over_runs {o : Obs} (h : Between o) {i : Idx} (hi : i ≠ 0) :
    ∃ hist, hist.snaps = o.hist.snaps ∧ Reach (observe step note) UnhurriedEnv o
      ⟨{ o.state with rd := 1, dr := 0, area := lstateWith i, rt := .dead }, hist⟩ := by
  have hrt : ∀ o' : Obs, o'.state.rd = o.state.rd → o'.state.dm = o.state.dm →
      UnhurriedEnv o' .rt := by
    intro o' hrd hdm
    exact .rt (hrd.trans h.rd) (by simp [hdm, h.dm])
  have hstore : ∀ o' : Obs, o'.state.rt = .target → UnhurriedEnv o' (.store i) :=
    fun _ ht => .of_map (.store ht hi) (by simp)
  have henter := enter_runs o (.of_tidy h.rt (by simp)) hrt h.rt (by simp [h.status])
    (Nat.le_of_eq h.dr)
  have hin := henter.trans (let_in_runs _ hrt rfl (by simp) h.dr)
  have hstored := hin.trans (solo (hstore _ rfl) (.store i (Or.inr rfl)) rfl)
  have hended := hstored.trans (leave_runs _ (.of_tidy trivial (by simp)) hrt rfl h.rd)
  refine ⟨_, ?_, hended⟩
  rfl

/-- The daemon sets the bits of an execution that was handed over, and the next process
starts. -/
theorem counted_runs {o : Obs} (hrt : o.state.rt = .dead) (hdm : o.state.dm = .getvalue)
    (hrd : o.state.rd = 1) (hdr : o.state.dr = 0) (h80 : o.state.area 0 = 0x80) :
    ∃ o', Reach (observe step note) UnhurriedEnv o o' ∧ Between o' ∧
      o'.hist.snaps = o.hist.snaps ++ [o.state.area] := by
  have henv : ∀ o, UnhurriedEnv o .dm := fun _ => .of_tidy trivial (by simp)
  have hspawn : ∀ o, UnhurriedEnv o (.spawn false) := fun _ => .of_tidy rfl (by simp)
  have hcopied := taken_runs henv o (Or.inl hdm) hrd
  have hmarked := hcopied.trans (solo (henv _) (.mark rfl) rfl)
  simp only [hdr] at hmarked
  have hposted := hmarked.trans (solo (henv _) (.markPost 0 rfl) rfl)
  obtain ⟨b, hupdate⟩ := update_runs henv _ 0 rfl
    ⟨{ o.state with rd := 0, dr := 1, lstate := o.state.area, dm := .update 0 },
      { o.hist with snaps := o.hist.snaps ++ [o.state.area] }⟩ rfl
  have hcounted := hposted.trans hupdate
  refine ⟨_, hcounted.trans (solo (hspawn _) (.spawn false hrt) rfl), ?_, rfl⟩
  exact ⟨rfl, rfl, rfl, rfl, h80⟩

/-- There is a run of any executions with one store each. -/
theorem executions_run (is : List Idx) (hne : ∀ i ∈ is, i ≠ 0) {o : Obs} (h : Between o) :
    ∃ o', Reach (observe step note) UnhurriedEnv o o' ∧ Between o' ∧
      o'.hist.snaps = o.hist.snaps ++ is.map lstateWith := by
  induction is generalizing o with
  | nil => exact ⟨o, .start, h, by simp⟩
  | cons i is ih =>
    obtain ⟨hi, his⟩ := List.forall_mem_cons.mp hne
    obtain ⟨hist, hsame, hended⟩ := handed_over_runs h hi
    obtain ⟨o1, hcounted, h1, hsnaps⟩ := counted_runs
      (o := ⟨{ o.state with rd := 1, dr := 0, area := lstateWith i, rt := .dead }, hist⟩)
      rfl h.dm rfl rfl (lstateWith_zero i)
    obtain ⟨o2, hrest, h2, hsnaps'⟩ := ih his h1
    exact ⟨o2, (hended.trans hcounted).trans hrest, h2, by simp [hsnaps', hsnaps, hsame]⟩

/-- The first process is about to call `__lscov_main`. -/
theorem between_ready : Reached UnhurriedEnv (ready .getvalue) ∧ Between (ready .getvalue) := by
  refine ⟨?_, rfl, rfl, rfl, rfl, by simp [ready]⟩
  exact reached_ready (fun _ => .of_tidy trivial (by simp)) fun _ hrd hdm => .rt hrd hdm

/-- Three executions, of which two are the same, and two executions in the other order end
with one filter, of at most eight bits. -/
theorem the_order_and_the_repetition_do_not_matter :
    ∃ o o', Reached UnhurriedEnv o ∧ o.hist.snaps = [5, 7, 5].map lstateWith ∧
      Reached UnhurriedEnv o' ∧ o'.hist.snaps = [7, 5].map lstateWith ∧
      o.state.bfilter = o'.state.bfilter ∧
      (bfilter_get_num_1s bfilter_size o.state.bfilter).toNat ≤ 8 := by
  obtain ⟨hready, hbetween⟩ := between_ready
  obtain ⟨o, hrun, hb, hsnaps⟩ := executions_run [5, 7, 5] (by simp) hbetween
  obtain ⟨o', hrun', hb', hsnaps'⟩ := executions_run [7, 5] (by simp) hbetween
  have hpair : covered o = {(lstateWith 5).hits, (lstateWith 7).hits} := by
    ext S
    simp only [covered, hsnaps]
    simp [ready, Hist.empty]
    tauto
  have hpair' : covered o' = {(lstateWith 5).hits, (lstateWith 7).hits} := by
    ext S
    simp only [covered, hsnaps']
    simp [ready, Hist.empty]
    tauto
  obtain ⟨hsame, hle⟩ := the_filter_is_that_of_the_logic_states o o' (hready.trans hrun)
    (hready.trans hrun') (by simp [hb.dm, Pc.hashesSet]) (by simp [hb'.dm, Pc.hashesSet])
    (hpair.trans hpair'.symm)
  have htwo : (covered o).ncard ≤ 2 := by
    rw [hpair]
    exact (Set.ncard_insert_le _ _).trans (by rw [Set.ncard_singleton])
  refine ⟨o, o', hready.trans hrun, hsnaps, hready.trans hrun', hsnaps', hsame, ?_⟩
  rw [toNat_num_hashes] at hle
  omega

end lscov
