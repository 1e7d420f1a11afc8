-- The laws of walks on a graph in which some vertices are skipped. A skipped
-- vertex has one way on. A walk shows only its kept vertices: walks that take the
-- same edges out of them show the same pairs, and when walks that show the same
-- have taken the same edges, and when not.
import Mathlib.Data.List.Infix
import Mathlib.Logic.Relation

namespace walks

variable {V : Type}

/-! ## Walks -/

/-- `b` comes right after `a` in the list. -/
def Follows (l : List V) (a b : V) : Prop := [a, b] <:+: l

/-- A walk from `v` to a stop, with the vertices that it visits. -/
inductive Walk (edge : V → V → Prop) (stop : V → Prop) : V → List V → Prop
  | stop {v : V} (h : stop v) : Walk edge stop v [v]
  | step {v w : V} {l : List V} (h : edge v w) (hl : Walk edge stop w l) : Walk edge stop v (v :: l)

/-- From `b`, the skipped vertices lead on to the kept vertex `d`. -/
inductive Leads (edge : V → V → Prop) (kept : V → Bool) : V → V → Prop
  | here {d : V} (h : kept d = true) : Leads edge kept d d
  | skip {b c d : V} (h : kept b = false) (he : edge b c) (hl : Leads edge kept c d) :
      Leads edge kept b d

variable {edge : V → V → Prop} {stop : V → Prop} {kept : V → Bool} {v w a b d : V} {l : List V}

theorem follows_cons : Follows (v :: l) a b ↔ a = v ∧ l.head? = some b ∨ Follows l a b := by
  unfold Follows
  rw [List.infix_cons_iff, List.cons_prefix_cons]
  cases l with
  | nil => simp
  | cons w l => simp [List.cons_prefix_cons, eq_comm]

/-- What comes after a vertex that the first part lacks comes after it in the rest. -/
theorem follows_of_not_mem {l' : List V} (h : a ∉ l) (hf : Follows (l ++ l') a b) :
    Follows l' a b := by
  induction l with
  | nil => exact hf
  | cons v l ih =>
    rw [List.cons_append, follows_cons] at hf
    rcases hf with ⟨rfl, -⟩ | hf
    · exact absurd List.mem_cons_self h
    · exact ih (fun hm => h (List.mem_cons_of_mem _ hm)) hf

theorem Walk.head?_eq (h : Walk edge stop v l) : l.head? = some v := by
  cases h <;> rfl

/-- A walk goes on from each vertex that follows another. -/
theorem Walk.after (h : Walk edge stop v l) (hf : Follows l a b) :
    edge a b ∧ ∃ r, Walk edge stop b r ∧ r <:+ l.tail := by
  induction h with
  | stop h =>
    rw [follows_cons] at hf
    simp [Follows] at hf
  | @step v w l he hl ih =>
    rw [follows_cons] at hf
    rcases hf with ⟨rfl, hb⟩ | hf
    · rw [hl.head?_eq, Option.some.injEq] at hb
      subst hb
      exact ⟨he, l, hl, List.suffix_rfl⟩
    · obtain ⟨hab, r, hr, hs⟩ := ih hf
      exact ⟨hab, r, hr, hs.trans (List.tail_suffix l)⟩

theorem Walk.reach (h : Walk edge stop v l) (hm : a ∈ l) : Relation.ReflTransGen edge v a := by
  induction h with
  | stop h =>
    rw [List.mem_singleton] at hm
    rw [hm]
  | step he hl ih =>
    rcases List.mem_cons.mp hm with rfl | hm
    · exact .refl
    · exact .head he (ih hm)

theorem walk_of_reach (h : Relation.ReflTransGen edge v w) (hw : stop w) :
    ∃ l, Walk edge stop v l := by
  induction h using Relation.ReflTransGen.head_induction_on with
  | refl => exact ⟨[w], .stop hw⟩
  | head he _ ih =>
    obtain ⟨l, hl⟩ := ih
    exact ⟨_, .step he hl⟩

theorem Walk.stops (h : Walk edge stop v l) : ∃ w, Relation.ReflTransGen edge v w ∧ stop w := by
  induction h with
  | stop h => exact ⟨_, .refl, h⟩
  | step he _ ih =>
    obtain ⟨w, hw, hs⟩ := ih
    exact ⟨w, .head he hw, hs⟩

/-- From its last visit of `d` on, a walk does not come back to `d`. -/
theorem Walk.last (h : Walk edge stop v l) (hm : d ∈ l) :
    ∃ r, Walk edge stop d (d :: r) ∧ d ∉ r := by
  induction h with
  | stop h =>
    rw [List.mem_singleton] at hm
    subst hm
    exact ⟨[], .stop h, List.not_mem_nil⟩
  | @step v w l he hl ih =>
    by_cases hd : d ∈ l
    · exact ih hd
    · rcases List.mem_cons.mp hm with rfl | hm
      · exact ⟨l, .step he hl, hd⟩
      · exact absurd hm hd

/-- A vertex that is reached is reached by a way that visits it only at its end. -/
theorem first_visit (stop : V → Prop) (h : Relation.ReflTransGen edge v a) :
    ∃ p, a ∉ p ∧ ∀ l, Walk edge stop a l → Walk edge stop v (p ++ l) := by
  induction h using Relation.ReflTransGen.head_induction_on with
  | refl => exact ⟨[], List.not_mem_nil, fun l hl => hl⟩
  | @head u w he _ ih =>
    by_cases hu : u = a
    · subst hu
      exact ⟨[], List.not_mem_nil, fun l hl => hl⟩
    · obtain ⟨p, hp, hl⟩ := ih
      refine ⟨u :: p, ?_, fun l h => .step he (hl l h)⟩
      simp only [List.mem_cons, not_or]
      exact ⟨fun h => hu h.symm, hp⟩

/-- A kept vertex leads to itself alone. -/
theorem Leads.eq_of_kept (h : Leads edge kept b d) (hb : kept b = true) : b = d := by
  cases h with
  | here _ => rfl
  | skip hk _ _ =>
    rw [hb] at hk
    cases hk

/-- The way through skipped vertices, up to the kept one. -/
theorem Leads.way (stop : V → Prop) (h : Leads edge kept b d) :
    ∃ s, s.filter kept = [] ∧ ∀ l, Walk edge stop d l → Walk edge stop b (s ++ l) := by
  induction h with
  | here hk => exact ⟨[], rfl, fun l hl => hl⟩
  | @skip b c d hk he _ ih =>
    obtain ⟨s, hs, hw⟩ := ih
    exact ⟨b :: s, by simp [hk, hs], fun l hl => .step he (hw l hl)⟩

/-! ## What a walk shows -/

/-- No reached vertex that is kept has two ways on that show the same: two edges
that lead to one kept vertex from which a stop is reached. -/
def Separated (edge : V → V → Prop) (stop : V → Prop) (kept : V → Bool) (v : V) : Prop :=
  ∀ a b b' d, Relation.ReflTransGen edge v a → kept a = true → edge a b → edge a b' →
    Leads edge kept b d → Leads edge kept b' d →
    (∃ w, Relation.ReflTransGen edge d w ∧ stop w) → b = b'

section skipped

variable (hone : ∀ b c c', kept b = false → edge b c → edge b c' → c = c')
  (hstop : ∀ v, stop v → kept v = true)

include hstop

/-- The first kept vertex of a walk is the one that its start leads to. -/
theorem Walk.shows (h : Walk edge stop v l) :
    ∃ d r, Leads edge kept v d ∧ l.filter kept = d :: r := by
  induction h with
  | @stop v h => exact ⟨v, [], .here (hstop v h), by simp [hstop v h]⟩
  | @step v w l he _ ih =>
    cases hk : kept v with
    | true => exact ⟨v, l.filter kept, .here hk, by simp [hk]⟩
    | false =>
      obtain ⟨d, r, hd, hr⟩ := ih
      exact ⟨d, r, .skip hk he hd, by simp [hk, hr]⟩

/-- Each edge out of a kept vertex shows as a pair of kept vertices. -/
theorem Walk.pair_of_edge (h : Walk edge stop v l) (ha : kept a = true) (hf : Follows l a b) :
    ∃ d, Leads edge kept b d ∧ Follows (l.filter kept) a d := by
  induction h with
  | stop h =>
    rw [follows_cons] at hf
    simp [Follows] at hf
  | @step v w l he hl ih =>
    rw [follows_cons] at hf
    rcases hf with ⟨rfl, hb⟩ | hf
    · rw [hl.head?_eq, Option.some.injEq] at hb
      subst hb
      obtain ⟨d, r, hd, hr⟩ := hl.shows hstop
      refine ⟨d, hd, ?_⟩
      rw [List.filter_cons_of_pos ha, follows_cons, hr]
      exact Or.inl ⟨rfl, rfl⟩
    · obtain ⟨d, hd, hp⟩ := ih hf
      refine ⟨d, hd, ?_⟩
      cases hk : kept v with
      | true =>
        rw [List.filter_cons_of_pos hk, follows_cons]
        exact Or.inr hp
      | false =>
        rw [List.filter_cons_of_neg (by simp [hk])]
        exact hp

/-- Each pair of kept vertices that shows comes from an edge. -/
theorem Walk.edge_of_pair (h : Walk edge stop v l) (hf : Follows (l.filter kept) a d) :
    ∃ b, Follows l a b ∧ Leads edge kept b d := by
  induction h with
  | @stop v h =>
    rw [List.filter_cons_of_pos (hstop v h), follows_cons] at hf
    simp [Follows] at hf
  | @step v w l he hl ih =>
    have hrest : Follows (l.filter kept) a d → ∃ b, Follows (v :: l) a b ∧ Leads edge kept b d := by
      intro hf
      obtain ⟨b, hb, hd⟩ := ih hf
      exact ⟨b, follows_cons.mpr (Or.inr hb), hd⟩
    cases hk : kept v with
    | true =>
      rw [List.filter_cons_of_pos hk, follows_cons] at hf
      rcases hf with ⟨rfl, hd⟩ | hf
      · obtain ⟨d', r, hd', hr⟩ := hl.shows hstop
        rw [hr, List.head?_cons, Option.some.injEq] at hd
        subst hd
        exact ⟨w, follows_cons.mpr (Or.inl ⟨rfl, hl.head?_eq⟩), hd'⟩
      · exact hrest hf
    | false =>
      rw [List.filter_cons_of_neg (by simp [hk])] at hf
      exact hrest hf

include hone

/-- A walk visits the kept vertex that its start leads to. -/
theorem Walk.visits (h : Walk edge stop b l) (hd : Leads edge kept b d) : d ∈ l := by
  induction hd generalizing l with
  | here hk => exact List.mem_of_mem_head? h.head?_eq
  | skip hk he _ ih =>
    cases h with
    | stop hs => rw [hstop _ hs] at hk; cases hk
    | step he' hl =>
      cases hone _ _ _ hk he he'
      exact List.mem_cons_of_mem _ (ih hl)

omit hstop in
/-- The skipped vertices have one way on, so they lead to one kept vertex. -/
theorem Leads.unique {d' : V} (h : Leads edge kept b d) (h' : Leads edge kept b d') : d = d' := by
  induction h with
  | here hk => exact h'.eq_of_kept hk
  | @skip b c d hk he _ ih =>
    cases h' with
    | here hk' =>
      rw [hk'] at hk
      cases hk
    | skip _ he' hl' =>
      cases hone _ _ _ hk he he'
      exact ih hl'

/-- Walks from one vertex show the same first vertex. -/
theorem Walk.same_first {l' : List V} (h : Walk edge stop v l) (h' : Walk edge stop v l') :
    (l.filter kept).head? = (l'.filter kept).head? := by
  obtain ⟨d, r, hd, hr⟩ := h.shows hstop
  obtain ⟨d', r', hd', hr'⟩ := h'.shows hstop
  rw [hr, hr', hd.unique hone hd']
  rfl

/-- Walks that take the same edges out of their kept vertices show the same pairs. -/
theorem pairs_of_edges {l' : List V} (h : Walk edge stop v l) (h' : Walk edge stop v l')
    (hf : ∀ a b, kept a = true → Follows l a b → Follows l' a b)
    (hp : Follows (l.filter kept) a d) : Follows (l'.filter kept) a d := by
  obtain ⟨b, hb, hd⟩ := h.edge_of_pair hstop hp
  have ha : kept a = true := (List.mem_filter.mp (hp.subset List.mem_cons_self)).2
  obtain ⟨d', hd', hp'⟩ := h'.pair_of_edge hstop ha (hf a b ha hb)
  rw [hd.unique hone hd']
  exact hp'

/-- On a separated graph, walks that show the same pairs have taken the same edges out
of their kept vertices. -/
theorem edges_of_pairs {l' : List V} (hsep : Separated edge stop kept v)
    (h : Walk edge stop v l) (h' : Walk edge stop v l')
    (hp : ∀ a d, Follows (l.filter kept) a d → Follows (l'.filter kept) a d)
    (ha : kept a = true) (hf : Follows l a b) : Follows l' a b := by
  obtain ⟨d, hd, hpair⟩ := h.pair_of_edge hstop ha hf
  obtain ⟨b', hf', hd'⟩ := h'.edge_of_pair hstop (hp a d hpair)
  obtain ⟨hab, r, hr, -⟩ := h.after hf
  obtain ⟨hab', -⟩ := h'.after hf'
  have hreach : Relation.ReflTransGen edge v a := h.reach (hf.subset List.mem_cons_self)
  obtain ⟨s, hs, -⟩ := hr.last (hr.visits hone hstop hd)
  rw [hsep a b b' d hreach ha hab hab' hd hd' hs.stops]
  exact hf'

/-- Two ways on that show the same are the middle of two walks that show the same, and
only one of them takes the first way. -/
theorem exists_hidden {b' : V} (hreach : Relation.ReflTransGen edge v a) (ha : kept a = true)
    (hab : edge a b) (hab' : edge a b') (hd : Leads edge kept b d) (hd' : Leads edge kept b' d)
    (hs : ∃ w, Relation.ReflTransGen edge d w ∧ stop w) (hne : b ≠ b') :
    ∃ l l', Walk edge stop v l ∧ Walk edge stop v l' ∧ l.filter kept = l'.filter kept ∧
      Follows l a b ∧ ¬ Follows l' a b := by
  obtain ⟨w, hw, hsw⟩ := hs
  obtain ⟨l₀, hl₀⟩ := walk_of_reach hw hsw
  -- Both walks come to `a` for the first time, and leave `d` for the last time.
  obtain ⟨p, hpa, hp⟩ := first_visit stop hreach
  obtain ⟨r, hr, hdr⟩ := hl₀.last (List.mem_of_mem_head? hl₀.head?_eq)
  obtain ⟨s, hs, hway⟩ := hd.way stop
  obtain ⟨s', hs', hway'⟩ := hd'.way stop
  have hb := hway _ hr
  have hb' := hway' _ hr
  refine ⟨p ++ a :: (s ++ d :: r), p ++ a :: (s' ++ d :: r), hp _ (.step hab hb),
    hp _ (.step hab' hb'), by simp [ha, hs, hs'], ?_, ?_⟩
  · have hf : Follows (a :: (s ++ d :: r)) a b := follows_cons.mpr (Or.inl ⟨rfl, hb.head?_eq⟩)
    exact hf.trans (List.suffix_append p _).isInfix
  · intro hf
    rcases follows_cons.mp (follows_of_not_mem hpa hf) with ⟨-, hb''⟩ | hf
    · rw [hb'.head?_eq, Option.some.injEq] at hb''
      exact hne hb''.symm
    · have has : a ∉ s' := by
        intro hm
        have := List.mem_filter.mpr ⟨hm, ha⟩
        rw [hs'] at this
        exact List.not_mem_nil this
      -- Past `d`, the first way would lead back to `d`.
      obtain ⟨-, t, ht, hsuf⟩ := hr.after (follows_of_not_mem has hf)
      exact hdr (hsuf.subset (ht.visits hone hstop hd))

end skipped

end walks
