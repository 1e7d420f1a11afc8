-- The law of attaching. A target process attaches while a daemon starts. The segment is
-- there before the semaphores are, so the target attaches completely or not at all just
-- when it finds both names as the daemon has opened them, or finds neither name.
import LogicStateCoverage.Ipc

namespace lscov.ipc

open runs

/-! ## The target -/

/-- The next call of `__lscov_init`. -/
inductive TargetPc where
  | shmget
  | shmat
  /-- `sem_open` -/
  | semOpen (n : Name)
  /-- The store of `0x80`. -/
  | store
  | returned

structure Target where
  pc : TargetPc
  shm_hcount_id : Int
  /-- The segment of `__lscov_area_ptr`. `none` is `__lscov_area_initial`. -/
  area : Option Int
  sema : Name → Option Nat

def Target.start : Target := ⟨.shmget, 0, none, fun _ => none⟩

/-- Where `__lscov_init` goes on after a `sem_open`. -/
def Name.afterAttach : Name → TargetPc
  | .rd => .semOpen .dr
  | .dr => .store

/-- One call of `__lscov_init`. No daemon removes the segment here, so `shmat` finds it.
The tests of `sem_open` are against `(void *)-1`, so they never find a `SEM_FAILED`. -/
def Target.call (os : Os) (t : Target) : Option Target :=
  match t.pc with
  | .shmget =>
    some { t with
      shm_hcount_id := os.shmget
      pc := if os.shmget ≥ 0 then .shmat else .returned }
  | .shmat => some { t with area := some t.shm_hcount_id, pc := .semOpen .rd }
  | .semOpen n =>
    some { t with sema := Function.update t.sema n (os.semOpen n), pc := n.afterAttach }
  | .store => some { t with pc := .returned }
  | .returned => none

/-! ## A daemon that starts beside a target -/

structure Attaching where
  os : Os
  daemon : Daemon
  target : Target

inductive AttachAct where
  /-- The daemon makes its next call of `hcount_init`. -/
  | daemon (id : Nat)
  /-- The target makes its next call. -/
  | target

def attach_step (s : Attaching) : AttachAct → Option Attaching
  | .daemon id =>
    if id ∈ s.os.used then none
    else (s.daemon.call s.os id).map fun (os, d) => { s with os := os, daemon := d }
  | .target => (s.target.call s.os).map fun t => { s with target := t }

/-- The semaphores that earlier daemons have left. -/
structure Leftover where
  sem : Name → Option Nat
  used : List Nat
  known : ∀ n x, sem n = some x → x ∈ used

/-- No daemon has started. -/
def Leftover.boot (l : Leftover) : Attaching := ⟨⟨none, l.sem, l.used⟩, Daemon.start, Target.start⟩

/-- The runtime is inactive, or it has the semaphores and the segment of the daemon. -/
def Complete (s : Attaching) : Prop :=
  (∀ n, s.target.sema n = none) ∨
    (∀ n, s.target.sema n = s.daemon.sema n ∧ (s.target.sema n).isSome) ∧
      s.target.area = some s.daemon.shm_hcount_id

/-- What the target finds under both names. -/
inductive Finds where
  | opened
  | missing

/-- At each `sem_open` of the target, the daemon has opened the name already; or there is
no semaphore under it. -/
def Orderly (f : Finds) (s : Attaching) : AttachAct → Prop
  | .target => ∀ n, s.target.pc = .semOpen n →
      match f with
      | .opened => (s.daemon.sema n).isSome
      | .missing => s.os.sem n = none
  | .daemon _ => True

/-! ## A starting daemon -/

/-- What holds of a daemon in `hcount_init`, when it is the only one. -/
structure Starting (os : Os) (d : Daemon) : Prop where
  inMain : d.pc.inMain = true
  key : d.pc = .boot ∧ os.shm = none ∨
    d.pc ≠ .boot ∧ os.shm.map Int.ofNat = some d.shm_hcount_id
  opened : ∀ n, (d.sema n).isSome → d.pc.opened n = true
  names : ∀ n x, d.sema n = some x → os.sem n = some x
  free : ∀ n, d.pc = .initOpen n → os.sem n = none
  known : ∀ n x, os.sem n = some x → x ∈ os.used

variable {s t u : Attaching} {os os' : Os} {d d' : Daemon} {n : Name} {id : Nat} {f : Finds}

/-- What a call of a starting daemon leaves: its semaphores stay, and a new one is a new
object. -/
structure Advances (os : Os) (d : Daemon) (os' : Os) (d' : Daemon) : Prop where
  starting : Starting os' d'
  used : ∀ x ∈ os.used, x ∈ os'.used
  kept : ∀ n x, d.sema n = some x → d'.sema n = some x
  new : ∀ n x, d'.sema n = some x → d.sema n = some x ∨ x ∉ os.used
  key : ∀ x, os.shm = some x → os'.shm = some x

theorem starting_boot (l : Leftover) : Starting ⟨none, l.sem, l.used⟩ Daemon.start where
  inMain := rfl
  key := Or.inl ⟨rfl, rfl⟩
  opened n h := by cases h
  names n x h := by cases h
  free n h := by cases h
  known := l.known

theorem advances_shmget (h : Starting os d) (hpc : d.pc = .boot)
    (hcall : d.call os id = some (os', d')) : Advances os d os' d' := by
  have hfree : os.shm = none := by
    rcases h.key with ⟨-, hnone⟩ | ⟨hne, -⟩
    · exact hnone
    · exact absurd hpc hne
  have hnone : ∀ n, d.sema n = none := by
    intro n
    by_contra hsome
    have ho := h.opened n (Option.isSome_iff_ne_none.mpr hsome)
    rw [hpc] at ho
    cases ho
  rw [call_boot_free hpc hfree] at hcall
  cases hcall
  refine ⟨⟨rfl, Or.inr ⟨nofun, rfl⟩, ?_, h.names, nofun, ?_⟩,
    fun x hx => List.mem_cons_of_mem _ hx, fun _ _ hx => hx, fun _ _ hx => Or.inl hx, ?_⟩
  · intro n hsome
    rw [hnone n] at hsome
    cases hsome
  · intro n x hx
    exact List.mem_cons_of_mem _ (h.known n x hx)
  · intro x hx
    rw [hfree] at hx
    cases hx

theorem key_of_ne_boot (h : Starting os d) (hpc : d.pc ≠ .boot) :
    os.shm.map Int.ofNat = some d.shm_hcount_id := by
  rcases h.key with ⟨hb, -⟩ | ⟨-, hkey⟩
  · exact absurd hb hpc
  · exact hkey

theorem advances_unlink (h : Starting os d) (hpc : d.pc = .initUnlink n)
    (hcall : d.call os id = some (os', d')) : Advances os d os' d' := by
  have hkey := key_of_ne_boot h (by rw [hpc]; exact fun hb => by cases hb)
  simp only [Daemon.call, hpc, Option.some.injEq] at hcall
  cases hcall
  -- The daemon has not opened the name that it unlinks.
  have hne : ∀ m x, d.sema m = some x → m ≠ n := by
    intro m x hx hm
    have ho := h.opened m (by rw [hx]; rfl)
    rw [hpc, hm] at ho
    cases n <;> cases ho
  refine ⟨⟨rfl, Or.inr ⟨(fun hb => by cases hb), hkey⟩, ?_, ?_, ?_, ?_⟩,
    fun x hx => hx, fun _ _ hx => hx, fun _ _ hx => Or.inl hx, fun x hx => hx⟩
  · intro m hsome
    have ho := h.opened m hsome
    rw [hpc] at ho
    cases n <;> cases m <;> first | rfl | cases ho
  · intro m x hx
    unfold Os.semUnlink
    dsimp only
    rw [Function.update_of_ne (hne m x hx)]
    exact h.names m x hx
  · intro m hb
    cases hb
    exact Function.update_self n none os.sem
  · intro m x hx
    rcases update_cases hx with ⟨-, hnone⟩ | ⟨-, hold⟩
    · cases hnone
    · exact h.known m x hold

theorem advances_open (h : Starting os d) (hid : id ∉ os.used) (hpc : d.pc = .initOpen n)
    (hcall : d.call os id = some (os', d')) : Advances os d os' d' := by
  have hkey := key_of_ne_boot h (by rw [hpc]; exact fun hb => by cases hb)
  rw [call_initOpen_free hpc (h.free n hpc)] at hcall
  cases hcall
  have hne : ∀ m x, d.sema m = some x → m ≠ n := by
    intro m x hx hm
    have hn := h.names m x hx
    rw [hm, h.free n hpc] at hn
    cases hn
  refine ⟨⟨?_, Or.inr ⟨?_, hkey⟩, ?_, ?_, ?_, ?_⟩, fun x hx => List.mem_cons_of_mem _ hx,
    ?_, ?_, fun x hx => hx⟩
  · cases n <;> rfl
  · cases n <;> exact fun hb => by cases hb
  · intro m hsome
    dsimp only at hsome ⊢
    by_cases hm : m = n
    · rw [hm]
      cases n <;> rfl
    · rw [Function.update_of_ne hm] at hsome
      have ho := h.opened m hsome
      rw [hpc] at ho
      cases n <;> cases m <;> first | rfl | cases ho
  · intro m x hx
    dsimp only
    rcases update_cases hx with ⟨rfl, hnew⟩ | ⟨hm, hold⟩
    · rw [Function.update_self]
      exact hnew
    · rw [Function.update_of_ne hm]
      exact h.names m x hold
  · cases n <;> exact fun m hb => by cases hb
  · intro m x hx
    rcases update_cases hx with ⟨-, hnew⟩ | ⟨-, hold⟩
    · cases hnew
      exact List.mem_cons_self
    · exact List.mem_cons_of_mem _ (h.known m x hold)
  · intro m x hx
    dsimp only
    rw [Function.update_of_ne (hne m x hx)]
    exact hx
  · intro m x hx
    rcases update_cases hx with ⟨-, hnew⟩ | ⟨-, hold⟩
    · cases hnew
      exact Or.inr hid
    · exact Or.inl hold

theorem advances_call (h : Starting os d) (hid : id ∉ os.used)
    (hcall : d.call os id = some (os', d')) : Advances os d os' d' := by
  cases hpc : d.pc with
  | boot => exact advances_shmget h hpc hcall
  | initUnlink n => exact advances_unlink h hpc hcall
  | initOpen n => exact advances_open h hid hpc hcall
  | running =>
    simp only [Daemon.call, hpc] at hcall
    cases hcall
  | rmid | close _ | unlink _ | exited =>
    have hmain := h.inMain
    rw [hpc] at hmain
    cases hmain

/-! ## The target beside it -/

/-- The target has come past its `sem_open` of the name. -/
def Target.Past (t : Target) (n : Name) : Prop :=
  match t.pc with
  | .semOpen .dr => n = .rd
  | .store => True
  | .returned => t.area.isSome
  | _ => False

/-- What holds of a target and the daemon that starts beside it, in any order of their
calls. -/
structure Beside (s : Attaching) : Prop where
  starting : Starting s.os s.daemon
  notPast : ∀ n, ¬ s.target.Past n → s.target.sema n = none
  known : ∀ n x, s.target.sema n = some x → x ∈ s.os.used
  segment : s.target.pc = .shmat → s.os.shm.map Int.ofNat = some s.target.shm_hcount_id
  area : ∀ a, s.target.area = some a → s.os.shm.map Int.ofNat = some a
  attached : ∀ n, s.target.pc = .semOpen n → s.target.area.isSome
  stored : s.target.pc = .store → s.target.area.isSome
  early : s.target.pc = .shmget → s.target.area = none

theorem beside_boot (l : Leftover) : Beside l.boot where
  starting := starting_boot l
  notPast n _ := rfl
  known n x h := by cases h
  segment h := by cases h
  area a h := by cases h
  attached n h := by cases h
  stored h := by cases h
  early _ := rfl

theorem shm_advances (h : Advances os d os' d') {a : Int}
    (hkey : os.shm.map Int.ofNat = some a) : os'.shm.map Int.ofNat = some a := by
  obtain ⟨x, hx, rfl⟩ := Option.map_eq_some_iff.mp hkey
  rw [h.key x hx]
  rfl

theorem beside_daemon (h : Beside s) (ha : Advances s.os s.daemon os d) :
    Beside { s with os := os, daemon := d } where
  starting := ha.starting
  notPast := h.notPast
  known n x hx := ha.used x (h.known n x hx)
  segment hpc := shm_advances ha (h.segment hpc)
  area a hx := shm_advances ha (h.area a hx)
  attached := h.attached
  stored := h.stored
  early := h.early

theorem shmget_nonneg (h : os.shmget ≥ 0) : os.shm.map Int.ofNat = some os.shmget := by
  unfold Os.shmget at h ⊢
  split at h
  · rename_i id heq
    rw [heq]
    rfl
  · exact absurd h (by decide)

/-- Before its first `sem_open`, the target has no semaphore. -/
theorem sema_early (h : Beside s) (hpc : s.target.pc = .shmget ∨ s.target.pc = .shmat) (n : Name) :
    s.target.sema n = none := by
  apply h.notPast n
  unfold Target.Past
  rcases hpc with hpc | hpc <;> rw [hpc] <;> exact id

theorem beside_target {t : Target} (h : Beside s) (hcall : s.target.call s.os = some t) :
    Beside { s with target := t } := by
  unfold Target.call at hcall
  split at hcall <;> rename_i hpc <;> cases hcall
  · -- `shmget`
    have hnone := sema_early h (Or.inl hpc)
    have harea := h.early hpc
    refine ⟨h.starting, fun n _ => hnone n, h.known, ?_, h.area, ?_, ?_, fun _ => harea⟩
    · intro hmat
      dsimp only at hmat ⊢
      split at hmat
      · rename_i hge
        exact shmget_nonneg hge
      · cases hmat
    · intro n hopen
      dsimp only at hopen
      split at hopen <;> cases hopen
    · intro hstore
      dsimp only at hstore
      split at hstore <;> cases hstore
  · -- `shmat`
    have hnone := sema_early h (Or.inr hpc)
    refine ⟨h.starting, fun n _ => hnone n, h.known, nofun, ?_, fun _ _ => rfl, nofun, nofun⟩
    intro a ha
    cases ha
    exact h.segment hpc
  · -- `sem_open`
    rename_i n
    have harea := h.attached n hpc
    refine ⟨h.starting, ?_, ?_, ?_, h.area, fun _ _ => harea, fun _ => harea, ?_⟩
    · intro m hm
      cases n with
      | rd =>
        have hdr : m ≠ .rd := hm
        dsimp only
        rw [Function.update_of_ne hdr]
        apply h.notPast
        unfold Target.Past
        rw [hpc]
        exact id
      | dr => exact absurd trivial hm
    · intro m x hx
      rcases update_cases hx with ⟨-, hfound⟩ | ⟨-, hold⟩
      · exact h.starting.known n x hfound
      · exact h.known m x hold
    · intro hmat
      cases n <;> cases hmat
    · intro hget
      cases n <;> cases hget
  · -- the store
    refine ⟨h.starting, ?_, h.known, nofun, h.area, nofun, nofun, nofun⟩
    intro n hn
    exact absurd (h.stored hpc) hn

/-! ## The step and the run -/

theorem attach_cases {a : AttachAct} (h : Beside s) (hs : attach_step s a = some u) :
    (∃ id os d, a = .daemon id ∧ u = { s with os := os, daemon := d } ∧
        Advances s.os s.daemon os d) ∨
      a = .target ∧ ∃ t, s.target.call s.os = some t ∧ u = { s with target := t } := by
  cases a with
  | daemon id =>
    simp only [attach_step] at hs
    split at hs
    · cases hs
    · rename_i hid
      obtain ⟨⟨os, d⟩, hcall, rfl⟩ := Option.map_eq_some_iff.mp hs
      exact Or.inl ⟨id, os, d, rfl, rfl, advances_call h.starting hid hcall⟩
  | target =>
    obtain ⟨t, hcall, rfl⟩ := Option.map_eq_some_iff.mp hs
    exact Or.inr ⟨rfl, t, hcall, rfl⟩

theorem beside_step {a : AttachAct} (h : Beside s) (hs : attach_step s a = some u) : Beside u := by
  rcases attach_cases h hs with ⟨-, os, d, -, rfl, ha⟩ | ⟨-, t, hcall, rfl⟩
  · exact beside_daemon h ha
  · exact beside_target h hcall

/-- What a call of the target does to a semaphore: it opens it, or leaves it as it is. -/
theorem target_sema {t : Target} (h : Beside s) (hcall : s.target.call s.os = some t) (n : Name) :
    s.target.pc = .semOpen n ∧ t.sema n = s.os.sem n ∧ t.Past n ∨
      s.target.pc ≠ .semOpen n ∧ t.sema n = s.target.sema n ∧ (t.Past n ↔ s.target.Past n) := by
  unfold Target.call at hcall
  unfold Target.Past
  split at hcall <;> rename_i hpc <;> cases hcall
  · refine Or.inr ⟨by rw [hpc]; exact nofun, rfl, ?_⟩
    rw [hpc]
    by_cases hge : s.os.shmget ≥ 0 <;> simp [hge, h.early hpc]
  · exact Or.inr ⟨by rw [hpc]; exact nofun, rfl, by rw [hpc]⟩
  · rename_i m
    by_cases hm : n = m
    · subst hm
      refine Or.inl ⟨hpc, Function.update_self n _ _, ?_⟩
      cases n <;> trivial
    · refine Or.inr ⟨?_, Function.update_of_ne hm _ _, ?_⟩
      · rw [hpc]
        exact fun heq => hm (by cases heq; rfl)
      · rw [hpc]
        cases m <;> cases n <;> simp [Name.afterAttach] at hm ⊢
  · refine Or.inr ⟨by rw [hpc]; exact nofun, rfl, ?_⟩
    rw [hpc]
    simp [h.stored hpc]

/-- What the target has opened stays. -/
def Kept (v : Option Nat) (n : Name) (s : Attaching) : Prop :=
  Beside s ∧ s.target.Past n ∧ s.target.sema n = v

theorem kept_step {v : Option Nat} {a : AttachAct} (h : Kept v n s)
    (hs : attach_step s a = some u) : Kept v n u := by
  obtain ⟨hb, hpast, hv⟩ := h
  refine ⟨beside_step hb hs, ?_⟩
  rcases attach_cases hb hs with ⟨-, os, d, -, rfl, -⟩ | ⟨-, t, hcall, rfl⟩
  · exact ⟨hpast, hv⟩
  · rcases target_sema hb hcall n with ⟨hpc, -, -⟩ | ⟨-, heq, hiff⟩
    · unfold Target.Past at hpast
      rw [hpc] at hpast
      cases n <;> cases hpast
    · exact ⟨hiff.mpr hpast, heq.trans hv⟩

/-- A semaphore that the daemon has not opened by now is none that it opens later. -/
def NotOwn (x : Nat) (n : Name) (s : Attaching) : Prop :=
  Beside s ∧ x ∈ s.os.used ∧ s.daemon.sema n ≠ some x

theorem notOwn_step {x : Nat} {a : AttachAct} (h : NotOwn x n s) (hs : attach_step s a = some u) :
    NotOwn x n u := by
  obtain ⟨hb, hused, hne⟩ := h
  refine ⟨beside_step hb hs, ?_⟩
  rcases attach_cases hb hs with ⟨-, os, d, -, rfl, ha⟩ | ⟨-, t, -, rfl⟩
  · refine ⟨ha.used x hused, ?_⟩
    intro hx
    rcases ha.new n x hx with hold | hnew
    · exact hne hold
    · exact hnew hused
  · exact ⟨hused, hne⟩

/-- The semaphores of the target are what it finds in an orderly run. -/
def Found (f : Finds) (s : Attaching) : Prop :=
  match f with
  | .opened => ∀ n, s.target.Past n →
      s.target.sema n = s.daemon.sema n ∧ (s.target.sema n).isSome
  | .missing => ∀ n, s.target.sema n = none

theorem found_step {a : AttachAct} (hb : Beside s) (h : Found f s) (ha : Orderly f s a)
    (hs : attach_step s a = some u) : Found f u := by
  rcases attach_cases hb hs with ⟨-, os, d, -, rfl, hadv⟩ | ⟨rfl, t, hcall, rfl⟩
  · cases f with
    | missing => exact h
    | opened =>
      intro n hpast
      obtain ⟨heq, hsome⟩ := h n hpast
      obtain ⟨x, hx⟩ := Option.isSome_iff_exists.mp hsome
      refine ⟨?_, hsome⟩
      have hd := hadv.kept n x (by rw [← heq]; exact hx)
      exact hx.trans hd.symm
  · cases f with
    | missing =>
      intro n
      rcases target_sema hb hcall n with ⟨hpc, heq, -⟩ | ⟨-, heq, -⟩
      · exact heq.trans (ha n hpc)
      · exact heq.trans (h n)
    | opened =>
      intro n hpast
      rcases target_sema hb hcall n with ⟨hpc, heq, -⟩ | ⟨-, heq, hiff⟩
      · obtain ⟨x, hx⟩ := Option.isSome_iff_exists.mp (ha n hpc)
        have hos := hb.starting.names n x hx
        dsimp only
        rw [heq, hos, hx]
        exact ⟨rfl, rfl⟩
      · dsimp only
        rw [heq]
        exact h n (hiff.mp hpast)

theorem complete_of_found (hb : Beside s) (h : Found f s) (hret : s.target.pc = .returned) :
    Complete s := by
  cases f with
  | missing => exact Or.inl h
  | opened =>
    cases harea : s.target.area with
    | none =>
      refine Or.inl fun n => hb.notPast n ?_
      unfold Target.Past
      rw [hret, harea]
      exact nofun
    | some a =>
      refine Or.inr ⟨?_, ?_⟩
      · intro n
        apply h n
        unfold Target.Past
        rw [hret, harea]
        rfl
      · rw [harea]
        have hkey := hb.area a harea
        rcases hb.starting.key with ⟨-, hnone⟩ | ⟨-, hid⟩
        · rw [hnone] at hkey
          cases hkey
        · exact hkey.symm.trans hid

/-- An orderly run ends with a target that is complete. -/
theorem complete_of_orderly {l : Leftover} {acts : List AttachAct}
    (hrun : run attach_step l.boot acts = some s) (hret : s.target.pc = .returned)
    (h : Allowed attach_step (Orderly f) l.boot acts) : Complete s := by
  have hfound : Beside s ∧ Found f s := by
    apply (reach_of_run h hrun).inv (P := fun s => Beside s ∧ Found f s)
    · refine ⟨beside_boot l, ?_⟩
      cases f with
      | missing => exact fun n => rfl
      | opened => exact fun n hpast => absurd hpast id
    · intro t u a ht ha hu
      exact ⟨beside_step ht.1 hu, found_step ht.1 ht.2 ha hu⟩
  exact complete_of_found hfound.1 hfound.2 hret

/-- What the target holds in the end tells what it found on the way. -/
theorem orderly_of_final (acts : List AttachAct) (h : Beside s)
    (hrun : run attach_step s acts = some u)
    (hfinal : ∀ n, u.target.Past n → match f with
      | .opened => u.target.sema n = u.daemon.sema n ∧ (u.target.sema n).isSome
      | .missing => u.target.sema n = none) :
    Allowed attach_step (Orderly f) s acts := by
  induction acts generalizing s with
  | nil => trivial
  | cons a acts ih =>
    obtain ⟨t, ht, hrest⟩ := Option.bind_eq_some_iff.mp hrun
    refine ⟨?_, ?_⟩
    · rcases attach_cases h ht with ⟨id, os, d, rfl, -, -⟩ | ⟨rfl, t', hcall, rfl⟩
      · trivial
      · intro n hpc
        rcases target_sema h hcall n with ⟨-, heq, hpast⟩ | ⟨hne, -⟩
        · have hreach := reach_of_run (allowed_all acts) hrest
          obtain ⟨-, hpast', hsame⟩ : Kept (s.os.sem n) n u :=
            hreach.inv ⟨beside_step h ht, hpast, heq⟩ fun _ _ _ hk _ hu => kept_step hk hu
          have hfn := hfinal n hpast'
          cases f with
          | missing => exact hsame.symm.trans hfn
          | opened =>
            by_contra hnot
            obtain ⟨x, hx⟩ := Option.isSome_iff_exists.mp hfn.2
            have hown : NotOwn x n u := by
              refine hreach.inv ⟨beside_step h ht, ?_, ?_⟩ fun _ _ _ hk _ hu => notOwn_step hk hu
              · exact h.starting.known n x (hsame.symm.trans hx)
              · exact fun hd => hnot (by rw [show s.daemon.sema n = some x from hd]; rfl)
            exact hown.2.2 (hfn.1.symm.trans hx)
        · exact absurd hpc hne
    · intro v hv
      rw [ht, Option.some.injEq] at hv
      subst hv
      exact ih (beside_step h ht) hrest

/-- The target attaches completely or not at all just when, at both its `sem_open` calls,
the daemon has opened the name already, or at both of them the name is missing. -/
theorem the_target_is_complete_iff (l : Leftover) (acts : List AttachAct) (s : Attaching)
    (hrun : run attach_step l.boot acts = some s) (hret : s.target.pc = .returned) :
    Complete s ↔ ∃ f, Allowed attach_step (Orderly f) l.boot acts := by
  constructor
  · rintro (hnone | ⟨hown, -⟩)
    · exact ⟨.missing, orderly_of_final acts (beside_boot l) hrun fun n _ => hnone n⟩
    · exact ⟨.opened, orderly_of_final acts (beside_boot l) hrun fun n _ => hown n⟩
  · rintro ⟨f, hf⟩
    exact complete_of_orderly hrun hret hf

/-- Both semaphores of an earlier daemon are left over. -/
def leftOver : Leftover where
  sem n := match n with
    | .rd => some 1
    | .dr => some 2
  used := [1, 2]
  known n x h := by cases n <;> cases h <;> decide

/-- The calls of a daemon in `hcount_init`. -/
def daemonCalls : List AttachAct :=
  [.daemon 3, .daemon 4, .daemon 4, .daemon 5, .daemon 5]

/-- The calls of a target in `__lscov_init`. -/
def targetCalls : List AttachAct := [.target, .target, .target, .target, .target]

/-- A target that comes after the daemon has started. -/
theorem a_late_target_is_complete :
    ∃ s, run attach_step leftOver.boot (daemonCalls ++ targetCalls) = some s ∧ Complete s ∧
      ∃ f, Allowed attach_step (Orderly f) leftOver.boot (daemonCalls ++ targetCalls) := by
  obtain ⟨s, hrun, hret, hsema, harea⟩ : ∃ s,
      run attach_step leftOver.boot (daemonCalls ++ targetCalls) = some s ∧
        s.target.pc = .returned ∧
        (∀ n, s.target.sema n = s.daemon.sema n ∧ (s.target.sema n).isSome) ∧
        s.target.area = some s.daemon.shm_hcount_id := by
    refine ⟨_, rfl, rfl, ?_, rfl⟩
    intro n
    cases n <;> exact ⟨rfl, rfl⟩
  have hcomplete : Complete s := Or.inr ⟨hsema, harea⟩
  exact ⟨s, hrun, hcomplete, (the_target_is_complete_iff leftOver _ s hrun hret).mp hcomplete⟩

/-- A target that comes right after the `shmget` of the daemon attaches to the semaphores
of an earlier one. -/
theorem an_early_target_has_foreign_semaphores :
    ∃ s, run attach_step leftOver.boot
        (daemonCalls.take 1 ++ targetCalls ++ daemonCalls.drop 1) = some s ∧
      s.target.pc = .returned ∧ ¬ Complete s := by
  obtain ⟨s, hrun, hret, hrd, hown⟩ : ∃ s,
      run attach_step leftOver.boot
        (daemonCalls.take 1 ++ targetCalls ++ daemonCalls.drop 1) = some s ∧
        s.target.pc = .returned ∧ s.target.sema .rd = some 1 ∧ s.daemon.sema .rd = some 4 :=
    ⟨_, rfl, rfl, rfl, rfl⟩
  refine ⟨s, hrun, hret, ?_⟩
  rintro (hnone | ⟨hsame, -⟩)
  · rw [hnone] at hrd
    cases hrd
  · have := (hsame .rd).1
    rw [hrd, hown] at this
    cases this

end lscov.ipc
