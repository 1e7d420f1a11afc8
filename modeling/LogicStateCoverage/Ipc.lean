-- The law of the IPC objects. Any number of daemons start and stop side by side. While
-- no stopping daemon unlinks a semaphore name that another daemon has opened anew, a
-- running daemon keeps its SHM key and both its semaphore names.
import LogicStateCoverage.Runs
import Mathlib.Logic.Function.Basic

namespace lscov.ipc

open runs

/-! ## The system calls -/

/-- `LSCOV_SEMA_RD_NAME` and `LSCOV_SEMA_DR_NAME` -/
inductive Name where
  | rd
  | dr
  deriving DecidableEq

/-- What the kernel holds: the SHM segment of `LSCOV_SHM_HCOUNT_KEY`, the semaphore of
each name, and the ids of all objects so far. -/
structure Os where
  shm : Option Nat
  sem : Name → Option Nat
  used : List Nat

namespace Os

variable (os : Os)

/-- `shmget` with `IPC_CREAT | IPC_EXCL`, where `id` is the id of a new segment. -/
def shmgetExcl (id : Nat) : Int × Os :=
  match os.shm with
  | some _ => (-1, os)
  | none => (id, { os with shm := some id, used := id :: os.used })

/-- `shmget` of a segment that exists. -/
def shmget : Int :=
  match os.shm with
  | some id => id
  | none => -1

/-- `shmctl` with `IPC_RMID`. The key is free at once. -/
def shmctlRmid (id : Int) : Os :=
  if os.shm.map Int.ofNat = some id then { os with shm := none } else os

def semUnlink (n : Name) : Os := { os with sem := Function.update os.sem n none }

/-- `sem_open` with `O_CREAT | O_EXCL`. `none` is `SEM_FAILED`, a null pointer. -/
def semOpenExcl (n : Name) (id : Nat) : Option Nat × Os :=
  match os.sem n with
  | some _ => (none, os)
  | none => (some id, { os with sem := Function.update os.sem n (some id), used := id :: os.used })

/-- `sem_open` of a semaphore that exists. -/
def semOpen (n : Name) : Option Nat := os.sem n

end Os

/-! ## A daemon -/

/-- The next IPC call of a daemon. -/
inductive Pc where
  /-- `shmget` in `hcount_init`. -/
  | boot
  /-- `sem_unlink` in `hcount_init`. -/
  | initUnlink (n : Name)
  /-- `sem_open` in `hcount_init`. -/
  | initOpen (n : Name)
  /-- `hcount_init` has returned. -/
  | running
  /-- `shmctl` in `hcount_stop`. -/
  | rmid
  /-- `sem_close` in `hcount_stop`. -/
  | close (n : Name)
  /-- `sem_unlink` in `hcount_stop`. -/
  | unlink (n : Name)
  | exited
  deriving DecidableEq

structure Daemon where
  pc : Pc
  shm_hcount_id : Int
  sema : Name → Option Nat

/-- A process that has not come to `hcount_init` yet. -/
def Daemon.start : Daemon := ⟨.boot, 0, fun _ => none⟩

/-- The second `if` on a semaphore in `hcount_stop`. -/
def Daemon.stopDr (d : Daemon) : Pc := if (d.sema .dr).isSome then .close .dr else .exited

/-- The first `if` on a semaphore in `hcount_stop`. -/
def Daemon.stopRd (d : Daemon) : Pc := if (d.sema .rd).isSome then .close .rd else d.stopDr

/-- Where `hcount_stop` goes on after a `sem_unlink`. -/
def Daemon.afterUnlink (d : Daemon) : Name → Pc
  | .rd => d.stopDr
  | .dr => .exited

/-- Where `hcount_init` goes on after a `sem_open`. -/
def Name.afterOpen : Name → Pc
  | .rd => .initUnlink .dr
  | .dr => .running

/-- One IPC call of a daemon, where `id` is the id of a new object. `PFATAL` goes to
`hcount_stop`, the exit handler. The tests of `sem_open` are against `(void *)-1`, so they
never find a `SEM_FAILED`. -/
def Daemon.call (os : Os) (d : Daemon) (id : Nat) : Option (Os × Daemon) :=
  match d.pc with
  | .boot =>
    let (shm_hcount_id, os) := os.shmgetExcl id
    some (os, { d with
      shm_hcount_id := shm_hcount_id
      pc := if shm_hcount_id < 0 then .rmid else .initUnlink .rd })
  | .initUnlink n => some (os.semUnlink n, { d with pc := .initOpen n })
  | .initOpen n =>
    let (sema, os) := os.semOpenExcl n id
    some (os, { d with
      sema := Function.update d.sema n sema
      pc := n.afterOpen })
  | .running => none
  | .rmid =>
    some (if d.shm_hcount_id ≠ 0 then os.shmctlRmid d.shm_hcount_id else os,
      { d with pc := d.stopRd })
  | .close n => some (os, { d with pc := .unlink n })
  | .unlink n =>
    some (os.semUnlink n, { d with pc := d.afterUnlink n })
  | .exited => none

/-- The daemon is in or before its loop, so a signal makes it exit. -/
def Pc.inMain : Pc → Bool
  | .boot | .initUnlink _ | .initOpen _ | .running => true
  | _ => false

/-! ## Any number of daemons -/

structure Sys where
  os : Os
  daemon : Nat → Daemon

inductive Act where
  /-- Daemon `i` makes its next call. -/
  | call (i id : Nat)
  /-- A signal makes daemon `i` exit: `lscov_report` returns in `lscov_stop`, and `exit`
  runs `hcount_stop`. -/
  | stop (i : Nat)
  /-- The signal comes between the next call and the store of its result. -/
  | callStop (i id : Nat)
  /-- Daemon `i` ends without `hcount_stop`: `lscov_report` divides by zero in
  `lscov_stop`, or the process is killed. -/
  | die (i : Nat)

def Sys.set (s : Sys) (i : Nat) (os : Os) (d : Daemon) : Sys :=
  ⟨os, Function.update s.daemon i d⟩

def step (s : Sys) : Act → Option Sys
  | .call i id =>
    if id ∈ s.os.used then none
    else ((s.daemon i).call s.os id).map fun (os, d) => s.set i os d
  | .stop i =>
    if (s.daemon i).pc.inMain then some (s.set i s.os { s.daemon i with pc := .rmid }) else none
  | .callStop i id =>
    if id ∈ s.os.used ∨ (s.daemon i).pc.inMain = false then none
    else ((s.daemon i).call s.os id).map fun (os, _) =>
      s.set i os { s.daemon i with pc := .rmid }
  | .die i => some (s.set i s.os { s.daemon i with pc := .exited })

/-- No daemon has started yet. Objects of earlier daemons may be left over. -/
def boot (os : Os) : Sys := ⟨os, fun _ => Daemon.start⟩

/-- Each running daemon finds its own objects under the key and the two names. -/
def Owned (s : Sys) : Prop :=
  ∀ i, (s.daemon i).pc = .running →
    s.os.shm.map Int.ofNat = some (s.daemon i).shm_hcount_id ∧
      ∀ n, s.os.sem n = (s.daemon i).sema n ∧ (s.os.sem n).isSome

/-- A stopping daemon unlinks a name only while its own semaphore is under it, or none. -/
def Clean (s : Sys) : Act → Prop
  | .call i _ => ∀ n, (s.daemon i).pc = .unlink n →
      s.os.sem n = none ∨ s.os.sem n = (s.daemon i).sema n
  | _ => True

/-! ## The invariant -/

/-- The daemon has the SHM key. -/
def Daemon.Holds (d : Daemon) : Prop :=
  match d.pc with
  | .initUnlink _ | .initOpen _ | .running => True
  | .rmid => 0 < d.shm_hcount_id
  | _ => False

/-- The daemon has opened the name, and has not begun to stop. -/
def Pc.opened : Pc → Name → Bool
  | .initUnlink .dr, .rd | .initOpen .dr, .rd | .running, _ => true
  | _, _ => false

structure Inv (s : Sys) : Prop where
  used : ∀ i n x, (s.daemon i).sema n = some x → x ∈ s.os.used
  distinct : ∀ i j n x, (s.daemon i).sema n = some x → (s.daemon j).sema n = some x → i = j
  fresh : ∀ i, (s.daemon i).pc = .boot → (s.daemon i).shm_hcount_id = 0
  key : ∀ i, (s.daemon i).Holds → s.os.shm.map Int.ofNat = some (s.daemon i).shm_hcount_id
  one : ∀ i j, (s.daemon i).Holds → (s.daemon j).Holds → i = j
  opened : ∀ i n, (s.daemon i).pc.opened n = true →
    s.os.sem n = (s.daemon i).sema n ∧ (s.os.sem n).isSome
  free : ∀ i n, (s.daemon i).pc = .initOpen n → s.os.sem n = none

variable {s t : Sys} {i id : Nat} {n : Name} {os : Os} {d : Daemon}

theorem holds_of_opened (h : d.pc.opened n = true) : d.Holds := by
  unfold Daemon.Holds
  cases hpc : d.pc <;> rw [hpc] at h <;> trivial

/-- A daemon between the two calls on a name has the key. -/
theorem holds_of_init (h : d.pc = .initUnlink n ∨ d.pc = .initOpen n) : d.Holds := by
  unfold Daemon.Holds
  rcases h with hpc | hpc <;> rw [hpc] <;> trivial

/-- A name after an update has what the update gave it, or what it had. -/
theorem update_cases {sem : Name → Option Nat} {v : Option Nat} {m : Name} {x : Nat}
    (h : Function.update sem n v m = some x) : m = n ∧ v = some x ∨ m ≠ n ∧ sem m = some x := by
  by_cases hm : m = n
  · rw [hm, Function.update_self] at h
    exact Or.inl ⟨hm, h⟩
  · rw [Function.update_of_ne hm] at h
    exact Or.inr ⟨hm, h⟩

theorem Sys.set_self (s : Sys) (i : Nat) (os : Os) (d : Daemon) : (s.set i os d).daemon i = d := by
  simp [Sys.set]

theorem Sys.set_of_ne {j : Nat} (h : j ≠ i) : (s.set i os d).daemon j = s.daemon j := by
  simp [Sys.set, h]

/-- The daemon is in `hcount_stop`, past the `shmctl`. -/
def Pc.pastRmid : Pc → Bool
  | .close _ | .unlink _ | .exited => true
  | _ => false

theorem pastRmid_stopDr (d : Daemon) : d.stopDr.pastRmid = true := by
  unfold Daemon.stopDr
  split <;> rfl

theorem pastRmid_stopRd (d : Daemon) : d.stopRd.pastRmid = true := by
  unfold Daemon.stopRd
  split
  · rfl
  · exact pastRmid_stopDr d

theorem not_holds_of_pastRmid (h : d.pc.pastRmid = true) : ¬ d.Holds := by
  unfold Daemon.Holds
  cases hpc : d.pc <;> rw [hpc] at h <;> first | exact id | cases h

/-! ## The moves of one daemon -/

/-- What a move leaves alone: the objects of a holder beside the daemon. -/
def Spares (s : Sys) (i : Nat) (os : Os) : Prop :=
  ∀ j, j ≠ i → (s.daemon j).Holds → os.shm = s.os.shm ∧
    (∀ n, (s.daemon j).pc.opened n = true → os.sem n = s.os.sem n) ∧
    ∀ n, (s.daemon j).pc = .initOpen n → os.sem n = none

/-- The semaphores of the daemon after a move are those from before, or new objects. -/
def NewSema (s : Sys) (i : Nat) (os : Os) (d : Daemon) : Prop :=
  (∀ x ∈ s.os.used, x ∈ os.used) ∧
    ∀ n x, d.sema n = some x → (s.daemon i).sema n = some x ∨ x ∉ s.os.used ∧ x ∈ os.used

/-- Whatever is told of the daemon that moved, and of each other daemon, is told of all. -/
theorem set_cases {P : Nat → Daemon → Prop} (hi : P i d) (h : ∀ j, j ≠ i → P j (s.daemon j))
    (j : Nat) : P j ((s.set i os d).daemon j) := by
  by_cases hj : j = i
  · rw [hj, Sys.set_self]
    exact hi
  · rw [Sys.set_of_ne hj]
    exact h j hj

theorem distinct_set (h : Inv s) (hsema : NewSema s i os d) (j k : Nat) (n : Name) (x : Nat)
    (hj : ((s.set i os d).daemon j).sema n = some x)
    (hk : ((s.set i os d).daemon k).sema n = some x) : j = k := by
  -- A semaphore of another daemon is not the new one.
  have hother : ∀ k, k ≠ i → (s.daemon k).sema n = some x → d.sema n = some x → i = k := by
    intro k hk hx hd
    rcases hsema.2 n x hd with hold | ⟨hnew, -⟩
    · exact h.distinct i k n x hold hx
    · exact absurd (h.used k n x hx) hnew
  by_cases hji : j = i <;> by_cases hki : k = i
  · rw [hji, hki]
  · rw [hji, Sys.set_self] at hj
    rw [Sys.set_of_ne hki] at hk
    rw [hji]
    exact hother k hki hk hj
  · rw [Sys.set_of_ne hji] at hj
    rw [hki, Sys.set_self] at hk
    rw [hki]
    exact (hother j hji hj hk).symm
  · rw [Sys.set_of_ne hji] at hj
    rw [Sys.set_of_ne hki] at hk
    exact h.distinct j k n x hj hk

/-- A move keeps the invariant when it spares the others and the daemon's own part of the
invariant holds after it. -/
theorem inv_set (h : Inv s) (hspare : Spares s i os) (hsema : NewSema s i os d)
    (hboot : d.pc ≠ .boot)
    (hkey : d.Holds → os.shm.map Int.ofNat = some d.shm_hcount_id ∧
      ∀ j, j ≠ i → ¬ (s.daemon j).Holds)
    (hopened : ∀ n, d.pc.opened n = true → os.sem n = d.sema n ∧ (os.sem n).isSome)
    (hfree : ∀ n, d.pc = .initOpen n → os.sem n = none) : Inv (s.set i os d) where
  used j n x := by
    refine set_cases (P := fun _ d => d.sema n = some x → x ∈ os.used) ?_ ?_ j
    · intro hx
      rcases hsema.2 n x hx with hold | ⟨-, hnew⟩
      · exact hsema.1 x (h.used i n x hold)
      · exact hnew
    · exact fun j _ hx => hsema.1 x (h.used j n x hx)
  distinct := distinct_set h hsema
  fresh := set_cases (P := fun _ d => d.pc = .boot → d.shm_hcount_id = 0)
    (fun hb => absurd hb hboot) (fun j _ => h.fresh j)
  key := by
    refine set_cases (P := fun _ d => d.Holds → os.shm.map Int.ofNat = some d.shm_hcount_id) ?_ ?_
    · exact fun hd => (hkey hd).1
    · intro j hj hd
      rw [(hspare j hj hd).1]
      exact h.key j hd
  one j k hj hk := by
    by_cases hji : j = i <;> by_cases hki : k = i
    · rw [hji, hki]
    · rw [hji, Sys.set_self] at hj
      rw [Sys.set_of_ne hki] at hk
      exact absurd hk ((hkey hj).2 k hki)
    · rw [Sys.set_of_ne hji] at hj
      rw [hki, Sys.set_self] at hk
      exact absurd hj ((hkey hk).2 j hji)
    · rw [Sys.set_of_ne hji] at hj
      rw [Sys.set_of_ne hki] at hk
      exact h.one j k hj hk
  opened j n := by
    refine set_cases (P := fun _ d => d.pc.opened n = true → os.sem n = d.sema n ∧
      (os.sem n).isSome) (hopened n) ?_ j
    intro j hj ho
    rw [(hspare j hj (holds_of_opened ho)).2.1 n ho]
    exact h.opened j n ho
  free j n := by
    refine set_cases (P := fun _ d => d.pc = .initOpen n → os.sem n = none) (hfree n) ?_ j
    intro j hj hpc
    exact (hspare j hj (holds_of_init (Or.inr hpc))).2.2 n hpc

/-- The moves past the `shmctl` have only the others to spare. -/
theorem inv_set_past (h : Inv s) (hspare : Spares s i os) (hsema : NewSema s i os d)
    (hpast : d.pc.pastRmid = true) : Inv (s.set i os d) := by
  apply inv_set h hspare hsema
  · intro hb
    rw [hb] at hpast
    cases hpast
  · exact fun hd => absurd hd (not_holds_of_pastRmid hpast)
  · exact fun n ho => absurd (holds_of_opened ho) (not_holds_of_pastRmid hpast)
  · intro n hpc
    rw [hpc] at hpast
    cases hpast

theorem spares_self (h : Inv s) (i : Nat) : Spares s i s.os :=
  fun j _ _ => ⟨rfl, fun _ _ => rfl, fun n hpc => h.free j n hpc⟩

/-- A daemon that has the key is the only one. -/
theorem not_holds_other (h : Inv s) (hi : (s.daemon i).Holds) (j : Nat) (hj : j ≠ i) :
    ¬ (s.daemon j).Holds :=
  fun hd => hj (h.one j i hd hi)

theorem spares_of_holds (h : Inv s) (hi : (s.daemon i).Holds) (os : Os) : Spares s i os :=
  fun j hj hd => absurd hd (not_holds_other h hi j hj)

theorem newSema_self (s : Sys) (i : Nat) (os : Os) (d : Daemon)
    (hused : ∀ x ∈ s.os.used, x ∈ os.used) (hd : d.sema = (s.daemon i).sema) :
    NewSema s i os d :=
  ⟨hused, fun n x hx => Or.inl (by rw [← hd]; exact hx)⟩

/-- The key is taken: `PFATAL`, and `hcount_stop` with an id of -1. -/
theorem call_boot_taken {key : Nat} (hpc : d.pc = .boot) (hkey : os.shm = some key) :
    d.call os id = some (os, { d with shm_hcount_id := -1, pc := .rmid }) := by
  simp only [Daemon.call, hpc, Os.shmgetExcl, hkey]
  rfl

theorem call_boot_free (hpc : d.pc = .boot) (hkey : os.shm = none) :
    d.call os id = some ({ os with shm := some id, used := id :: os.used },
      { d with shm_hcount_id := id, pc := .initUnlink .rd }) := by
  have hpos : ¬ (id : Int) < 0 := by omega
  simp only [Daemon.call, hpc, Os.shmgetExcl, hkey, if_neg hpos]

theorem call_initOpen_free (hpc : d.pc = .initOpen n) (hfree : os.sem n = none) :
    d.call os id = some
      ({ os with sem := Function.update os.sem n (some id), used := id :: os.used },
        { d with
          sema := Function.update d.sema n (some id)
          pc := n.afterOpen }) := by
  simp only [Daemon.call, hpc, Os.semOpenExcl, hfree]

/-- An id that is not that of the key removes nothing. -/
theorem shmctlRmid_of_neg {id : Int} (h : id < 0) : os.shmctlRmid id = os := by
  unfold Os.shmctlRmid
  rw [if_neg]
  intro heq
  obtain ⟨key, -, hkey⟩ := Option.map_eq_some_iff.mp heq
  rw [← hkey] at h
  exact absurd h (by simp)

theorem inv_shmget (h : Inv s) (hpc : (s.daemon i).pc = .boot)
    (hcall : (s.daemon i).call s.os id = some (os, d)) : Inv (s.set i os d) := by
  cases hkey : s.os.shm with
  | some key =>
    rw [call_boot_taken hpc hkey] at hcall
    cases hcall
    apply inv_set h (spares_self h i)
    · exact newSema_self s i _ _ (fun _ hx => hx) rfl
    · exact fun hb => by cases hb
    · exact fun hd => absurd (show (0 : Int) < -1 from hd) (by decide)
    · exact fun n ho => by cases n <;> cases ho
    · exact fun n hb => by cases hb
  | none =>
    rw [call_boot_free hpc hkey] at hcall
    cases hcall
    have hnone : ∀ j, ¬ (s.daemon j).Holds := by
      intro j hd
      have := h.key j hd
      rw [hkey] at this
      cases this
    apply inv_set h (fun j _ hd => absurd hd (hnone j))
    · exact newSema_self s i _ _ (fun x hx => List.mem_cons_of_mem _ hx) rfl
    · exact fun hb => by cases hb
    · exact fun _ => ⟨rfl, fun j _ => hnone j⟩
    · exact fun n ho => by cases n <;> cases ho
    · exact fun n hb => by cases hb

theorem inv_initUnlink (h : Inv s) (hpc : (s.daemon i).pc = .initUnlink n)
    (hcall : (s.daemon i).call s.os id = some (os, d)) : Inv (s.set i os d) := by
  have hi := holds_of_init (Or.inl hpc)
  simp only [Daemon.call, hpc, Option.some.injEq] at hcall
  cases hcall
  apply inv_set h (spares_of_holds h hi _)
  · exact newSema_self s i _ _ (fun _ hx => hx) rfl
  · exact fun hb => by cases hb
  · exact fun _ => ⟨h.key i hi, not_holds_other h hi⟩
  · intro m ho
    -- Only `rd` is open here, and `dr` is unlinked.
    cases n with
    | rd => cases m <;> cases ho
    | dr =>
      cases m with
      | rd => exact h.opened i .rd (by rw [hpc]; rfl)
      | dr => cases ho
  · intro m hb
    cases hb
    exact Function.update_self n none s.os.sem

theorem inv_initOpen (h : Inv s) (hid : id ∉ s.os.used) (hpc : (s.daemon i).pc = .initOpen n)
    (hcall : (s.daemon i).call s.os id = some (os, d)) : Inv (s.set i os d) := by
  have hi := holds_of_init (Or.inr hpc)
  rw [call_initOpen_free hpc (h.free i n hpc)] at hcall
  cases hcall
  apply inv_set h (spares_of_holds h hi _)
  · refine ⟨fun x hx => List.mem_cons_of_mem _ hx, ?_⟩
    intro m x hx
    rcases update_cases hx with ⟨-, hnew⟩ | ⟨-, hold⟩
    · cases hnew
      exact Or.inr ⟨hid, List.mem_cons_self⟩
    · exact Or.inl hold
  · cases n <;> exact fun hb => by cases hb
  · exact fun _ => ⟨h.key i hi, not_holds_other h hi⟩
  · intro m ho
    dsimp only at ho ⊢
    by_cases hm : m = n
    · rw [hm, Function.update_self, Function.update_self]
      exact ⟨rfl, rfl⟩
    · rw [Function.update_of_ne hm, Function.update_of_ne hm]
      apply h.opened i m
      rw [hpc]
      cases n <;> cases m <;> first | exact absurd rfl hm | rfl | cases ho
  · cases n <;> exact fun m hb => by cases hb

theorem inv_rmid (h : Inv s) (hpc : (s.daemon i).pc = .rmid)
    (hcall : (s.daemon i).call s.os id = some (os, d)) : Inv (s.set i os d) := by
  simp only [Daemon.call, hpc, Option.some.injEq] at hcall
  cases hcall
  have hspare : Spares s i (if (s.daemon i).shm_hcount_id ≠ 0
      then s.os.shmctlRmid (s.daemon i).shm_hcount_id else s.os) := by
    rcases Int.lt_trichotomy (s.daemon i).shm_hcount_id 0 with hneg | hzero | hpos
    · rw [if_pos (by omega), shmctlRmid_of_neg hneg]
      exact spares_self h i
    · rw [if_neg (by omega)]
      exact spares_self h i
    · apply spares_of_holds h
      unfold Daemon.Holds
      rw [hpc]
      exact hpos
  apply inv_set_past h hspare _ (pastRmid_stopRd _)
  apply newSema_self s i _ _ _ rfl
  intro x hx
  split
  · unfold Os.shmctlRmid
    split <;> exact hx
  · exact hx

theorem inv_unlink (h : Inv s) (hpc : (s.daemon i).pc = .unlink n)
    (hclean : s.os.sem n = none ∨ s.os.sem n = (s.daemon i).sema n)
    (hcall : (s.daemon i).call s.os id = some (os, d)) : Inv (s.set i os d) := by
  simp only [Daemon.call, hpc, Option.some.injEq] at hcall
  cases hcall
  have hspare : Spares s i (s.os.semUnlink n) := by
    intro j hj hd
    refine ⟨rfl, ?_, ?_⟩
    · intro m ho
      have hne : m ≠ n := by
        -- The name that is unlinked is not one that the other daemon has opened.
        intro hm
        subst hm
        obtain ⟨hown, hsome⟩ := h.opened j m ho
        obtain ⟨x, hx⟩ := Option.isSome_iff_exists.mp hsome
        rcases hclean with hnone | hmine
        · rw [hnone] at hsome
          cases hsome
        · exact hj (h.distinct j i m x (hown ▸ hx) (hmine ▸ hx))
      exact Function.update_of_ne hne none s.os.sem
    · intro m hopen
      unfold Os.semUnlink
      dsimp only
      by_cases hm : m = n
      · rw [hm, Function.update_self]
      · rw [Function.update_of_ne hm]
        exact h.free j m hopen
  apply inv_set_past h hspare
  · exact newSema_self s i _ _ (fun _ hx => hx) rfl
  · cases n with
    | rd => exact pastRmid_stopDr _
    | dr => rfl

/-- A daemon that goes to `hcount_stop` has the id of the segment that it had before. -/
theorem inv_set_rmid (h : Inv s) (hspare : Spares s i os) (hused : ∀ x ∈ s.os.used, x ∈ os.used)
    (hkey : 0 < (s.daemon i).shm_hcount_id → (s.daemon i).Holds ∧ os.shm = s.os.shm) :
    Inv (s.set i os { s.daemon i with pc := .rmid }) := by
  apply inv_set h hspare
  · exact newSema_self s i _ _ hused rfl
  · exact fun hb => by cases hb
  · intro hpos
    obtain ⟨hi, hshm⟩ := hkey hpos
    rw [hshm]
    exact ⟨h.key i hi, not_holds_other h hi⟩
  · exact fun n ho => by cases n <;> cases ho
  · exact fun n hb => by cases hb

theorem not_pos_of_boot (h : Inv s) (hpc : (s.daemon i).pc = .boot) :
    ¬ 0 < (s.daemon i).shm_hcount_id := by
  rw [h.fresh i hpc]
  decide

theorem inv_stop (h : Inv s) (hmain : (s.daemon i).pc.inMain = true) :
    Inv (s.set i s.os { s.daemon i with pc := .rmid }) := by
  apply inv_set_rmid h (spares_self h i) (fun _ hx => hx)
  intro hpos
  refine ⟨?_, rfl⟩
  unfold Daemon.Holds
  cases hpc : (s.daemon i).pc with
  | boot => exact absurd hpos (not_pos_of_boot h hpc)
  | initUnlink _ | initOpen _ | running => trivial
  | rmid | close _ | unlink _ | exited =>
    rw [hpc] at hmain
    cases hmain

/-- A call whose result is not stored leaves the new object behind. -/
theorem inv_callStop (h : Inv s) (hmain : (s.daemon i).pc.inMain = true)
    (hcall : (s.daemon i).call s.os id = some (os, d)) :
    Inv (s.set i os { s.daemon i with pc := .rmid }) := by
  cases hpc : (s.daemon i).pc with
  | boot =>
    cases hkey : s.os.shm with
    | some key =>
      rw [call_boot_taken hpc hkey] at hcall
      cases hcall
      exact inv_stop h hmain
    | none =>
      rw [call_boot_free hpc hkey] at hcall
      cases hcall
      apply inv_set_rmid h _ (fun x hx => List.mem_cons_of_mem _ hx)
      · exact fun hpos => absurd hpos (not_pos_of_boot h hpc)
      · intro j _ hd
        have hshm := h.key j hd
        rw [hkey] at hshm
        cases hshm
  | initUnlink n =>
    have hi := holds_of_init (Or.inl hpc)
    simp only [Daemon.call, hpc, Option.some.injEq] at hcall
    cases hcall
    exact inv_set_rmid h (spares_of_holds h hi _) (fun _ hx => hx) fun _ => ⟨hi, rfl⟩
  | initOpen n =>
    have hi := holds_of_init (Or.inr hpc)
    rw [call_initOpen_free hpc (h.free i n hpc)] at hcall
    cases hcall
    exact inv_set_rmid h (spares_of_holds h hi _) (fun x hx => List.mem_cons_of_mem _ hx)
      fun _ => ⟨hi, rfl⟩
  | running => simp [Daemon.call, hpc] at hcall
  | rmid | close _ | unlink _ | exited =>
    rw [hpc] at hmain
    cases hmain

/-- A daemon that ends without `hcount_stop` leaves all its objects behind. -/
theorem inv_die (h : Inv s) : Inv (s.set i s.os { s.daemon i with pc := .exited }) :=
  inv_set_past h (spares_self h i) (newSema_self s i _ _ (fun _ hx => hx) rfl) rfl

/-! ## The step and the run -/

theorem inv_step (a : Act) (h : Inv s) (ha : Clean s a) (hs : step s a = some t) : Inv t := by
  cases a with
  | call i id =>
    simp only [step] at hs
    split at hs
    · cases hs
    · rename_i hid
      obtain ⟨⟨os, d⟩, hcall, rfl⟩ := Option.map_eq_some_iff.mp hs
      cases hpc : (s.daemon i).pc with
      | boot => exact inv_shmget h hpc hcall
      | initUnlink n => exact inv_initUnlink h hpc hcall
      | initOpen n => exact inv_initOpen h hid hpc hcall
      | rmid => exact inv_rmid h hpc hcall
      | unlink n => exact inv_unlink h hpc (ha n hpc) hcall
      | close n =>
        simp only [Daemon.call, hpc, Option.some.injEq] at hcall
        cases hcall
        apply inv_set_past h (spares_self h i)
        · exact newSema_self s i _ _ (fun _ hx => hx) rfl
        · rfl
      | running | exited =>
        simp only [Daemon.call, hpc] at hcall
        cases hcall
  | stop i =>
    simp only [step] at hs
    split at hs
    · rename_i hmain
      cases hs
      exact inv_stop h hmain
    · cases hs
  | callStop i id =>
    simp only [step] at hs
    split at hs
    · cases hs
    · rename_i hgo
      obtain ⟨⟨os, d⟩, hcall, rfl⟩ := Option.map_eq_some_iff.mp hs
      exact inv_callStop h (by simpa using (not_or.mp hgo).2) hcall
  | die i =>
    cases hs
    exact inv_die h

theorem inv_boot (os : Os) : Inv (boot os) where
  used i n x hx := by cases hx
  distinct i j n x hx := by cases hx
  fresh i _ := rfl
  key i hd := absurd hd id
  one i j hd := absurd hd id
  opened i n ho := by cases n <;> cases ho
  free i n hb := by cases hb

theorem Inv.owned (h : Inv s) : Owned s := by
  intro i hpc
  have hi : (s.daemon i).Holds := by
    unfold Daemon.Holds
    rw [hpc]
    trivial
  refine ⟨h.key i hi, ?_⟩
  intro n
  exact h.opened i n (by rw [hpc]; rfl)

/-- In every run in which no stopping daemon unlinks a name that another daemon has opened
anew, every running daemon finds its own objects. -/
theorem a_running_daemon_keeps_its_objects (os : Os) (s : Sys)
    (h : Reach step Clean (boot os) s) : Owned s := by
  have hinv : Inv s := by
    apply h.inv (inv_boot os)
    intro t u a ht ha hu
    exact inv_step a ht ha hu
  exact hinv.owned

/-! ## Two daemons -/

/-- Nothing is left over. -/
def Os.empty : Os := ⟨none, fun _ => none, []⟩

/-- The calls of `hcount_init`, for a daemon whose objects get the ids from `id` on. -/
def initCalls (i id : Nat) : List Act :=
  [.call i id, .call i (id + 1), .call i (id + 1), .call i (id + 2), .call i (id + 2)]

/-- One daemon that runs keeps its objects. -/
theorem one_daemon_keeps_its_objects :
    ∃ s, Reach step Clean (boot Os.empty) s ∧ (s.daemon 0).pc = .running ∧ Owned s := by
  have hclean : ∀ s id, (s.daemon 0).pc.pastRmid = false → Clean s (.call 0 id) := by
    intro s id hpc n hn
    rw [hn] at hpc
    cases hpc
  have h0 : Reach step Clean (boot Os.empty) (boot Os.empty) := .start
  have h1 := h0.step (a := .call 0 7) (hclean _ 7 rfl) rfl
  have h2 := h1.step (a := .call 0 8) (hclean _ 8 rfl) rfl
  have h3 := h2.step (a := .call 0 8) (hclean _ 8 rfl) rfl
  have h4 := h3.step (a := .call 0 9) (hclean _ 9 rfl) rfl
  have h5 := h4.step (a := .call 0 9) (hclean _ 9 rfl) rfl
  exact ⟨_, h5, rfl, a_running_daemon_keeps_its_objects Os.empty _ h5⟩

/-- A daemon that starts after another one has removed its SHM key, and before that one
has unlinked its names, ends up without its names. -/
theorem a_stopping_daemon_unlinks_the_names_of_the_next :
    ∃ s, Reach step (fun _ _ => True) (boot Os.empty) s ∧ (s.daemon 1).pc = .running ∧
      s.os.sem .rd = none ∧ ¬ Owned s := by
  obtain ⟨s, hrun, hpc, hnone⟩ : ∃ s,
      run step (boot Os.empty) (initCalls 0 1 ++ [.stop 0, .call 0 4] ++ initCalls 1 4 ++
        [.call 0 7, .call 0 7]) = some s ∧ (s.daemon 1).pc = .running ∧ s.os.sem .rd = none :=
    ⟨_, rfl, rfl, rfl⟩
  refine ⟨s, reach_of_run (allowed_all _) hrun, hpc, hnone, ?_⟩
  intro h
  have hsome := ((h 1 hpc).2 .rd).2
  rw [hnone] at hsome
  cases hsome

end lscov.ipc
