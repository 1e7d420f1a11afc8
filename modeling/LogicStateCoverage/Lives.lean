-- The law of the lives of daemons. Daemons come one after the other, and a signal may end
-- each of them between two of its calls, as long as `hcount_stop` runs then. Between two
-- lives both semaphore names are free, and so is the SHM key, unless the kernel gave out
-- the segment id 0: `hcount_stop` takes that one for no segment at all.
import LogicStateCoverage.Ipc

namespace lscov.ipc

open runs

/-! ## One daemon at a time -/

def Pc.alive : Pc → Bool
  | .boot | .exited => false
  | _ => true

/-- Only the daemon that acts is alive. It stores the result of each of its calls, and it
does not end without `hcount_stop`. -/
def Alone (s : Sys) : Act → Prop
  | .call i _ | .stop i => ∀ j, j ≠ i → (s.daemon j).pc.alive = false
  | .callStop _ _ | .die _ => False

/-- No object is there. -/
def Os.Empty (os : Os) : Prop := os.shm = none ∧ ∀ n, os.sem n = none

/-- Both names are free, and the key is free or has the segment 0. -/
def Os.Clear (os : Os) : Prop := (os.shm = none ∨ os.shm = some 0) ∧ ∀ n, os.sem n = none

/-- What a daemon that is alone finds under the key and the names. -/
def Daemon.Finds (os : Os) (d : Daemon) : Prop :=
  match d.pc with
  | .boot | .exited => os.Clear
  | .initUnlink .rd | .initOpen .rd =>
    os.shm.map Int.ofNat = some d.shm_hcount_id ∧ ∀ n, os.sem n = none ∧ d.sema n = none
  | .initUnlink .dr | .initOpen .dr =>
    os.shm.map Int.ofNat = some d.shm_hcount_id ∧ os.sem .rd = d.sema .rd ∧
      os.sem .dr = none ∧ d.sema .dr = none
  | .running => os.shm.map Int.ofNat = some d.shm_hcount_id ∧ ∀ n, os.sem n = d.sema n
  | .rmid =>
    (os.shm.map Int.ofNat = some d.shm_hcount_id ∨
      (os.shm = none ∨ os.shm = some 0) ∧ d.shm_hcount_id ≤ 0) ∧ ∀ n, os.sem n = d.sema n
  | .close .rd | .unlink .rd => (os.shm = none ∨ os.shm = some 0) ∧ ∀ n, os.sem n = d.sema n
  | .close .dr | .unlink .dr =>
    (os.shm = none ∨ os.shm = some 0) ∧ os.sem .rd = none ∧ os.sem .dr = d.sema .dr

/-- The globals of a daemon are zero before `hcount_init`. -/
def Daemon.Fresh (d : Daemon) : Prop :=
  d.pc = .boot → d.shm_hcount_id = 0 ∧ ∀ n, d.sema n = none

structure OneLife (s : Sys) : Prop where
  fresh : ∀ i, (s.daemon i).Fresh
  alone : ∀ i, (∀ j, j ≠ i → (s.daemon j).pc.alive = false) → (s.daemon i).Finds s.os

variable {s t : Sys} {i id : Nat} {n : Name} {os os' : Os} {d d' : Daemon} {a : Act}

theorem finds_of_not_alive (h : d.pc.alive = false) : d.Finds os ↔ os.Clear := by
  unfold Daemon.Finds
  cases hpc : d.pc <;> simp_all [Pc.alive]

/-! ## The calls of a daemon -/

/-- `shmctl` with the id of the segment frees the key, and `hcount_stop` leaves it out for
an id of 0. -/
theorem shm_rmid (h : os.shm.map Int.ofNat = some d.shm_hcount_id ∨
      (os.shm = none ∨ os.shm = some 0) ∧ d.shm_hcount_id ≤ 0) :
    let os' := if d.shm_hcount_id ≠ 0 then os.shmctlRmid d.shm_hcount_id else os
    (os'.shm = none ∨ os'.shm = some 0) ∧ os'.sem = os.sem := by
  rcases h with hown | ⟨hshm, hle⟩
  · by_cases h0 : d.shm_hcount_id = 0
    · obtain ⟨k, hk, hid⟩ := Option.map_eq_some_iff.mp hown
      have hk0 : k = 0 := by simp only [Int.ofNat_eq_natCast] at hid; omega
      simp [h0, hk, hk0]
    · simp [h0, Os.shmctlRmid, hown]
  · by_cases h0 : d.shm_hcount_id = 0
    · simpa [h0] using hshm
    · have hneg : d.shm_hcount_id < 0 := by omega
      simpa [h0, shmctlRmid_of_neg hneg] using hshm

/-- Where `hcount_stop` goes on after the `shmctl`. -/
theorem finds_stopRd (hshm : os.shm = none ∨ os.shm = some 0) (hsem : ∀ n, os.sem n = d.sema n) :
    ({ d with pc := d.stopRd } : Daemon).Finds os := by
  unfold Daemon.stopRd Daemon.stopDr
  cases hrd : d.sema .rd with
  | some x => simpa [Daemon.Finds] using ⟨hshm, hsem⟩
  | none =>
    have hrd' : os.sem .rd = none := (hsem .rd).trans hrd
    cases hdr : d.sema .dr with
    | some x => simpa [Daemon.Finds, hdr] using ⟨hshm, hrd', (hsem .dr).trans hdr⟩
    | none =>
      have hdr' : os.sem .dr = none := (hsem .dr).trans hdr
      refine ⟨hshm, fun n => ?_⟩
      cases n
      · exact hrd'
      · exact hdr'

theorem finds_boot (hpc : d.pc = .boot) (hfresh : d.Fresh) (h : os.Clear)
    (hcall : d.call os id = some (os', d')) : d'.Finds os' := by
  obtain ⟨-, hnone⟩ := hfresh hpc
  cases hkey : os.shm with
  | some k =>
    rw [call_boot_taken hpc hkey] at hcall
    cases hcall
    refine ⟨Or.inr ⟨h.1, ?_⟩, fun n => (h.2 n).trans (hnone n).symm⟩
    show (-1 : Int) ≤ 0
    decide
  | none =>
    rw [call_boot_free hpc hkey] at hcall
    cases hcall
    exact ⟨rfl, fun n => ⟨h.2 n, hnone n⟩⟩

theorem finds_init (hpc : d.pc = .initUnlink n ∨ d.pc = .initOpen n) (h : d.Finds os)
    (hcall : d.call os id = some (os', d')) : d'.Finds os' := by
  unfold Daemon.Finds at h
  rcases hpc with hpc | hpc
  · simp only [Daemon.call, hpc, Option.some.injEq] at hcall
    cases hcall
    rw [hpc] at h
    cases n
    · exact ⟨h.1, fun m => ⟨by cases m <;> simp [Os.semUnlink, (h.2 _).1], (h.2 m).2⟩⟩
    · exact ⟨h.1, by simpa [Os.semUnlink] using h.2.1, by simp [Os.semUnlink], h.2.2.2⟩
  · rw [hpc] at h
    cases n
    · rw [call_initOpen_free hpc (h.2 .rd).1] at hcall
      cases hcall
      exact ⟨h.1, by simp, by simp [(h.2 .dr).1], by simp [(h.2 .dr).2]⟩
    · rw [call_initOpen_free hpc h.2.2.1] at hcall
      cases hcall
      refine ⟨h.1, fun m => ?_⟩
      cases m
      · simpa using h.2.1
      · simp

theorem finds_unlink (hpc : d.pc = .unlink n) (h : d.Finds os)
    (hcall : d.call os id = some (os', d')) : d'.Finds os' := by
  unfold Daemon.Finds at h
  simp only [Daemon.call, hpc, Option.some.injEq] at hcall
  cases hcall
  rw [hpc] at h
  cases n with
  | rd =>
    unfold Daemon.afterUnlink Daemon.stopDr
    cases hdr : d.sema .dr with
    | some x => exact ⟨h.1, by simp [Os.semUnlink], by simpa [Os.semUnlink] using h.2 .dr⟩
    | none =>
      refine ⟨h.1, fun m => ?_⟩
      cases m
      · simp [Os.semUnlink]
      · simpa [Os.semUnlink, hdr] using h.2 .dr
  | dr =>
    refine ⟨h.1, fun m => ?_⟩
    cases m
    · simpa [Os.semUnlink] using h.2.1
    · simp [Os.semUnlink]

/-- A daemon that makes its next call finds what it should after it. -/
theorem finds_call (hfresh : d.Fresh) (h : d.Finds os) (hcall : d.call os id = some (os', d')) :
    d'.Finds os' := by
  cases hpc : d.pc with
  | boot =>
    unfold Daemon.Finds at h
    rw [hpc] at h
    exact finds_boot hpc hfresh h hcall
  | initUnlink m => exact finds_init (Or.inl hpc) h hcall
  | initOpen m => exact finds_init (Or.inr hpc) h hcall
  | running => simp [Daemon.call, hpc] at hcall
  | rmid =>
    unfold Daemon.Finds at h
    rw [hpc] at h
    simp only [Daemon.call, hpc, Option.some.injEq] at hcall
    cases hcall
    obtain ⟨hshm, hsame⟩ := shm_rmid h.1
    exact finds_stopRd hshm fun n => by rw [hsame]; exact h.2 n
  | close m =>
    unfold Daemon.Finds at h
    rw [hpc] at h
    simp only [Daemon.call, hpc, Option.some.injEq] at hcall
    cases hcall
    cases m <;> exact h
  | unlink m => exact finds_unlink hpc h hcall
  | exited => simp [Daemon.call, hpc] at hcall

/-- A signal sends the daemon to `hcount_stop` before any of its calls. -/
theorem finds_stop (hfresh : d.Fresh) (h : d.Finds os) (hmain : d.pc.inMain = true) :
    ({ d with pc := .rmid } : Daemon).Finds os := by
  unfold Daemon.Finds at h
  cases hpc : d.pc with
  | boot =>
    obtain ⟨hid, hnone⟩ := hfresh hpc
    rw [hpc] at h
    exact ⟨Or.inr ⟨h.1, Int.le_of_eq hid⟩, fun n => (h.2 n).trans (hnone n).symm⟩
  | initUnlink m | initOpen m =>
    rw [hpc] at h
    refine ⟨?_, fun n => ?_⟩
    · cases m <;> exact Or.inl h.1
    · cases m
      · rw [(h.2 n).1]
        exact (h.2 n).2.symm
      · cases n
        · exact h.2.1
        · rw [h.2.2.1]
          exact h.2.2.2.symm
  | running =>
    rw [hpc] at h
    exact ⟨Or.inl h.1, h.2⟩
  | rmid | close | unlink | exited =>
    rw [hpc] at hmain
    cases hmain

/-! ## Runs -/

theorem not_boot_call (hcall : d.call os id = some (os', d')) : d'.pc ≠ .boot := by
  intro hboot
  have hpast : ∀ pc : Pc, pc.pastRmid = true → pc ≠ .boot := by
    rintro pc h rfl
    cases h
  cases hpc : d.pc with
  | boot =>
    cases hkey : os.shm with
    | some k =>
      rw [call_boot_taken hpc hkey] at hcall
      cases hcall
      cases hboot
    | none =>
      rw [call_boot_free hpc hkey] at hcall
      cases hcall
      cases hboot
  | running | exited => simp [Daemon.call, hpc] at hcall
  | initUnlink m | close m =>
    simp only [Daemon.call, hpc, Option.some.injEq] at hcall
    cases hcall
    cases hboot
  | initOpen m =>
    simp only [Daemon.call, hpc, Option.some.injEq] at hcall
    cases hcall
    cases m <;> cases hboot
  | rmid =>
    simp only [Daemon.call, hpc, Option.some.injEq] at hcall
    cases hcall
    exact hpast _ (pastRmid_stopRd d) hboot
  | unlink m =>
    simp only [Daemon.call, hpc, Option.some.injEq] at hcall
    cases hcall
    cases m
    · exact hpast _ (pastRmid_stopDr d) hboot
    · cases hboot

/-- A move of the only daemon that is alive. -/
theorem oneLife_set (h : OneLife s) (hothers : ∀ j, j ≠ i → (s.daemon j).pc.alive = false)
    (hfinds : d.Finds os) (hboot : d.pc ≠ .boot) : OneLife (s.set i os d) where
  fresh := set_cases (P := fun _ d => d.Fresh) (fun hb => absurd hb hboot) fun j _ => h.fresh j
  alone k hk := by
    by_cases hki : k = i
    · rw [hki, Sys.set_self]
      exact hfinds
    · -- The daemon that moved has exited, so the other one finds what it left.
      have hi := hk i (Ne.symm hki)
      rw [Sys.set_self] at hi
      rw [Sys.set_of_ne hki]
      exact (finds_of_not_alive (hothers k hki)).mpr ((finds_of_not_alive hi).mp hfinds)

theorem oneLife_step (h : OneLife s) (ha : Alone s a) (hs : step s a = some t) : OneLife t := by
  cases a with
  | call i id =>
    simp only [step] at hs
    split at hs
    · cases hs
    · obtain ⟨⟨os, d⟩, hcall, rfl⟩ := Option.map_eq_some_iff.mp hs
      exact oneLife_set h ha (finds_call (h.fresh i) (h.alone i ha) hcall) (not_boot_call hcall)
  | stop i =>
    simp only [step] at hs
    split at hs
    · rename_i hmain
      cases hs
      exact oneLife_set h ha (finds_stop (h.fresh i) (h.alone i ha) hmain) (by simp)
    · cases hs
  | callStop i id => cases ha
  | die i => cases ha

theorem oneLife_boot (h : os.Empty) : OneLife (boot os) where
  fresh _ _ := ⟨rfl, fun _ => rfl⟩
  alone _ _ := ⟨Or.inl h.1, h.2⟩

/-- A segment that is new has a new id. -/
theorem shm_call (hid : id ∉ os.used) (hcall : d.call os id = some (os', d')) :
    (∀ x ∈ os.used, x ∈ os'.used) ∧
      ∀ k, os'.shm = some k → os.shm = some k ∨ k ∉ os.used := by
  cases hpc : d.pc with
  | boot =>
    cases hkey : os.shm with
    | some k =>
      rw [call_boot_taken hpc hkey] at hcall
      cases hcall
      simp [hkey]
    | none =>
      rw [call_boot_free hpc hkey] at hcall
      cases hcall
      refine ⟨fun x hx => List.mem_cons_of_mem _ hx, fun k hk => Or.inr ?_⟩
      simp only [Option.some.injEq] at hk
      exact hk ▸ hid
  | initOpen m =>
    cases hsem : os.sem m with
    | some k =>
      simp only [Daemon.call, hpc, Os.semOpenExcl, hsem, Option.some.injEq] at hcall
      cases hcall
      exact ⟨fun x hx => hx, fun k hk => Or.inl hk⟩
    | none =>
      rw [call_initOpen_free hpc hsem] at hcall
      cases hcall
      exact ⟨fun x hx => List.mem_cons_of_mem _ hx, fun k hk => Or.inl hk⟩
  | running | exited => simp [Daemon.call, hpc] at hcall
  | initUnlink m | close m | unlink m =>
    simp only [Daemon.call, hpc, Option.some.injEq] at hcall
    cases hcall
    exact ⟨fun x hx => hx, fun k hk => Or.inl hk⟩
  | rmid =>
    simp only [Daemon.call, hpc, Option.some.injEq] at hcall
    cases hcall
    unfold Os.shmctlRmid
    split
    · split
      · simp
      · exact ⟨fun x hx => hx, fun k hk => Or.inl hk⟩
    · exact ⟨fun x hx => hx, fun k hk => Or.inl hk⟩

/-- The segment under the key was there at the start, or its id was not in use then. -/
def Since (os : Os) (s : Sys) : Prop :=
  (∀ x ∈ os.used, x ∈ s.os.used) ∧ ∀ k, s.os.shm = some k → os.shm = some k ∨ k ∉ os.used

theorem since_step (h : Since os s) (ha : Alone s a) (hs : step s a = some t) : Since os t := by
  cases a with
  | call i id =>
    simp only [step] at hs
    split at hs
    · cases hs
    · rename_i hid
      obtain ⟨⟨os', d⟩, hcall, rfl⟩ := Option.map_eq_some_iff.mp hs
      obtain ⟨hused, hshm⟩ := shm_call hid hcall
      refine ⟨fun x hx => hused x (h.1 x hx), fun k hk => ?_⟩
      rcases hshm k hk with hold | hnew
      · exact h.2 k hold
      · exact Or.inr fun hin => hnew (h.1 k hin)
  | stop i =>
    simp only [step] at hs
    split at hs
    · cases hs
      exact h
    · cases hs
  | callStop i id => cases ha
  | die i => cases ha

/-! ## The next life -/

/-- The calls of a start, with the ids of the segment and the two semaphores. -/
def startActs (i shm rd dr : Nat) : List Act :=
  [.call i shm, .call i rd, .call i rd, .call i dr, .call i dr]

/-- A daemon gets to its loop just when it finds the key free. -/
theorem starts_iff (hboot : (s.daemon i).pc = .boot) (hfresh : (s.daemon i).Fresh)
    {shm rd dr : Nat} (hshm : shm ∉ s.os.used) (hrd : rd ∉ shm :: s.os.used)
    (hdr : dr ∉ rd :: shm :: s.os.used) :
    (∃ t, run step s (startActs i shm rd dr) = some t ∧ (t.daemon i).pc = .running) ↔
      s.os.shm = none := by
  simp only [List.mem_cons, not_or] at hrd hdr
  obtain ⟨-, hnone⟩ := hfresh hboot
  cases hkey : s.os.shm with
  | none =>
    have hpos : ¬ (shm : Int) < 0 := by omega
    simp [startActs, run, step, Sys.set, Daemon.call, hboot, Os.shmgetExcl, hkey, hshm, hrd, hdr,
      hpos, Os.semUnlink, Os.semOpenExcl, Name.afterOpen]
  | some k =>
    -- The start fails, `hcount_stop` has nothing to unlink, and no call is left.
    simp [startActs, run, step, Sys.set, Daemon.call, hboot, Os.shmgetExcl, hkey, hshm, hrd,
      Daemon.stopRd, Daemon.stopDr, hnone, shmctlRmid_of_neg]

/-- Daemons come one after the other, from no objects on, and a signal may end each of them
between two of its calls, with `hcount_stop` after it. Whenever none of them is alive, both
names are free. The key is free too, unless the kernel gave out the segment id 0. The next
daemon gets to its loop just when the key is free. -/
theorem between_lives_the_names_are_free (os : Os) (hos : os.Empty) {s : Sys}
    (hreach : Reach step Alone (boot os) s) (hdead : ∀ i, (s.daemon i).pc.alive = false) :
    (∀ n, s.os.sem n = none) ∧
    (s.os.shm = none ∨ s.os.shm = some 0 ∧ 0 ∉ os.used) ∧
    ∀ i shm rd dr, (s.daemon i).pc = .boot → shm ∉ s.os.used → rd ∉ shm :: s.os.used →
      dr ∉ rd :: shm :: s.os.used →
      ((∃ t, run step s (startActs i shm rd dr) = some t ∧ (t.daemon i).pc = .running) ↔
        s.os.shm = none) := by
  have hlife : OneLife s :=
    hreach.inv (oneLife_boot hos) fun _ _ _ h ha hs => oneLife_step h ha hs
  have hsince : Since os s :=
    hreach.inv (P := Since os) ⟨fun _ hx => hx, fun _ hk => Or.inl hk⟩
      fun _ _ _ h ha hs => since_step h ha hs
  obtain ⟨hshm, hsem⟩ : s.os.Clear :=
    (finds_of_not_alive (hdead 0)).mp (hlife.alone 0 fun j _ => hdead j)
  refine ⟨hsem, ?_, ?_⟩
  · rcases hshm with hnone | hzero
    · exact Or.inl hnone
    · rcases hsince.2 0 hzero with hold | hnew
      · rw [hos.1] at hold
        cases hold
      · exact Or.inr ⟨hzero, hnew⟩
  · intro i shm rd dr hboot hs hr hd
    exact starts_iff hboot (hlife.fresh i) hs hr hd

/-- The acts of one daemon, with no other one started. -/
theorem allowed_solo {acts : List Act} (hs : ∀ j, j ≠ i → s.daemon j = Daemon.start)
    (hacts : ∀ a ∈ acts, a = .stop i ∨ ∃ id, a = .call i id) : Allowed step Alone s acts := by
  induction acts generalizing s with
  | nil => trivial
  | cons a acts ih =>
    obtain ⟨ha, hrest⟩ := List.forall_mem_cons.mp hacts
    have hdead : ∀ j, j ≠ i → (s.daemon j).pc.alive = false := by
      intro j hj
      rw [hs j hj]
      rfl
    rcases ha with rfl | ⟨id, rfl⟩
    · refine ⟨hdead, fun t ht => ih (fun j hj => ?_) hrest⟩
      simp only [step] at ht
      split at ht
      · cases ht
        rw [Sys.set_of_ne hj]
        exact hs j hj
      · cases ht
    · refine ⟨hdead, fun t ht => ih (fun j hj => ?_) hrest⟩
      simp only [step] at ht
      split at ht
      · cases ht
      · obtain ⟨⟨os, d⟩, -, rfl⟩ := Option.map_eq_some_iff.mp ht
        rw [Sys.set_of_ne hj]
        exact hs j hj

def emptyOs : Os := ⟨none, fun _ => none, []⟩

/-- A life with the segment 0. A signal ends it before the second semaphore is opened. -/
def lifeActs : List Act :=
  [.call 0 0, .call 0 1, .call 0 1, .call 0 2, .stop 0, .call 0 2, .call 0 2, .call 0 2]

/-- The names are free after it, and the key is not: no other daemon gets to its loop. -/
theorem segment_zero_outlives_its_daemon :
    ∃ s, run step (boot emptyOs) lifeActs = some s ∧ s.os.sem .rd = none ∧ s.os.shm = some 0 ∧
      ¬ ∃ t, run step s (startActs 1 5 6 7) = some t ∧ (t.daemon 1).pc = .running := by
  have hsolo : Allowed step Alone (boot emptyOs) lifeActs := by
    refine allowed_solo (i := 0) (fun _ _ => rfl) ?_
    simp [lifeActs]
  obtain ⟨s, hs⟩ : ∃ s, run step (boot emptyOs) lifeActs = some s := ⟨_, rfl⟩
  have hdead : ∀ i, (s.daemon i).pc.alive = false := by
    cases hs
    intro i
    cases i <;> rfl
  obtain ⟨hnames, -, hnext⟩ := between_lives_the_names_are_free emptyOs ⟨rfl, fun _ => rfl⟩
    (reach_of_run hsolo hs) hdead
  obtain ⟨hshm, hboot, hused⟩ :
      s.os.shm = some 0 ∧ (s.daemon 1).pc = .boot ∧ s.os.used = [1, 0] := by
    cases hs
    exact ⟨rfl, rfl, rfl⟩
  refine ⟨s, hs, hnames .rd, hshm, ?_⟩
  rw [hnext 1 5 6 7 hboot (by simp [hused]) (by simp [hused]) (by simp [hused]), hshm]
  simp

end lscov.ipc
