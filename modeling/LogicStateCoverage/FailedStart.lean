-- The law of a failed start. A second daemon with the same output path finds the SHM key
-- taken and exits. It leaves the segment and the semaphores of the running daemon alone,
-- but it has truncated the output file before: it is harmless just when there is no row
-- yet.
import LogicStateCoverage.Ipc
import LogicStateCoverage.LogicState
import LogicStateCoverage.Output

namespace lscov

open ipc daemon

/-! ## The start of a daemon -/

/-- What a daemon can touch: the IPC objects, the contents of each segment, the value of
each semaphore and the file at `out_path`. -/
structure World where
  os : Os
  hit_counts : Nat → Area
  value : Nat → Nat
  file : List Char

/-- The value that `hcount_init` opens a semaphore with. -/
def initialValue : Name → Nat
  | .rd => 0
  | .dr => 1

/-- One call of a daemon in its world. After the last one of `hcount_init`, the `memset`
of `hit_counts` follows. -/
def World.call (w : World) (d : Daemon) (id : Nat) : Option (World × Daemon) :=
  match d.call w.os id with
  | none => none
  | some (os, d') =>
    let value := match d.pc with
      | .initOpen n =>
        if (w.os.sem n).isNone then Function.update w.value id (initialValue n) else w.value
      | _ => w.value
    let hit_counts :=
      if d'.pc = .running then Function.update w.hit_counts d'.shm_hcount_id.toNat Area.zero
      else w.hit_counts
    some (⟨os, hit_counts, value, w.file⟩, d')

/-- The calls of a daemon, one after the other, as far as they go. -/
def World.calls (w : World) (d : Daemon) : List Nat → World × Daemon
  | [] => (w, d)
  | id :: ids =>
    match w.call d id with
    | none => (w, d)
    | some (w, d) => w.calls d ids

/-- `main` up to the end of `hcount_init`, or up to its exit. The ids are those that the
kernel gives to new objects. -/
def main_start (error_percent : UInt8) (w : World) (ids : Nat → Nat) : World × Daemon :=
  World.calls { w with file := out_init error_percent } Daemon.start ((List.range 10).map ids)

/-! ## Beside a running daemon -/

/-- A running daemon: its segment with any contents, its semaphores with any values and
the rows that it has written. -/
structure Running where
  key : Nat
  sema : Name → Nat
  used : List Nat
  hit_counts : Nat → Area
  value : Nat → Nat
  rows : List Row

def Running.world (r : Running) (error_percent : UInt8) : World :=
  ⟨⟨some r.key, fun n => some (r.sema n), r.used⟩, r.hit_counts, r.value,
    out_file error_percent r.rows⟩

/-- A second daemon exits, and everything is as it was before. -/
def Harmless (error_percent : UInt8) (r : Running) (ids : Nat → Nat) : Prop :=
  (main_start error_percent (r.world error_percent) ids).2.pc = .exited ∧
    (main_start error_percent (r.world error_percent) ids).1 = r.world error_percent

/-! ## The law -/

variable {w : World} {d : Daemon} {key id : Nat}

theorem call_taken (hpc : d.pc = .boot) (hkey : w.os.shm = some key) :
    w.call d id = some (w, { d with shm_hcount_id := -1, pc := .rmid }) := by
  unfold World.call
  rw [call_boot_taken hpc hkey]
  simp [hpc]

/-- `hcount_stop` of a daemon that never had the key. -/
theorem call_stop (hpc : d.pc = .rmid) (hid : d.shm_hcount_id = -1) (hsema : ∀ n, d.sema n = none) :
    w.call d id = some (w, { d with pc := .exited }) := by
  have hstop : d.stopRd = .exited := by
    simp [Daemon.stopRd, Daemon.stopDr, hsema]
  have hcall : d.call w.os id = some (w.os, { d with pc := .exited }) := by
    simp only [Daemon.call, hpc, hid, hstop]
    rw [if_pos (by decide), shmctlRmid_of_neg (by decide)]
  unfold World.call
  rw [hcall]
  simp [hpc]

theorem calls_exited (hpc : d.pc = .exited) (ids : List Nat) : w.calls d ids = (w, d) := by
  cases ids with
  | nil => rfl
  | cons id ids =>
    unfold World.calls World.call
    simp only [Daemon.call, hpc]

/-- A start that finds the key taken: only the file is written. -/
theorem main_start_taken (error_percent : UInt8) (hkey : w.os.shm = some key) (ids : Nat → Nat) :
    ∃ d, main_start error_percent w ids = ({ w with file := out_init error_percent }, d) ∧
      d.pc = .exited := by
  refine ⟨⟨.exited, -1, fun _ => none⟩, ?_, rfl⟩
  have hfile : ({ w with file := out_init error_percent } : World).os.shm = some key := hkey
  unfold main_start
  rw [show List.range 10 = 0 :: 1 :: (List.range 8).map (· + 2) from rfl, List.map_cons,
    List.map_cons, World.calls, call_taken rfl hfile]
  dsimp only
  rw [World.calls, call_stop rfl rfl fun _ => rfl]
  dsimp only
  exact calls_exited rfl _

theorem out_file_eq_init (error_percent : UInt8) (rows : List Row) :
    out_init error_percent = out_file error_percent rows ↔ rows = [] := by
  unfold out_file
  constructor
  · intro h
    have hnil : rows.flatMap (out_append error_percent) = [] :=
      List.append_right_eq_self.mp h.symm
    cases rows with
    | nil => rfl
    | cons r rows => simp [out_append] at hnil
  · rintro rfl
    exact (List.append_nil _).symm

/-- A failed start is harmless just when the running daemon has not written a row yet. -/
theorem a_failed_start_is_harmless_iff (error_percent : UInt8) (r : Running) (ids : Nat → Nat) :
    Harmless error_percent r ids ↔ r.rows = [] := by
  obtain ⟨d, hstart, hexit⟩ :=
    main_start_taken error_percent (w := r.world error_percent) rfl ids
  unfold Harmless
  rw [hstart, ← out_file_eq_init error_percent]
  constructor
  · rintro ⟨-, hsame⟩
    exact congrArg World.file hsame
  · intro hfile
    refine ⟨hexit, ?_⟩
    unfold Running.world
    rw [hfile]

/-- A daemon that has written one row. -/
def oneRow : Running := ⟨7, fun _ => 8, [7, 8], fun _ => Area.zero, fun _ => 0, [firstRow]⟩

/-- A failed start wipes the row out. -/
theorem a_failed_start_wipes_the_rows :
    (main_start 0 (oneRow.world 0) fun n => n + 9).2.pc = .exited ∧
      (main_start 0 (oneRow.world 0) fun n => n + 9).1.file = out_init 0 ∧
      ¬ Harmless 0 oneRow fun n => n + 9 := by
  obtain ⟨d, hstart, hexit⟩ := main_start_taken (w := oneRow.world 0) 0 rfl fun n => n + 9
  refine ⟨by rw [hstart]; exact hexit, by rw [hstart], ?_⟩
  rintro ⟨-, hsame⟩
  rw [hstart] at hsame
  have hfile := (out_file_eq_init 0 [firstRow]).mp (congrArg World.file hsame)
  cases hfile

end lscov
