-- The runtime of an instrumented target (`lscov-llvm-rt.a.c`), one shared
-- access at a time: each semaphore call, each store to the area and each
-- byte of `memset` is a step of its own.
import LogicStateCoverage.LogicState

namespace lscov

/-- What the runtime and the daemon share: the two semaphores and the area. -/
structure Shm where
  rd : Nat
  dr : Nat
  area : Area

/-- A store to the status byte, `*__lscov_area_ptr`. -/
def Shm.mark (m : Shm) (v : UInt8) : Shm := { m with area := m.area.set 0 v }

namespace rt

/-! ## `__lscov_end_exec` and `__lscov_start_exec` -/

/-- The places in `__lscov_end_exec`. -/
inductive EndExec
  | mark                 -- `*__lscov_area_ptr = 0x80`
  | getvalue             -- `sem_getvalue(__lscov_sema_rd, &_sema_rd_val)`
  | post (val : Nat)     -- `if (!_sema_rd_val) sem_post(__lscov_sema_rd)`
  deriving DecidableEq, Repr

/-- One step of `__lscov_end_exec`. The place is `none` at its return. -/
def lscov_end_exec (m : Shm) : EndExec → Shm × Option EndExec
  | .mark => (m.mark 0x80, some .getvalue)
  | .getvalue => (m, some (.post m.rd))
  | .post val => (if val = 0 then { m with rd := m.rd + 1 } else m, none)

/-- The places in `__lscov_start_exec`. -/
inductive StartExec
  | mark                 -- `*__lscov_area_ptr = 0x81`
  | wait                 -- `sem_wait(__lscov_sema_dr)`
  | clear (i : Nat)      -- byte `i` of the `memset`
  deriving DecidableEq, Repr

/-- One step of `__lscov_start_exec`, or nothing while `sem_wait` blocks.
The place is `none` at its return. -/
def lscov_start_exec (m : Shm) : StartExec → Option (Shm × Option StartExec)
  | .mark => some (m.mark 0x81, some .wait)
  | .wait => if 0 < m.dr then some ({ m with dr := m.dr - 1 }, some (.clear 1)) else none
  | .clear i =>
    if h : i < LSTATE_SIZE then
      some ({ m with area := m.area.set ⟨i, h⟩ 0 }, some (.clear (i + 1)))
    else some (m, none)

/-! ## `__lscov_main` -/

/-- The two calls of `LSCOV_ABORT`. -/
inductive Abort
  | semaDr (val : Nat)   -- "(lscov) _sema_dr_val (=%d) > 1"
  | tainted              -- "(lscov) tainted hit counts"
  deriving DecidableEq, Repr

/-- The places in `__lscov_main`. -/
inductive Main
  | test                            -- `if (*__lscov_area_ptr > 0x80)`
  | endExec (p : EndExec)
  | getvalue                        -- `sem_getvalue(__lscov_sema_dr, &_sema_dr_val)`
  | startExec (p : StartExec)
  | check (i : Nat) (hc : UInt8)    -- turn `i` of the loop over `_test_hc`
  deriving DecidableEq, Repr

/-- Where a target process is. -/
inductive Pc
  | dead                 -- no target process runs
  | init                 -- `__lscov_init`, at `*__lscov_area_ptr = 0x80`
  | started              -- it runs, but it has not called `__lscov_main` yet
  | main (p : Main)
  | target               -- the code of the target, after `__lscov_main`
  | fin (p : EndExec)    -- `__lscov_fin`
  | aborted (why : Abort)
  deriving DecidableEq, Repr

theorem sample_lt {i : Nat} (h : i < LSTATE_SIZE >>> 6) : i <<< 6 < LSTATE_SIZE := by
  have h6 : LSTATE_SIZE >>> 6 = 1024 := by decide
  rw [Nat.shiftLeft_eq, LSTATE_SIZE_eq]
  omega

theorem one_le_sample {i : Nat} (h : 1 ≤ i) : 1 ≤ i <<< 6 := by
  rw [Nat.shiftLeft_eq]
  omega

/-- One step of `__lscov_main`. -/
def lscov_main (m : Shm) : Main → Option (Shm × Pc)
  | .test => some (m, .main (if m.area 0 > 0x80 then .endExec .mark else .getvalue))
  | .endExec p =>
    match lscov_end_exec m p with
    | (m, some p) => some (m, .main (.endExec p))
    | (m, none) => some (m, .main .getvalue)
  | .getvalue => some (m, if m.dr > 1 then .aborted (.semaDr m.dr) else .main (.startExec .mark))
  | .startExec p =>
    (lscov_start_exec m p).map fun
      | (m, some p) => (m, .main (.startExec p))
      | (m, none) => (m, .main (.check 1 0))
  | .check i hc =>
    if h : i < LSTATE_SIZE >>> 6 then
      some (m, .main (.check (i + 1) (hc ||| m.area ⟨i <<< 6, sample_lt h⟩)))
    else some (m, if hc ≠ 0 then .aborted .tainted else .target)

/-- One step of the runtime code of a process. The code of the target does
not take part: its stores and its end are acts of their own. -/
def step (m : Shm) : Pc → Option (Shm × Pc)
  | .init => some (m.mark 0x80, .started)
  | .main p => lscov_main m p
  | .fin p =>
    match lscov_end_exec m p with
    | (m, some p) => some (m, .fin p)
    | (m, none) => some (m, .dead)
  | .dead | .started | .target | .aborted _ => none

end rt

end lscov
