-- The main loop of the daemon (`lscov-daemon.c`), one shared access at a
-- time: each poll, each semaphore call and each byte of `memcpy` is a step
-- of its own. The loop also spawns the reports, which touch neither the
-- semaphores nor the area, so they are not here.
import LogicStateCoverage.Runtime
import LogicStateCoverage.BloomFilter

namespace lscov.daemon

/-- The ways in which the daemon gives up in its loop. -/
inductive Fatal
  | semaRd (val : Nat)     -- `assert(0 && "_sema_rd_val > 1")` and its `FATAL`
  | byteIdx (idx : UInt32) -- "bogus 'byte_idx' for a bloom filter"
  deriving DecidableEq, Repr

/-- Where the daemon is. -/
inductive Pc
  | wait                 -- `lscov_wait`, at a read of `*hit_counts`
  | getvalue             -- `hcount_wait_until_ready`, at `sem_getvalue`
  | semWait              -- `hcount_wait_until_ready`, at `sem_wait`
  | copy (i : Nat)       -- `hcount_bucket_to_lstate`, byte `i` of the `memcpy`
  | mark                 -- `hcount_mark_read`, at `sem_getvalue`
  | markPost (val : Nat) -- `hcount_mark_read`, at `if (!_sema_dr_val) sem_post(sema_dr)`
  | update (h : Nat)     -- turn `h` of the loop that sets the hash indices
  | fatal (why : Fatal)
  deriving DecidableEq, Repr

/-- What only the daemon touches: its copy of the area and its filter. -/
structure Own where
  lstate : Area
  bfilter : Bfilter

/-- `lscov_wait`: one turn of the busy loop. -/
def lscov_wait (m : Shm) : Pc := if m.area 0 ≠ 0x80 then .wait else .getvalue

/-- `bfilter_set_1_by_index(hidx)` in turn `h` of the loop over the hashes. -/
def set_turn (d : Own) (h : Nat) (hidx : UInt32) : Own × Pc :=
  match bfilter_set_1_by_index bfilter_size d.bfilter hidx with
  | some b => ({ d with bfilter := b }, .update (h + 1))
  | none => (d, .fatal (.byteIdx (hidx >>> 3)))

/-- Turn `h` of the loop over the hashes of the lstate. -/
def update_turn (d : Own) (h : Nat) : Own × Pc :=
  if h < num_hashes.toNat then
    set_turn d h
      (bfilter_get_hash_index (bfilter_size_bits bfilter_size) d.lstate (UInt32.ofNat h))
  else (d, .getvalue)

theorem set_turn_goes_on (d : Own) (h : Nat) {hidx : UInt32} (hlt : hidx >>> 3 < bfilter_size) :
    ∃ b, set_turn d h hidx = ({ d with bfilter := b }, .update (h + 1)) := by
  obtain ⟨b, hb⟩ := bfilter_set_1_by_index_ok d.bfilter hlt
  exact ⟨b, by unfold set_turn; rw [hb]⟩

/-- With the sizes of the daemon, the loop never gets to the `FATAL`. -/
theorem update_turn_goes_on (d : Own) (h : Nat) (hlt : h < num_hashes.toNat) :
    ∃ b, update_turn d h = ({ d with bfilter := b }, .update (h + 1)) := by
  unfold update_turn
  rw [if_pos hlt]
  exact set_turn_goes_on d h (bfilter_get_hash_index_lt d.lstate (UInt32.ofNat h))

/-- A turn goes to the next turn, or back to the semaphore. -/
theorem update_turn_pc (d : Own) (h : Nat) :
    (update_turn d h).2 = .update (h + 1) ∨ (update_turn d h).2 = .getvalue := by
  by_cases hlt : h < num_hashes.toNat
  · obtain ⟨b, hb⟩ := update_turn_goes_on d h hlt
    exact Or.inl (by rw [hb])
  · exact Or.inr (by rw [update_turn, if_neg hlt])

/-- One step of `lscov_wait` or `lscov_loop`, or nothing while `sem_wait` blocks. -/
def step (m : Shm) (d : Own) : Pc → Option (Shm × Own × Pc)
  | .wait => some (m, d, lscov_wait m)
  | .getvalue => some (m, d, if m.rd > 1 then .fatal (.semaRd m.rd) else .semWait)
  | .semWait => if 0 < m.rd then some ({ m with rd := m.rd - 1 }, d, .copy 0) else none
  | .copy i =>
    if h : i < LSTATE_SIZE then
      some (m, { d with lstate := d.lstate.set ⟨i, h⟩ (m.area ⟨i, h⟩) }, .copy (i + 1))
    else some (m, d, .mark)
  | .mark => some (m, d, .markPost m.dr)
  | .markPost val => some (if val = 0 then { m with dr := m.dr + 1 } else m, d, .update 0)
  | .update h => some (m, (update_turn d h).1, (update_turn d h).2)
  | .fatal _ => none

end lscov.daemon
