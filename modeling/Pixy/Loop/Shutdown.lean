import Pixy.Loop.Components
import Pixy.Pool.Drain

/-!
# The end of the program

`Loop` breaks when no fiber is left. What is left of everything else then is what `main` takes down:
no call is waited in, so no watch is registered but the pool's, no timeout is pending, no work is
under way and no call is collected. So `ThreadPool_Stop` runs nothing any more and is done after few
steps, and `ThreadPool_Finalize` clears the last watch (`clean_end`).

The poller's events of the descriptors that were waited for stay allocated, and those whose last
watch was cleared after the last flush stay dirty: `Loop` breaks without another `IOPoller_Tick`.
-/

namespace Pixy.Loop

open Pixy.Found Pixy.Sched Pixy.Sync Pixy.Poll Pixy.Pool

variable {n : ℕ}

namespace Runtime

variable {s : Runtime n} {declared : Fields FieldName}

/-- `Loop` breaks. Source: `Runtime.c`, `Loop`. -/
structure Ended (s : Runtime n) : Prop where
  /-- `Scheduler_Tick` has returned. -/
  phase : s.phase = .ticking
  /-- No fiber runs. -/
  idle : s.scheduler.activeFiber = none
  /-- No fiber is left. -/
  count : s.scheduler.fiberCount = 0

/-- In the end there are no fibers, neither ready nor dead ones, and the scheduler has no region
left. -/
theorem Ended.fibers (hend : s.Ended) (hplaced : s.Placed)
    (hreach : schedulerSystem.Reachable s.scheduler) :
    s.scheduler.regions = ∅ ∧ s.scheduler.readyFiberList = [] ∧ s.scheduler.deadFiberList = [] := by
  have hdead := dead_eq_nil_of_idle hreach hend.idle
  have hcount := hplaced.accounted.count
  rw [hend.count, hdead] at hcount
  have hregions : s.scheduler.regions = ∅ := Finset.card_eq_zero.mp (by simpa using hcount.symm)
  refine ⟨hregions, List.eq_nil_iff_forall_not_mem.mpr fun fiber hf => ?_, hdead⟩
  have hin := hplaced.accounted.ready_region fiber hf
  rw [hregions] at hin
  exact Finset.notMem_empty fiber hin

/-- Where no region is allocated no fiber lives, as every fiber is in a region. -/
theorem not_live (hregions : s.scheduler.regions = ∅) (fiber : FiberId) :
    ¬s.scheduler.Live fiber := by
  rintro ⟨hin, -⟩
  rw [hregions] at hin
  exact Finset.notMem_empty fiber hin

end Runtime

end Pixy.Loop
