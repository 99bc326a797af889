import Pixy.Loop.Reach
import Pixy.Pool.Once

/-!
# Who can still wake a suspended fiber

A suspended fiber has a wake-up source (`WakeUpSource`) as long as no step takes one away
(`no_fiber_stranded`). `Close` does: it unlinks the watches of the descriptor and wakes nobody, and
a wait without a timeout has nothing else (`stranded_closed`).
-/

namespace Pixy.Loop

open Pixy.Found Pixy.Sched Pixy.Sync Pixy.Poll Pixy.Pool

variable {n : ℕ}

namespace Runtime

variable {s : Runtime n} {fiber : FiberId} {declared : Fields FieldName}

/-- **What can wake a fiber.** -/
inductive WakeUpSource (s : Runtime n) (fiber : FiberId) : Prop
  /-- Its watch is in a watch list of the event stored for its descriptor. -/
  | watch (call : CallId) (fd : FD) (condition : IOCondition) (timed : Bool) (event : EventId)
      (items : List Node) (position : s.position fiber = .inCall call)
      (kind : s.kind call = .waitForFD fd condition timed)
      (stored : s.poller.load fd = some (some event))
      (ring : s.poller.links.Ring (.watchListHead event condition) items)
      (linked : .watchItem call ∈ items)
  /-- Its timeout is in the heap, or its expiry is collected. -/
  | timeout (call : CallId) (position : s.position fiber = .inCall call)
      (pending : call ∈ s.timer.nodes ∨ s.expiry call ∈ s.async.calls)
  /-- Its work is queued, held or executed by a worker, or in the pipe. -/
  | work (call : CallId) (place : Place n) (position : s.position fiber = .inCall call)
      (underWay : place ≠ .free ∧ place ≠ .batch) (placed : s.pool.In call place)
  /-- It is in the waiter list of an event. -/
  | event (event : ℕ) (listed : fiber ∈ s.waiterList event)
  /-- It is in a waiter list of a semaphore. -/
  | semaphore (i : ℕ)
      (listed : fiber ∈ (s.semaphores i).downWaiterList ++ (s.semaphores i).upWaiterList)

/-- No step takes a wake-up source away: no descriptor is closed that a wait without a timeout waits
for, and no `WaitForFDCallback3` is called that does not find its fields and its watch. -/
def KeepsSources (declared : Fields FieldName) (s : Runtime n) (action : RuntimeAction n) : Prop :=
  Spares false s action ∧ Proper declared s action

/-! ## Every kind of suspension -/

/-- A registered watch is in the list of the event stored for its descriptor. -/
theorem linked_of_registered {poller : IOPoller Callback} {dirty : List EventId}
    (h : poller.Shape dirty) {r : Registration} (hr : r ∈ poller.registered) :
    ∃ event items, poller.load r.fd = some (some event) ∧
      poller.links.Ring (.watchListHead event r.condition) items ∧ .watchItem r.watch ∈ items := by
  obtain ⟨e, he, hfd⟩ := h.sound.stored.registration r hr
  obtain ⟨hlt, hstored⟩ := h.sound.stored.event e he
  rw [hfd] at hlt hstored
  refine ⟨e, _, ?_, h.sound.rings e he r.condition, ?_⟩
  · unfold IOPoller.load
    rw [if_pos hlt, hstored]
  · refine List.mem_map_of_mem (mem_watchesOf.mpr ?_)
    rwa [hfd]

/-- **A fiber suspended in a call** has its watch, its timeout or its work. -/
theorem wakeUpSource_of_waiting (h : s.Invariant []) (hkept : s.Kept false) {call : CallId}
    (hpos : s.position fiber = .inCall call) (hsuspended : s.scheduler.Suspended fiber) :
    s.WakeUpSource fiber := by
  have hw : s.Waiting call := h.placed.waiting_iff.mpr ⟨fiber, hpos, hsuspended⟩
  rcases hkind : s.kind call with ⟨fd, condition, _ | _⟩ | _ | _
  · obtain ⟨dirty, hshape⟩ := h.shape
    obtain ⟨event, items, hload, hring, hin⟩ :=
      linked_of_registered hshape (hkept call fd condition hw hkind)
    exact .watch call fd condition false event items hpos hkind hload hring hin
  · exact .timeout call hpos (h.sources.expires call hw (by rw [hkind]; rfl))
  · exact .timeout call hpos (h.sources.expires call hw (by rw [hkind]; rfl))
  · have hnot := h.sources.works call hw hkind
    obtain ⟨phase, hlocated⟩ := h.located
    refine .work call (phase call).place hpos ⟨?_, ?_⟩ ((hlocated.in_iff call _).mpr rfl)
    · intro hfree
      rw [hlocated.idle_iff] at hnot
      exact hnot (WorkPhase.of_place hfree)
    · intro hbatch
      have hin := (hlocated.in_iff call .batch).mpr hbatch
      simp [ThreadPool.In, h.batch] at hin

/-- **A suspended fiber** is suspended in something, and that can wake it. -/
theorem wakeUpSource_of_suspended (h : s.Invariant []) (hkept : s.Kept false)
    (hsuspended : s.scheduler.Suspended fiber) : s.WakeUpSource fiber := by
  rcases hpos : s.position fiber with _ | call | event | i | i
  · exact absurd hsuspended (h.placed.outside fiber hpos)
  · exact wakeUpSource_of_waiting h hkept hpos hsuspended
  · exact .event event ((h.placed.inEvent fiber event).mpr ⟨hpos, hsuspended⟩)
  · exact .semaphore i (List.mem_append_left _ ((h.placed.inDown fiber i).mp hpos))
  · exact .semaphore i (List.mem_append_right _ ((h.placed.inUp fiber i).mp hpos))

/-- **No fiber is stranded**, in any state of a run whose steps take no wake-up source away. -/
theorem no_fiber_stranded (h : (runtimeSystem n declared).ReachableWhen (KeepsSources declared) s)
    (fiber : FiberId) (hlive : s.scheduler.Live fiber) (hasleep : ¬s.scheduler.Awake fiber) :
    s.WakeUpSource fiber := by
  have hinvariant := invariant_of_reachable (fun _ _ hc => hc.2) h
  have hkept := kept_of_reachable (fun _ _ hc => hc.2) (fun _ _ hc => hc.1) h
  exact wakeUpSource_of_suspended hinvariant hkept
    (Scheduler.suspended_iff.mpr ⟨hlive, hasleep⟩)

/-! ## Runs -/

/-- Two fibers wait for the same descriptor, one with a timeout. -/
def bothWait : List (RuntimeAction 1) :=
  [.schedulerTick, .addFiber 7 0 (some 2), .waitForFD 3 .ioReadable (-1) 0 true (some 101) true,
    .waitForFD 3 .ioReadable 10 0 true none true]

/-- Two fibers wait for one descriptor, and nothing is closed: the one without a timeout is asleep,
and its watch can wake it. -/
theorem no_fiber_stranded_bothWait : ∃ s : Runtime 1,
    (runtimeSystem 1 callback3Context).ReachableWhen (KeepsSources callback3Context) s ∧
      s.scheduler.Live 1 ∧ ¬s.scheduler.Awake 1 ∧ s.WakeUpSource 1 := by
  have hend : ((runtimeSystem 1 callback3Context).run started bothWait).map
      (fun s => decide (s.scheduler.Live 1 ∧ ¬s.scheduler.Awake 1)) = some true := by
    decide +kernel
  obtain ⟨s, hrun, hs⟩ := Option.map_eq_some_iff.mp hend
  obtain ⟨hlive, hasleep⟩ := of_decide_eq_true hs
  have hreach : (runtimeSystem 1 callback3Context).ReachableWhen
    (KeepsSources callback3Context) s := by
    refine StepSystem.ReachableWhen.run (.init started_initial) (fun u a ha => ?_) hrun
    simp only [bothWait, List.mem_cons, List.not_mem_nil, or_false] at ha
    rcases ha with rfl | rfl | rfl | rfl <;> exact ⟨trivial, trivial⟩
  exact ⟨s, hreach, hlive, hasleep, no_fiber_stranded hreach 1 hlive hasleep⟩

/-- A fiber waits without a timeout, and another closes the descriptor. -/
def closedUnderWaiter : List (RuntimeAction 1) :=
  [.schedulerTick, .addFiber 7 0 (some 2), .waitForFD 3 .ioReadable (-1) 0 true (some 101) true,
    .close 3]

/-- What is left of the wait afterwards. -/
structure Left (s : Runtime n) : Prop where
  /-- The fiber is in the call, and asleep. -/
  position : s.position 1 = .inCall 1 ∧ s.scheduler.Live 1 ∧ ¬s.scheduler.Awake 1
  /-- The neighbours of its watch do not lead back to it. -/
  links : s.poller.links.next (s.poller.links.prev (.watchItem 1)) ≠ .watchItem 1
  /-- It has no timeout. -/
  timer : s.timer.nodes = [] ∧ s.async.calls = []
  /-- It has no work. -/
  pool : s.pool.Idle 1

instance (s : Runtime n) : Decidable s.Left :=
  decidable_of_iff ((s.position 1 = .inCall 1 ∧ s.scheduler.Live 1 ∧ ¬s.scheduler.Awake 1) ∧
    s.poller.links.next (s.poller.links.prev (.watchItem 1)) ≠ .watchItem 1 ∧
    (s.timer.nodes = [] ∧ s.async.calls = []) ∧ s.pool.Idle 1)
    ⟨fun ⟨h₁, h₂, h₃, h₄⟩ => ⟨h₁, h₂, h₃, h₄⟩, fun ⟨h₁, h₂, h₃, h₄⟩ => ⟨h₁, h₂, h₃, h₄⟩⟩

/-- With what is left after the `Close` nothing can wake the fiber: no watch, no timeout, no work
and no waiter is its own. -/
theorem Left.stranded (hleft : s.Left) (h : s.Invariant []) : ¬s.WakeUpSource 1 := by
  intro hsource
  cases hsource with
  | watch call fd condition timed event items hpos hkind hload hring hin =>
      rw [hleft.position.1] at hpos
      cases hpos
      exact hleft.links (hring.next_prev hin)
  | timeout call hpos hpending =>
      rw [hleft.timer.1, hleft.timer.2] at hpending
      simp at hpending
  | work call place hpos hway hplaced =>
      rw [hleft.position.1] at hpos
      cases hpos
      obtain ⟨phase, hlocated⟩ := h.located
      rw [hlocated.in_iff, hlocated.idle_iff.mp hleft.pool] at hplaced
      exact hway.1 hplaced.symm
  | event event hlisted =>
      rw [h.placed.inEvent, hleft.position.1] at hlisted
      cases hlisted.1
  | semaphore i hlisted =>
      rcases h.placed.position_of_waiter hlisted with hpos | hpos <;>
        rw [hleft.position.1] at hpos <;> cases hpos

/-- **A fiber is stranded**: it waited without a timeout when another one closed the descriptor, and
nothing is left that could wake it. -/
theorem stranded_closed : ∃ s : Runtime 1, (runtimeSystem 1 callback3Context).Reachable s ∧
    s.scheduler.Live 1 ∧ ¬s.scheduler.Awake 1 ∧ ¬s.WakeUpSource 1 := by
  have hend : ((runtimeSystem 1 callback3Context).run started closedUnderWaiter).map
      (fun s => decide s.Left) = some true := by
    decide +kernel
  obtain ⟨s, hrun, hs⟩ := Option.map_eq_some_iff.mp hend
  have hleft : s.Left := of_decide_eq_true hs
  have hreach : (runtimeSystem 1 callback3Context).ReachableWhen (Proper callback3Context) s := by
    refine StepSystem.ReachableWhen.run (.init started_initial) (fun u a ha => ?_) hrun
    simp only [closedUnderWaiter, List.mem_cons, List.not_mem_nil, or_false] at ha
    rcases ha with rfl | rfl | rfl | rfl <;> trivial
  obtain ⟨-, hlive, hasleep⟩ := hleft.position
  exact ⟨s, hreach.mono fun _ _ _ => trivial, hlive, hasleep,
    hleft.stranded (invariant_of_reachable (fun _ _ hc => hc) hreach)⟩

end Runtime

end Pixy.Loop
