import Pixy.Sched.Scheduler

/-!
# Semaphores

`Semaphore.c` as state passing over the scheduler. A `struct SemaphoreWaiter` lives on the stack of
the fiber that waits, and a fiber waits in one call at a time, so a waiter is its fiber and the two
waiter lists are lists of fibers.

`Semaphore_Down` and `Semaphore_Up` are each cut at `Scheduler_SuspendCurrentFiber`: `down` runs to
the suspension or the return, `downWoken` from the suspension to the return. `up` is the mirror
image of `down` (`up_eq_mirror`): negate the counter and exchange the bounds and the lists.

`semaphoreSystem` lets fibers call these at any time, in any order the ready list allows, between
any other uses they make of the scheduler.
-/

namespace Pixy.Sync

open Pixy.Found Pixy.Sched

/-- Source: `Semaphore.h`, `struct Semaphore`. -/
structure Semaphore where
  /-- The counter. -/
  value : ℤ
  /-- Its lower bound. -/
  minValue : ℤ
  /-- Its upper bound. -/
  maxValue : ℤ
  /-- The fibers blocked in `Semaphore_Down`, front first. -/
  downWaiterList : List FiberId
  /-- The fibers blocked in `Semaphore_Up`, front first. -/
  upWaiterList : List FiberId
  deriving DecidableEq

namespace Semaphore

/-- `none` is the `EINVAL` branch.
Source: `Semaphore.c`, `Semaphore_Initialize`. -/
def init? (value minValue maxValue : ℤ) : Option Semaphore :=
  if minValue > value ∨ maxValue < value then none
  else some
    { value := value, minValue := minValue, maxValue := maxValue, downWaiterList := [],
      upWaiterList := [] }

/-- `Scheduler_ResumeFiber` on the fiber of the front waiter, if there is one. -/
def resumeFront (scheduler : Scheduler) (waiterList : List FiberId) : Scheduler :=
  match waiterList.head? with
  | none => scheduler
  | some fiber => scheduler.resumeFiber fiber

/-- `Scheduler_UnresumeFiber` on the fiber of the front waiter, if there is one. -/
def unresumeFront (scheduler : Scheduler) (waiterList : List FiberId) : Scheduler :=
  match waiterList.head? with
  | none => scheduler
  | some fiber => scheduler.unresumeFiber fiber

/-- The last statement of `Semaphore_Down`: the counter has just left its upper bound. -/
def downTail (self : Semaphore) (scheduler : Scheduler) : Scheduler :=
  if self.value = self.maxValue - 1 then resumeFront scheduler self.upWaiterList else scheduler

/-- Source: `Semaphore.c`, `Semaphore_Down`, up to the suspension (then the flag is set) or the
return. -/
def down (self : Semaphore) (scheduler : Scheduler) (fiber : FiberId) :
    Semaphore × Scheduler × Bool :=
  if self.value = self.minValue then
    ({ self with downWaiterList := self.downWaiterList ++ [fiber] },
      scheduler.suspendCurrentFiber, true)
  else
    let self := { self with value := self.value - 1 }
    let scheduler :=
      if self.value = self.minValue then unresumeFront scheduler self.downWaiterList else scheduler
    (self, self.downTail scheduler, false)

/-- Source: `Semaphore.c`, `Semaphore_Down`, from the suspension to the return. -/
def downWoken (self : Semaphore) (scheduler : Scheduler) (fiber : FiberId) :
    Semaphore × Scheduler :=
  let self :=
    { self with downWaiterList := self.downWaiterList.erase fiber, value := self.value - 1 }
  let scheduler :=
    if self.value > self.minValue then resumeFront scheduler self.downWaiterList else scheduler
  (self, self.downTail scheduler)

/-- The last statement of `Semaphore_Up`: the counter has just left its lower bound. -/
def upTail (self : Semaphore) (scheduler : Scheduler) : Scheduler :=
  if self.value = self.minValue + 1 then resumeFront scheduler self.downWaiterList else scheduler

/-- Source: `Semaphore.c`, `Semaphore_Up`, up to the suspension (then the flag is set) or the
return. -/
def up (self : Semaphore) (scheduler : Scheduler) (fiber : FiberId) :
    Semaphore × Scheduler × Bool :=
  if self.value = self.maxValue then
    ({ self with upWaiterList := self.upWaiterList ++ [fiber] },
      scheduler.suspendCurrentFiber, true)
  else
    let self := { self with value := self.value + 1 }
    let scheduler :=
      if self.value = self.maxValue then unresumeFront scheduler self.upWaiterList else scheduler
    (self, self.upTail scheduler, false)

/-- Source: `Semaphore.c`, `Semaphore_Up`, from the suspension to the return. -/
def upWoken (self : Semaphore) (scheduler : Scheduler) (fiber : FiberId) :
    Semaphore × Scheduler :=
  let self := { self with upWaiterList := self.upWaiterList.erase fiber, value := self.value + 1 }
  let scheduler :=
    if self.value < self.maxValue then resumeFront scheduler self.upWaiterList else scheduler
  (self, self.upTail scheduler)

/-! ## The mirror -/

/-- Negate the counter, exchange the bounds and the lists. -/
def mirror (self : Semaphore) : Semaphore where
  value := -self.value
  minValue := -self.maxValue
  maxValue := -self.minValue
  downWaiterList := self.upWaiterList
  upWaiterList := self.downWaiterList

/-- The comparisons that the two functions make of the counter and its bounds agree through the
mirror. -/
theorem mirror_comparisons (value minValue maxValue : ℤ) :
    (-value = -maxValue ↔ value = maxValue) ∧
      (-value - 1 = -maxValue ↔ value + 1 = maxValue) ∧
      (-value - 1 > -maxValue ↔ value + 1 < maxValue) ∧
      (-value - 1 = -minValue - 1 ↔ value + 1 = minValue + 1) ∧
      -(-value - 1) = value + 1 := by
  refine ⟨?_, ?_, ?_, ?_, ?_⟩ <;> omega

/-- `Semaphore_Up` is `Semaphore_Down` in the mirror, in which the counter is negated and the two
bounds and the two lists change places. -/
theorem up_eq_mirror (self : Semaphore) (scheduler : Scheduler) (fiber : FiberId) :
    self.up scheduler fiber =
      ((self.mirror.down scheduler fiber).1.mirror, (self.mirror.down scheduler fiber).2) := by
  obtain ⟨heq, hnext, -, htail, hvalue⟩ :=
    mirror_comparisons self.value self.minValue self.maxValue
  simp only [up, down, upTail, downTail, mirror, heq, hnext, htail]
  split_ifs <;> simp [hvalue]

/-- And so it is with what either of them does after its suspension, when its caller goes on. -/
theorem upWoken_eq_mirror (self : Semaphore) (scheduler : Scheduler) (fiber : FiberId) :
    self.upWoken scheduler fiber =
      ((self.mirror.downWoken scheduler fiber).1.mirror,
        (self.mirror.downWoken scheduler fiber).2) := by
  obtain ⟨-, -, hgt, htail, hvalue⟩ :=
    mirror_comparisons self.value self.minValue self.maxValue
  simp only [upWoken, downWoken, upTail, downTail, mirror, hgt, htail]
  split_ifs <;> simp [hvalue]

end Semaphore

/-! ## Fibers using a semaphore -/

/-- Where a fiber is in the semaphore's code. -/
inductive Position
  /-- Not in it. -/
  | outside
  /-- Past the suspension of `Semaphore_Down` is what it has still to run. -/
  | inDown
  /-- Past the suspension of `Semaphore_Up` is what it has still to run. -/
  | inUp
  deriving DecidableEq

/-- A scheduler, a semaphore and the position of every fiber. -/
structure SemaphoreState where
  /-- The scheduler. -/
  scheduler : Scheduler
  /-- The semaphore. -/
  semaphore : Semaphore
  /-- Where each fiber is. -/
  position : FiberId → Position

namespace SemaphoreState

/-- The running fiber, if any, is outside the semaphore's code. -/
def RunsOutside (s : SemaphoreState) : Prop :=
  ∀ fiber ∈ s.scheduler.activeFiber, s.position fiber = .outside

instance (s : SemaphoreState) : Decidable s.RunsOutside :=
  match h : s.scheduler.activeFiber with
  | none => isTrue (by simp [RunsOutside, h])
  | some fiber => decidable_of_iff (s.position fiber = .outside) (by simp [RunsOutside, h])

/-- The rest of the program does not resume or unresume a fiber that waits in the semaphore. -/
def Spares (s : SemaphoreState) : SchedulerAction → Prop
  | .resumeFiber fiber | .unresumeFiber fiber => s.position fiber = .outside
  | _ => True

instance (s : SemaphoreState) : (action : SchedulerAction) → Decidable (s.Spares action)
  | .resumeFiber fiber | .unresumeFiber fiber =>
    inferInstanceAs (Decidable (s.position fiber = .outside))
  | .addFiber .. | .addAndRunFiber .. | .yieldCurrentFiber | .suspendCurrentFiber
  | .exitCurrentFiber | .tick => isTrue trivial

end SemaphoreState

/-- What can happen next. -/
inductive SemaphoreAction
  /-- A use of the scheduler outside the semaphore: a yield, a fiber created, an exit, a tick. -/
  | scheduler (action : SchedulerAction)
  /-- The running fiber calls `Semaphore_Down`. -/
  | down
  /-- The running fiber calls `Semaphore_Up`. -/
  | up
  /-- The running fiber, dispatched inside `Semaphore_Down` or `Semaphore_Up`, runs to the
  return. -/
  | proceed

/-- One step of the fibers that use a semaphore. -/
def SemaphoreState.step (s : SemaphoreState) : SemaphoreAction → Option SemaphoreState
  | .scheduler action =>
    if s.RunsOutside ∧ s.scheduler.Enabled action ∧ s.Spares action then
      some { s with scheduler := s.scheduler.apply action }
    else none
  | .down => do
    let fiber ← s.scheduler.activeFiber
    if s.position fiber = .outside then
      let (semaphore, scheduler, blocked) := s.semaphore.down s.scheduler fiber
      some
        { scheduler := scheduler, semaphore := semaphore
          position := if blocked then Function.update s.position fiber .inDown else s.position }
    else none
  | .up => do
    let fiber ← s.scheduler.activeFiber
    if s.position fiber = .outside then
      let (semaphore, scheduler, blocked) := s.semaphore.up s.scheduler fiber
      some
        { scheduler := scheduler, semaphore := semaphore
          position := if blocked then Function.update s.position fiber .inUp else s.position }
    else none
  | .proceed => do
    let fiber ← s.scheduler.activeFiber
    match s.position fiber with
    | .outside => none
    | .inDown =>
      let (semaphore, scheduler) := s.semaphore.downWoken s.scheduler fiber
      some
        { scheduler := scheduler, semaphore := semaphore
          position := Function.update s.position fiber .outside }
    | .inUp =>
      let (semaphore, scheduler) := s.semaphore.upWoken s.scheduler fiber
      some
        { scheduler := scheduler, semaphore := semaphore
          position := Function.update s.position fiber .outside }

/-- **What a step can do**, with the conditions under which it can be made and the state it leads
to. -/
theorem SemaphoreState.step_cases {s next : SemaphoreState} {action : SemaphoreAction}
    (hstep : s.step action = some next) :
    (∃ use, action = .scheduler use ∧ s.RunsOutside ∧ s.scheduler.Enabled use ∧ s.Spares use ∧
      next = { s with scheduler := s.scheduler.apply use }) ∨
    (∃ fiber, action = .down ∧ s.scheduler.activeFiber = some fiber ∧ s.position fiber = .outside ∧
      next =
        { scheduler := (s.semaphore.down s.scheduler fiber).2.1
          semaphore := (s.semaphore.down s.scheduler fiber).1
          position := if (s.semaphore.down s.scheduler fiber).2.2 then
            Function.update s.position fiber .inDown else s.position }) ∨
    (∃ fiber, action = .up ∧ s.scheduler.activeFiber = some fiber ∧ s.position fiber = .outside ∧
      next =
        { scheduler := (s.semaphore.up s.scheduler fiber).2.1
          semaphore := (s.semaphore.up s.scheduler fiber).1
          position := if (s.semaphore.up s.scheduler fiber).2.2 then
            Function.update s.position fiber .inUp else s.position }) ∨
    (∃ fiber, action = .proceed ∧ s.scheduler.activeFiber = some fiber ∧
      s.position fiber = .inDown ∧
      next =
        { scheduler := (s.semaphore.downWoken s.scheduler fiber).2
          semaphore := (s.semaphore.downWoken s.scheduler fiber).1
          position := Function.update s.position fiber .outside }) ∨
    (∃ fiber, action = .proceed ∧ s.scheduler.activeFiber = some fiber ∧ s.position fiber = .inUp ∧
      next =
        { scheduler := (s.semaphore.upWoken s.scheduler fiber).2
          semaphore := (s.semaphore.upWoken s.scheduler fiber).1
          position := Function.update s.position fiber .outside }) := by
  cases action with
  | scheduler use =>
      obtain ⟨⟨hrun, henabled, hspares⟩, hnext⟩ := Option.ite_none_right_eq_some.mp hstep
      exact .inl ⟨use, rfl, hrun, henabled, hspares, (Option.some.inj hnext).symm⟩
  | down =>
      obtain ⟨fiber, ha, hrest⟩ := Option.bind_eq_some_iff.mp hstep
      obtain ⟨hout, hnext⟩ := Option.ite_none_right_eq_some.mp hrest
      exact .inr (.inl ⟨fiber, rfl, ha, hout, (Option.some.inj hnext).symm⟩)
  | up =>
      obtain ⟨fiber, ha, hrest⟩ := Option.bind_eq_some_iff.mp hstep
      obtain ⟨hout, hnext⟩ := Option.ite_none_right_eq_some.mp hrest
      exact .inr (.inr (.inl ⟨fiber, rfl, ha, hout, (Option.some.inj hnext).symm⟩))
  | proceed =>
      obtain ⟨fiber, ha, hrest⟩ := Option.bind_eq_some_iff.mp hstep
      rcases hpos : s.position fiber <;> simp only [hpos, reduceCtorEq] at hrest
      · exact .inr (.inr (.inr (.inl ⟨fiber, rfl, ha, hpos, (Option.some.inj hrest).symm⟩)))
      · exact .inr (.inr (.inr (.inr ⟨fiber, rfl, ha, hpos, (Option.some.inj hrest).symm⟩)))

/-- **The fibers of a program on one semaphore.** It is accepted by `Semaphore_Initialize` at any
time of the program's life. -/
def semaphoreSystem : StepSystem SemaphoreState SemaphoreAction where
  init s := schedulerSystem.Reachable s.scheduler ∧
    (∃ value minValue maxValue, Semaphore.init? value minValue maxValue = some s.semaphore) ∧
    ∀ fiber, s.position fiber = .outside
  step := SemaphoreState.step

end Pixy.Sync
