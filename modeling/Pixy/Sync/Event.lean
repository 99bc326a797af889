import Pixy.Found.Ring
import Pixy.Sched.Scheduler

/-!
# Events

`Event.c` over the scheduler and over the memory of the waiters. A `struct EventWaiter` lives on the
stack of the fiber that waits, and it is unlinked before that fiber goes on; from then on whatever
the fiber calls may be in its place. So the waiter list is a ring in memory, and memory that is not
the waiter of a call in progress may change at any time (`EventAction.write`).

`Event_WaitFor` is cut at `Scheduler_SuspendCurrentFiber`: `waitFor` runs to the suspension, and
from there on only the return is left. The calls on `NULL` do nothing and are left out.

`made`, `selected` and `returned` are ghosts: the calls of `Event_WaitFor` are counted, and no
function reads which of them were selected or have returned.
-/

namespace Pixy.Sync

open Pixy.Found Pixy.Sched

/-- The address of a `struct EventWaiter`: on whose stack, and where. -/
structure WaiterId where
  /-- Whose stack it is. -/
  stack : FiberId
  /-- Where on the stack. -/
  depth : ℕ
  deriving DecidableEq

/-- What can be linked. -/
inductive EventNode
  /-- `LIST_HEAD(self->waiterList)`. -/
  | waiterList
  /-- The `listItem` of a waiter. -/
  | listItem (waiter : WaiterId)
  deriving DecidableEq

/-- Where a fiber is. -/
inductive EventPosition
  /-- Not in `Event_WaitFor`. -/
  | outside
  /-- At or past the suspension of a call of `Event_WaitFor`. -/
  | inWaitFor (call : ℕ) (waiter : WaiterId)
  deriving DecidableEq

namespace EventPosition

/-- The number of the call. -/
def call : EventPosition → Option ℕ
  | .outside => none
  | .inWaitFor call _ => some call

/-- The waiter of the call. -/
def waiter : EventPosition → Option WaiterId
  | .outside => none
  | .inWaitFor _ waiter => some waiter

end EventPosition

/-- A scheduler, an event, the memory of the waiters and the position of every fiber. -/
structure EventState where
  /-- The scheduler. -/
  scheduler : Scheduler
  /-- The links of `struct Event` and of every `struct EventWaiter`. -/
  links : Links EventNode
  /-- The field `fiber` of every `struct EventWaiter`. -/
  fiber : WaiterId → FiberId
  /-- Where each fiber is. -/
  position : FiberId → EventPosition
  /-- How many calls of `Event_WaitFor` were made. -/
  made : ℕ
  /-- The calls whose waiters were selected by a trigger, the first one first. -/
  selected : List ℕ
  /-- The calls that have returned, the first one first. -/
  returned : List ℕ

namespace EventState

/-- Source: `Event.c`, `Event_WaitFor`, up to the suspension. -/
def waitFor (s : EventState) (fiber : FiberId) (depth : ℕ) : EventState :=
  let waiter : WaiterId := ⟨fiber, depth⟩
  { s with
    fiber := Function.update s.fiber waiter fiber
    links := s.links.insertBack .waiterList (.listItem waiter)
    scheduler := s.scheduler.suspendCurrentFiber
    position := Function.update s.position fiber (.inWaitFor s.made waiter)
    made := s.made + 1 }

/-- A list that is not empty but has no front is none: what would be read is no waiter.
Source: `Event.c`, `Event_Trigger`. -/
def trigger (s : EventState) : Option EventState :=
  if s.links.IsEmpty .waiterList then some s
  else match s.links.next .waiterList with
  | .waiterList => none
  | .listItem waiter =>
    some
      { s with
        links := s.links.remove (.listItem waiter)
        scheduler := s.scheduler.resumeFiber (s.fiber waiter)
        selected := s.selected ++ (s.position (s.fiber waiter)).call.toList }

/-- Whoever runs, outside `Event_WaitFor`. -/
def caller (s : EventState) : Option FiberId :=
  s.scheduler.activeFiber.filter fun fiber => s.position fiber = .outside

/-- The running fiber, if any, is outside `Event_WaitFor`. -/
def RunsOutside (s : EventState) : Prop :=
  ∀ fiber ∈ s.scheduler.activeFiber, s.position fiber = .outside

instance (s : EventState) : Decidable s.RunsOutside :=
  match h : s.scheduler.activeFiber with
  | none => isTrue (by simp [RunsOutside, h])
  | some fiber => decidable_of_iff (s.position fiber = .outside) (by simp [RunsOutside, h])

/-- The rest of the program does not resume or unresume a fiber that waits for the event. -/
def Spares (s : EventState) : SchedulerAction → Prop
  | .resumeFiber fiber | .unresumeFiber fiber => s.position fiber = .outside
  | _ => True

instance (s : EventState) : (action : SchedulerAction) → Decidable (s.Spares action)
  | .resumeFiber fiber | .unresumeFiber fiber =>
    inferInstanceAs (Decidable (s.position fiber = .outside))
  | .addFiber .. | .addAndRunFiber .. | .yieldCurrentFiber | .suspendCurrentFiber
  | .exitCurrentFiber | .tick => isTrue trivial

/-- The memory is that of the waiter of a call in progress. -/
def InUse (s : EventState) (waiter : WaiterId) : Prop :=
  (s.position waiter.stack).waiter = some waiter

instance (s : EventState) (waiter : WaiterId) : Decidable (s.InUse waiter) :=
  inferInstanceAs (Decidable (_ = _))

end EventState

/-- What can happen next. -/
inductive EventAction
  /-- A use of the scheduler outside `Event_WaitFor`: a yield, a fiber created, an exit, a tick. -/
  | scheduler (action : SchedulerAction)
  /-- The running fiber calls `Event_WaitFor`, with the waiter where the stack has come to. -/
  | waitFor (depth : ℕ)
  /-- The running fiber calls `Event_Trigger`. -/
  | trigger
  /-- The running fiber, dispatched inside `Event_WaitFor`, returns from it. -/
  | proceed
  /-- Something is written where no waiter is. -/
  | write (waiter : WaiterId) (before after : EventNode) (fiber : FiberId)

/-- One step of the fibers that use an event. -/
def EventState.step (s : EventState) : EventAction → Option EventState
  | .scheduler action =>
    if s.RunsOutside ∧ s.scheduler.Enabled action ∧ s.Spares action then
      some { s with scheduler := s.scheduler.apply action }
    else none
  | .waitFor depth => s.caller.map fun fiber => s.waitFor fiber depth
  | .trigger => s.caller.bind fun _ => s.trigger
  | .proceed =>
    s.scheduler.activeFiber.bind fun fiber =>
      match s.position fiber with
      | .outside => none
      | .inWaitFor call _ =>
        some
          { s with
            position := Function.update s.position fiber .outside
            returned := s.returned ++ [call] }
  | .write waiter before after fiber =>
    if ¬s.InUse waiter then
      some
        { s with
          links :=
            { prev := Function.update s.links.prev (.listItem waiter) before
              next := Function.update s.links.next (.listItem waiter) after }
          fiber := Function.update s.fiber waiter fiber }
    else none

namespace EventState

variable {s next : EventState} {fiber : FiberId}

/-- A fiber can make a call if it runs and its last call has returned. -/
theorem caller_eq_some : s.caller = some fiber ↔
    s.scheduler.activeFiber = some fiber ∧ s.position fiber = .outside := by
  simp [caller, Option.filter_eq_some_iff]

/-- **What a step can do**, with the conditions under which it can be made and the state it leads
to. -/
theorem step_cases {action : EventAction} (hstep : s.step action = some next) :
    (∃ use, action = .scheduler use ∧ s.RunsOutside ∧ s.scheduler.Enabled use ∧ s.Spares use ∧
      next = { s with scheduler := s.scheduler.apply use }) ∨
    (∃ fiber depth, action = .waitFor depth ∧ s.scheduler.activeFiber = some fiber ∧
      s.position fiber = .outside ∧ next = s.waitFor fiber depth) ∨
    (action = .trigger ∧ s.trigger = some next) ∨
    (∃ fiber call waiter, action = .proceed ∧ s.scheduler.activeFiber = some fiber ∧
      s.position fiber = .inWaitFor call waiter ∧
      next =
        { s with
          position := Function.update s.position fiber .outside
          returned := s.returned ++ [call] }) ∨
    (∃ waiter before after fiber, action = .write waiter before after fiber ∧ ¬s.InUse waiter ∧
      next =
        { s with
          links :=
            { prev := Function.update s.links.prev (.listItem waiter) before
              next := Function.update s.links.next (.listItem waiter) after }
          fiber := Function.update s.fiber waiter fiber }) := by
  cases action with
  | scheduler use =>
      obtain ⟨⟨hrun, henabled, hspares⟩, hnext⟩ := Option.ite_none_right_eq_some.mp hstep
      exact .inl ⟨use, rfl, hrun, henabled, hspares, (Option.some.inj hnext).symm⟩
  | waitFor depth =>
      obtain ⟨fiber, hcaller, rfl⟩ := Option.map_eq_some_iff.mp hstep
      obtain ⟨ha, hout⟩ := caller_eq_some.mp hcaller
      exact .inr (.inl ⟨fiber, depth, rfl, ha, hout, rfl⟩)
  | trigger =>
      obtain ⟨fiber, -, hnext⟩ := Option.bind_eq_some_iff.mp hstep
      exact .inr (.inr (.inl ⟨rfl, hnext⟩))
  | proceed =>
      obtain ⟨fiber, ha, hrest⟩ := Option.bind_eq_some_iff.mp hstep
      rcases hpos : s.position fiber with _ | ⟨call, waiter⟩ <;>
        simp only [hpos, reduceCtorEq] at hrest
      exact .inr (.inr
        (.inr (.inl ⟨fiber, call, waiter, rfl, ha, hpos, (Option.some.inj hrest).symm⟩)))
  | write waiter before after fiber =>
      obtain ⟨hfree, hnext⟩ := Option.ite_none_right_eq_some.mp hstep
      exact .inr (.inr (.inr (.inr
        ⟨waiter, before, after, fiber, rfl, hfree, (Option.some.inj hnext).symm⟩)))

end EventState

/-- **The fibers of a program on one event.** `Event_Initialize` is called at any time of the
program's life. -/
def eventSystem : StepSystem EventState EventAction where
  init s := schedulerSystem.Reachable s.scheduler ∧
    (∃ links : Links EventNode, s.links = links.makeEmpty .waiterList) ∧
    (∀ fiber, s.position fiber = .outside) ∧ s.made = 0 ∧ s.selected = [] ∧ s.returned = []
  step := EventState.step

end Pixy.Sync
