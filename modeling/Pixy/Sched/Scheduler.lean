import Mathlib.Data.Finset.Card
import Pixy.Found.Runs

/-!
# The fiber scheduler

`Scheduler.c` as state passing. A fiber is named by its address (`FiberId`); the two intrusive lists
of the scheduler are lists of fibers, so `List_InsertBack` is `++ [·]`, `List_InsertFront` is `::`,
`ListItem_Remove` is `List.erase`, `List_GetFront` is `head?` and `List_GetBack` is `getLast?`.

* `setjmp` has no value of its own: a saved context is the owner of the stack it lives on and the
  number of that `setjmp` call (`JmpBuf`); the number is the length of the history at the call, so
  no two calls share one.
* `malloc` is an argument: the region it hands out, or `none` where it fails.
* A stack switch ends the function that makes it, so each operation below runs up to the point where
  another fiber has control. `Scheduler_SwitchTo` jumps into the waiting `Scheduler_Tick`, whose
  second half (`freeDeadFibers`) therefore runs at once.
* `history` is a ghost: what happened to which fiber, newest first. No operation reads it for a
  decision.

`FiberPhase` and `replay` are the abstract view of one fiber's life, to be compared with the lists
(`Accounting.lean`).
-/

namespace Pixy.Sched

open Pixy.Found

/-- A fiber, by the address of its `struct Fiber`. -/
abbrev FiberId := ℕ

/-- A saved context: the fiber on whose stack the `jmp_buf` lives and the number of the `setjmp`
call that filled it. -/
structure JmpBuf where
  /-- The fiber whose stack holds the buffer. -/
  owner : FiberId
  /-- The number of the `setjmp` call. -/
  number : ℕ
  deriving DecidableEq

/-- What the scheduler reads and writes of a fiber.
Source: `Scheduler.c`, `struct Fiber`. -/
structure Fiber where
  /-- The saved context, `none` for `NULL`. -/
  context : Option JmpBuf
  /-- The function the fiber runs. -/
  function : ℕ
  /-- The argument the function is given. -/
  argument : ℕ
  deriving DecidableEq

/-- What can happen to a fiber. -/
inductive FiberEvent
  /-- Its region came from `malloc`. -/
  | allocated
  /-- `Scheduler_AddFiber` set it up and made it ready. -/
  | added
  /-- `Scheduler_SwitchToFiber` gave it control, through the context named. -/
  | dispatched (context : Option JmpBuf)
  /-- It saved context `number` and linked itself into the ready list. -/
  | requeued (number : ℕ)
  /-- It saved context `number` and left the processor without being linked anywhere. -/
  | suspended (number : ℕ)
  /-- It was passed to `Scheduler_ResumeFiber`. -/
  | resumed
  /-- It was passed to `Scheduler_UnresumeFiber`. -/
  | unresumed
  /-- It called `Scheduler_ExitCurrentFiber`. -/
  | exited
  /-- Its region was given back by `Fiber_Free`. -/
  | freed
  deriving DecidableEq

/-- The scheduler's state, with the memory its fibers live in.
Source: `Scheduler.h`, `struct Scheduler`. -/
structure Scheduler where
  /-- The context of the `Scheduler_Tick` in progress. -/
  context : Option ℕ
  /-- The running fiber. -/
  activeFiber : Option FiberId
  /-- The ready list, front first. -/
  readyFiberList : List FiberId
  /-- The dead list, front first. -/
  deadFiberList : List FiberId
  /-- The number of fibers that have not exited. -/
  fiberCount : ℤ
  /-- The regions obtained from `malloc` and not yet freed. -/
  regions : Finset FiberId
  /-- The contents of the fibers. -/
  fibers : FiberId → Fiber
  /-- What happened to which fiber, newest first. -/
  history : List (FiberId × FiberEvent)

namespace Scheduler

/-- Source: `Scheduler.c`, `Scheduler_Initialize`. -/
def init (fibers : FiberId → Fiber) : Scheduler where
  context := none
  activeFiber := none
  readyFiberList := []
  deadFiberList := []
  fiberCount := 0
  regions := ∅
  fibers := fibers
  history := []

/-- Record an event. -/
def log (self : Scheduler) (fiber : FiberId) (event : FiberEvent) : Scheduler :=
  { self with history := (fiber, event) :: self.history }

/-- Where `Scheduler_AddFiber` gets its fiber: the back of the dead list, or a new region.
Source: `Scheduler.c`, `Scheduler_AddFiber`, first half; `Fiber_Allocate`. -/
def takeFiber (self : Scheduler) (region : Option FiberId) : Option (Scheduler × FiberId) :=
  match self.deadFiberList.getLast? with
  | none =>
    match region with
    | none => none
    | some fiber =>
      some ({ self with regions := insert fiber self.regions }.log fiber .allocated, fiber)
  | some fiber => some ({ self with deadFiberList := self.deadFiberList.erase fiber }, fiber)

/-- Source: `Scheduler.c`, `Scheduler_AddFiber`. -/
def addFiber (self : Scheduler) (function argument : ℕ) (region : Option FiberId) :
    Scheduler × Bool :=
  match self.takeFiber region with
  | none => (self, false)
  | some (self, fiber) =>
    ({ self with
        fibers := Function.update self.fibers fiber
          { context := none, function := function, argument := argument }
        readyFiberList := self.readyFiberList ++ [fiber]
        fiberCount := self.fiberCount + 1 }.log fiber .added, true)

/-- `setjmp(context)` and `self->activeFiber->context = &context`. -/
def saveContext (self : Scheduler) (fiber : FiberId) : Scheduler :=
  { self with
    fibers := Function.update self.fibers fiber
      { self.fibers fiber with context := some ⟨fiber, self.history.length⟩ } }

/-- Start the fiber, or jump to the context it saved.
Source: `Scheduler.c`, `Scheduler_SwitchToFiber`. -/
def switchToFiber (self : Scheduler) (fiber : FiberId) : Scheduler :=
  { self with activeFiber := some fiber }.log fiber (.dispatched (self.fibers fiber).context)

/-- Take the front fiber off the ready list and switch to it; the list is not empty where the code
does this. -/
def switchToFront (self : Scheduler) : Scheduler :=
  match self.readyFiberList.head? with
  | none => self
  | some fiber =>
    { self with readyFiberList := self.readyFiberList.erase fiber }.switchToFiber fiber

/-- Free the dead fibers, back to front, and empty the list.
Source: `Scheduler.c`, `Scheduler_Tick`, the branch taken after the jump. -/
def freeDeadFibers (self : Scheduler) : Scheduler :=
  { self with
    regions := self.regions \ self.deadFiberList.toFinset
    history := self.deadFiberList.map (·, .freed) ++ self.history
    deadFiberList := [] }

/-- Source: `Scheduler.c`, `Scheduler_SwitchTo`, and the rest of the `Scheduler_Tick` it jumps
into. -/
def switchTo (self : Scheduler) : Scheduler :=
  { self with activeFiber := none }.freeDeadFibers

/-- How a fiber that leaves the processor hands over control. -/
def switchAway (self : Scheduler) : Scheduler :=
  if self.readyFiberList = [] then self.switchTo else self.switchToFront

/-- Source: `Scheduler.c`, `Scheduler_AddAndRunFiber`, up to the switch to the new fiber. -/
def addAndRunFiber (self : Scheduler) (function argument : ℕ) (region : Option FiberId) :
    Scheduler × Bool :=
  match self.activeFiber with
  | none => (self, false)
  | some active =>
    match self.addFiber function argument region with
    | (self, false) => (self, false)
    | (self, true) =>
      let number := self.history.length
      let self := self.saveContext active
      let self := { self with readyFiberList := active :: self.readyFiberList }.log active
        (.requeued number)
      match self.readyFiberList.getLast? with
      | none => (self, true)
      | some fiber =>
        ({ self with readyFiberList := self.readyFiberList.erase fiber }.switchToFiber fiber, true)

/-- Source: `Scheduler.c`, `Scheduler_YieldCurrentFiber`. -/
def yieldCurrentFiber (self : Scheduler) : Scheduler :=
  match self.activeFiber with
  | none => self
  | some active =>
    if self.readyFiberList = [] then self
    else
      let number := self.history.length
      let self := self.saveContext active
      ({ self with readyFiberList := self.readyFiberList ++ [active] }.log active
        (.requeued number)).switchToFront

/-- Source: `Scheduler.c`, `Scheduler_SuspendCurrentFiber`. -/
def suspendCurrentFiber (self : Scheduler) : Scheduler :=
  match self.activeFiber with
  | none => self
  | some active =>
    let number := self.history.length
    ((self.saveContext active).log active (.suspended number)).switchAway

/-- Source: `Scheduler.c`, `Scheduler_ResumeFiber`. -/
def resumeFiber (self : Scheduler) (fiber : FiberId) : Scheduler :=
  { self with readyFiberList := self.readyFiberList ++ [fiber] }.log fiber .resumed

/-- Source: `Scheduler.c`, `Scheduler_UnresumeFiber`. -/
def unresumeFiber (self : Scheduler) (fiber : FiberId) : Scheduler :=
  { self with readyFiberList := self.readyFiberList.erase fiber }.log fiber .unresumed

/-- Source: `Scheduler.c`, `Scheduler_ExitCurrentFiber`. -/
def exitCurrentFiber (self : Scheduler) : Scheduler :=
  match self.activeFiber with
  | none => self
  | some active =>
    ({ self with
        deadFiberList := self.deadFiberList ++ [active]
        fiberCount := self.fiberCount - 1 }.log active .exited).switchAway

/-- Source: `Scheduler.c`, `Scheduler_Tick`, up to the switch to the first fiber; where no fiber is
ready it returns at once. -/
def tick (self : Scheduler) : Scheduler :=
  if self.readyFiberList = [] then self
  else { self with context := some self.history.length }.switchToFront

end Scheduler

/-! ## The life of one fiber -/

/-- Where a fiber can be. -/
inductive FiberPhase
  /-- It has no region. -/
  | unallocated
  /-- Its region has just come from `malloc`. -/
  | allocated
  /-- It waits in the ready list, to be entered through the context. -/
  | ready (context : Option JmpBuf)
  /-- It is in neither list, to be entered through the context when resumed. -/
  | suspended (context : Option JmpBuf)
  /-- It runs. -/
  | active
  /-- It has exited and its region waits to be freed or used again. -/
  | dead
  deriving DecidableEq

/-- **The life cycle of a fiber.** The phase an event leads to, `none` where the event is not
allowed. In particular memory is freed, or used for another fiber, only in phase `dead`, and a fiber
is entered only through the context of its latest switch-out. -/
def FiberEvent.next (fiber : FiberId) : FiberEvent → FiberPhase → Option FiberPhase
  | .allocated, .unallocated => some .allocated
  | .added, .allocated => some (.ready none)
  | .added, .dead => some (.ready none)
  | .dispatched context, .ready context' => if context = context' then some .active else none
  | .requeued number, .active => some (.ready (some ⟨fiber, number⟩))
  | .suspended number, .active => some (.suspended (some ⟨fiber, number⟩))
  | .resumed, .suspended context => some (.ready context)
  | .unresumed, .ready context => some (.suspended context)
  | .exited, .active => some .dead
  | .freed, .dead => some .unallocated
  | _, _ => none

/-- The phase a history leaves a fiber in, `none` where the history breaks the life cycle. -/
def replay (fiber : FiberId) : List (FiberId × FiberEvent) → Option FiberPhase
  | [] => some .unallocated
  | (other, event) :: history =>
    if other = fiber then (replay fiber history).bind (event.next fiber) else replay fiber history

/-- The phase of a fiber as the scheduler's fields tell it. -/
def Scheduler.phase (self : Scheduler) (fiber : FiberId) : FiberPhase :=
  if self.activeFiber = some fiber then .active
  else if fiber ∈ self.readyFiberList then .ready (self.fibers fiber).context
  else if fiber ∈ self.deadFiberList then .dead
  else if fiber ∈ self.regions then .suspended (self.fibers fiber).context
  else .unallocated

/-- A fiber that is allocated, does not run and is in neither list. -/
def Scheduler.Suspended (self : Scheduler) (fiber : FiberId) : Prop :=
  fiber ∈ self.regions ∧ self.activeFiber ≠ some fiber ∧ fiber ∉ self.readyFiberList ∧
    fiber ∉ self.deadFiberList

instance (self : Scheduler) (fiber : FiberId) : Decidable (self.Suspended fiber) :=
  inferInstanceAs (Decidable (_ ∧ _ ∧ _ ∧ _))

/-! ## The scheduler as a system -/

/-- A call of a scheduler operation, with the outcome of the allocation it may make. -/
inductive SchedulerAction
  /-- `Scheduler_AddFiber`. -/
  | addFiber (function argument : ℕ) (region : Option FiberId)
  /-- `Scheduler_AddAndRunFiber`. -/
  | addAndRunFiber (function argument : ℕ) (region : Option FiberId)
  /-- `Scheduler_YieldCurrentFiber`. -/
  | yieldCurrentFiber
  /-- `Scheduler_SuspendCurrentFiber`. -/
  | suspendCurrentFiber
  /-- `Scheduler_ResumeFiber`. -/
  | resumeFiber (fiber : FiberId)
  /-- `Scheduler_UnresumeFiber`. -/
  | unresumeFiber (fiber : FiberId)
  /-- `Scheduler_ExitCurrentFiber`. -/
  | exitCurrentFiber
  /-- `Scheduler_Tick`. -/
  | tick
  deriving DecidableEq

/-- `malloc` does not hand out a region that is still in use. -/
def Scheduler.Fresh (self : Scheduler) (region : Option FiberId) : Prop :=
  ∀ fiber ∈ region, fiber ∉ self.regions

instance (self : Scheduler) (region : Option FiberId) : Decidable (self.Fresh region) :=
  match region with
  | none => isTrue (by simp [Scheduler.Fresh])
  | some fiber => decidable_of_iff (fiber ∉ self.regions) (by simp [Scheduler.Fresh])

/-- What the code asserts, and the callers promise, of a call. -/
def Scheduler.Enabled (self : Scheduler) : SchedulerAction → Prop
  | .addFiber _ _ region => self.Fresh region
  | .addAndRunFiber _ _ region => self.activeFiber ≠ none ∧ self.Fresh region
  | .yieldCurrentFiber | .suspendCurrentFiber | .exitCurrentFiber => self.activeFiber ≠ none
  | .resumeFiber fiber => self.Suspended fiber
  | .unresumeFiber fiber => fiber ∈ self.readyFiberList
  | .tick => self.activeFiber = none

instance (self : Scheduler) : (action : SchedulerAction) → Decidable (self.Enabled action)
  | .addFiber _ _ region => inferInstanceAs (Decidable (self.Fresh region))
  | .addAndRunFiber _ _ region =>
    inferInstanceAs (Decidable (self.activeFiber ≠ none ∧ self.Fresh region))
  | .yieldCurrentFiber | .suspendCurrentFiber | .exitCurrentFiber =>
    inferInstanceAs (Decidable (self.activeFiber ≠ none))
  | .resumeFiber fiber => inferInstanceAs (Decidable (self.Suspended fiber))
  | .unresumeFiber fiber => inferInstanceAs (Decidable (fiber ∈ self.readyFiberList))
  | .tick => inferInstanceAs (Decidable (self.activeFiber = none))

/-- The state an operation leaves. -/
def Scheduler.apply (self : Scheduler) : SchedulerAction → Scheduler
  | .addFiber function argument region => (self.addFiber function argument region).1
  | .addAndRunFiber function argument region => (self.addAndRunFiber function argument region).1
  | .yieldCurrentFiber => self.yieldCurrentFiber
  | .suspendCurrentFiber => self.suspendCurrentFiber
  | .resumeFiber fiber => self.resumeFiber fiber
  | .unresumeFiber fiber => self.unresumeFiber fiber
  | .exitCurrentFiber => self.exitCurrentFiber
  | .tick => self.tick

/-- **The scheduler under any sequence of calls**, each as its caller must make it: a resumed fiber
is suspended, an unresumed one is in the ready list, ticks do not nest. -/
def schedulerSystem : StepSystem Scheduler SchedulerAction where
  init self := ∃ fibers, self = .init fibers
  step self action := if self.Enabled action then some (self.apply action) else none

/-- A step in which a call of `Scheduler_Tick` returns: the call itself where nothing was ready, or
the operation by which the last fiber left the processor. -/
def TickReturns (self : Scheduler) (action : SchedulerAction) (next : Scheduler) : Prop :=
  next.activeFiber = none ∧ (action = .tick ∨ self.activeFiber ≠ none)

end Pixy.Sched
