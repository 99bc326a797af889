import Mathlib
import Pixy.Found.CLayout
import Pixy.Loop.Timer
import Pixy.Poll.IOPoller
import Pixy.Pool.Idle
import Pixy.Sync.Semaphore

/-!
# The runtime

`Runtime.c` and the waiting half of `IO.c`: the event loop, the fibers it runs, and everything a
fiber can be suspended in.

A blocking call has a number of its own (`CallId`). The number names the stack frame of the call:
its `struct IOWatch` is the watch, its `struct Timeout` the heap node, and its `struct Work` the
work of that number. Watch 0 is the one of the thread pool.

* `WaitForFD` with a timeout lays its context out in one block, which the callbacks see through
  structs of their own. The block is memory here: a callback reads and writes it at the offsets of
  the struct it declares, and what is there is what the struct of `WaitForFD` put there. Which
  struct `WaitForFDCallback3` declares is a parameter, `declared`, so that the callback can be
  looked at both as it is and as if it found the fields where they were stored.
* A function is cut at `Scheduler_SuspendCurrentFiber`; the rest of it is `proceed`.
* An access the language gives no meaning to sets `halted`, after which nothing more happens.
* `log` is a ghost: the calls of `IOPoller_ClearWatch`, `Timer_ClearTimeout` and, by a callback, of
  `Scheduler_ResumeFiber`, each with the state it was made in, and the returns of blocking calls.
-/

namespace Pixy.Loop

open Pixy.Found Pixy.Sched Pixy.Sync Pixy.Poll Pixy.Pool

/-- A blocking call, by its stack frame. -/
abbrev CallId := ℕ

/-- The callbacks the program registers. -/
inductive Callback
  | workerCallback
  | waitForFDCallback1
  | waitForFDCallback2
  | waitForFDCallback3
  | sleepCallback
  deriving DecidableEq

/-- The code of `DoWorkCallback` among the callbacks of works. -/
def doWorkCallback : ℕ := 0

/-- Source: `errno.h`. -/
def eintr : ℤ := 4

/-! ## The context of a wait, as memory -/

/-- The names of fields. -/
inductive FieldName
  | prev
  | next
  | listItem
  | condition
  | data
  | callback
  | slotNumber
  | heapNode
  | dueTime
  | ioWatch
  | timeout
  | fiber
  | ok
  | errorNumber
  deriving DecidableEq

/-- Source: `List.h`, `struct ListItem`. -/
def listItemFields : Fields FieldName :=
  .cons .prev (.scalar 8) <| .cons .next (.scalar 8) .nil

/-- Source: `IOPoller.h`, `struct IOWatch`. -/
def ioWatchFields : Fields FieldName :=
  .cons .listItem (.struct listItemFields) <| .cons .condition (.scalar 4) <|
    .cons .data (.scalar 8) <| .cons .callback (.scalar 8) .nil

/-- Source: `Heap.h`, `struct HeapNode`. -/
def heapNodeFields : Fields FieldName := .cons .slotNumber (.scalar 4) .nil

/-- Source: `Timer.h`, `struct Timeout`. -/
def timeoutFields : Fields FieldName :=
  .cons .heapNode (.struct heapNodeFields) <| .cons .dueTime (.scalar 8) <|
    .cons .data (.scalar 8) <| .cons .callback (.scalar 8) .nil

/-- Source: `IO.c`, the struct in `WaitForFD` for a wait without timeout, and the one in
`WaitForFDCallback1`. -/
def untimedContext : Fields FieldName :=
  .cons .ioWatch (.struct ioWatchFields) <| .cons .fiber (.scalar 8) .nil

/-- Source: `IO.c`, the struct in `WaitForFD` for a wait with timeout, and the one in
`WaitForFDCallback2`. -/
def timedContext : Fields FieldName :=
  .cons .ioWatch (.struct ioWatchFields) <| .cons .timeout (.struct timeoutFields) <|
    .cons .fiber (.scalar 8) <| .cons .ok (.scalar 1) <| .cons .errorNumber (.scalar 4) .nil

/-- Source: `IO.c`, the struct in `WaitForFDCallback3`. -/
def callback3Context : Fields FieldName :=
  .cons .fiber (.scalar 8) <| .cons .ioWatch (.struct ioWatchFields) <|
    .cons .timeout (.struct timeoutFields) <| .cons .ok (.scalar 1) <|
      .cons .errorNumber (.scalar 4) .nil

/-- What a read of the block can find. -/
inductive Value
  /-- A pointer to a list item or a list head. -/
  | item (node : Node)
  /-- A pointer to a fiber. -/
  | fiber (fiber : FiberId)
  /-- An enumerator. -/
  | condition (condition : IOCondition)

/-! ## The state -/

/-- The blocking calls that end through a callback. -/
inductive CallKind
  | waitForFD (fd : FD) (condition : IOCondition) (timed : Bool)
  | sleepCurrentFiber
  | doWork
  deriving DecidableEq

/-- The fields of a context other than the watch and the timeout. A call that has no context knows
its fiber all the same. -/
structure Context where
  /-- Who waits. -/
  fiber : FiberId
  /-- Whether the descriptor became ready. -/
  ok : Bool
  /-- The error otherwise. -/
  errorNumber : ℤ
  deriving DecidableEq

/-- Where a fiber is. -/
inductive Position
  /-- In no blocking call. -/
  | outside
  /-- Suspended, or past the suspension, in a call that ends through a callback. -/
  | inCall (call : CallId)
  /-- In `Event_WaitFor`. -/
  | inEvent (event : ℕ)
  /-- In `Semaphore_Down`. -/
  | inDown (semaphore : ℕ)
  /-- In `Semaphore_Up`. -/
  | inUp (semaphore : ℕ)
  deriving DecidableEq

/-- Where the event loop is. -/
inductive Phase
  /-- In `Scheduler_Tick`, or past it and before `epoll_wait` has returned anything. -/
  | ticking
  /-- In the first `Async_DispatchCalls`. -/
  | polled
  /-- In the second, or past it. -/
  | expired
  deriving DecidableEq

/-- What is worth remembering, with the state in which it happened. -/
inductive Happening
  /-- `IOPoller_ClearWatch` was called. -/
  | clearsWatch (watch : WatchId) (poller : IOPoller Callback)
  /-- `Timer_ClearTimeout` was called. -/
  | clearsTimeout (timeout : CallId) (timer : Timer Callback)
  /-- A callback passed a fiber to `Scheduler_ResumeFiber`; `ready` tells whether it was the one for
  the readiness of a descriptor. -/
  | resumes (fiber : FiberId) (position : Position) (ready : Bool) (scheduler : Scheduler)
  /-- A call that was suspended returned, and has perhaps set `errno`. -/
  | returns (call : CallId) (kind : CallKind) (ok : Bool) (errno : Option ℤ)

/-- The program's globals, the stack frames of the blocking calls, and what the fibers share.
Source: `Runtime.c`, `IO.c`. -/
structure Runtime (n : ℕ) where
  /-- `Scheduler`. -/
  scheduler : Scheduler
  /-- `IOPoller`. -/
  poller : IOPoller Callback
  /-- `Timer`. -/
  timer : Timer Callback
  /-- `ThreadPool`. -/
  pool : ThreadPool n CallId
  /-- `async` of `Loop`; its calls are those still to be made. -/
  async : Async Callback
  /-- Where the loop is. -/
  phase : Phase
  /-- The latest time read. -/
  clock : ℕ
  /-- What every blocking call is. -/
  kind : CallId → CallKind
  /-- Their contexts. -/
  context : CallId → Context
  /-- The number of the next one. -/
  nextCall : CallId
  /-- Where each fiber is. -/
  position : FiberId → Position
  /-- The waiter list of every event. -/
  waiterList : ℕ → List FiberId
  /-- The semaphores. -/
  semaphores : ℕ → Semaphore
  /-- Something undefined happened. -/
  halted : Bool
  /-- What happened, newest first. -/
  log : List Happening

namespace Runtime

variable {n : ℕ}

/-- Do something more unless something undefined has happened. -/
def andThen (s : Runtime n) (rest : Runtime n → Runtime n) : Runtime n :=
  if s.halted then s else rest s

/-- Something undefined happens. -/
def halt (s : Runtime n) : Runtime n := { s with halted := true }

/-- Remember. -/
def note (s : Runtime n) (happening : Happening) : Runtime n := { s with log := happening :: s.log }

/-! ## Accesses to the context -/

/-- The struct that laid the block out. -/
def blockFields (s : Runtime n) (call : CallId) : Fields FieldName :=
  match s.kind call with
  | .waitForFD _ _ false => untimedContext
  | .waitForFD _ _ true => timedContext
  | _ => .nil

/-- What is in a scalar of the block; those that are only ever accessed by the timer or through the
registered watch are left out. -/
def valueAt (s : Runtime n) (call : CallId) : List FieldName → Option Value
  | [.ioWatch, .listItem, .prev] => some (.item (s.poller.links.prev (.watchItem call)))
  | [.ioWatch, .listItem, .next] => some (.item (s.poller.links.next (.watchItem call)))
  | [.ioWatch, .condition] => some (.condition (s.poller.watch call).condition)
  | [.fiber] => some (.fiber (s.context call).fiber)
  | _ => none

/-- A read of a scalar. -/
def read (s : Runtime n) (call : CallId) (offset : ℕ) : Option Value :=
  ((s.blockFields call).cellAt offset).bind (s.valueAt call)

/-- A read of a `struct ListItem *`. -/
def readItem (s : Runtime n) (call : CallId) (offset : ℕ) : Option Node :=
  match s.read call offset with
  | some (.item node) => some node
  | _ => none

/-- A read of a `struct Fiber *`. -/
def readFiber (s : Runtime n) (call : CallId) (offset : ℕ) : Option FiberId :=
  match s.read call offset with
  | some (.fiber fiber) => some fiber
  | _ => none

/-- A read of an `enum IOCondition`. -/
def readCondition (s : Runtime n) (call : CallId) (offset : ℕ) : Option IOCondition :=
  match s.read call offset with
  | some (.condition condition) => some condition
  | _ => none

/-- A write to a scalar of the block that is the field named. -/
def writeContext (s : Runtime n) (call : CallId) (offset : ℕ) (name : FieldName)
    (context : Context) : Runtime n :=
  if (s.blockFields call).cellAt offset = some [name] then
    { s with context := Function.update s.context call context }
  else s.halt

/-- Change the links. -/
def setLinks (s : Runtime n) (links : Links Node) : Runtime n :=
  { s with poller := { s.poller with links := links } }

/-- Its only neighbour is taken for the head of a list that has become empty.
Source: `IOPoller.c`, `IOPoller_ClearWatch`, second half. -/
def clearPending (s : Runtime n) (neighbour : Node) (condition : IOCondition) :
    Option (Runtime n) :=
  match neighbour with
  | .watchListHead event head =>
    if head = condition ∧ event ∈ s.poller.allocated then
      let contents := s.poller.event event
      some { s with poller := (s.poller.write event
        { contents with
          pendingFlags := contents.pendingFlags &&& ~~~ioEventFlags condition }).markDirty event }
    else none
  | _ => none

/-- `IOPoller_ClearWatch` on the `struct IOWatch` that is taken to begin at an offset of the block.
Source: `IOPoller.c`, `IOPoller_ClearWatch`; `List.h`, `ListItem_Remove`. -/
def clearWatchAt (s : Runtime n) (call : CallId) (offset : ℕ) : Option (Runtime n) := do
  let prevOffset := offset + ioWatchFields.offsetOf .listItem + listItemFields.offsetOf .prev
  let nextOffset := offset + ioWatchFields.offsetOf .listItem + listItemFields.offsetOf .next
  -- `self->prev->next = self->next`
  let prev ← s.readItem call prevOffset
  let next ← s.readItem call nextOffset
  let s := s.setLinks
    { s.poller.links with next := Function.update s.poller.links.next prev next }
  -- `self->next->prev = self->prev`
  let next ← s.readItem call nextOffset
  let prev ← s.readItem call prevOffset
  let s := s.setLinks
    { s.poller.links with prev := Function.update s.poller.links.prev next prev }
  let s := { s with poller := { s.poller with
    registered := s.poller.registered.filter fun r => r.watch ≠ call } }
  let prev ← s.readItem call prevOffset
  let next ← s.readItem call nextOffset
  if prev = next then do
    let condition ← s.readCondition call (offset + ioWatchFields.offsetOf .condition)
    s.clearPending prev condition
  else some s

/-- The statement `IOPoller_ClearWatch(&IOPoller, &context->ioWatch)`. -/
def clearWatch (s : Runtime n) (call : CallId) (offset : ℕ) : Runtime n :=
  let s := s.note (.clearsWatch call s.poller)
  (s.clearWatchAt call offset).getD s.halt

/-- The statement `Timer_ClearTimeout(&Timer, &context->timeout)`. -/
def clearTimeout (s : Runtime n) (call : CallId) (offset : ℕ) : Runtime n :=
  let s := s.note (.clearsTimeout call s.timer)
  if (s.blockFields call).cellAt offset = some [.timeout, .heapNode, .slotNumber] then
    match s.timer.clearTimeout call with
    | some timer => { s with timer := timer }
    | none => s.halt
  else s.halt

/-- `Scheduler_ResumeFiber` by a callback. -/
def resume (s : Runtime n) (fiber : FiberId) (ready : Bool) : Runtime n :=
  { s.note (.resumes fiber (s.position fiber) ready s.scheduler) with
    scheduler := s.scheduler.resumeFiber fiber }

/-- The statement `Scheduler_ResumeFiber(&Scheduler, context->fiber)`. -/
def resumeAt (s : Runtime n) (call : CallId) (offset : ℕ) (ready : Bool) : Runtime n :=
  match s.readFiber call offset with
  | some fiber => s.resume fiber ready
  | none => s.halt

/-! ## The callbacks -/

/-- Source: `IO.c`, `WaitForFDCallback1`. -/
def waitForFDCallback1 (s : Runtime n) (call : CallId) : Runtime n :=
  (s.clearWatch call (untimedContext.offsetOf .ioWatch)).andThen fun s =>
    s.resumeAt call (untimedContext.offsetOf .fiber) true

/-- Source: `IO.c`, `WaitForFDCallback2`. -/
def waitForFDCallback2 (s : Runtime n) (call : CallId) : Runtime n :=
  (s.clearWatch call (timedContext.offsetOf .ioWatch)).andThen fun s =>
    (s.clearTimeout call (timedContext.offsetOf .timeout)).andThen fun s =>
      (s.writeContext call (timedContext.offsetOf .ok) .ok
        { s.context call with ok := true }).andThen fun s =>
          s.resumeAt call (timedContext.offsetOf .fiber) true

/-- Source: `IO.c`, `WaitForFDCallback3`, with the struct it declares. -/
def waitForFDCallback3 (declared : Fields FieldName) (s : Runtime n) (call : CallId) : Runtime n :=
  (s.clearWatch call (declared.offsetOf .ioWatch)).andThen fun s =>
    (s.writeContext call (declared.offsetOf .ok) .ok
      { s.context call with ok := false }).andThen fun s =>
        (s.writeContext call (declared.offsetOf .errorNumber) .errorNumber
          { s.context call with errorNumber := eintr }).andThen fun s =>
            s.resumeAt call (declared.offsetOf .fiber) false

/-- One round of the loop of `WorkerCallback`; the callback of every work is `DoWorkCallback`.
Source: `ThreadPool.c`, `WorkerCallback`; `IO.c`, `DoWorkCallback`. -/
def workDone (s : Runtime n) (work : CallId) : Runtime n :=
  match s.pool.step .callback with
  | some pool =>
    if (pool.works work).callback = doWorkCallback then
      { s with pool := pool }.resume (pool.works work).data false
    else s.halt
  | none => s.halt

/-- Source: `ThreadPool.c`, `WorkerCallback`. -/
def workerCallback (s : Runtime n) : Runtime n :=
  match s.pool.step .readPipe with
  | some pool =>
    pool.batch.foldl (fun s work => s.andThen (·.workDone work)) { s with pool := pool }
  | none => s.halt

/-- Make a collected call. -/
def call (declared : Fields FieldName) (s : Runtime n) (call : AsyncCall Callback) : Runtime n :=
  match call.function with
  | .workerCallback => s.workerCallback
  | .waitForFDCallback1 => s.waitForFDCallback1 call.argument
  | .waitForFDCallback2 => s.waitForFDCallback2 call.argument
  | .waitForFDCallback3 => s.waitForFDCallback3 declared call.argument
  | .sleepCallback => s.resume call.argument false

/-! ## The blocking calls -/

/-- A new stack frame for a blocking call of a fiber. -/
def enter (s : Runtime n) (fiber : FiberId) (kind : CallKind) : Runtime n :=
  { s with
    kind := Function.update s.kind s.nextCall kind
    context := Function.update s.context s.nextCall { s.context s.nextCall with fiber := fiber }
    nextCall := s.nextCall + 1 }

/-- `Scheduler_SuspendCurrentFiber`, in a blocking call. -/
def suspend (s : Runtime n) (fiber : FiberId) (position : Position) : Runtime n :=
  { s with
    scheduler := s.scheduler.suspendCurrentFiber
    position := Function.update s.position fiber position }

/-- Up to the suspension, or to a return without one; `reallocated` and `block` are what the poller
gets, `inserted` is what the heap gets. Source: `IO.c`, `WaitForFD`. -/
def waitForFD (s : Runtime n) (fiber : FiberId) (fd : FD) (condition : IOCondition) (timeout : ℤ)
    (now : ℕ) (reallocated : Bool) (block : Option EventId) (inserted : Bool) :
    Option (Runtime n) :=
  let call := s.nextCall
  let timed : Bool := 0 ≤ timeout
  let s := s.enter fiber (.waitForFD fd condition timed)
  let callback := if timed then Callback.waitForFDCallback2 else .waitForFDCallback1
  match s.poller.setWatch call fd condition call callback reallocated block with
  | none => none
  | some (poller, false) => some { s with poller := poller }
  | some (poller, true) =>
    let s := { s with poller := poller }
    if timed then
      match s.timer.setTimeout call timeout call .waitForFDCallback3 now inserted with
      | (timer, true) => some ({ s with timer := timer }.suspend fiber (.inCall call))
      | (_, false) => some (s.clearWatch call (timedContext.offsetOf .ioWatch))
    else some (s.suspend fiber (.inCall call))

/-- Source: `Runtime.c`, `SleepCurrentFiber`. -/
def sleepCurrentFiber (s : Runtime n) (fiber : FiberId) (duration : ℤ) (now : ℕ)
    (inserted : Bool) : Runtime n :=
  let call := s.nextCall
  let s := s.enter fiber .sleepCurrentFiber
  match s.timer.setTimeout call duration fiber .sleepCallback now inserted with
  | (timer, true) => { s with timer := timer }.suspend fiber (.inCall call)
  | (_, false) => s

/-- Source: `IO.c`, `DoWork`. -/
def doWork (s : Runtime n) (fiber : FiberId) (function argument : ℕ) (woken : Finset (Fin n)) :
    Option (Runtime n) :=
  let call := s.nextCall
  let s := s.enter fiber .doWork
  match s.pool.step (.postWork call ⟨function, argument, fiber, doWorkCallback⟩ woken) with
  | none => none
  | some pool => some ({ s with pool := pool }.suspend fiber (.inCall call))

/-- Source: `Event.c`, `Event_WaitFor`. -/
def eventWaitFor (s : Runtime n) (fiber : FiberId) (event : ℕ) : Runtime n :=
  { s with
    waiterList := Function.update s.waiterList event (s.waiterList event ++ [fiber]) }.suspend fiber
      (.inEvent event)

/-- Source: `Event.c`, `Event_Trigger`. -/
def eventTrigger (s : Runtime n) (event : ℕ) : Runtime n :=
  match s.waiterList event with
  | [] => s
  | fiber :: waiters =>
    { s with
      waiterList := Function.update s.waiterList event waiters
      scheduler := s.scheduler.resumeFiber fiber }

/-- Source: `Semaphore.c`, `Semaphore_Down`, up to the suspension or the return. -/
def semaphoreDown (s : Runtime n) (fiber : FiberId) (i : ℕ) : Runtime n :=
  let (semaphore, scheduler, blocked) := (s.semaphores i).down s.scheduler fiber
  { s with
    scheduler := scheduler
    semaphores := Function.update s.semaphores i semaphore
    position := if blocked then Function.update s.position fiber (.inDown i) else s.position }

/-- Source: `Semaphore.c`, `Semaphore_Up`, up to the suspension or the return. -/
def semaphoreUp (s : Runtime n) (fiber : FiberId) (i : ℕ) : Runtime n :=
  let (semaphore, scheduler, blocked) := (s.semaphores i).up s.scheduler fiber
  { s with
    scheduler := scheduler
    semaphores := Function.update s.semaphores i semaphore
    position := if blocked then Function.update s.position fiber (.inUp i) else s.position }

/-- The system call that follows touches nothing that is modelled.
Source: `IO.c`, `Close`. -/
def close (s : Runtime n) (fd : FD) : Runtime n :=
  match s.poller.clearWatches fd with
  | some poller => { s with poller := poller }
  | none => s.halt

/-- What a blocking call that ends through a callback returns, and what it sets `errno` to. -/
def result (s : Runtime n) (call : CallId) : Bool × Option ℤ :=
  match s.kind call with
  | .waitForFD _ _ true =>
    if (s.context call).ok then (true, none) else (false, some (s.context call).errorNumber)
  | _ => (true, none)

/-- From the suspension to the return. Source: the functions above. -/
def proceed (s : Runtime n) (fiber : FiberId) : Option (Runtime n) :=
  let outside := { s with position := Function.update s.position fiber .outside }
  match s.position fiber with
  | .outside => none
  | .inCall call =>
    some (outside.note (.returns call (s.kind call) (s.result call).1 (s.result call).2))
  | .inEvent _ => some outside
  | .inDown i =>
    let (semaphore, scheduler) := (s.semaphores i).downWoken s.scheduler fiber
    some { outside with
      scheduler := scheduler
      semaphores := Function.update s.semaphores i semaphore }
  | .inUp i =>
    let (semaphore, scheduler) := (s.semaphores i).upWoken s.scheduler fiber
    some { outside with
      scheduler := scheduler
      semaphores := Function.update s.semaphores i semaphore }

/-! ## The loop -/

/-- An interrupted `epoll_wait` is repeated; any other failure is fatal.
Source: `Runtime.c`, `Loop`, the loop around `IOPoller_Tick`. -/
def poll (s : Runtime n) (freeSlot : EventId → Node) (outcome : EpollWait) (memory : ℕ → Bool) :
    Option (Runtime n) :=
  match s.poller.tick freeSlot outcome memory s.async, outcome with
  | some (poller, async, true), _ =>
    some { s with poller := poller, async := async, phase := .polled }
  | some (poller, async, false), .interrupted => some { s with poller := poller, async := async }
  | _, _ => none

/-- One round of a loop of `Async_DispatchCalls`. `WorkerCallback` is not called with an empty pipe:
`epoll_wait` does not report one, and nobody else reads it in between.
Source: `Async.c`, `Async_DispatchCalls`. -/
def dispatch (declared : Fields FieldName) (s : Runtime n) : Option (Runtime n) :=
  match s.async.calls with
  | [] => none
  | next :: calls =>
    if next.function = .workerCallback ∧ s.pool.pipe = [] then none
    else some ({ s with async := { s.async with calls := calls } }.call declared next)

/-- Source: `Runtime.c`, `Loop`, the call of `Timer_Tick`; its failure is fatal. -/
def expire (s : Runtime n) (now : ℕ) (due : List (Timeout Callback)) (memory : ℕ → Bool) :
    Option (Runtime n) :=
  match s.timer.tick now due memory s.async with
  | some (timer, async, true) => some { s with timer := timer, async := async, phase := .expired }
  | _ => none

end Runtime

/-! ## The system -/

/-- What can happen next. -/
inductive RuntimeAction (n : ℕ)
  /-- The running fiber calls `AddFiber`. -/
  | addFiber (function argument : ℕ) (region : Option FiberId)
  /-- It calls `AddAndRunFiber`. -/
  | addAndRunFiber (function argument : ℕ) (region : Option FiberId)
  /-- It calls `YieldCurrentFiber`. -/
  | yieldCurrentFiber
  /-- It calls `ExitCurrentFiber`, or its function returns. -/
  | exitCurrentFiber
  /-- It calls `WaitForFD`, in one of the retrying functions. -/
  | waitForFD (fd : FD) (condition : IOCondition) (timeout : ℤ) (now : ℕ) (reallocated : Bool)
      (block : Option EventId) (inserted : Bool)
  /-- It calls `SleepCurrentFiber`. -/
  | sleepCurrentFiber (duration : ℤ) (now : ℕ) (inserted : Bool)
  /-- It calls `DoWork`, in `GetAddrInfo` or `GetNameInfo`. -/
  | doWork (function argument : ℕ) (woken : Finset (Fin n))
  /-- It calls `Event_WaitFor`. -/
  | eventWaitFor (event : ℕ)
  /-- It calls `Event_Trigger`. -/
  | eventTrigger (event : ℕ)
  /-- It calls `Semaphore_Down`. -/
  | semaphoreDown (i : ℕ)
  /-- It calls `Semaphore_Up`. -/
  | semaphoreUp (i : ℕ)
  /-- It calls `Close`. -/
  | close (fd : FD)
  /-- The running fiber, dispatched inside a blocking call, runs to the return. -/
  | proceed
  /-- A worker thread makes a step. -/
  | worker (action : PoolAction n CallId)
  /-- The loop calls `Scheduler_Tick`. -/
  | schedulerTick
  /-- The loop calls `IOPoller_Tick`. -/
  | poll (freeSlot : EventId → Node) (outcome : EpollWait) (memory : ℕ → Bool)
  /-- The loop makes the next of the collected calls. -/
  | dispatch
  /-- The loop calls `Timer_Tick`. -/
  | expire (now : ℕ) (due : List (Timeout Callback)) (memory : ℕ → Bool)

namespace Runtime

variable {n : ℕ}

/-- The running fiber, if it is in no blocking call. -/
def caller (s : Runtime n) : Option FiberId :=
  s.scheduler.activeFiber.filter fun fiber => s.position fiber = .outside

/-- An operation of the scheduler by the running fiber. -/
def schedule (s : Runtime n) (action : SchedulerAction) : Option (Runtime n) :=
  if s.scheduler.Enabled action then
    some { s with scheduler := s.scheduler.apply action }
  else none

/-- One step. The clock does not go back, a descriptor is an `int` whose successor is one, and the
loop ends when no fiber is left. -/
def step (declared : Fields FieldName) (s : Runtime n) (action : RuntimeAction n) :
    Option (Runtime n) :=
  if s.halted then none
  else match action with
  | .addFiber function argument region =>
    s.caller.bind fun _ => s.schedule (.addFiber function argument region)
  | .addAndRunFiber function argument region =>
    s.caller.bind fun _ => s.schedule (.addAndRunFiber function argument region)
  | .yieldCurrentFiber => s.caller.bind fun _ => s.schedule .yieldCurrentFiber
  | .exitCurrentFiber => s.caller.bind fun _ => s.schedule .exitCurrentFiber
  | .waitForFD fd condition timeout now reallocated block inserted =>
    s.caller.bind fun fiber =>
      if s.clock ≤ now ∧ fd + 1 < 2 ^ 31 then
        { s with clock := now }.waitForFD fiber fd condition timeout now reallocated block inserted
      else none
  | .sleepCurrentFiber duration now inserted =>
    s.caller.bind fun fiber =>
      if s.clock ≤ now then
        some ({ s with clock := now }.sleepCurrentFiber fiber duration now inserted)
      else none
  | .doWork function argument woken =>
    s.caller.bind fun fiber => s.doWork fiber function argument woken
  | .eventWaitFor event => s.caller.map fun fiber => s.eventWaitFor fiber event
  | .eventTrigger event => s.caller.map fun _ => s.eventTrigger event
  | .semaphoreDown i => s.caller.map fun fiber => s.semaphoreDown fiber i
  | .semaphoreUp i => s.caller.map fun fiber => s.semaphoreUp fiber i
  | .close fd => s.caller.map fun _ => s.close fd
  | .proceed => s.scheduler.activeFiber.bind fun fiber => s.proceed fiber
  | .worker action =>
    if OfWorker action then (s.pool.step action).map fun pool => { s with pool := pool } else none
  | .schedulerTick =>
    if s.phase = .expired ∧ s.async.calls = [] then
      (s.schedule .tick).map fun s => { s with phase := .ticking }
    else none
  | .poll freeSlot outcome memory =>
    if s.phase = .ticking ∧ s.scheduler.activeFiber = none ∧ s.scheduler.fiberCount ≠ 0 then
      s.poll freeSlot outcome memory
    else none
  | .dispatch => if s.phase ≠ .ticking then s.dispatch declared else none
  | .expire now due memory =>
    if s.phase = .polled ∧ s.async.calls = [] ∧ s.clock ≤ now then
      { s with clock := now }.expire now due memory
    else none

/-- The state `Loop` begins in: everything is initialized, the thread pool watches its pipe, and the
first fiber was added. Source: `Runtime.c`, `main`. -/
structure Initial (s : Runtime n) : Prop where
  scheduler : ∃ fibers function argument region,
    s.scheduler = ((Scheduler.init fibers).addFiber function argument region).1
  poller : ∃ event watch links fd reallocated block, fd + 1 < 2 ^ 31 ∧
    (IOPoller.init event watch links).setWatch 0 fd .ioReadable 0 .workerCallback reallocated
      block = some (s.poller, true)
  timer : s.timer = .init
  pool : ∃ works, s.pool = .init works
  async : s.async = .init
  phase : s.phase = .expired
  nextCall : s.nextCall = 1
  position : ∀ fiber, s.position fiber = .outside
  waiterList : ∀ event, s.waiterList event = []
  semaphores : ∀ i, ∃ value minValue maxValue,
    Semaphore.init? value minValue maxValue = some (s.semaphores i)
  halted : s.halted = false
  log : s.log = []

end Runtime

/-- **The runtime**, under every behaviour of its fibers, the workers, the kernel and the memory. -/
def runtimeSystem (n : ℕ) (declared : Fields FieldName) :
    StepSystem (Runtime n) (RuntimeAction n) where
  init := Runtime.Initial
  step s action := s.step declared action

end Pixy.Loop
