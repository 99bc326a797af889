import Pixy.Loop.TimeOut
import Pixy.Loop.TimerHeap

/-!
# The runtime over the heap

The runtime keeps its timeouts in a list; the program has them in a heap. Here the two run side by
side: a step of the runtime makes the call of the timer that it makes (`Runtime.timerCall`), on the
heap, and whether a timeout could be inserted and what a tick finds is the heap's to say.

* `HeapRuntime.runtime_of_reachable`: the runtime makes a run of its own;
* `HeapRuntime.holds_of_reachable`: in every state the heap holds the timeouts that are pending.
-/

namespace Pixy.Loop

open Pixy.Found Pixy.Sched Pixy.Sync Pixy.Poll Pixy.Pool Pixy.Store

variable {n : ℕ}

/-! ## The calls of the timer -/

/-- A call of one of the functions of the timer. -/
inductive TimerCall
  /-- A call of `Timer_SetTimeout`, and whether there was room. -/
  | setTimeout (timeout : NodeId) (delay : ℤ) (data : ℕ) (callback : Callback) (now : ℕ)
      (inserted : Bool)
  /-- A call of `Timer_ClearTimeout`. -/
  | clearTimeout (timeout : NodeId)
  /-- A call of `Timer_Tick`. -/
  | tick (now : ℕ) (memory : ℕ → Bool)

namespace Runtime

/-- The call of the timer that a step makes. A wait sets its timeout once its watch is set. -/
def timerCall (s : Runtime n) : RuntimeAction n → Option TimerCall
  | .waitForFD fd condition timeout now reallocated block inserted =>
    if 0 ≤ timeout then
      match s.poller.setWatch s.nextCall fd condition s.nextCall .waitForFDCallback2 reallocated
        block with
      | some (_, true) =>
        some (.setTimeout s.nextCall timeout s.nextCall .waitForFDCallback3 now inserted)
      | _ => none
    else none
  | .sleepCurrentFiber duration now inserted =>
    s.scheduler.activeFiber.map fun fiber =>
      .setTimeout s.nextCall duration fiber .sleepCallback now inserted
  | .dispatch =>
    match s.async.calls with
    | ⟨.waitForFDCallback2, call⟩ :: _ => some (.clearTimeout call)
    | _ => none
  | .expire now _ memory => some (.tick now memory)
  | _ => none

end Runtime

/-! ## The system -/

/-- What the allocations of the heap come to. -/
structure HeapMemory where
  /-- Whether `realloc` succeeds for the vector of segments. -/
  segments : Bool
  /-- What `malloc` returns for a segment. -/
  segment : Option (ℕ → NodeId)

/-- Memory for whatever it asks for. -/
def HeapMemory.plenty : HeapMemory := ⟨true, some fun _ => 0⟩

/-- The runtime, and the timer with its heap. -/
structure HeapRuntime (n : ℕ) where
  /-- The runtime, with the timeouts in a list. -/
  runtime : Runtime n
  /-- `Timer`. -/
  timer : HeapTimer Callback

namespace HeapRuntime

/-- The call on the heap; none has a meaning that would count more slots than an `int` can. -/
def perform (s : HeapRuntime n) (runtime : Runtime n) (memory : HeapMemory) :
    TimerCall → Option (HeapTimer Callback)
  | .setTimeout timeout delay data callback now inserted =>
    (s.timer.setTimeout timeout delay data callback now memory.segments memory.segment).bind
      fun (timer, ok) =>
        if ok = inserted ∧ timer.timeoutHeap.numberOfSlots < 2 ^ 31 then some timer else none
  | .clearTimeout timeout => s.timer.clearTimeout timeout
  | .tick now memory =>
    (s.timer.tick now memory s.runtime.async).bind fun (timer, async, ok) =>
      if ok ∧ async.calls = runtime.async.calls then some timer else none

/-- One step of both. -/
def step (declared : Fields FieldName) (s : HeapRuntime n) (action : RuntimeAction n × HeapMemory) :
    Option (HeapRuntime n) :=
  (s.runtime.step declared action.1).bind fun runtime =>
    match s.runtime.timerCall action.1 with
    | none => some ⟨runtime, s.timer⟩
    | some call => (s.perform runtime action.2 call).map fun timer => ⟨runtime, timer⟩

end HeapRuntime

/-- **The runtime over the heap.** -/
def heapRuntimeSystem (n : ℕ) (declared : Fields FieldName) :
    StepSystem (HeapRuntime n) (RuntimeAction n × HeapMemory) where
  init s := s.runtime.Initial ∧ ∃ slots slotNumber dueTime data callback,
    s.timer = .init slots slotNumber dueTime data callback
  step s action := s.step declared action

/-! ## What a step does to the timeouts -/

namespace Runtime

variable {s t : Runtime n} {declared : Fields FieldName}

/-- An entry in the log does not touch the timer. -/
@[simp] theorem timer_note (happening : Happening) : (s.note happening).timer = s.timer := rfl

/-- To halt does not touch the timer. -/
@[simp] theorem timer_halt : s.halt.timer = s.timer := rfl

/-- Clearing pending watches is the poller's business and does not touch the timer. -/
theorem timer_clearPending {neighbour : Node} {condition : IOCondition}
    (h : s.clearPending neighbour condition = some t) : t.timer = s.timer := by
  unfold clearPending at h
  split at h
  · split_ifs at h
    cases h
    rfl
  · cases h

/-- Clearing a watch at a place of memory is the poller's business and does not touch the timer,
also where it halts. -/
theorem timer_clearWatchAt {call : CallId} {offset : ℕ} (h : s.clearWatchAt call offset = some t) :
    t.timer = s.timer := by
  unfold clearWatchAt at h
  simp only [Option.bind_eq_bind, Option.bind_eq_some_iff] at h
  obtain ⟨_, -, _, -, _, -, _, -, _, -, _, -, h⟩ := h
  split_ifs at h
  · obtain ⟨_, -, h⟩ := Option.bind_eq_some_iff.mp h
    have hcleared := timer_clearPending h
    exact hcleared
  · cases h
    rfl

/-- A callback that clears its watch does not touch the timer by that; the log entry that goes with
it does not either. -/
theorem timer_clearWatch (call : CallId) (offset : ℕ) :
    (s.clearWatch call offset).timer = s.timer := by
  unfold clearWatch
  rcases h : (s.note (.clearsWatch call s.poller)).clearWatchAt call offset with _ | t
  · simp [h]
  · simpa [h] using timer_clearWatchAt h

/-- Waking a fiber is the scheduler's business and does not touch the timer, also where no fiber is
found. -/
theorem timer_resumeAt (call : CallId) (offset : ℕ) (ready : Bool) :
    (s.resumeAt call offset ready).timer = s.timer := by
  unfold resumeAt
  split <;> rfl

/-- A write into a context lands in the frame of a call, not in the timer. -/
theorem timer_writeContext (call : CallId) (offset : ℕ) (name : FieldName) (context : Context) :
    (s.writeContext call offset name context).timer = s.timer := by
  unfold writeContext
  split_ifs <;> rfl

/-- Code in sequence leaves the timer alone if the second piece does, for which the timer is that of
the first. -/
theorem timer_andThen {rest : Runtime n → Runtime n} (h : (rest s).timer = s.timer) :
    (s.andThen rest).timer = s.timer := by
  unfold andThen
  split_ifs
  · rfl
  · exact h

/-- The readiness callback of a call without a timeout clears a watch and wakes a fiber; the heap of
timeouts is not concerned. -/
theorem timer_waitForFDCallback1 (call : CallId) : (s.waitForFDCallback1 call).timer = s.timer := by
  unfold waitForFDCallback1
  exact (timer_andThen (timer_resumeAt ..)).trans (timer_clearWatch ..)

/-- The expiry callback does not touch the timer: its own timeout was taken out of the heap when it
was collected. -/
theorem timer_waitForFDCallback3 (call : CallId) :
    (s.waitForFDCallback3 declared call).timer = s.timer := by
  unfold waitForFDCallback3
  refine (timer_andThen ?_).trans (timer_clearWatch ..)
  refine (timer_andThen ?_).trans (timer_writeContext ..)
  exact (timer_andThen (timer_resumeAt ..)).trans (timer_writeContext ..)

/-- The callback of a work wakes who waits for it and does not touch the timer. -/
theorem timer_workDone (work : CallId) : (s.workDone work).timer = s.timer := by
  unfold workDone
  split
  · split_ifs <;> rfl
  · rfl

/-- Reading the pipe is the pool's business and does not touch the timer. -/
theorem timer_workerCallback : s.workerCallback.timer = s.timer := by
  have hloop : ∀ (works : List CallId) (s : Runtime n),
      (works.foldl (fun s work => s.andThen (·.workDone work)) s).timer = s.timer := by
    intro works
    induction works with
    | nil => exact fun _ => rfl
    | cons work works ih => exact fun s => (ih _).trans (timer_andThen (timer_workDone work))
  unfold workerCallback
  split
  · exact hloop ..
  · rfl

/-- **What a call of the timer does to the timeouts.** -/
def TimerDone (s t : Runtime n) : TimerCall → Prop
  | .setTimeout timeout delay data callback now inserted => timeout ∉ s.timer.nodes ∧
      t.timer = (s.timer.setTimeout timeout delay data callback now inserted).1
  | .clearTimeout timeout => timeout ∈ s.timer.nodes ∧ t.timer = s.timer.without timeout
  | .tick now _ => ∃ due, s.timer.Pops now due ∧
      t.timer.timeouts = s.timer.timeouts.filter fun u => u.heapNode ∉ due.map (·.heapNode)

/-- A step with no call of the timer leaves the timeouts alone. -/
def TimerStep (s t : Runtime n) : Option TimerCall → Prop
  | none => t.timer = s.timer
  | some call => s.TimerDone t call

/-- A call of the scheduler changes nothing else, so not the timer either. -/
theorem timer_schedule {action : SchedulerAction} (h : s.schedule action = some t) :
    t.timer = s.timer := by
  unfold schedule at h
  split_ifs at h
  cases h
  rfl

/-- The return of a call changes where its fiber stands and the log, and not the timer. -/
theorem timer_proceed {fiber : FiberId} (h : s.proceed fiber = some t) : t.timer = s.timer := by
  unfold proceed at h
  dsimp only at h
  split at h <;> cases h <;> rfl

/-- What `WaitForFD` does to the timer: with a timeout one `Timer_SetTimeout` of the call it begins,
and nothing where it has none or has failed before. -/
theorem timerStep_waitForFD (h : s.Invariant []) {fiber : FiberId} {fd : FD}
    {condition : IOCondition} {timeout : ℤ} {now clock : ℕ} {reallocated : Bool}
    {block : Option EventId} {inserted : Bool}
    (hstep : ({ s with clock := clock } : Runtime n).waitForFD fiber fd condition timeout now
      reallocated block inserted = some t) :
    s.TimerStep t
      (s.timerCall (.waitForFD fd condition timeout now reallocated block inserted)) := by
  unfold timerCall
  unfold waitForFD at hstep
  dsimp only [enter] at hstep
  by_cases htimed : 0 ≤ timeout
  · simp only [htimed, decide_true, if_true] at hstep ⊢
    rcases hset : s.poller.setWatch s.nextCall fd condition s.nextCall .waitForFDCallback2
      reallocated block with _ | ⟨poller, _ | _⟩
    · simp [hset] at hstep
    · simp only [hset, Option.some.injEq] at hstep
      subst hstep
      rfl
    · simp only [hset] at hstep
      refine ⟨h.fresh.2.1, ?_⟩
      rcases inserted with _ | _
      · simp only [Timer.setTimeout, Bool.false_eq_true, if_false, Option.some.injEq] at hstep ⊢
        subst hstep
        exact timer_clearWatch ..
      · simp only [Timer.setTimeout, if_true, Option.some.injEq] at hstep ⊢
        subst hstep
        rfl
  · simp only [htimed, decide_false, Bool.false_eq_true, if_false] at hstep ⊢
    rcases hset : s.poller.setWatch s.nextCall fd condition s.nextCall .waitForFDCallback1
      reallocated block with _ | ⟨poller, _ | _⟩
    · simp [hset] at hstep
    · simp only [hset, Option.some.injEq] at hstep
      subst hstep
      rfl
    · simp only [hset, Option.some.injEq] at hstep
      subst hstep
      rfl

/-- What `SleepCurrentFiber` does to the timer is one `Timer_SetTimeout` of the call it begins,
which may fail. -/
theorem timerStep_sleepCurrentFiber (h : s.Invariant []) {fiber : FiberId}
    (hactive : s.scheduler.activeFiber = some fiber) {duration : ℤ} {now clock : ℕ}
    {inserted : Bool} :
    s.TimerStep
      (({ s with clock := clock } : Runtime n).sleepCurrentFiber fiber duration now inserted)
      (s.timerCall (.sleepCurrentFiber duration now inserted)) := by
  unfold timerCall
  rw [hactive]
  refine ⟨h.fresh.2.1, ?_⟩
  rcases inserted with _ | _ <;> rfl

/-- What a callback does to the timer: the readiness callback of a call with a timeout clears that
timeout, and no other callback does anything. -/
theorem timerStep_dispatch (h : s.Invariant []) (hstep : s.dispatch declared = some t) :
    s.TimerStep t (s.timerCall .dispatch) := by
  unfold dispatch at hstep
  unfold timerCall
  rcases hcalls : s.async.calls with _ | ⟨⟨function, argument⟩, calls⟩
  · simp [hcalls] at hstep
  simp only [hcalls, Option.ite_none_left_eq_some, Option.some.injEq] at hstep
  obtain ⟨-, rfl⟩ := hstep
  cases function with
  | workerCallback => exact timer_workerCallback
  | waitForFDCallback1 => exact timer_waitForFDCallback1 argument
  | waitForFDCallback2 =>
      obtain ⟨-, ⟨fd, condition, hkind⟩, hready⟩ :=
        h.sources.timed (hcalls ▸ List.mem_cons_self) (.inl rfl)
      obtain ⟨hregistered, hnode⟩ := hready rfl
      obtain ⟨dirty, hshape⟩ := h.shape
      obtain ⟨poller, -, hclear, -, -⟩ := hshape.clearWatch hregistered
      refine ⟨hnode, ?_⟩
      show (waitForFDCallback2 _ argument).timer = _
      rw [waitForFDCallback2_eq (s := { s with async := { s.async with calls := calls } }) h.defined
        hkind hclear (Timer.clearTimeout_eq hnode)]
      rfl
  | waitForFDCallback3 => exact timer_waitForFDCallback3 argument
  | sleepCallback => rfl

/-- **What a step does to the timeouts** is what its call of the timer does. -/
theorem timer_step (h : s.Invariant []) {action : RuntimeAction n}
    (hstep : s.step declared action = some t) : s.TimerStep t (s.timerCall action) := by
  unfold step at hstep
  rw [if_neg (by simp [h.defined])] at hstep
  cases action with
  | waitForFD fd condition timeout now reallocated block inserted =>
      obtain ⟨fiber, -, hwait⟩ := Option.bind_eq_some_iff.mp hstep
      split_ifs at hwait
      exact timerStep_waitForFD h hwait
  | sleepCurrentFiber duration now inserted =>
      obtain ⟨fiber, hcaller, hsleep⟩ := Option.bind_eq_some_iff.mp hstep
      split_ifs at hsleep
      cases hsleep
      exact timerStep_sleepCurrentFiber h (caller_eq_some hcaller).1
  | dispatch =>
      dsimp only at hstep
      split_ifs at hstep
      exact timerStep_dispatch h hstep
  | expire now due memory =>
      dsimp only at hstep
      split_ifs at hstep
      unfold expire at hstep
      dsimp only at hstep
      rcases htick : s.timer.tick now due memory s.async with _ | ⟨timer, async, _ | _⟩ <;>
        simp only [htick, Option.some.injEq, reduceCtorEq] at hstep
      subst hstep
      unfold Timer.tick at htick
      split_ifs at htick with hpops
      exact ⟨due, hpops, (Timer.tickLoop_spec (Option.some.inj htick)).2⟩
  | addFiber function argument region =>
      obtain ⟨fiber, -, hschedule⟩ := Option.bind_eq_some_iff.mp hstep
      exact timer_schedule hschedule
  | addAndRunFiber function argument region =>
      obtain ⟨fiber, -, hschedule⟩ := Option.bind_eq_some_iff.mp hstep
      exact timer_schedule hschedule
  | yieldCurrentFiber =>
      obtain ⟨fiber, -, hschedule⟩ := Option.bind_eq_some_iff.mp hstep
      exact timer_schedule hschedule
  | exitCurrentFiber =>
      obtain ⟨fiber, -, hschedule⟩ := Option.bind_eq_some_iff.mp hstep
      exact timer_schedule hschedule
  | doWork function argument woken =>
      obtain ⟨fiber, -, hwork⟩ := Option.bind_eq_some_iff.mp hstep
      unfold doWork at hwork
      dsimp only at hwork
      split at hwork <;> cases hwork
      rfl
  | eventWaitFor event =>
      obtain ⟨fiber, -, rfl⟩ := Option.map_eq_some_iff.mp hstep
      rfl
  | eventTrigger event =>
      obtain ⟨fiber, -, rfl⟩ := Option.map_eq_some_iff.mp hstep
      unfold eventTrigger
      split <;> rfl
  | semaphoreDown i =>
      obtain ⟨fiber, -, rfl⟩ := Option.map_eq_some_iff.mp hstep
      rfl
  | semaphoreUp i =>
      obtain ⟨fiber, -, rfl⟩ := Option.map_eq_some_iff.mp hstep
      rfl
  | close fd =>
      obtain ⟨fiber, -, rfl⟩ := Option.map_eq_some_iff.mp hstep
      unfold close
      split <;> rfl
  | proceed =>
      obtain ⟨fiber, -, hproceed⟩ := Option.bind_eq_some_iff.mp hstep
      exact timer_proceed hproceed
  | worker action =>
      dsimp only at hstep
      split_ifs at hstep
      obtain ⟨pool, -, rfl⟩ := Option.map_eq_some_iff.mp hstep
      rfl
  | schedulerTick =>
      dsimp only at hstep
      split_ifs at hstep
      obtain ⟨u, hschedule, rfl⟩ := Option.map_eq_some_iff.mp hstep
      have hsame := timer_schedule hschedule
      exact hsame
  | poll freeSlot outcome memory =>
      dsimp only at hstep
      split_ifs at hstep
      unfold poll at hstep
      split at hstep <;> cases hstep <;> rfl

end Runtime

/-! ## Every reachable state -/

namespace HeapRuntime

variable {s t : HeapRuntime n} {declared : Fields FieldName}

/-- The dispatches are proper. -/
def Proper (declared : Fields FieldName) (s : HeapRuntime n)
    (action : RuntimeAction n × HeapMemory) : Prop :=
  s.runtime.Proper declared action.1

/-- What a step is made of: a step of the runtime with its list of timeouts, and the call on the
heap that goes with it, if there is one. -/
theorem step_eq_some {action : RuntimeAction n × HeapMemory} (h : s.step declared action = some t) :
    s.runtime.step declared action.1 = some t.runtime ∧
      match s.runtime.timerCall action.1 with
      | none => t.timer = s.timer
      | some call => s.perform t.runtime action.2 call = some t.timer := by
  obtain ⟨runtime, hruntime, hrest⟩ := Option.bind_eq_some_iff.mp h
  rcases hcall : s.runtime.timerCall action.1 with _ | call
  · simp only [hcall] at hrest
    cases hrest
    exact ⟨hruntime, rfl⟩
  · simp only [hcall] at hrest
    obtain ⟨timer, hperform, rfl⟩ := Option.map_eq_some_iff.mp hrest
    exact ⟨hruntime, hperform⟩

/-- **The runtime makes a run of its own**, so all that holds of reachable runtimes holds of the one
inside. -/
theorem runtime_of_reachable
    (h : (heapRuntimeSystem n declared).ReachableWhen (Proper declared) s) :
    (runtimeSystem n declared).ReachableWhen (Runtime.Proper declared) s.runtime := by
  refine h.induct (I := fun s => (runtimeSystem n declared).ReachableWhen (Runtime.Proper declared)
    s.runtime) ?_ ?_
  · exact fun s hs => .init hs.1
  · exact fun s action t _ ih hc hstep => ih.step hc (step_eq_some hstep).1

/-- The runtime over the heap keeps the runtime's invariant, as every run of it is one of the
runtime over a set of timeouts. -/
theorem invariant_of_reachable
    (h : (heapRuntimeSystem n declared).ReachableWhen (Proper declared) s) :
    s.runtime.Invariant [] :=
  Runtime.invariant_of_reachable (fun _ _ hc => hc) (runtime_of_reachable h)

/-- In a run of the program as it is, over the heap, nothing undefined has happened as long as no
`WaitForFDCallback3` was called. -/
theorem reachable_of_defined (h : (heapRuntimeSystem n callback3Context).Reachable s)
    (hdefined : s.runtime.halted = false) :
    (heapRuntimeSystem n callback3Context).ReachableWhen (Proper callback3Context) s := by
  induction h with
  | init h => exact .init h
  | @step s t action _ _ hstep ih =>
      have hruntime := (step_eq_some hstep).1
      have hs := ih (Runtime.defined_of_step hruntime)
      exact .step hs (Runtime.proper_of_defined (invariant_of_reachable hs) hruntime hdefined) hstep

/-- What is left after the heap's tick is what is left after the list's. -/
theorem filter_took {a : Timer Callback} {now : ℕ} {due fired : List (Timeout Callback)}
    {timer timer' : HeapTimer Callback} {async async' : Async Callback} (hpops : a.Pops now due)
    (htook : HeapTimer.Holds.Took timer a now async timer' async' true fired)
    (hnodup : a.nodes.Nodup) :
    (a.timeouts.filter fun u => u.heapNode ∉ fired.map (·.heapNode)) =
      a.timeouts.filter fun u => u.heapNode ∉ due.map (·.heapNode) := by
  have hiff : ∀ (l : List (Timeout Callback)), (∀ v ∈ l, v ∈ a.timeouts ∧ v.dueTime ≤ now) →
      (∀ v ∈ a.timeouts, v.dueTime ≤ now → v.heapNode ∈ l.map (·.heapNode)) → ∀ u ∈ a.timeouts,
        (u.heapNode ∈ l.map (·.heapNode) ↔ u.dueTime ≤ now) := by
    intro l hdue hall u hu
    refine ⟨fun hin => ?_, hall u hu⟩
    obtain ⟨v, hv, hnode⟩ := List.mem_map.mp hin
    obtain ⟨hin, hle⟩ := hdue v hv
    exact Timer.unique hnodup hin hu hnode ▸ hle
  have hdue : ∀ v ∈ due, v ∈ a.timeouts ∧ v.dueTime ≤ now := by
    intro v hv
    have hv := hpops.1.mem_iff.mp hv
    simpa using hv
  have hall : ∀ v ∈ a.timeouts, v.dueTime ≤ now → v.heapNode ∈ due.map (·.heapNode) := by
    intro v hv hle
    exact List.mem_map_of_mem (hpops.1.mem_iff.mpr (List.mem_filter.mpr ⟨hv, by simpa using hle⟩))
  refine List.filter_congr fun u hu => ?_
  have hboth := (hiff fired htook.due (htook.all rfl) u hu).trans (hiff due hdue hall u hu).symm
  simp only [hboth]

/-- **A step keeps the timeouts in the heap**: it holds those that the list does, with the same due
times and callbacks. -/
theorem holds_step (h : s.timer.Holds s.runtime.timer) (hinvariant : s.runtime.Invariant [])
    {action : RuntimeAction n × HeapMemory} (hstep : s.step declared action = some t) :
    t.timer.Holds t.runtime.timer := by
  obtain ⟨hruntime, hheap⟩ := step_eq_some hstep
  have hlist := Runtime.timer_step hinvariant hruntime
  rcases hcall : s.runtime.timerCall action.1 with _ | call
  · rw [hcall] at hheap hlist
    have hsame : t.runtime.timer = s.runtime.timer := hlist
    rw [hheap, hsame]
    exact h
  · rw [hcall] at hheap hlist
    cases call with
    | setTimeout timeout delay data callback now inserted =>
        obtain ⟨hnew, heq⟩ := hlist
        obtain ⟨⟨timer, ok⟩, hset, hrest⟩ := Option.bind_eq_some_iff.mp hheap
        dsimp only at hrest
        split_ifs at hrest with hguard
        obtain ⟨rfl, hslots⟩ := hguard
        obtain rfl := Option.some.inj hrest
        rw [heq]
        exact (h.of_setTimeout hnew hset hslots).1
    | clearTimeout timeout =>
        obtain ⟨hin, heq⟩ := hlist
        obtain ⟨heap, hremove, hrest⟩ := Option.bind_eq_some_iff.mp hheap
        rw [← Option.some.inj hrest, heq]
        exact h.of_remove hin hremove _
    | tick now memory =>
        obtain ⟨due, hpops, heq⟩ := hlist
        obtain ⟨⟨timer, async, ok⟩, htick, hrest⟩ := Option.bind_eq_some_iff.mp hheap
        dsimp only at hrest
        split_ifs at hrest with hguard
        obtain ⟨rfl, -⟩ := hguard
        obtain rfl := Option.some.inj hrest
        obtain ⟨fired, htook⟩ := h.tick htick
        have hholds := htook.holds
        rw [filter_took hpops htook h.nodup, ← heq] at hholds
        exact hholds

/-- **The heap holds the timeouts that are pending**, in every state. -/
theorem holds_of_reachable (h : (heapRuntimeSystem n declared).ReachableWhen (Proper declared) s) :
    s.timer.Holds s.runtime.timer := by
  refine h.induct (I := fun s => s.timer.Holds s.runtime.timer) ?_ ?_
  · rintro s ⟨hs, slots, slotNumber, dueTime, data, callback, htimer⟩
    rw [htimer, hs.timer]
    exact (HeapTimer.Represents.init slots slotNumber dueTime data callback).holds
  · exact fun s action t hr ih _ hstep => holds_step ih (invariant_of_reachable hr) hstep

/-! ## A state to begin in -/

/-- What `main` may have set up, with an empty heap. -/
def startedHeap : HeapRuntime 1 where
  runtime := Runtime.started
  timer := .init (fun _ => 0) (fun _ => 0) (fun _ => 0) (fun _ => 0) fun _ => .sleepCallback

/-- The state from which these runs start is one in which the program may start, its heap being
empty. -/
theorem startedHeap_initial : (heapRuntimeSystem 1 declared).init startedHeap :=
  ⟨Runtime.started_initial, _, _, _, _, _, rfl⟩

end HeapRuntime

end Pixy.Loop
