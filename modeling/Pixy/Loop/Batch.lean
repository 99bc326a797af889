import Pixy.Loop.HeapRuntime
import Pixy.Loop.Timeouts
import Pixy.Poll.AnyOrder

/-!
# The order of a batch of completions

The calls that one `IOPoller_Tick` collects for descriptors that have become ready.

* `Runtime.dispatch_ready`: what one of them does;
* `Runtime.run_ready`: what all of them do, one after the other;
* `HeapRuntime.dispatch_any_order`: dispatched in another order they end with the same watch lists,
  the same conditions, the same dirty events and the same timeouts, and with the same fibers ready;
* `HeapRuntime.not_dispatch_any_order_tooMany`: with more timeouts than the heap is made for they
  need not come to an end.
-/

namespace Pixy.Loop

open Pixy.Found Pixy.Sched Pixy.Sync Pixy.Poll Pixy.Pool Pixy.Store

variable {n : ℕ}

/-- A call of `WaitForFDCallback1` or `WaitForFDCallback2`. -/
def IsReady (call : AsyncCall Callback) : Prop :=
  call.function = .waitForFDCallback1 ∨ call.function = .waitForFDCallback2

namespace Runtime

variable {s t u u' : Runtime n} {declared : Fields FieldName} {call : AsyncCall Callback}
  {calls queue : List (AsyncCall Callback)}

/-! ## One call -/

/-- **What a collected call does**: it clears the watch and the timeout of the wait, and the fiber
becomes ready. -/
structure Dispatched (s u : Runtime n) (call : AsyncCall Callback)
    (calls : List (AsyncCall Callback)) : Prop where
  poller : s.poller.clearWatch call.argument = some u.poller
  timer : u.timer = s.timer.without call.argument
  scheduler : u.scheduler = s.scheduler.resumeFiber (s.callerOf call.argument)
  /-- No other fiber is in the call. -/
  callers : u.callerOf = s.callerOf
  /-- The call is made, and the others are left. -/
  calls : u.async.calls = calls
  invariant : u.Invariant []

/-- A collected call for readiness is that of a registered watch of a fiber, with a timeout in the
heap if the wait has one. -/
theorem Sources.ready (h : s.Sources) (hin : call ∈ s.async.calls) (hready : IsReady call) :
    ∃ r ∈ s.poller.registered, r.watch ≠ 0 ∧ call = s.poller.callOf r.watch ∧
      ((s.kind r.watch).HasTimeout → r.watch ∈ s.timer.nodes) := by
  rcases h.collected call hin with hworker | hwatch | ⟨k, -, -, rfl, -⟩
  · rcases hready with hfunction | hfunction <;> rw [hworker] at hfunction <;> cases hfunction
  · exact hwatch
  · unfold IsReady expiry at hready
    split at hready <;> simp at hready

/-- A readiness callback that is collected has its watch registered, since only a callback that has
not been made yet can clear it. -/
theorem Sources.ready_registered (h : s.Sources) (hin : call ∈ s.async.calls)
    (hready : IsReady call) :
    call.argument ∈ s.poller.registered.map (·.watch) := by
  obtain ⟨r, hr, hne, rfl, -⟩ := h.ready hin hready
  obtain ⟨-, timed, -, hcall⟩ := h.watch hr hne
  rw [hcall]
  exact List.mem_map_of_mem hr

/-- A readiness callback wakes the fiber whose call set the watch: its argument is that call, and
the context in it names the fiber. -/
theorem Sources.target_ready (h : s.Sources) (hin : call ∈ s.async.calls) (hready : IsReady call) :
    s.target call = some (s.callerOf call.argument) := by
  obtain ⟨r, hr, hne, rfl, -⟩ := h.ready hin hready
  obtain ⟨-, timed, -, hcall⟩ := h.watch hr hne
  rw [hcall, target_readyCall]
  rfl

/-- **The loop makes one of these calls**, which is always possible: it clears a watch, with a
timeout if there is one, and resumes the fiber that waits. -/
theorem dispatch_ready (declared : Fields FieldName) (h : s.Invariant [])
    (hcalls : s.async.calls = call :: calls) (hready : IsReady call) :
    ∃ u, s.step declared .dispatch = some u ∧ Dispatched s u call calls := by
  have hphase : s.phase ≠ .ticking := by
    intro hp
    rw [h.calm hp] at hcalls
    cases hcalls
  have hidle : s.scheduler.activeFiber = none := by
    by_contra hne
    exact hphase (h.running hne)
  obtain ⟨r, hr, hne, rfl, htime⟩ := h.sources.ready (hcalls ▸ List.mem_cons_self) hready
  have hkeeps := ready_keeps h hidle hr hne htime hcalls declared
  obtain ⟨hw, timed, hkind, hcall⟩ := h.sources.watch hr hne
  obtain ⟨dirty, hshape⟩ := h.shape
  obtain ⟨poller, -, hclear, -, -⟩ := hshape.clearWatch (List.mem_map_of_mem hr)
  have hstep : s.step declared .dispatch = some
      (({ s with async := { s.async with calls := calls } } : Runtime n).call declared
        (s.poller.callOf r.watch)) := by
    unfold step
    rw [if_neg (by simp [h.defined]), if_pos hphase, dispatch, hcalls]
    refine if_neg fun hworker => ?_
    rcases hready with hfunction | hfunction <;> rw [hworker.1] at hfunction <;> cases hfunction
  refine ⟨_, hstep, ?_⟩
  rw [hcall] at hkeeps ⊢
  rcases timed with _ | _
  · have hnode : r.watch ∉ s.timer.nodes := h.sources.not_pending fun _ => by
      simp [hkind, CallKind.HasTimeout]
    have heq : ({ s with async := { s.async with calls := calls } } : Runtime n).call declared
        (readyCall false r.watch) = _ :=
      waitForFDCallback1_eq (s := { s with async := { s.async with calls := calls } })
        h.defined hkind
        hclear
    rw [heq] at hkeeps ⊢
    refine ⟨hclear, ?_, rfl, rfl, rfl, hkeeps.invariant⟩
    show s.timer = s.timer.without r.watch
    rw [Timer.without, filter_timeouts hnode]
  · have hnode := htime (by simp [hkind, CallKind.HasTimeout])
    have heq : ({ s with async := { s.async with calls := calls } } : Runtime n).call declared
        (readyCall true r.watch) = _ :=
      waitForFDCallback2_eq (s := { s with async := { s.async with calls := calls } })
        h.defined hkind
        hclear (Timer.clearTimeout_eq hnode)
    rw [heq] at hkeeps ⊢
    exact ⟨hclear, rfl, rfl, callerOf_update rfl, rfl, hkeeps.invariant⟩

/-! ## All of them -/

/-- So many rounds of the loop of `Async_DispatchCalls`. -/
def dispatches (calls : List (AsyncCall Callback)) : List (RuntimeAction n) :=
  List.replicate calls.length .dispatch

/-- **What all of them do**, one after the other. -/
structure DispatchedAll (s u : Runtime n) (calls : List (AsyncCall Callback)) : Prop where
  poller :
    (pollSystem Callback).run s.poller ((calls.map (·.argument)).map .clearWatch) = some u.poller
  timer : u.timer = ⟨s.timer.timeouts.filter fun t => t.heapNode ∉ calls.map (·.argument)⟩
  ready : u.scheduler.readyFiberList =
    s.scheduler.readyFiberList ++ calls.map fun call => s.callerOf call.argument
  /-- Every call was made. -/
  calls : u.async.calls = []
  invariant : u.Invariant []

/-- What a batch has done is what its first call did and then the others: each watch that is cleared
is gone for good, and each fiber that is woken stays in the list. -/
theorem DispatchedAll.cons (hw : call.argument ∈ s.poller.registered.map (·.watch))
    (hfirst : Dispatched s t call calls) (hrest : DispatchedAll t u calls) :
    DispatchedAll s u (call :: calls) where
  poller := by
    have hstep : (pollSystem Callback).step s.poller (.clearWatch call.argument) = some t.poller :=
      (if_pos hw).trans hfirst.poller
    rw [List.map_cons, List.map_cons, StepSystem.run, hstep, Option.bind_some]
    exact hrest.poller
  timer := by
    rw [hrest.timer, hfirst.timer, Timer.without, List.filter_filter]
    refine congrArg Timer.mk (List.filter_congr fun u _ => ?_)
    by_cases hu : u.heapNode = call.argument <;> simp [hu]
  ready := by
    rw [hrest.ready, hfirst.scheduler, hfirst.callers]
    simp [Scheduler.resumeFiber]
  calls := hrest.calls
  invariant := hrest.invariant

/-- **The loop makes them all**, one after the other, and nothing goes wrong on the way, by
induction over what is still collected. -/
theorem run_ready (declared : Fields FieldName) (h : s.Invariant [])
    (hready : ∀ call ∈ s.async.calls, IsReady call) :
    ∃ u, (runtimeSystem n declared).run s (dispatches s.async.calls) = some u ∧
      DispatchedAll s u s.async.calls := by
  generalize hcalls : s.async.calls = calls at hready
  induction calls generalizing s with
  | nil => exact ⟨s, rfl, ⟨rfl, by simp, by simp, hcalls, h⟩⟩
  | cons call calls ih =>
      obtain ⟨t, hstep, hfirst⟩ := dispatch_ready declared h hcalls
        (hready call List.mem_cons_self)
      obtain ⟨u, hrun, hrest⟩ := ih hfirst.invariant hfirst.calls
        fun other hin => hready other (List.mem_cons_of_mem call hin)
      have hw := h.sources.ready_registered (hcalls ▸ List.mem_cons_self)
        (hready call List.mem_cons_self)
      refine ⟨u, ?_, .cons hw hfirst hrest⟩
      rw [dispatches, List.length_cons, List.replicate_succ, StepSystem.run,
        show (runtimeSystem n declared).step s .dispatch = some t from hstep, Option.bind_some]
      exact hrun

/-- The calls are for watches that differ, so each of them completes a wait of its own. -/
theorem Sources.nodup_ready (h : s.Sources) (hready : ∀ call ∈ s.async.calls, IsReady call) :
    (s.async.calls.map (·.argument)).Nodup := by
  have hdistinct := h.distinct
  rw [List.filterMap_congr fun call hin => h.target_ready hin (hready call hin)] at hdistinct
  have hcallers : (s.async.calls.map fun call => s.callerOf call.argument) =
      (s.async.calls.map (·.argument)).map s.callerOf := by
    rw [List.map_map]
    rfl
  rw [List.filterMap_eq_map', hcallers] at hdistinct
  exact hdistinct.of_map

/-! ## Another order -/

/-- With the collected calls in another order. -/
def reordered (s : Runtime n) (calls : List (AsyncCall Callback)) : Runtime n :=
  { s with async := { s.async with calls := calls } }

/-- **The invariant does not look at the order** of the collected calls, so it holds of the state
with another order too. -/
theorem Invariant.reordered (h : s.Invariant []) (hperm : queue.Perm s.async.calls) :
    (s.reordered queue).Invariant [] where
  placed := h.placed.congr rfl rfl (fun _ _ => rfl) le_rfl rfl rfl
  shape := h.shape
  located := h.located
  ending := h.ending
  batch := h.batch
  sources :=
    { registered := h.sources.registered
      pending := h.sources.pending
      nodes := h.sources.nodes
      posted := h.sources.posted
      collected := fun call hin => h.sources.collected call (hperm.mem_iff.mp hin)
      distinct := (hperm.filterMap _).nodup_iff.mpr h.sources.distinct
      expires := fun k hw htime => (h.sources.expires k hw htime).imp_right hperm.mem_iff.mpr
      works := h.sources.works }
  recorded := h.recorded.same rfl rfl rfl rfl rfl rfl
  positive := h.positive
  running := h.running
  calm := fun hp => List.perm_nil.mp (h.calm hp ▸ hperm)
  defined := h.defined

/-- **Two runs from `s` end alike.** -/
structure SameEnd (s u u' : Runtime n) : Prop where
  /-- The same watches are linked, in the same order, and the same conditions are pending. -/
  watches : u.poller.SameWatches u'.poller
  /-- The same events are dirty. -/
  dirty : ∀ e, u.poller.Dirty e ↔ u'.poller.Dirty e
  /-- The same timeouts are pending. -/
  pending : u.timer = u'.timer
  /-- The same fibers have become ready, behind those that were. -/
  ready : ∃ resumed resumed', resumed.Perm resumed' ∧
    u.scheduler.readyFiberList = s.scheduler.readyFiberList ++ resumed ∧
      u'.scheduler.readyFiberList = s.scheduler.readyFiberList ++ resumed'

/-- Two orders of one batch end alike: both make every call of it once, and what a single call does
to its own watch, timeout and fiber does not depend on when it is made. -/
theorem sameEnd_of_perm (h : s.Invariant []) (hready : ∀ call ∈ s.async.calls, IsReady call)
    (hperm : queue.Perm s.async.calls) (hall : DispatchedAll s u s.async.calls)
    (hall' : DispatchedAll s u' queue) : SameEnd s u u' := by
  obtain ⟨dirty, hshape⟩ := h.shape
  have hwatches : ∀ w ∈ s.async.calls.map (·.argument), w ∈ s.poller.registered.map (·.watch) := by
    intro w hw
    obtain ⟨call, hin, rfl⟩ := List.mem_map.mp hw
    exact h.sources.ready_registered hin (hready call hin)
  obtain ⟨hsame, hdirty⟩ := hshape.clearEach_perm (hperm.map (·.argument))
    (h.sources.nodup_ready hready) hwatches hall.poller hall'.poller
  have hpending : u.timer = u'.timer := by
    rw [hall.timer, hall'.timer]
    refine congrArg Timer.mk (List.filter_congr fun t _ => ?_)
    simp only [(hperm.map (·.argument)).mem_iff]
  exact ⟨hsame, hdirty, hpending, _, _, (hperm.map _).symm, hall.ready, hall'.ready⟩

end Runtime

/-! ## The heap -/

namespace HeapRuntime

variable {s t t' u : HeapRuntime n} {declared : Fields FieldName} {call : AsyncCall Callback}
  {calls queue : List (AsyncCall Callback)}

/-- So many rounds of the loop of `Async_DispatchCalls`; none of them allocates anything. -/
def dispatches (calls : List (AsyncCall Callback)) : List (RuntimeAction n × HeapMemory) :=
  List.replicate calls.length (.dispatch, .plenty)

/-- With the collected calls in another order. -/
def reordered (s : HeapRuntime n) (calls : List (AsyncCall Callback)) : HeapRuntime n :=
  { s with runtime := s.runtime.reordered calls }

/-- The runtime makes a run of its own, the steps of the list without the memory that the heap is
given. -/
theorem runtime_of_run {actions : List (RuntimeAction n × HeapMemory)}
    (hrun : (heapRuntimeSystem n declared).run s actions = some t) :
    (runtimeSystem n declared).run s.runtime (actions.map (·.1)) = some t.runtime := by
  induction actions generalizing s with
  | nil =>
      obtain rfl := Option.some.inj hrun
      rfl
  | cons action actions ih =>
      obtain ⟨u, hstep, hrest⟩ := Option.bind_eq_some_iff.mp hrun
      refine Option.bind_eq_some_iff.mpr ⟨u.runtime, (step_eq_some hstep).1, ih hrest⟩

/-- **One call, with the heap** in place of the list of timeouts: it does the same to the runtime,
and the heap holds what the list does. -/
theorem step_ready (hinvariant : s.runtime.Invariant []) (hholds : s.timer.Holds s.runtime.timer)
    (hcalls : s.runtime.async.calls = call :: calls) (hready : IsReady call)
    (hstep : s.step declared (.dispatch, .plenty) = some t) :
    Runtime.Dispatched s.runtime t.runtime call calls ∧ t.timer.Holds t.runtime.timer := by
  obtain ⟨runtime, hruntime, hdispatched⟩ :=
    Runtime.dispatch_ready declared hinvariant hcalls hready
  obtain rfl := Option.some.inj (hruntime.symm.trans (step_eq_some hstep).1)
  exact ⟨hdispatched, holds_step hholds hinvariant hstep⟩

/-- It is possible, unless the heap has more than it is made for. -/
theorem steps_ready (declared : Fields FieldName) (hinvariant : s.runtime.Invariant [])
    (hholds : s.timer.Holds s.runtime.timer) (hfew : s.runtime.timer.timeouts.length ≤ 2 ^ 30 + 1)
    (hcalls : s.runtime.async.calls = call :: calls) (hready : IsReady call) :
    ∃ t, s.step declared (.dispatch, .plenty) = some t := by
  obtain ⟨runtime, hruntime, -⟩ :=
    Runtime.dispatch_ready declared hinvariant hcalls hready
  have hlist := Runtime.timer_step hinvariant hruntime
  unfold step
  rw [hruntime, Option.bind_some]
  rcases hcall : s.runtime.timerCall .dispatch with _ | clear
  · exact ⟨_, rfl⟩
  · rw [hcall] at hlist
    obtain ⟨timeout, rfl⟩ : ∃ timeout, clear = .clearTimeout timeout := by
      simp only [Runtime.timerCall] at hcall
      split at hcall
      · exact ⟨_, (Option.some.inj hcall).symm⟩
      · cases hcall
    obtain ⟨heap, hremove⟩ := hholds.removes hfew hlist.1
    simp [perform, HeapTimer.clearTimeout, hremove]

/-- **The heap does what the list does** while all the collected calls are dispatched, by induction
over them. -/
theorem holds_dispatches (hinvariant : s.runtime.Invariant [])
    (hholds : s.timer.Holds s.runtime.timer) (hready : ∀ call ∈ s.runtime.async.calls, IsReady call)
    (hrun : (heapRuntimeSystem n declared).run s (dispatches s.runtime.async.calls) = some t) :
    t.timer.Holds t.runtime.timer := by
  generalize hcalls : s.runtime.async.calls = calls at hready hrun
  induction calls generalizing s with
  | nil =>
      obtain rfl := Option.some.inj hrun
      exact hholds
  | cons call calls ih =>
      rw [dispatches, List.length_cons, List.replicate_succ, StepSystem.run,
        Option.bind_eq_some_iff] at hrun
      obtain ⟨u, hstep, hrest⟩ := hrun
      obtain ⟨hfirst, hholds'⟩ :=
        step_ready hinvariant hholds hcalls (hready call List.mem_cons_self) hstep
      exact ih hfirst.invariant hholds' hfirst.calls
        (fun other hin => hready other (List.mem_cons_of_mem call hin)) hrest

/-- **It comes to an end**, unless the heap has more than it is made for. -/
theorem runs_dispatches (declared : Fields FieldName) (hinvariant : s.runtime.Invariant [])
    (hholds : s.timer.Holds s.runtime.timer) (hfew : s.runtime.timer.timeouts.length ≤ 2 ^ 30 + 1)
    (hready : ∀ call ∈ s.runtime.async.calls, IsReady call) :
    ∃ t, (heapRuntimeSystem n declared).run s (dispatches s.runtime.async.calls) = some t := by
  generalize hcalls : s.runtime.async.calls = calls at hready
  induction calls generalizing s with
  | nil => exact ⟨s, rfl⟩
  | cons call calls ih =>
      obtain ⟨u, hstep⟩ := steps_ready declared hinvariant hholds hfew hcalls
        (hready call List.mem_cons_self)
      obtain ⟨hfirst, hholds'⟩ :=
        step_ready hinvariant hholds hcalls (hready call List.mem_cons_self) hstep
      have hfew' : u.runtime.timer.timeouts.length ≤ 2 ^ 30 + 1 := by
        rw [hfirst.timer]
        exact (List.length_filter_le ..).trans hfew
      obtain ⟨t, hrest⟩ := ih hfirst.invariant hholds' hfew' hfirst.calls
        fun other hin => hready other (List.mem_cons_of_mem call hin)
      refine ⟨t, ?_⟩
      rw [dispatches, List.length_cons, List.replicate_succ, StepSystem.run,
        show (heapRuntimeSystem n declared).step s _ = some u from hstep, Option.bind_some]
      exact hrest

/-- What is due first does not depend on how the heap is laid out. -/
theorem earliest_eq {a : Timer Callback} {timer timer' : HeapTimer Callback} (h : timer.Holds a)
    (h' : timer'.Holds a) : timer.timeoutHeap.getTop.map timer.timeoutHeap.key =
      timer'.timeoutHeap.getTop.map timer'.timeoutHeap.key := by
  obtain ⟨htop, hempty⟩ | ⟨v, hv, htop, hfirst⟩ := h.getTop <;>
    obtain ⟨htop', hempty'⟩ | ⟨v', hv', htop', hfirst'⟩ := h'.getTop
  · rw [htop, htop']
    rfl
  · rw [hempty] at hv'
    cases hv'
  · rw [hempty'] at hv
    cases hv
  · rw [htop, htop', Option.map_some, Option.map_some, (h.contents v hv).1, (h'.contents v' hv').1,
      le_antisymm (hfirst v' hv') (hfirst' v hv)]

/-- **The order of the calls does not matter.** In every state that a run reaches, as it is or as if
`WaitForFDCallback3` had found the fields so far: if all that was collected are calls for
descriptors that are ready, then dispatched as they are and in another order they end alike, and so
do the heaps. -/
theorem dispatch_any_order (h : (heapRuntimeSystem n declared).ReachableWhen (Proper declared) s)
    (hready : ∀ call ∈ s.runtime.async.calls, IsReady call)
    (hperm : queue.Perm s.runtime.async.calls) :
    ∃ u u',
      (runtimeSystem n declared).run s.runtime (Runtime.dispatches s.runtime.async.calls) =
        some u ∧
      (runtimeSystem n declared).run (s.runtime.reordered queue) (Runtime.dispatches queue) =
        some u' ∧
      s.runtime.SameEnd u u' ∧
      (∀ t t', (heapRuntimeSystem n declared).run s (dispatches s.runtime.async.calls) = some t →
        (heapRuntimeSystem n declared).run (s.reordered queue) (dispatches queue) = some t' →
        t.runtime = u ∧ t'.runtime = u' ∧ t.timer.Holds u.timer ∧ t'.timer.Holds u'.timer ∧
          t.timer.timeoutHeap.getTop.map t.timer.timeoutHeap.key =
            t'.timer.timeoutHeap.getTop.map t'.timer.timeoutHeap.key) ∧
      (s.runtime.timer.timeouts.length ≤ 2 ^ 30 + 1 →
        ((heapRuntimeSystem n declared).run s (dispatches s.runtime.async.calls)).isSome ∧
          ((heapRuntimeSystem n declared).run (s.reordered queue) (dispatches queue)).isSome) := by
  have hinvariant := invariant_of_reachable h
  have hholds := holds_of_reachable h
  have hinvariant' : (s.reordered queue).runtime.Invariant [] := hinvariant.reordered hperm
  have hready' : ∀ call ∈ (s.reordered queue).runtime.async.calls, IsReady call :=
    fun call hin => hready call (hperm.mem_iff.mp hin)
  obtain ⟨u, hrun, hall⟩ := Runtime.run_ready declared hinvariant hready
  obtain ⟨u', hrun', hall'⟩ := Runtime.run_ready declared hinvariant' hready'
  have hend := Runtime.sameEnd_of_perm hinvariant hready hperm hall
    ⟨hall'.poller, hall'.timer, hall'.ready, hall'.calls, hall'.invariant⟩
  refine ⟨u, u', hrun, hrun', hend, fun t t' ht ht' => ?_, fun hfew => ⟨?_, ?_⟩⟩
  · have hruntime := runtime_of_run ht
    have hruntime' := runtime_of_run ht'
    rw [dispatches, List.map_replicate] at hruntime hruntime'
    obtain rfl := Option.some.inj (hruntime.symm.trans hrun)
    obtain rfl := Option.some.inj (hruntime'.symm.trans hrun')
    have hheap := holds_dispatches hinvariant hholds hready ht
    have hheap' := holds_dispatches hinvariant' hholds hready' ht'
    exact ⟨rfl, rfl, hheap, hheap', earliest_eq hheap (hend.pending ▸ hheap')⟩
  · obtain ⟨t, ht⟩ := runs_dispatches declared hinvariant hholds hfew hready
    exact Option.isSome_of_eq_some ht
  · obtain ⟨t', ht'⟩ := runs_dispatches declared hinvariant' hholds hfew hready'
    exact Option.isSome_of_eq_some ht'

/-- Two fibers wait for a descriptor, one of them with a timeout, and it becomes ready for both. -/
def readyForBoth : List (RuntimeAction 1 × HeapMemory) :=
  [(.schedulerTick, .plenty), (.addFiber 7 0 (some 2), .plenty),
    (.waitForFD 3 .ioReadable (-1) 0 true (some 101) true, .plenty),
    (.waitForFD 3 .ioWritable 10 0 true none true, .plenty),
    (.poll (fun _ => .dirtyEventListHead) (.ready [(3, epollIn ||| epollOut)]) fun _ => true,
      .plenty)]

/-- Two fibers wait for one descriptor, one of them with a timeout, and it becomes ready for both.
The two orders end in states that differ only in the order in which the fibers are ready. -/
theorem dispatch_any_order_readyForBoth : ∃ s t t' : HeapRuntime 1,
    (heapRuntimeSystem 1 callback3Context).run startedHeap readyForBoth = some s ∧
      s.runtime.async.calls = [readyCall false 1, readyCall true 2] ∧
      (heapRuntimeSystem 1 callback3Context).run s (dispatches s.runtime.async.calls) = some t ∧
      (heapRuntimeSystem 1 callback3Context).run (s.reordered [readyCall true 2, readyCall false 1])
        (dispatches [readyCall true 2, readyCall false 1]) = some t' ∧
      t.runtime.scheduler.readyFiberList = [1, 2] ∧ t'.runtime.scheduler.readyFiberList = [2, 1] ∧
      s.runtime.SameEnd t.runtime t'.runtime := by
  have hend : ((heapRuntimeSystem 1 callback3Context).run startedHeap readyForBoth).bind (fun s =>
      ((heapRuntimeSystem 1 callback3Context).run s
          (dispatches s.runtime.async.calls)).bind fun t =>
        ((heapRuntimeSystem 1 callback3Context).run
          (s.reordered [readyCall true 2, readyCall false 1])
          (dispatches [readyCall true 2, readyCall false 1])).map fun t' =>
          (s.runtime.async.calls, t.runtime.scheduler.readyFiberList,
            t'.runtime.scheduler.readyFiberList)) =
      some ([readyCall false 1, readyCall true 2], [1, 2], [2, 1]) := by
    decide +kernel
  simp only [Option.bind_eq_some_iff, Option.map_eq_some_iff, Prod.mk.injEq] at hend
  obtain ⟨s, hrun, t, ht, t', ht', hcalls, hlist, hlist'⟩ := hend
  have hreach : (heapRuntimeSystem 1 callback3Context).ReachableWhen
    (Proper callback3Context) s := by
    refine StepSystem.ReachableWhen.run (.init startedHeap_initial) (fun u action hin => ?_) hrun
    simp only [readyForBoth, List.mem_cons, List.not_mem_nil, or_false] at hin
    rcases hin with rfl | rfl | rfl | rfl | rfl <;> trivial
  have hready : ∀ call ∈ s.runtime.async.calls, IsReady call := by
    rw [hcalls]
    simp [IsReady, readyCall]
  have hperm : [readyCall true 2, readyCall false 1].Perm s.runtime.async.calls := by
    rw [hcalls]
    exact .swap ..
  obtain ⟨u, u', -, -, hsame, hboth, -⟩ := dispatch_any_order hreach hready hperm
  obtain ⟨rfl, rfl, -⟩ := hboth t t' ht ht'
  exact ⟨s, t, t', hrun, hcalls, ht, ht', hlist, hlist', hsame⟩

/-! ## With too many pending -/

/-- The first fiber waits for a descriptor, with a timeout that is due at once. -/
def waitsDueAtOnce : List (RuntimeAction 1 × HeapMemory) :=
  [(.schedulerTick, .plenty), (.addFiber 7 0 (some 2), .plenty),
    (.waitForFD 3 .ioReadable 0 0 true (some 101) true, .plenty)]

/-- What it leaves. -/
def dueAtOnce : HeapRuntime 1 :=
  ((heapRuntimeSystem 1 callback3Context).run startedHeap waitsDueAtOnce).getD startedHeap

/-- One fiber runs and no other is ready. -/
structure RunsAlone (scheduler : Scheduler) (fiber : FiberId) : Prop where
  activeFiber : scheduler.activeFiber = some fiber
  ready : scheduler.readyFiberList = []
  dead : scheduler.deadFiberList = []
  regions : ∀ other ∈ scheduler.regions, other ≤ fiber
  fiberCount : 0 < scheduler.fiberCount

/-- The fiber that runs alone adds another one and leaves the processor to it, which then runs
alone. -/
theorem RunsAlone.next {scheduler : Scheduler} {fiber : FiberId} (h : RunsAlone scheduler fiber) :
    scheduler.Enabled (.addFiber 7 0 (some (fiber + 1))) ∧
      (scheduler.addFiber 7 0 (some (fiber + 1))).1.activeFiber = some fiber ∧
      RunsAlone (scheduler.addFiber 7 0 (some (fiber + 1))).1.suspendCurrentFiber (fiber + 1) := by
  obtain ⟨hactive, hready, hdead, hregions, hcount⟩ := h
  refine ⟨fun other hother hin => ?_, ?_, ?_⟩
  · obtain rfl := Option.some.inj hother
    exact absurd (hregions _ hin) (Nat.not_succ_le_self fiber)
  · rw [Scheduler.addFiber_activeFiber, hactive]
  · constructor <;>
      simp only [Scheduler.addFiber, Scheduler.takeFiber, hdead, List.getLast?_nil, Scheduler.log,
        Scheduler.suspendCurrentFiber, hactive, Scheduler.saveContext, hready, List.nil_append,
        Scheduler.switchAway, Scheduler.switchToFront, Scheduler.switchToFiber, List.head?_cons,
        List.erase_cons_head, List.cons_ne_self, if_false, Finset.mem_insert]
    · rintro other (rfl | hin)
      · exact le_rfl
      · exact (hregions other hin).trans (Nat.le_succ fiber)
    · omega

/-- **So many timeouts are pending**, in the order of the calls, and the next fiber runs. -/
structure Crowded (s : HeapRuntime 1) (pending : ℕ) : Prop where
  reachable : (heapRuntimeSystem 1 callback3Context).ReachableWhen (Proper callback3Context) s
  appended : s.timer.timeoutHeap.Appended 1 pending lateDelay
  nextCall : s.runtime.nextCall = pending + 1
  scheduler : RunsAlone s.runtime.scheduler (pending + 1)
  outside : s.runtime.position (pending + 1) = .outside
  phase : s.runtime.phase = .ticking
  clock : s.runtime.clock = 0
  poller : s.runtime.poller = dueAtOnce.runtime.poller
  async : s.runtime.async = .init

namespace Crowded

variable {s : HeapRuntime 1} {pending : ℕ}

/-- In the crowd nothing undefined has happened, so it can take any further step. -/
theorem defined (h : Crowded s pending) : s.runtime.halted = false :=
  (invariant_of_reachable h.reachable).defined

/-- The last fiber of the crowd runs; all the others are suspended in their calls. -/
theorem caller (h : Crowded s pending) : s.runtime.caller = some (pending + 1) := by
  rw [Runtime.caller, h.scheduler.activeFiber]
  simp [h.outside]

/-- The fiber that will be added next is in no call, as no fiber has had its number yet. -/
theorem outside_next (h : Crowded s pending) : s.runtime.position (pending + 1 + 1) = .outside := by
  by_contra hne
  have hlive := (invariant_of_reachable h.reachable).placed.live _ hne
  exact absurd (h.scheduler.regions _ hlive.1) (Nat.not_succ_le_self _)

/-- **One more**: the fiber that runs adds another one, which is next, and sleeps itself, so a
timeout more is in the heap. -/
theorem sleep (h : Crowded s pending) (hfew : pending ≤ 2 ^ 30 + 1) :
    ∃ t, Crowded t (pending + 1) := by
  obtain ⟨henabled, hactive, halone⟩ := h.scheduler.next
  -- the other is added
  have hadd : s.step callback3Context (.addFiber 7 0 (some (pending + 1 + 1)), .plenty) = some
      ⟨{ s.runtime with
        scheduler := (s.runtime.scheduler.addFiber 7 0 (some (pending + 1 + 1))).1 },
        s.timer⟩ := by
    have hruntime : s.runtime.step callback3Context (.addFiber 7 0 (some (pending + 1 + 1))) = some
        { s.runtime with
          scheduler := (s.runtime.scheduler.addFiber 7 0 (some (pending + 1 + 1))).1 } := by
      simp only [Runtime.step, h.defined, Bool.false_eq_true, if_false, h.caller, Option.bind_some,
        Runtime.schedule, if_pos henabled, Scheduler.apply]
    simp only [step, hruntime, Option.bind_some, Runtime.timerCall]
  have hreach :=
    h.reachable.step (show Proper callback3Context s (.addFiber .., .plenty) from trivial) hadd
  -- the heap
  obtain ⟨timer, hset, happended, -⟩ :=
    HeapTimer.setTimeout_late h.appended hfew (pending + 1) Callback.sleepCallback
  have hslots : timer.timeoutHeap.numberOfSlots < 2 ^ 31 := by
    have hle := happended.shaped.slots_le
    simp only [heapSegmentLength] at hle
    omega
  -- and the fiber sleeps
  let added : Runtime 1 :=
    { s.runtime with scheduler := (s.runtime.scheduler.addFiber 7 0 (some (pending + 1 + 1))).1 }
  have hcaller : added.caller = some (pending + 1) := by
    rw [Runtime.caller, show added.scheduler.activeFiber = some (pending + 1) from hactive]
    simp [added, h.outside]
  have hruntime : added.step callback3Context (.sleepCurrentFiber (lateDelay pending) 0 true) =
      some
        ({ added with clock := 0 }.sleepCurrentFiber (pending + 1) (lateDelay pending) 0 true) := by
    have hclock : added.clock ≤ 0 := h.clock.le
    simp only [Runtime.step, show added.halted = false from h.defined, Bool.false_eq_true, if_false,
      hcaller, Option.bind_some, if_pos hclock]
  have hsleep : (⟨added, s.timer⟩ : HeapRuntime 1).step callback3Context
      (.sleepCurrentFiber (lateDelay pending) 0 true, .plenty) = some
        ⟨{ added with clock := 0 }.sleepCurrentFiber (pending + 1) (lateDelay pending) 0 true,
          timer⟩ := by
    have hcall : added.timerCall (.sleepCurrentFiber (lateDelay pending) 0 true) = some
        (.setTimeout (pending + 1) (lateDelay pending) (pending + 1) .sleepCallback 0 true) := by
      simp only [Runtime.timerCall,
        show added.scheduler.activeFiber = some (pending + 1) from hactive,
        show added.nextCall = pending + 1 from h.nextCall, Option.map_some]
    have hperform : (⟨added, s.timer⟩ : HeapRuntime 1).perform
        ({ added with clock := 0 }.sleepCurrentFiber (pending + 1) (lateDelay pending) 0 true)
        .plenty
        (.setTimeout (pending + 1) (lateDelay pending) (pending + 1) .sleepCallback 0 true) =
          some timer := by
      simp only [perform, HeapMemory.plenty, hset, Option.bind_some, true_and, if_pos hslots]
    simp only [step, hruntime, Option.bind_some, hcall, hperform, Option.map_some]
  refine ⟨_, hreach.step (show Proper _ _ (.sleepCurrentFiber .., .plenty) from trivial) hsleep,
    happended, ?_, halone, ?_, h.phase, rfl,
    h.poller, h.async⟩
  · show s.runtime.nextCall + 1 = pending + 1 + 1
    rw [h.nextCall]
  · exact (Function.update_of_ne (Nat.succ_ne_self (pending + 1)) ..).trans h.outside_next

end Crowded

/-- The crowd begins with one timeout that is due at once and a fiber that runs. -/
theorem crowded_dueAtOnce : Crowded dueAtOnce 1 := by
  have hsome : ((heapRuntimeSystem 1 callback3Context).run startedHeap waitsDueAtOnce).isSome := by
    decide +kernel
  obtain ⟨s, hrun⟩ := Option.isSome_iff_exists.mp hsome
  have hs : dueAtOnce = s := by rw [dueAtOnce, hrun, Option.getD_some]
  have hreach : (heapRuntimeSystem 1 callback3Context).ReachableWhen (Proper callback3Context)
      dueAtOnce := by
    refine StepSystem.ReachableWhen.run (.init startedHeap_initial) (fun u action hin => ?_)
      (hs ▸ hrun)
    simp only [waitsDueAtOnce, List.mem_cons, List.not_mem_nil, or_false] at hin
    rcases hin with rfl | rfl | rfl <;> trivial
  have hheap : dueAtOnce.timer.timeoutHeap.numberOfNodes = 1 ∧
      dueAtOnce.timer.timeoutHeap.numberOfSlots = 256 ∧
      dueAtOnce.timer.timeoutHeap.numberOfSegments = 1 ∧
      dueAtOnce.timer.timeoutHeap.slots (0, 0) = 1 ∧ dueAtOnce.timer.timeoutHeap.slotNumber 1 = 0 ∧
      dueAtOnce.timer.timeoutHeap.key 1 = 0 := by decide +kernel
  have hscheduler : dueAtOnce.runtime.scheduler.activeFiber = some 2 ∧
      dueAtOnce.runtime.scheduler.readyFiberList = [] ∧
      dueAtOnce.runtime.scheduler.deadFiberList = [] ∧
      (∀ other ∈ dueAtOnce.runtime.scheduler.regions, other ≤ 2) ∧
      0 < dueAtOnce.runtime.scheduler.fiberCount := by decide +kernel
  obtain ⟨hnodes, hslots, hsegments, hslot, hnumber, hkey⟩ := hheap
  obtain ⟨hactive, hready, hdead, hregions, hcount⟩ := hscheduler
  have hshaped : dueAtOnce.timer.timeoutHeap.Shaped 1 := by
    refine ⟨hnodes, ?_, ?_, by omega, ?_⟩
    · rw [hslots, hsegments]
      rfl
    · omega
    · simp only [heapSegmentLength]
      omega
  have happended : dueAtOnce.timer.timeoutHeap.Appended 1 1 lateDelay := by
    refine ⟨hshaped, fun i hi => ?_, fun i hi => ?_, fun i hi => ?_⟩ <;>
      obtain rfl := Nat.lt_one_iff.mp hi
    · exact hslot
    · exact hnumber
    · exact hkey
  exact ⟨hreach, happended, by decide +kernel, ⟨hactive, hready, hdead, hregions, hcount⟩,
    by decide +kernel, by decide +kernel, by decide +kernel, rfl, by decide +kernel⟩

/-- A crowd with any number of pending timeouts up to the capacity of the heap can be reached: one
more fiber is added and goes to sleep as long as there is room. -/
theorem exists_crowded (pending : ℕ) (hfew : pending ≤ 2 ^ 30 + 1) :
    ∃ s, Crowded s (pending + 1) := by
  induction pending with
  | zero => exact ⟨_, crowded_dueAtOnce⟩
  | succ pending ih =>
      obtain ⟨s, hs⟩ := ih (by omega)
      exact hs.sleep hfew

/-- The last one waits for an event, so that no fiber is ready, and the descriptor becomes ready. -/
theorem Crowded.poll {s : HeapRuntime 1} {pending : ℕ} (h : Crowded s pending) :
    ∃ t, (heapRuntimeSystem 1 callback3Context).ReachableWhen (Proper callback3Context) t ∧
      t.timer = s.timer ∧ t.runtime.async.calls = [readyCall true 1] := by
  have hwait : s.step callback3Context (.eventWaitFor 0, .plenty) =
      some ⟨s.runtime.eventWaitFor (pending + 1) 0, s.timer⟩ := by
    have hruntime : s.runtime.step callback3Context (.eventWaitFor 0) =
        some (s.runtime.eventWaitFor (pending + 1) 0) := by
      simp only [Runtime.step, h.defined, Bool.false_eq_true, if_false, h.caller, Option.map_some]
    simp only [step, hruntime, Option.bind_some, Runtime.timerCall]
  have hreach := h.reachable.step (show Proper _ _ (.eventWaitFor 0, .plenty) from trivial) hwait
  -- now no fiber runs
  have hidle : s.runtime.scheduler.suspendCurrentFiber.activeFiber = none ∧
      s.runtime.scheduler.suspendCurrentFiber.fiberCount = s.runtime.scheduler.fiberCount := by
    simp only [Scheduler.suspendCurrentFiber, h.scheduler.activeFiber, Scheduler.switchAway,
      Scheduler.log, Scheduler.saveContext, h.scheduler.ready, if_true, Scheduler.switchTo,
      Scheduler.freeDeadFibers, and_self]
  have hguard : (s.runtime.eventWaitFor (pending + 1) 0).phase = .ticking ∧
      (s.runtime.eventWaitFor (pending + 1) 0).scheduler.activeFiber = none ∧
      (s.runtime.eventWaitFor (pending + 1) 0).scheduler.fiberCount ≠ 0 := by
    have hcount := h.scheduler.fiberCount
    exact ⟨h.phase, hidle.1, hidle.2 ▸ hcount.ne'⟩
  have htick : (dueAtOnce.runtime.poller.tick (fun _ => .dirtyEventListHead) (.ready [(3, epollIn)])
      (fun _ => true) .init).map (fun done => (done.2.1.calls, done.2.2)) =
        some ([readyCall true 1], true) := by decide +kernel
  obtain ⟨⟨poller, async, ok⟩, htick, hdone⟩ := Option.map_eq_some_iff.mp htick
  obtain ⟨hcalls, rfl⟩ := Prod.mk.inj hdone
  let action : RuntimeAction 1 :=
    .poll (fun _ => .dirtyEventListHead) (.ready [(3, epollIn)]) fun _ => true
  have hpoll : (⟨s.runtime.eventWaitFor (pending + 1) 0, s.timer⟩ : HeapRuntime 1).step
      callback3Context (action, .plenty) = some
        ⟨{ s.runtime.eventWaitFor (pending + 1) 0 with
            poller := poller, async := async, phase := .polled }, s.timer⟩ := by
    have htick' : (s.runtime.eventWaitFor (pending + 1) 0).poller.tick
        (fun _ => .dirtyEventListHead) (.ready [(3, epollIn)]) (fun _ => true)
        (s.runtime.eventWaitFor (pending + 1) 0).async = some (poller, async, true) := by
      rw [show (s.runtime.eventWaitFor (pending + 1) 0).poller = _ from h.poller,
        show (s.runtime.eventWaitFor (pending + 1) 0).async = _ from h.async, htick]
    have hruntime : (s.runtime.eventWaitFor (pending + 1) 0).step callback3Context action = some
        { s.runtime.eventWaitFor (pending + 1) 0 with
          poller := poller, async := async, phase := .polled } := by
      simp only [action, Runtime.step,
        show (s.runtime.eventWaitFor (pending + 1) 0).halted = false from h.defined,
        Bool.false_eq_true, if_false, if_pos hguard, Runtime.poll, htick']
    simp only [step, hruntime, Option.bind_some, action, Runtime.timerCall]
  exact ⟨_, hreach.step (show Proper _ _ (action, .plenty) from trivial) hpoll, rfl, hcalls⟩

/-- **With `2 ^ 30 + 2` timeouts pending** a single call reads outside the heap when it clears its
own. -/
theorem not_dispatch_any_order_tooMany : ∃ s : HeapRuntime 1,
    (heapRuntimeSystem 1 callback3Context).ReachableWhen (Proper callback3Context) s ∧
      s.runtime.timer.timeouts.length = 2 ^ 30 + 2 ∧ s.runtime.async.calls = [readyCall true 1] ∧
      (heapRuntimeSystem 1 callback3Context).run s (dispatches s.runtime.async.calls) = none := by
  obtain ⟨crowd, hcrowd⟩ := exists_crowded (2 ^ 30 + 1) le_rfl
  obtain ⟨s, hreach, htimer, hcalls⟩ := hcrowd.poll
  have happended : s.timer.timeoutHeap.Appended 1 (2 ^ 30 + 2) lateDelay := htimer ▸ hcrowd.appended
  have hholds := holds_of_reachable hreach
  have hlength : s.runtime.timer.timeouts.length = 2 ^ 30 + 2 := by
    have hcard := hholds.valid.laid.nodes.symm.trans happended.shaped.nodes
    rw [hholds.card_eq] at hcard
    exact_mod_cast hcard
  refine ⟨s, hreach, hlength, hcalls, ?_⟩
  have hready : IsReady (readyCall true 1) := .inr rfl
  obtain ⟨runtime, hruntime, -⟩ :=
    Runtime.dispatch_ready callback3Context (invariant_of_reachable hreach) hcalls hready
  have hcall : s.runtime.timerCall .dispatch = some (.clearTimeout 1) := by
    simp only [Runtime.timerCall, hcalls, readyCall, if_true]
  have hclear : s.timer.clearTimeout 1 = none := by
    simp only [HeapTimer.clearTimeout, HeapTimer.removeNode_late happended, Option.bind_eq_bind,
      Option.bind_none]
  have hstep : (heapRuntimeSystem 1 callback3Context).step s (.dispatch, .plenty) = none := by
    show s.step callback3Context _ = none
    simp only [step, hruntime, Option.bind_some, hcall, perform, hclear, Option.map_none]
  rw [hcalls]
  show ((heapRuntimeSystem 1 callback3Context).step s (.dispatch, .plenty)).bind _ = none
  rw [hstep, Option.bind_none]

end HeapRuntime

end Pixy.Loop
