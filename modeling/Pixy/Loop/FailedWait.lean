import Pixy.Loop.Completion
import Pixy.Loop.HeapRuntime
import Pixy.Poll.Unchanged

/-!
# A wait that fails

`WaitForFD` returns without suspending when memory runs out: for the vector of events, for an event,
for the heap's vector or for a segment. Whatever it was, nothing is seen of the call afterwards
(`failed_wait`).
-/

namespace Pixy.Loop

open Pixy.Found Pixy.Sched Pixy.Sync Pixy.Poll Pixy.Pool Pixy.Store

variable {n : ℕ}

/-! ## The heap -/

/-- **The heap is laid out as it was.** -/
structure HeapTimer.SameHeap {F : Type} (t t' : HeapTimer F) (timeouts : List NodeId) : Prop where
  numberOfNodes : t'.timeoutHeap.numberOfNodes = t.timeoutHeap.numberOfNodes
  slots : t'.timeoutHeap.slots = t.timeoutHeap.slots
  slotNumber : t'.timeoutHeap.slotNumber = t.timeoutHeap.slotNumber
  /-- The timeouts have the due times that they had. -/
  key : ∀ timeout ∈ timeouts, t'.timeoutHeap.key timeout = t.timeoutHeap.key timeout

/-- A heap that has not been touched is the same, with the same timeouts in it. -/
theorem HeapTimer.SameHeap.refl {F : Type} (t : HeapTimer F) (timeouts : List NodeId) :
    t.SameHeap t timeouts :=
  ⟨rfl, rfl, rfl, fun _ _ => rfl⟩

/-- Without memory for a slot none of the slots is touched. -/
theorem increaseSegments_failed {K : Type} {heap heap' : Heap K} {reallocated : Bool}
    {segment : Option (ℕ → NodeId)}
    (h : heap.increaseSegments reallocated segment = (heap', false)) :
    heap' = { heap with segmentVector := heap'.segmentVector } := by
  revert h
  unfold Heap.increaseSegments
  rcases (if heap.numberOfSegments = heap.segmentVector.length then
    heap.segmentVector.setLength (heap.numberOfSegments + 1) reallocated
    else (heap.segmentVector, true)) with ⟨vector, _ | _⟩
  · rintro ⟨⟩
    rfl
  · rcases segment with _ | contents
    · rintro ⟨⟩
      rfl
    · simp

/-- **A timeout that was not set** is nowhere in the heap. -/
theorem HeapTimer.sameHeap_of_failed {F : Type} {t t' : HeapTimer F} {timeout : NodeId} {delay : ℤ}
    {data : ℕ} {callback : F} {now : ℕ} {reallocated : Bool} {segment : Option (ℕ → NodeId)}
    (h : t.setTimeout timeout delay data callback now reallocated segment = some (t', false))
    {timeouts : List NodeId} (hnew : timeout ∉ timeouts) : t.SameHeap t' timeouts := by
  obtain ⟨⟨heap, inserted⟩, hinsert, heq⟩ := Option.bind_eq_some_iff.mp h
  obtain ⟨rfl, rfl⟩ := Prod.mk.inj (Option.some.inj heq)
  unfold Heap.insertNode at hinsert
  split_ifs at hinsert
  · rcases hgrown : Heap.increaseSegments _ reallocated segment with ⟨grown, _ | _⟩
    · rw [hgrown] at hinsert
      obtain ⟨rfl, -⟩ := Prod.mk.inj (Option.some.inj hinsert)
      have hsame := increaseSegments_failed hgrown
      refine ⟨?_, ?_, ?_, fun x hx => ?_⟩
      · rw [hsame]
      · rw [hsame]
      · rw [hsame]
      · rw [hsame]
        exact Function.update_of_ne (ne_of_mem_of_not_mem hx hnew) ..
    · rw [hgrown] at hinsert
      obtain ⟨heap', -, heq⟩ := Option.map_eq_some_iff.mp hinsert
      cases heq
  · obtain ⟨heap', -, heq⟩ := Option.map_eq_some_iff.mp hinsert
    cases heq

/-! ## The runtime -/

namespace Runtime

variable {s t : Runtime n} {fiber : FiberId} {batch : List CallId}

/-- **A wait that returns without suspending** has set no timeout and left no watch. -/
theorem waitForFD_returns (h : s.Invariant batch) {fd : FD} (hfd : fd + 1 < 2 ^ 31)
    {condition : IOCondition} {timeout : ℤ} {now : ℕ} {reallocated : Bool} {block : Option EventId}
    {inserted : Bool}
    (hstep : s.waitForFD fiber fd condition timeout now reallocated block inserted = some t)
    (hreturns : t.position fiber ≠ .inCall s.nextCall) :
    (∃ dirty, t.poller.Shape dirty) ∧ s.poller.Extends t.poller ∧
      t.poller.registered = s.poller.registered ∧ t.timer = s.timer ∧
      t.scheduler = s.scheduler := by
  have hsuspended : ∀ u : Runtime n, (u.suspend fiber (.inCall s.nextCall)).position fiber =
      .inCall s.nextCall := fun u => Function.update_self ..
  obtain ⟨timed, poller, ok, dirty, hset, hshape, hregistered, hcases⟩ :=
    waitForFD_cases h hfd hstep
  have hextends := IOPoller.Extends.of_setWatch hset
  rcases hcases with ⟨rfl, rfl⟩ | ⟨-, -, rfl⟩ | ⟨-, -, rfl⟩ |
    ⟨-, cleared, dirty', hclear, hshape', hback, rfl⟩
  · -- the poller got no memory
    exact ⟨⟨dirty, hshape⟩, hextends, hregistered, rfl, rfl⟩
  · exact absurd (hsuspended _) hreturns
  · exact absurd (hsuspended _) hreturns
  · -- the heap got no memory, and the watch is cleared
    exact ⟨⟨dirty', hshape'⟩, hextends.trans (.of_clearWatch hclear), hback, rfl, rfl⟩

end Runtime

/-! ## Both -/

namespace HeapRuntime

variable {s t : HeapRuntime n} {fiber : FiberId} {declared : Fields FieldName}

/-- **Nothing is seen of a call.** -/
structure NoTrace (s t : HeapRuntime n) (call : CallId) : Prop where
  /-- Neither in the watch lists, nor in the conditions that are pending, nor after the next flush
  in the kernel and the events stored. -/
  poller : s.runtime.poller.Unchanged t.runtime.poller
  /-- The same timeouts are pending, -/
  pending : t.runtime.timer = s.runtime.timer
  /-- and the heap has them where it had them. -/
  heap : s.timer.SameHeap t.timer s.runtime.timer.nodes
  /-- The same fibers are ready, in the same order. -/
  scheduler : t.runtime.scheduler = s.runtime.scheduler
  /-- The call's watch is in no list. -/
  unlinked : ¬LinkedIn t.runtime.poller call
  /-- Its timeout is in no slot of the heap. -/
  unset : ∀ i : ℕ, i < t.timer.timeoutHeap.numberOfNodes → t.timer.timeoutHeap.nodeAt i ≠ call

/-- **A failed wait leaves no trace.** In every state that a run reaches, as it is or as if
`WaitForFDCallback3` had found the fields so far: if `WaitForFD` returns without suspending its
caller, whatever it got no memory for, nothing is seen of the call. -/
theorem failed_wait (h : (heapRuntimeSystem n declared).ReachableWhen (Proper declared) s)
    (hcaller : s.runtime.caller = some fiber) {fd : FD} {condition : IOCondition} {timeout : ℤ}
    {now : ℕ} {reallocated : Bool} {block : Option EventId} {inserted : Bool} {memory : HeapMemory}
    (hstep : (heapRuntimeSystem n declared).step s
      (.waitForFD fd condition timeout now reallocated block inserted, memory) = some t)
    (hreturns : t.runtime.position fiber = .outside) : s.NoTrace t s.runtime.nextCall := by
  have hinvariant := invariant_of_reachable h
  obtain ⟨dirty, hshape⟩ := hinvariant.shape
  obtain ⟨hunregistered, hunset, -⟩ := hinvariant.fresh
  obtain ⟨hruntime, hheap⟩ := step_eq_some hstep
  -- the runtime
  have hwait := hruntime
  unfold Runtime.step at hwait
  rw [if_neg (by simp [hinvariant.defined])] at hwait
  obtain ⟨caller, hcaller', hwait⟩ := Option.bind_eq_some_iff.mp hwait
  obtain rfl : caller = fiber := Option.some.inj (hcaller'.symm.trans hcaller)
  split_ifs at hwait with hguard
  have hclock := Runtime.setClock_keeps hinvariant now
  obtain ⟨⟨dirty', hshape'⟩, hextends, hregistered, htimer, hscheduler⟩ :=
    Runtime.waitForFD_returns hclock.invariant hguard.2 hwait (by simp [hreturns])
  -- the heap
  have hlist := Runtime.timer_step hinvariant hruntime
  have hsame : s.timer.SameHeap t.timer s.runtime.timer.nodes := by
    rcases hcall : s.runtime.timerCall
      (.waitForFD fd condition timeout now reallocated block inserted) with _ | call
    · rw [hcall] at hheap
      rw [show t.timer = s.timer from hheap]
      exact .refl ..
    · rw [hcall] at hheap hlist
      obtain rfl : call = .setTimeout s.runtime.nextCall timeout s.runtime.nextCall
          .waitForFDCallback3 now inserted := by
        simp only [Runtime.timerCall] at hcall
        split_ifs at hcall
        split at hcall
        · exact (Option.some.inj hcall).symm
        · cases hcall
      obtain ⟨⟨timer, ok⟩, hset, hrest⟩ := Option.bind_eq_some_iff.mp hheap
      dsimp only at hrest
      split_ifs at hrest with hslots
      obtain ⟨rfl, -⟩ := hslots
      obtain rfl := Option.some.inj hrest
      -- the list has no timeout more, so there was no room for it
      rcases ok with _ | _
      · exact HeapTimer.sameHeap_of_failed hset hunset
      · have hlength := congrArg (fun timer => timer.timeouts.length) (htimer.symm.trans hlist.2)
        simp [Timer.setTimeout] at hlength
  refine ⟨hshape.unchanged hshape' hextends hregistered, htimer, hsame, hscheduler,
    fun hlinked => ?_, fun i hi hnode => ?_⟩
  · have hin := Runtime.registered_of_linked hshape' hlinked
    rw [hregistered] at hin
    exact hunregistered hin
  · have hholds := holds_step (holds_of_reachable h) hinvariant hstep
    rw [hholds.valid.laid.nodes, Nat.cast_lt] at hi
    have hin := hholds.valid.stored.holds.mapsTo hi
    rw [hnode, Finset.mem_coe, List.mem_toFinset, htimer] at hin
    exact hunset hin

/-! ## A run -/

/-- A fiber waits without a timeout, while another is there. -/
def waitsFirst : List (RuntimeAction 1 × HeapMemory) :=
  [(.schedulerTick, .plenty), (.addFiber 7 0 (some 2), .plenty),
    (.waitForFD 3 .ioReadable (-1) 0 true (some 101) true, .plenty)]

/-- The other waits for the same descriptor, with a timeout for which the heap has no segment. -/
def lacksSegment : RuntimeAction 1 × HeapMemory :=
  (.waitForFD 3 .ioWritable 10 0 true none false, ⟨true, none⟩)

/-- A fiber waits, and a second wait with a timeout finds no memory for the heap's next segment. It
fails, and what it had begun has left no trace. -/
theorem failed_wait_lacksSegment : ∃ s t : HeapRuntime 1,
    (heapRuntimeSystem 1 callback3Context).run startedHeap waitsFirst = some s ∧
      (heapRuntimeSystem 1 callback3Context).step s lacksSegment = some t ∧
      s.runtime.poller.registered.length = 2 ∧ s.NoTrace t 2 := by
  have hend : ((heapRuntimeSystem 1 callback3Context).run startedHeap waitsFirst).bind (fun s =>
      ((heapRuntimeSystem 1 callback3Context).step s lacksSegment).map fun t =>
        (s.runtime.halted, s.runtime.caller, s.runtime.nextCall,
          s.runtime.poller.registered.length, t.runtime.position 2)) =
      some (false, some 2, 2, 2, .outside) := by
    decide +kernel
  simp only [Option.bind_eq_some_iff, Option.map_eq_some_iff, Prod.mk.injEq] at hend
  obtain ⟨s, hrun, t, hstep, hdefined, hcaller, hnext, hlength, hposition⟩ := hend
  have hreach :=
    reachable_of_defined (StepSystem.reachable_of_run startedHeap_initial hrun) hdefined
  have hnone := failed_wait hreach hcaller hstep hposition
  rw [hnext] at hnone
  exact ⟨s, t, hrun, hstep, hlength, hnone⟩

end HeapRuntime

end Pixy.Loop
