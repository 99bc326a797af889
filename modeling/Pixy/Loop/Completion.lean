import Pixy.Loop.Reach

/-!
# Every blocking call is completed once

With every callback finding the fields where they were stored, and as long as nobody closes a
descriptor that somebody waits for, a fiber is resumed once in each call in which it is suspended
and leaves nothing behind (`completed_once`).
-/

namespace Pixy.Loop

open Pixy.Found Pixy.Sched Pixy.Sync Pixy.Poll Pixy.Pool

variable {n : ℕ}

namespace Runtime

variable {s : Runtime n} {k : CallId}

/-- Nobody closes a descriptor that somebody waits for. -/
def ClosesUnawaited (s : Runtime n) : RuntimeAction n → Prop
  | .close fd => ∀ call condition timed, s.Waiting call →
    s.kind call ≠ .waitForFD fd condition timed
  | _ => True

/-- Who closes only descriptors that nobody waits for spares all waiters, whether they have a
timeout or not. -/
theorem ClosesUnawaited.spares {action : RuntimeAction n} (h : s.ClosesUnawaited action)
    (timed : Bool) : Spares timed s action := by
  cases action with
  | close fd => exact fun call condition hw => h call condition timed hw
  | _ => trivial

/-! ## What it means -/

/-- **Blocking calls are completed once and leave nothing linked.** -/
structure CompletedOnce (s : Runtime n) : Prop where
  /-- Nothing undefined has happened. -/
  defined : s.halted = false
  /-- When a callback resumed a fiber, that was suspended in a call that nobody had completed; when
  a watch or a timeout was cleared, it was linked; when a call returned, it had been completed
  exactly once, and what it returned is what it was completed by. -/
  orderly : Orderly s.log
  /-- No call was completed twice. -/
  once : ∀ k, (resumed s.log).count k ≤ 1
  /-- Whoever resumes a fiber, it was suspended at the time. -/
  genuine : GenuineResumes s.scheduler.history
  /-- A fiber in such a call is resumed by nobody but a callback. -/
  callbacks : ∀ fiber k, s.position fiber = .inCall k → (∀ event, fiber ∉ s.waiterList event) ∧
    ∀ i, fiber ∉ (s.semaphores i).downWaiterList ∧ fiber ∉ (s.semaphores i).upWaiterList
  /-- A fiber that is awake in a call has been resumed in it, and what the call will return is what
  it was completed by. -/
  awake : ∀ fiber k, s.position fiber = .inCall k → ¬s.scheduler.Suspended fiber →
    ∃ ready scheduler, .resumes fiber (.inCall k) ready scheduler ∈ s.log ∧
      s.result k = (s.kind k).outcome ready
  /-- Nothing is linked for a call in which nobody is suspended. -/
  unlinked : ∀ k, 0 < k → ¬s.Waiting k → ¬LinkedIn s.poller k ∧ k ∉ s.timer.nodes ∧ s.pool.Idle k
  /-- Every collected call but that of the thread pool resumes a fiber that is suspended in a
  call. -/
  collected : ∀ call ∈ s.async.calls, call.function = .workerCallback ∨
    ∃ k, s.Waiting k ∧ s.target call = some (s.callerOf k)
  /-- And no two resume the same fiber. -/
  distinct : (s.async.calls.filterMap s.target).Nodup
  /-- Where readiness was collected, the timeout is still pending. -/
  pending : ∀ k fd condition, s.Waiting k → s.kind k = .waitForFD fd condition true →
    readyCall true k ∈ s.async.calls → k ∈ s.timer.nodes

/-! ## What is linked is registered -/

/-- A watch whose item is in one of the poller's rings is registered: the rings hold the items of
the registered watches and no others. -/
theorem registered_of_linked {poller : IOPoller Callback} {dirty : List EventId}
    (h : poller.Shape dirty) (hk : LinkedIn poller k) : k ∈ poller.registered.map (·.watch) := by
  obtain ⟨e, he, c, items, hring, hin⟩ := hk
  rw [hring.unique (h.sound.rings e he c)] at hin
  obtain ⟨w, hw, hnode⟩ := List.mem_map.mp hin
  cases hnode
  exact List.mem_map_of_mem (mem_watchesOf.mp hw)

/-- A readiness callback that is collected has its timeout in the heap. -/
theorem Sources.pending_of_ready (h : s.Sources) {fd : FD} {condition : IOCondition}
    (hkind : s.kind k = .waitForFD fd condition true)
    (hin : readyCall true k ∈ s.async.calls) : k ∈ s.timer.nodes := by
  rcases h.collected _ hin with hworker | ⟨r, hr, hne, hcall, htime⟩ | ⟨j, hw, htime, hcall, -⟩
  · cases hworker
  · obtain ⟨-, timed, hk, hready⟩ := h.watch hr hne
    rw [hready] at hcall
    obtain rfl : k = r.watch := congrArg AsyncCall.argument hcall
    exact htime (by rw [hkind]; rfl)
  · -- an expiry is none
    unfold expiry at hcall
    split at hcall <;> cases hcall

/-! ## Every reachable state -/

/-- **Every blocking call is completed once**, whichever of its sources comes first, and leaves no
watch, no timeout and no work linked for it. -/
theorem completed_once (h : (runtimeSystem n timedContext).ReachableWhen ClosesUnawaited s) :
    s.CompletedOnce := by
  obtain ⟨hinvariant, -⟩ := invariant_of_spared (fun _ _ hc => ClosesUnawaited.spares hc true) h
  obtain ⟨dirty, hshape⟩ := hinvariant.shape
  have hplaced := hinvariant.placed
  have hsources := hinvariant.sources
  have hrecorded := hinvariant.recorded
  constructor
  · exact hinvariant.defined
  · exact hrecorded.orderly
  · exact fun k => List.nodup_iff_count_le_one.mp hrecorded.orderly.nodup_resumed k
  · exact genuineResumes_of_accounted hplaced.accounted
  · intro fiber k hpos
    refine ⟨fun event hin => ?_, fun i => ?_⟩
    · rw [hplaced.inEvent, hpos] at hin
      cases hin.1
    · rw [← hplaced.inDown, ← hplaced.inUp, hpos]
      exact ⟨nofun, nofun⟩
  · exact hrecorded.woken
  · intro k hk hnot
    refine ⟨fun hlinked => ?_, ?_, ?_⟩
    · refine hsources.not_registered hk (fun _ _ _ hw => absurd hw hnot) ?_
      exact registered_of_linked hshape hlinked
    · exact hsources.not_pending fun hw => absurd hw hnot
    · exact hsources.idle fun hw => absurd hw hnot
  · intro call hcall
    refine (hsources.target_collected hcall).imp_right ?_
    rintro ⟨j, hw, -, ht⟩
    exact ⟨j, hw, ht⟩
  · exact hsources.distinct
  · exact fun k fd condition _ hkind hin => hsources.pending_of_ready hkind hin

/-! ## A run -/

/-- Two fibers wait for one descriptor for ten milliseconds each, one to read and one to write. When
they are over `epoll_wait` reports that it can be read: the reader's timeout is cleared in the round
in which it is due, and the writer's expires in the same round. -/
def bothAtTen : List (RuntimeAction 1) :=
  [.schedulerTick, .addFiber 7 0 (some 2), .waitForFD 3 .ioReadable 10 0 true (some 101) true,
    .waitForFD 3 .ioWritable 10 0 true none true,
    .poll (fun _ => .dirtyEventListHead) (.ready [(3, epollIn)]) (fun _ => true), .dispatch,
    .expire 10 [⟨2, 10, 2, .waitForFDCallback3⟩] (fun _ => true), .dispatch, .schedulerTick,
    .proceed, .yieldCurrentFiber, .proceed]

/-- What the calls in a log have returned and set `errno` to, newest first. -/
def results (log : List Happening) : List (CallId × Bool × Option ℤ) :=
  log.filterMap fun
    | .returns call _ ok errno => some (call, ok, errno)
    | _ => none

/-- Each of the two calls returns once, the reader's with success and the writer's with `EINTR`. -/
theorem completed_once_bothAtTen : ∃ s : Runtime 1,
    (runtimeSystem 1 timedContext).ReachableWhen ClosesUnawaited s ∧
      results s.log = [(2, false, some eintr), (1, true, none)] ∧ s.CompletedOnce := by
  have hend : ((runtimeSystem 1 timedContext).run started bothAtTen).map (fun s => results s.log) =
      some [(2, false, some eintr), (1, true, none)] := by
    decide +kernel
  obtain ⟨s, hrun, hlog⟩ := Option.map_eq_some_iff.mp hend
  have hreach : (runtimeSystem 1 timedContext).ReachableWhen ClosesUnawaited s := by
    refine StepSystem.ReachableWhen.run (.init started_initial) (fun u action hin => ?_) hrun
    -- no step of the run closes a descriptor
    have hnoClose : ∀ fd, .close fd ∉ bothAtTen := by
      intro fd
      simp [bothAtTen]
    cases action with
    | close fd => exact absurd hin (hnoClose fd)
    | _ => trivial
  exact ⟨s, hreach, hlog, completed_once hreach⟩

end Runtime

end Pixy.Loop
