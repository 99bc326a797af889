import Pixy.Loop.FiberSteps

/-!
# The steps of the loop

The two ticks collect calls (`poll_keeps`, `expire_keeps`) and the dispatch makes them
(`dispatch_keeps`): a readiness callback finds its watch and its timeout, an expiry callback finds
its watch if that has not been lost, and `WorkerCallback` finds the works of waiting calls.

What is asked of a dispatched `WaitForFDCallback3` is that it finds the fields where they were
stored, and a watch that is registered (`Proper`).
-/

namespace Pixy.Loop

open Pixy.Found Pixy.Sched Pixy.Sync Pixy.Poll Pixy.Pool

variable {n : ℕ}

namespace Runtime

variable {s t u : Runtime n} {k : CallId} {fiber : FiberId} {batch batch' : List CallId}

/-- Two pieces of a step keep together what each of them keeps; the batch of works still to be
called back is that which the second one leaves. -/
theorem Keeps.trans (h : Keeps s t batch) (h' : Keeps t u batch') : Keeps s u batch' :=
  ⟨h'.invariant, fun timed hkept => h'.kept timed (h.kept timed hkept)⟩

/-! ## The ticks -/

/-- The loop calls `IOPoller_Tick`, which collects the callbacks of ready descriptors; whom they
wake is waiting still. -/
theorem poll_keeps (h : s.Invariant batch) (hphase : s.phase = .ticking)
    (hidle : s.scheduler.activeFiber = none) {freeSlot : EventId → Node} {outcome : EpollWait}
    {memory : ℕ → Bool} (hstep : s.poll freeSlot outcome memory = some t) : Keeps s t batch := by
  obtain ⟨dirty, hshape⟩ := h.shape
  have hnil := h.calm hphase
  have hpositive : ∀ k, s.Waiting k → 0 < k := fun k hw => (h.placed.waiting_lt hw).1
  unfold Runtime.poll at hstep
  rcases htick : s.poller.tick freeSlot outcome memory s.async with _ | ⟨poller, async, ok⟩
  · simp [htick] at hstep
  obtain ⟨hflush, hflushed, hregistered, hcollected⟩ := hshape.tick htick
  have hplaced : ∀ async phase,
      Placed { s with poller := poller, async := async, phase := phase } :=
    fun _ _ => h.placed.congr rfl rfl (fun _ _ => rfl) le_rfl rfl rfl
  have hrecorded : ∀ async phase,
      Recorded { s with poller := poller, async := async, phase := phase } :=
    fun _ _ => h.recorded.same rfl rfl rfl rfl rfl rfl
  have hkept : ∀ async phase timed, s.Kept timed →
      Kept { s with poller := poller, async := async, phase := phase } timed := by
    intro async phase timed hkept k fd condition hw hk
    show _ ∈ poller.registered
    rw [hregistered]
    exact hkept k fd condition hw hk
  rcases ok with _ | _
  · -- only an interruption is survived
    rcases outcome with _ | evs <;> simp only [htick, Option.some.injEq, reduceCtorEq] at hstep
    subst hstep
    obtain ⟨taken, hprefix, hcalls, -⟩ := hcollected
    rw [List.prefix_nil.mp hprefix, hnil] at hcalls
    refine ⟨⟨hplaced async s.phase, ⟨[], hflushed⟩, h.located, h.ending, h.batch, ?_,
      hrecorded async s.phase, h.positive, h.running, fun _ => hcalls, h.defined⟩,
      hkept async s.phase⟩
    refine h.sources.frame (fun _ => .rfl) (fun _ _ => rfl) (fun _ _ => rfl) ?_ ?_ rfl
      (fun _ => .rfl)
      rfl (hcalls.trans hnil.symm) fun hne => absurd hnil hne
    · intro r hr
      exact hregistered ▸ hr
    · intro r _
      unfold IOPoller.callOf
      rw [IOPoller.watch_flush hflush]
  · simp only [htick, Option.some.injEq] at hstep
    subst hstep
    exact ⟨⟨hplaced async .polled, ⟨[], hflushed⟩, h.located, h.ending, h.batch,
      h.sources.poll hpositive hshape hnil htick .polled, hrecorded async .polled, h.positive,
      fun hne => absurd hidle hne, nofun, h.defined⟩, hkept async .polled⟩

/-- The loop calls `Timer_Tick`, which takes the due timeouts out of the heap and collects their
callbacks, when those of the poller are done. -/
theorem expire_keeps (h : s.Invariant batch) (hphase : s.phase ≠ .ticking)
    (hnil : s.async.calls = []) {now : ℕ} {due : List (Timeout Callback)} {memory : ℕ → Bool}
    {clock : ℕ} (hstep : ({ s with clock := clock }.expire now due memory) = some t) :
    Keeps s t batch := by
  unfold Runtime.expire at hstep
  dsimp only at hstep
  rcases htick : s.timer.tick now due memory s.async with _ | ⟨timer, async, _ | _⟩ <;>
    simp only [htick, Option.some.injEq, reduceCtorEq] at hstep
  subst hstep
  refine ⟨⟨h.placed.congr rfl rfl (fun _ _ => rfl) le_rfl rfl rfl, h.shape, h.located, h.ending,
    h.batch, h.sources.expire hnil htick .expired clock, ?_, h.positive,
    fun hne => absurd (h.running hne) hphase, nofun, h.defined⟩, fun _ => id⟩
  exact h.recorded.same rfl rfl rfl rfl rfl rfl

/-! ## The collected calls -/

/-- Waking a fiber writes into the log where it stood and out of which state of the scheduler it was
taken. -/
theorem resume_log {ready : Bool} {position : Position} (hpos : s.position fiber = position) :
    (s.resume fiber ready).log = .resumes fiber position ready s.scheduler :: s.log := by
  simp [resume, note, hpos]

/-- The first of the collected calls wakes nobody that another one will wake. -/
theorem Sources.popped (h : s.Sources) {call : AsyncCall Callback}
    {calls : List (AsyncCall Callback)} (hcalls : s.async.calls = call :: calls)
    (htarget : s.target call = some fiber) :
    calls.Sublist s.async.calls ∧ (∀ other ∈ calls, s.target other ≠ some fiber) ∧
      ∀ other ∈ s.async.calls, s.target other ≠ some fiber → other ∈ calls := by
  have hdistinct := h.distinct
  rw [hcalls, List.filterMap_cons_some htarget, List.nodup_cons] at hdistinct
  refine ⟨hcalls ▸ List.sublist_cons_self call calls, ?_, ?_⟩
  · intro other hother ht
    exact hdistinct.1 (List.mem_filterMap.mpr ⟨other, hother, ht⟩)
  · intro other hother hne
    rw [hcalls, List.mem_cons] at hother
    refine hother.resolve_left ?_
    rintro rfl
    exact hne htarget

/-- A call of another kind than `DoWork` has no work under way, so when it ends the works are as
they were. -/
theorem Invariant.no_work (h : s.Invariant batch) (hk : s.kind k ≠ .doWork) (j : CallId) :
    s.pool.Idle j ↔ s.pool.Idle j ∨ j = k := by
  constructor
  · exact .inl
  · rintro (hi | rfl)
    · exact hi
    · exact h.sources.idle fun _ => hk

/-- A context that is written to and keeps its fiber changes the caller of no call. -/
theorem callerOf_update {context : Context} (hcontext : context.fiber = s.callerOf k) :
    (fun j => (Function.update s.context k context j).fiber) = s.callerOf := by
  funext j
  by_cases hj : j = k
  · rw [hj, Function.update_self, hcontext]
  · rw [Function.update_of_ne hj]
    rfl

/-- **`WaitForFDCallback1` or `WaitForFDCallback2`** completes the wait that the watch is of, and
clears the watch and the timeout if there is one. -/
theorem ready_keeps (h : s.Invariant batch) (hidle : s.scheduler.activeFiber = none)
    {calls : List (AsyncCall Callback)} {r : Registration} (hr : r ∈ s.poller.registered)
    (hne : r.watch ≠ 0) (htime : (s.kind r.watch).HasTimeout → r.watch ∈ s.timer.nodes)
    (hcalls : s.async.calls = s.poller.callOf r.watch :: calls) (declared : Fields FieldName) :
    Keeps s ({ s with async := { s.async with calls := calls } }.call declared
      (s.poller.callOf r.watch)) batch := by
  obtain ⟨dirty, hshape⟩ := h.shape
  obtain ⟨hw, timed, hkind, hready⟩ := h.sources.watch hr hne
  obtain ⟨hsub, hgone, hkept⟩ := h.sources.popped hcalls (h.sources.target_callOf hr hne)
  obtain ⟨poller, dirty', hclear, hshape', hregistered⟩ :=
    hshape.clearWatch (List.mem_map_of_mem hr)
  have hlinked := unlinks_of_registered hshape (List.mem_map_of_mem hr)
  have hwatch := IOPoller.watch_clearWatch hclear
  have hdone := h.no_work (k := r.watch) (by simp [hkind])
  rw [hready]
  rcases timed with _ | _
  · have hnode : r.watch ∉ s.timer.nodes := h.sources.not_pending fun _ => by
      simp [hkind, CallKind.HasTimeout]
    have heq : ({ s with async := { s.async with calls := calls } } : Runtime n).call declared
        (readyCall false r.watch) = _ :=
      waitForFDCallback1_eq (s := { s with async := { s.async with calls := calls } })
        h.defined hkind
        hclear
    rw [heq]
    refine h.complete hw hidle ⟨rfl, ⟨rfl, rfl, rfl, rfl, rfl, rfl, rfl, rfl⟩, hregistered, hwatch,
        (filter_timeouts hnode).symm, hdone, rfl, hsub, hgone, hkept⟩ ⟨dirty', hshape'⟩ h.located
      h.ending h.batch [.clearsWatch r.watch s.poller] ?_ true (resume_log hw.1) (fun _ _ => rfl) ?_
    · intro note hnote
      rw [List.mem_singleton] at hnote
      subst hnote
      exact hlinked
    · simp [result, resume, note, hkind, CallKind.outcome]
  · have hnode := htime (by simp [hkind, CallKind.HasTimeout])
    have heq : ({ s with async := { s.async with calls := calls } } : Runtime n).call declared
        (readyCall true r.watch) = _ :=
      waitForFDCallback2_eq (s := { s with async := { s.async with calls := calls } })
        h.defined hkind
        hclear (Timer.clearTimeout_eq hnode)
    rw [heq]
    refine h.complete hw hidle ⟨rfl, ⟨rfl, callerOf_update rfl, rfl, rfl, rfl, rfl, rfl, rfl⟩,
        hregistered, hwatch, rfl, hdone, rfl, hsub, hgone, hkept⟩ ⟨dirty', hshape'⟩ h.located
      h.ending h.batch [.clearsTimeout r.watch s.timer, .clearsWatch r.watch s.poller] ?_ true
      (resume_log hw.1) (fun j hj => ?_) ?_
    · intro note hnote
      rcases List.mem_cons.mp hnote with rfl | hnote
      · exact hnode
      · rw [List.mem_singleton] at hnote
        subst hnote
        exact hlinked
    · simp [result, resume, note, hj]
    · simp [result, resume, note, hkind, CallKind.outcome]

/-- **`SleepCallback`** completes the sleep, whose timeout is in the heap no more. -/
theorem sleep_keeps (h : s.Invariant batch) (hidle : s.scheduler.activeFiber = none)
    {calls : List (AsyncCall Callback)} (hw : s.Waiting k) (hkind : s.kind k = .sleepCurrentFiber)
    (hnode : k ∉ s.timer.nodes) (hcalls : s.async.calls = s.expiry k :: calls)
    (declared : Fields FieldName) :
    Keeps s ({ s with async := { s.async with calls := calls } }.call declared (s.expiry k))
      batch := by
  obtain ⟨dirty, hshape⟩ := h.shape
  obtain ⟨hsub, hgone, hkept⟩ := h.sources.popped hcalls target_expiry
  have hwatch := h.sources.not_registered (h.placed.waiting_lt hw).1 fun _ _ _ _ => by simp [hkind]
  have heq : ({ s with async := { s.async with calls := calls } } : Runtime n).call declared
      (s.expiry k) = ({ s with async := { s.async with calls := calls } } : Runtime n).resume
        (s.callerOf k) false := by
    rw [expiry_sleep hkind]
    rfl
  rw [heq]
  refine h.complete hw hidle ⟨rfl, ⟨rfl, rfl, rfl, rfl, rfl, rfl, rfl, rfl⟩,
      (filter_registered hwatch).symm, rfl, (filter_timeouts hnode).symm,
      h.no_work (by simp [hkind]), rfl, hsub, hgone, hkept⟩ ⟨dirty, hshape⟩ h.located h.ending
    h.batch [] (by simp) false (resume_log hw.1) (fun _ _ => rfl) ?_
  simp [result, resume, note, hkind, CallKind.outcome]

/-- **`WaitForFDCallback3`**, if it finds the fields where they were stored and the watch is still
registered, completes the wait. -/
theorem timeOut_keeps (h : s.Invariant batch) (hidle : s.scheduler.activeFiber = none)
    {calls : List (AsyncCall Callback)} (hw : s.Waiting k) {fd : FD} {condition : IOCondition}
    (hkind : s.kind k = .waitForFD fd condition true) (hnode : k ∉ s.timer.nodes)
    (hcalls : s.async.calls = s.expiry k :: calls)
    (hregistered : k ∈ s.poller.registered.map (·.watch)) :
    Keeps s ({ s with async := { s.async with calls := calls } }.call timedContext (s.expiry k))
      batch := by
  obtain ⟨dirty, hshape⟩ := h.shape
  obtain ⟨hsub, hgone, hkept⟩ := h.sources.popped hcalls target_expiry
  obtain ⟨poller, dirty', hclear, hshape', hfiltered⟩ := hshape.clearWatch hregistered
  have hlinked := unlinks_of_registered hshape hregistered
  rw [expiry_waitForFD hkind]
  have heq : ({ s with async := { s.async with calls := calls } } : Runtime n).call timedContext
      ⟨.waitForFDCallback3, k⟩ = _ :=
    waitForFDCallback3_eq (s := { s with async := { s.async with calls := calls } }) h.defined hkind
      hclear
  rw [heq]
  refine h.complete hw hidle ⟨rfl, ⟨rfl, callerOf_update rfl, rfl, rfl, rfl, rfl, rfl, rfl⟩,
      hfiltered, IOPoller.watch_clearWatch hclear, (filter_timeouts hnode).symm,
      h.no_work (by simp [hkind]), rfl, hsub, hgone, hkept⟩ ⟨dirty', hshape'⟩ h.located h.ending
    h.batch [.clearsWatch k s.poller] ?_ false (resume_log hw.1) (fun j hj => ?_) ?_
  · intro note hnote
    rw [List.mem_singleton] at hnote
    subst hnote
    exact hlinked
  · simp [result, resume, note, hj]
  · simp [result, resume, note, hkind, CallKind.outcome]

/-! ## `WorkerCallback` -/

/-- **One work is called back**, which completes the call that it was posted by, and the rest of the
batch waits. -/
theorem workDone_keeps {work : CallId} {rest : List CallId} (h : s.Invariant (work :: rest))
    (hidle : s.scheduler.activeFiber = none) :
    Keeps s (s.workDone work) rest ∧ (s.workDone work).scheduler.activeFiber = none := by
  obtain ⟨dirty, hshape⟩ := h.shape
  obtain ⟨phase, hlocated⟩ := h.located
  obtain ⟨pool, hstep, hlocated', hbatch, hdone, hworks, hnot, -⟩ := idle_callback hlocated h.batch
  obtain ⟨hw, hkind, hcallback, hdata⟩ := h.sources.posted work hnot
  have hending := (ThreadPool.step_spec h.located h.ending hstep).2
  have hwatch := h.sources.not_registered (h.placed.waiting_lt hw).1 fun _ _ _ _ => by simp [hkind]
  have hnode := h.sources.not_pending (k := work) fun _ => by simp [hkind, CallKind.HasTimeout]
  have heq : s.workDone work = { s with pool := pool }.resume (s.callerOf work) false := by
    unfold workDone
    rw [hstep]
    simp only [hworks, hcallback, if_true, hdata]
  have htargets : ∀ call ∈ s.async.calls, s.target call ≠ some (s.callerOf work) := by
    intro call hcall ht
    rcases h.sources.target_collected hcall with hpool | ⟨j, hwj, hkj, htj⟩
    · simp [target, hpool] at ht
    · have hj : j = work := hwj.unique hw (Option.some.inj (htj.symm.trans ht))
      exact hkj (hj ▸ hkind)
  rw [heq]
  refine ⟨h.complete hw hidle ⟨rfl, ⟨rfl, rfl, rfl, rfl, rfl, rfl, rfl, rfl⟩,
      (filter_registered hwatch).symm, rfl, (filter_timeouts hnode).symm, hdone, hworks,
      List.Sublist.refl _, htargets, fun call hcall _ => hcall⟩
    ⟨dirty, hshape⟩ ⟨_, hlocated'⟩ hending
    hbatch [] (by simp) false (resume_log hw.1) (fun _ _ => rfl) ?_, hidle⟩
  simp [result, resume, note, hkind, CallKind.outcome]

/-- The loop over the works that were read completes their calls one after the other, by induction
over the batch. -/
theorem workLoop_keeps (h : s.Invariant batch) (hidle : s.scheduler.activeFiber = none) :
    Keeps s (batch.foldl (fun s work => s.andThen (·.workDone work)) s) [] := by
  induction batch generalizing s with
  | nil => exact ⟨h, fun _ => id⟩
  | cons work rest ih =>
      rw [List.foldl_cons, andThen_eq h.defined]
      obtain ⟨hkeeps, hidle'⟩ := workDone_keeps h hidle
      exact hkeeps.trans (ih hkeeps.invariant hidle')

/-- The first of the collected calls is that of the thread pool. -/
theorem Invariant.pop (h : s.Invariant batch) {call : AsyncCall Callback}
    {calls : List (AsyncCall Callback)} (hcalls : s.async.calls = call :: calls)
    (hworker : call.function = .workerCallback) :
    Invariant { s with async := { s.async with calls := calls } } batch := by
  have hsub : calls.Sublist s.async.calls := hcalls ▸ List.sublist_cons_self call calls
  refine ⟨h.placed.congr rfl rfl (fun _ _ => rfl) le_rfl rfl rfl, h.shape, h.located, h.ending,
    h.batch, ?_, ?_, h.positive, h.running, ?_, h.defined⟩
  · refine ⟨h.sources.registered, h.sources.pending, h.sources.nodes, h.sources.posted, ?_, ?_, ?_,
      h.sources.works⟩
    · exact fun other hother => h.sources.collected other (hsub.subset hother)
    · exact h.sources.distinct.sublist (hsub.filterMap _)
    · intro k hw htime
      refine (h.sources.expires k hw htime).imp_right fun hin => ?_
      rw [hcalls, List.mem_cons] at hin
      refine hin.resolve_left ?_
      rintro rfl
      unfold expiry at hworker
      split at hworker <;> cases hworker
  · exact h.recorded.same rfl rfl rfl rfl rfl rfl
  · intro hp
    have hnil := h.calm hp
    rw [hnil] at hcalls
    cases hcalls

/-- **`WorkerCallback`** completes the calls whose works are done and whose pointers it reads from
the pipe, and leaves no batch behind. -/
theorem workerCallback_keeps (h : s.Invariant []) (hidle : s.scheduler.activeFiber = none)
    (hpipe : s.pool.pipe ≠ []) : Keeps s s.workerCallback [] := by
  obtain ⟨phase, hlocated⟩ := h.located
  obtain ⟨pool, phase', hstep, hlocated', hdone, hworks, -⟩ :=
    idle_readPipe hlocated hpipe h.batch
  have hending := (ThreadPool.step_spec h.located h.ending hstep).2
  have hread : Invariant { s with pool := pool } pool.batch := by
    refine ⟨h.placed.congr rfl rfl (fun _ _ => rfl) le_rfl rfl rfl, h.shape, ⟨phase', hlocated'⟩,
      hending, rfl, ?_, ?_, h.positive, h.running, h.calm, h.defined⟩
    · exact h.sources.frame (fun _ => .rfl) (fun _ _ => rfl) (fun _ _ => rfl) (fun _ => id)
        (fun _ _ => rfl) rfl hdone hworks rfl fun _ => ⟨rfl, rfl, rfl⟩
    · exact h.recorded.same rfl rfl rfl rfl rfl rfl
  have hkeeps : Keeps s { s with pool := pool } pool.batch := ⟨hread, fun _ => id⟩
  unfold workerCallback
  rw [hstep]
  exact hkeeps.trans (workLoop_keeps hread hidle)

/-! ## The dispatch -/

/-- A `WaitForFDCallback3` is called only if it finds the fields where they were stored, and the
watch is still registered. -/
def Proper (declared : Fields FieldName) (s : Runtime n) : RuntimeAction n → Prop
  | .dispatch => ∀ call ∈ s.async.calls.head?, call.function = .waitForFDCallback3 →
    declared = timedContext ∧ call.argument ∈ s.poller.registered.map (·.watch)
  | _ => True

/-- **The loop makes the next of the collected calls**, one case for each function that may have
been collected. -/
theorem dispatch_keeps (h : s.Invariant []) (hphase : s.phase ≠ .ticking)
    {declared : Fields FieldName} (hproper : Proper declared s .dispatch)
    (hstep : s.dispatch declared = some t) : Keeps s t [] := by
  have hidle : s.scheduler.activeFiber = none := by
    by_contra hne
    exact hphase (h.running hne)
  unfold Runtime.dispatch at hstep
  rcases hcalls : s.async.calls with _ | ⟨next, calls⟩
  · simp [hcalls] at hstep
  simp only [hcalls] at hstep
  split_ifs at hstep with hblocks
  cases hstep
  rw [not_and] at hblocks
  rcases h.sources.collected next (hcalls ▸ List.mem_cons_self) with
    hworker | ⟨r, hr, hne, rfl, htime⟩ | ⟨k, hw, htime, rfl, hnode⟩
  · have hpop := h.pop hcalls hworker
    have hkeeps : Keeps s { s with async := { s.async with calls := calls } } [] :=
      ⟨hpop, fun _ => id⟩
    unfold call
    rw [hworker]
    exact hkeeps.trans (workerCallback_keeps hpop hidle (hblocks hworker))
  · exact ready_keeps h hidle hr hne htime hcalls declared
  · rcases cases_of_hasTimeout htime with ⟨fd, condition, hkind⟩ | hkind
    · have hexpiry := expiry_waitForFD hkind
      obtain ⟨rfl, hregistered⟩ := hproper (s.expiry k) (by simp [hcalls]) (by rw [hexpiry])
      rw [hexpiry] at hregistered
      exact timeOut_keeps h hidle hw hkind hnode hcalls hregistered
    · exact sleep_keeps h hidle hw hkind hnode hcalls declared

end Runtime

end Pixy.Loop
