import Pixy.Loop.Works
import Pixy.Poll.Delivery

/-!
# The course of a call

What a step can do to a call that has begun (`Course`): to its timeout, to the calls that are
collected for it, and to what the log says of it. `course_step` is one such statement for every step
of the runtime, whatever it is about.
-/

namespace Pixy.Loop

open Pixy.Found Pixy.Sched Pixy.Sync Pixy.Poll Pixy.Pool

variable {n : ℕ}

namespace Runtime

variable {s t u : Runtime n} {declared : Fields FieldName} {action : RuntimeAction n}
  {fiber : FiberId} {k : CallId} {collected collected' : AsyncCall Callback → Prop}
  {woken woken' : CallId → Bool → Prop}

/-! ## What a step does to the calls that have begun -/

/-- **The course of the calls that have begun.** Time goes on; a timeout is kept, or it is over, or
its call is completed; only some calls are collected, and only some waits completed. -/
structure Course (s t : Runtime n) (collected : AsyncCall Callback → Prop)
    (woken : CallId → Bool → Prop) : Prop where
  /-- The clock does not go back. -/
  clock : s.clock ≤ t.clock
  /-- The calls keep what they are. -/
  begun : s.nextCall ≤ t.nextCall ∧ ∀ k < s.nextCall, t.kind k = s.kind k
  /-- What becomes of the timeouts. -/
  timeouts : ∀ timeout ∈ s.timer.timeouts, timeout ∈ t.timer.timeouts ∨ timeout.dueTime ≤ t.clock ∨
    timeout.heapNode ∈ resumed t.log
  /-- Only these are collected. -/
  calls : ∀ call ∈ t.async.calls, call ∈ s.async.calls ∨ collected call
  /-- Only these are completed, and a call that returns says what it was. -/
  log : ∃ notes, t.log = notes ++ s.log ∧
    (∀ fiber k ready scheduler, .resumes fiber (.inCall k) ready scheduler ∈ notes →
      woken k ready) ∧
    ∀ k kind ok errno, .returns k kind ok errno ∈ notes → kind = s.kind k

namespace Course

/-- A step that takes a course takes every wider one, in which more may be collected and more be
woken. -/
theorem mono (h : Course s t collected woken)
    (hcollected : ∀ call, collected call → collected' call)
    (hwoken : ∀ k ready, woken k ready → woken' k ready) : Course s t collected' woken' := by
  obtain ⟨notes, hlog, hresumes, hreturns⟩ := h.log
  exact ⟨h.clock, h.begun, h.timeouts,
    fun call hcall => (h.calls call hcall).imp_right (hcollected call), notes, hlog,
    fun fiber k ready scheduler hin => hwoken k ready (hresumes fiber k ready scheduler hin),
    hreturns⟩

/-- Some entries are made, of which none is about a call. -/
theorem of_clears (notes : List Happening) (hnotes : ∀ note ∈ notes, note.Clears)
    (hlog : t.log = notes ++ s.log) (hclock : s.clock ≤ t.clock)
    (hbegun : s.nextCall ≤ t.nextCall ∧ ∀ k < s.nextCall, t.kind k = s.kind k)
    (htimeouts : ∀ timeout ∈ s.timer.timeouts, timeout ∈ t.timer.timeouts ∨
      timeout.dueTime ≤ t.clock)
    (hcalls : ∀ call ∈ t.async.calls, call ∈ s.async.calls ∨ collected call) :
    Course s t collected woken where
  clock := hclock
  begun := hbegun
  timeouts timeout hin := (htimeouts timeout hin).imp_right .inl
  calls := hcalls
  log := ⟨notes, hlog, fun _ _ _ _ hnote => (hnotes _ hnote).elim, fun _ _ _ _ hnote =>
    (hnotes _ hnote).elim⟩

/-- Nothing is touched of what a course is about: log, clock, calls, timers and what has been
collected. -/
theorem of_same (hlog : t.log = s.log) (hclock : t.clock = s.clock)
    (hnext : t.nextCall = s.nextCall) (hkind : t.kind = s.kind) (htimer : t.timer = s.timer)
    (hasync : t.async = s.async) :
    Course s t collected woken :=
  of_clears [] (by simp) hlog hclock.ge ⟨hnext.ge, fun _ _ => by rw [hkind]⟩
    (fun timeout hin => .inl (htimer ▸ hin)) fun call hin => .inl (hasync ▸ hin)

/-- A wait is completed, and its timeout perhaps cleared; nothing is collected by it, and no other
wait completed. -/
theorem of_resume (notes : List Happening) {ready : Bool} (hnotes : ∀ note ∈ notes, note.Clears)
    (hlog : t.log = notes ++ s.log) (hclock : t.clock = s.clock) (hnext : t.nextCall = s.nextCall)
    (hkind : t.kind = s.kind)
    (htimeouts : ∀ timeout ∈ s.timer.timeouts, timeout ∈ t.timer.timeouts ∨ timeout.heapNode = k)
    (hcalls : ∀ call ∈ t.async.calls, call ∈ s.async.calls)
    (hposition : t.position fiber = .inCall k) :
    Course s (t.resume fiber ready) collected fun j ready' => j = k ∧ ready' = ready where
  clock := hclock.ge
  begun := ⟨hnext.ge, fun _ _ => congrFun hkind _⟩
  timeouts timeout hin := by
    refine (htimeouts timeout hin).imp_right fun heq => .inr ?_
    rw [resume_log hposition, heq]
    exact List.mem_cons_self
  calls call hin := .inl (hcalls call hin)
  log := by
    refine ⟨.resumes fiber (.inCall k) ready t.scheduler ::
      notes, by rw [resume_log hposition, hlog]; rfl,
      fun other j ready' scheduler hin => ?_, fun j kind ok errno hin => ?_⟩
    · obtain heq | hnote := List.mem_cons.mp hin
      · cases heq
        exact ⟨rfl, rfl⟩
      · exact (hnotes _ hnote).elim
    · obtain heq | hnote := List.mem_cons.mp hin
      · cases heq
      · exact (hnotes _ hnote).elim

/-- Two courses in sequence are a course, if the first has begun no call. -/
theorem trans (h : Course s t collected woken) (h' : Course t u collected woken)
    (hkind : t.kind = s.kind) :
    Course s u collected woken := by
  obtain ⟨notes, hlog, hresumes, hreturns⟩ := h.log
  obtain ⟨notes', hlog', hresumes', hreturns'⟩ := h'.log
  refine ⟨h.clock.trans h'.clock, ⟨h.begun.1.trans h'.begun.1, fun k hk => ?_⟩,
    fun timeout hin => ?_,
    fun call hin => (h'.calls call hin).elim (h.calls call) .inr, notes' ++ notes, ?_, ?_, ?_⟩
  · rw [h'.begun.2 k (hk.trans_le h.begun.1), hkind]
  · obtain hkept | hover | hresumed := h.timeouts timeout hin
    · exact h'.timeouts timeout hkept
    · exact .inr (.inl (hover.trans h'.clock))
    · refine .inr (.inr ?_)
      rw [hlog', resumed, List.filterMap_append]
      exact List.mem_append_right _ hresumed
  · rw [hlog', hlog, List.append_assoc]
  · intro fiber k ready scheduler hin
    exact (List.mem_append.mp hin).elim (hresumes' fiber k ready scheduler)
      (hresumes fiber k ready scheduler)
  · intro k kind ok errno hin
    obtain hin | hin := List.mem_append.mp hin
    · rw [hreturns' k kind ok errno hin, hkind]
    · exact hreturns k kind ok errno hin

end Course

/-! ## A collected call is made -/

/-- What the first of the collected calls completes: calls of works, the wait it is to readiness
for, or one whose timeout is no longer pending, which is a sleep or is called back through the
context of `WaitForFD`. -/
def Reason (declared : Fields FieldName) (s : Runtime n) (k : CallId) (ready : Bool) : Prop :=
  s.kind k = .doWork ∨
    (ready = true ∧ (∃ fd condition timed, s.kind k = .waitForFD fd condition timed) ∧
      ∃ timed, s.async.calls.head? = some (readyCall timed k)) ∨
    (ready = false ∧ (s.kind k).HasTimeout ∧ k ∉ s.timer.nodes ∧
      (s.kind k = .sleepCurrentFiber ∨ declared = timedContext))

section Dispatch

variable {calls : List (AsyncCall Callback)}

/-- `WaitForFDCallback1` or `WaitForFDCallback2` wakes the fiber that the watch is of, to return
with success, and collects nothing. -/
theorem course_ready (h : s.Invariant []) {r : Registration} (hr : r ∈ s.poller.registered)
    (hne : r.watch ≠ 0) (htime : (s.kind r.watch).HasTimeout → r.watch ∈ s.timer.nodes)
    (hcalls : s.async.calls = s.poller.callOf r.watch :: calls) :
    Course s
      ({ s with async := { s.async with calls := calls } }.call declared (s.poller.callOf r.watch))
      (fun _ => False) (s.Reason declared) := by
  obtain ⟨dirty, hshape⟩ := h.shape
  obtain ⟨hw, timed, hkind, hready⟩ := h.sources.watch hr hne
  obtain ⟨poller, dirty', hclear, -, -⟩ := hshape.clearWatch (List.mem_map_of_mem hr)
  have hlinked := unlinks_of_registered hshape (List.mem_map_of_mem hr)
  have hrest : ∀ call ∈ calls, call ∈ s.async.calls :=
    fun call hin => hcalls ▸ List.mem_cons_of_mem _ hin
  have hreason : ∀ j ready, j = r.watch ∧ ready = true → s.Reason declared j ready := by
    rintro j ready ⟨rfl, rfl⟩
    exact .inr (.inl ⟨rfl, ⟨_, _, _, hkind⟩, timed, by rw [hcalls, hready]; rfl⟩)
  rw [hready]
  rcases timed with _ | _
  · have heq : ({ s with async := { s.async with calls := calls } } : Runtime n).call declared
        (readyCall false r.watch) = _ :=
      waitForFDCallback1_eq (s := { s with async := { s.async with calls := calls } })
        h.defined hkind
        hclear
    rw [heq]
    refine Course.mono (Course.of_resume [.clearsWatch r.watch s.poller] ?_ rfl rfl rfl rfl
      (fun _ => .inl) hrest hw.1) (fun _ => id) hreason
    exact List.forall_mem_singleton.mpr hlinked
  · have hnode := htime (by simp [hkind, CallKind.HasTimeout])
    have heq : ({ s with async := { s.async with calls := calls } } : Runtime n).call declared
        (readyCall true r.watch) = _ :=
      waitForFDCallback2_eq (s := { s with async := { s.async with calls := calls } })
        h.defined hkind
        hclear (Timer.clearTimeout_eq hnode)
    rw [heq]
    refine Course.mono (Course.of_resume [.clearsTimeout r.watch s.timer,
      .clearsWatch r.watch s.poller] ?_
      rfl rfl rfl rfl (fun timeout hin => ?_) hrest hw.1) (fun _ => id) hreason
    · exact List.forall_mem_cons.mpr ⟨hnode, List.forall_mem_singleton.mpr hlinked⟩
    · by_cases heq : timeout.heapNode = r.watch
      · exact .inr heq
      · exact .inl (List.mem_filter.mpr ⟨hin, by simpa using heq⟩)

/-- `SleepCallback` wakes the fiber that sleeps in the call, and no other one. -/
theorem course_sleep (hw : s.Waiting k) (hkind : s.kind k = .sleepCurrentFiber)
    (hnode : k ∉ s.timer.nodes) (hcalls : s.async.calls = s.expiry k :: calls) :
    Course s ({ s with async := { s.async with calls := calls } }.call declared (s.expiry k))
      (fun _ => False) (s.Reason declared) := by
  have heq : ({ s with async := { s.async with calls := calls } } : Runtime n).call declared
      (s.expiry k) = ({ s with async := { s.async with calls := calls } } : Runtime n).resume
        (s.callerOf k) false := by
    rw [expiry_sleep hkind]
    rfl
  rw [heq]
  refine Course.mono (Course.of_resume [] (by simp) rfl rfl rfl rfl (fun _ => .inl)
    (fun call hin => hcalls ▸ List.mem_cons_of_mem _ hin) hw.1) (fun _ => id) ?_
  rintro j ready ⟨rfl, rfl⟩
  exact .inr (.inr ⟨rfl, by rw [hkind]; rfl, hnode, .inl hkind⟩)

/-- `WaitForFDCallback3`, if it finds the fields where they were stored, wakes the fiber that its
timeout was set for, to return with a failure. -/
theorem course_timeOut (h : s.Invariant []) (hw : s.Waiting k) {fd : FD} {condition : IOCondition}
    (hkind : s.kind k = .waitForFD fd condition true) (hnode : k ∉ s.timer.nodes)
    (hcalls : s.async.calls = s.expiry k :: calls)
    (hregistered : k ∈ s.poller.registered.map (·.watch)) :
    Course s ({ s with async := { s.async with calls := calls } }.call timedContext (s.expiry k))
      (fun _ => False) (s.Reason timedContext) := by
  obtain ⟨dirty, hshape⟩ := h.shape
  obtain ⟨poller, dirty', hclear, -, -⟩ := hshape.clearWatch hregistered
  have hlinked := unlinks_of_registered hshape hregistered
  have hreason : ∀ j ready, j = k ∧ ready = false → s.Reason timedContext j ready := by
    rintro j ready ⟨rfl, rfl⟩
    exact .inr (.inr ⟨rfl, by rw [hkind]; rfl, hnode, .inr rfl⟩)
  have hexpiry := expiry_waitForFD hkind
  have heq : ({ s with async := { s.async with calls := calls } } : Runtime n).call timedContext
      ⟨.waitForFDCallback3, k⟩ = _ :=
    waitForFDCallback3_eq (s := { s with async := { s.async with calls := calls } }) h.defined
      hkind hclear
  rw [hexpiry, heq]
  refine Course.mono (Course.of_resume [.clearsWatch k s.poller]
    (List.forall_mem_singleton.mpr hlinked)
    rfl rfl rfl rfl (fun _ => .inl) (fun call hin => ?_) hw.1) (fun _ => id) hreason
  exact hcalls ▸ List.mem_cons_of_mem _ hin

/-- One round of `WorkerCallback` wakes the fiber that has posted the work, which waits in `DoWork`.
-/
theorem course_workDone {work : CallId} {rest : List CallId} (h : s.Invariant (work :: rest)) :
    Course s (s.workDone work) (fun _ => False) fun k _ => s.kind k = .doWork := by
  obtain ⟨phase, hlocated⟩ := h.located
  obtain ⟨pool, hstep, -, -, -, hworks, hnot, -⟩ := idle_callback hlocated h.batch
  obtain ⟨hw, hkind, hcallback, hdata⟩ := h.sources.posted work hnot
  have heq : s.workDone work = { s with pool := pool }.resume (s.callerOf work) false := by
    unfold workDone
    rw [hstep]
    simp only [hworks, hcallback, if_true, hdata]
  rw [heq]
  refine Course.mono (Course.of_resume [] (by simp) rfl rfl rfl rfl (fun _ => .inl)
    (fun _ => id) hw.1)
    (fun _ => id) ?_
  rintro j ready ⟨rfl, -⟩
  exact hkind

/-- The loop of `WorkerCallback` wakes fibers that wait in `DoWork` only, by induction over the
works that were read. -/
theorem course_workLoop {batch : List CallId} (h : s.Invariant batch)
    (hidle : s.scheduler.activeFiber = none) :
    Course s (batch.foldl (fun s work => s.andThen (·.workDone work)) s) (fun _ => False)
      fun k _ => s.kind k = .doWork := by
  induction batch generalizing s with
  | nil => exact .of_same rfl rfl rfl rfl rfl rfl
  | cons work rest ih =>
      rw [List.foldl_cons, andThen_eq h.defined]
      obtain ⟨hkeeps, hidle'⟩ := workDone_keeps h hidle
      obtain ⟨-, -, -, -, hkind⟩ := (Uses.workDone s work).shares
      exact (course_workDone h).trans ((ih hkeeps.invariant hidle').mono (fun _ => id)
        fun k _ => by rw [hkind]; exact id) hkind

/-- `WorkerCallback` reads the pipe and wakes the callers of the works that it has read, all of
which wait in `DoWork`. -/
theorem course_workerCallback (h : s.Invariant []) (hidle : s.scheduler.activeFiber = none)
    (hpipe : s.pool.pipe ≠ []) :
    Course s s.workerCallback (fun _ => False) fun k _ => s.kind k = .doWork := by
  obtain ⟨phase, hlocated⟩ := h.located
  obtain ⟨pool, phase', hstep, hlocated', hdone, hworks, -⟩ := idle_readPipe hlocated hpipe h.batch
  have hread : Invariant { s with pool := pool } pool.batch := by
    refine ⟨h.placed.congr rfl rfl (fun _ _ => rfl) le_rfl rfl rfl, h.shape, ⟨phase', hlocated'⟩,
      (ThreadPool.step_spec h.located h.ending hstep).2, rfl, ?_,
        h.recorded.same rfl rfl rfl rfl rfl rfl,
      h.positive, h.running, h.calm, h.defined⟩
    exact h.sources.frame (fun _ => .rfl) (fun _ _ => rfl) (fun _ _ => rfl) (fun _ => id)
      (fun _ _ => rfl) rfl hdone hworks rfl fun _ => ⟨rfl, rfl, rfl⟩
  have hloop := course_workLoop hread hidle
  unfold workerCallback
  rw [hstep]
  exact ⟨hloop.clock, hloop.begun, hloop.timeouts, hloop.calls, hloop.log⟩

/-- **The first of the collected calls** completes its wait, or is that of the pool and completes
works. -/
theorem course_dispatch (h : s.Invariant []) (hphase : s.phase ≠ .ticking)
    (hproper : Proper declared s .dispatch) (hstep : s.dispatch declared = some t) :
    Course s t (fun _ => False) (s.Reason declared) := by
  have hidle : s.scheduler.activeFiber = none := by_contra fun hne => hphase (h.running hne)
  unfold Runtime.dispatch at hstep
  rcases hcalls : s.async.calls with _ | ⟨next, calls⟩ <;> simp only [hcalls, reduceCtorEq] at hstep
  split_ifs at hstep with hblocks
  cases hstep
  rw [not_and] at hblocks
  rcases h.sources.collected next (hcalls ▸ List.mem_cons_self) with
    hworker | ⟨r, hr, hne, rfl, htime⟩ | ⟨k, hw, htime, rfl, hnode⟩
  · have hworks := course_workerCallback (h.pop hcalls hworker) hidle (hblocks hworker)
    unfold call
    rw [hworker]
    obtain ⟨notes, hlog, hresumes, hreturns⟩ := hworks.log
    refine ⟨hworks.clock, hworks.begun, hworks.timeouts, fun call hin => ?_, notes, hlog,
      fun fiber k ready scheduler hin => .inl (hresumes fiber k ready scheduler hin), hreturns⟩
    exact (hworks.calls call hin).imp_left fun hold => hcalls ▸ List.mem_cons_of_mem _ hold
  · exact course_ready h hr hne htime hcalls
  · rcases cases_of_hasTimeout htime with ⟨fd, condition, hkind⟩ | hkind
    · have hexpiry := expiry_waitForFD hkind
      obtain ⟨rfl, hregistered⟩ := hproper (s.expiry k) (by simp [hcalls]) (by rw [hexpiry])
      rw [hexpiry] at hregistered
      exact course_timeOut h hw hkind hnode hcalls hregistered
    · exact course_sleep hw hkind hnode hcalls

end Dispatch

/-! ## Every step -/

/-- What a step can collect: calls of watches for what the kernel has reported, and calls of
timeouts. -/
def Collects (s : Runtime n) : RuntimeAction n → AsyncCall Callback → Prop
  | .poll _ (.ready events) _, call => ∃ event ∈ events, ∃ r ∈ s.poller.registered,
    r.fd = event.1 ∧ IOPoller.Signals event.2 r.condition ∧ call = s.poller.callOf r.watch
  | .expire .., call => ∃ timeout ∈ s.timer.timeouts, call = timeout.call
  | _, _ => False

/-- What a step can complete. -/
def Wakes (declared : Fields FieldName) (s : Runtime n) : RuntimeAction n → CallId → Bool → Prop
  | .dispatch, k, ready => s.Reason declared k ready
  | _, _, _ => False

/-- A new call has begun, and perhaps set a timeout, which changes nothing for the calls that had
begun before. -/
theorem Course.of_enter (notes : List Happening) (hnotes : ∀ note ∈ notes, note.Clears)
    {kind : CallKind} (hlog : t.log = notes ++ s.log) (hclock : s.clock ≤ t.clock)
    (hnext : t.nextCall = s.nextCall + 1) (hkind : t.kind = Function.update s.kind s.nextCall kind)
    (htimeouts : ∀ timeout ∈ s.timer.timeouts, timeout ∈ t.timer.timeouts)
    (hasync : t.async = s.async) :
    Course s t collected woken := by
  refine .of_clears notes hnotes hlog hclock ⟨by rw [hnext]; exact Nat.le_succ _, fun k hk => ?_⟩
    (fun timeout hin => .inl (htimeouts timeout hin)) fun call hin => .inl (hasync ▸ hin)
  rw [hkind, Function.update_of_ne hk.ne]

/-- On the course of `WaitForFD` nobody is collected or woken: it sets a watch and perhaps a timeout
for the call it begins, and touches those of no other. -/
theorem course_waitForFD (h : s.Invariant []) {fd : FD} (hfd : fd + 1 < 2 ^ 31)
    {condition : IOCondition} {timeout : ℤ} {now : ℕ} {reallocated : Bool} {block : Option EventId}
    {inserted : Bool}
    (hstep : s.waitForFD fiber fd condition timeout now reallocated block inserted = some t) :
    Course s t collected woken := by
  obtain ⟨timed, poller, ok, dirty, -, hshape, hregistered, hcases⟩ := waitForFD_cases h hfd hstep
  obtain ⟨-, rfl⟩ | ⟨-, -, rfl⟩ | ⟨-, -, rfl⟩ | ⟨rfl, cleared, dirty', hclear, -, -, rfl⟩ := hcases
  · exact .of_enter [] (by simp) rfl le_rfl rfl rfl (fun _ => id) rfl
  · exact .of_enter [] (by simp) rfl le_rfl rfl rfl (fun _ => id) rfl
  · exact .of_enter [] (by simp) rfl le_rfl rfl rfl (fun _ => List.mem_append_left _) rfl
  · refine .of_enter [.clearsWatch s.nextCall poller] (List.forall_mem_singleton.mpr ?_) rfl
      le_rfl rfl rfl
      (fun _ => id) rfl
    refine unlinks_of_registered hshape ?_
    rw [hregistered]
    simp

/-- On the course of a return nobody else is collected or woken: the call that returns is the one
its fiber was in, and the log tells what it returns. -/
theorem course_proceed (hstep : s.proceed fiber = some t) : Course s t collected woken := by
  unfold Runtime.proceed at hstep
  rcases hpos : s.position fiber with _ | call | event | i | i <;>
    simp only [hpos, Option.some.injEq, reduceCtorEq] at hstep <;> subst hstep
  · refine ⟨le_rfl, ⟨le_rfl, fun _ _ => rfl⟩, fun _ => .inl, fun _ => .inl, [_], rfl,
      fun fiber k ready scheduler hin => ?_, fun k kind ok errno hin => ?_⟩
    · cases List.mem_singleton.mp hin
    · cases List.mem_singleton.mp hin
      rfl
  all_goals exact .of_same rfl rfl rfl rfl rfl rfl

/-- On the course of `IOPoller_Tick` readiness callbacks are collected for those registered watches
whose descriptor `epoll_wait` reports, and nobody is woken. -/
theorem course_poll (h : s.Invariant []) {freeSlot : EventId → Node} {outcome : EpollWait}
    {memory : ℕ → Bool} (hstep : s.poll freeSlot outcome memory = some t) :
    Course s t (s.Collects (.poll freeSlot outcome memory)) woken := by
  obtain ⟨dirty, hshape⟩ := h.shape
  unfold Runtime.poll at hstep
  rcases htick : s.poller.tick freeSlot outcome memory s.async with _ | ⟨poller, async, ok⟩ <;>
    simp only [htick] at hstep
  · cases outcome <;> cases hstep
  obtain ⟨hflush, -, hregistered, hcollected⟩ := hshape.tick htick
  obtain ⟨taken, hprefix, hcalls, -⟩ := hcollected
  have hsame : ∀ w, poller.callOf w = s.poller.callOf w := by
    intro w
    unfold IOPoller.callOf
    rw [IOPoller.watch_flush hflush]
  have hgrown : ∀ phase, Course s { s with poller := poller, async := async, phase := phase }
      (s.Collects (.poll freeSlot outcome memory)) woken := by
    intro phase
    refine .of_clears [] (by simp) rfl le_rfl ⟨le_rfl, fun _ _ => rfl⟩ (fun _ => .inl)
      fun call hin => ?_
    rw [show async.calls = s.async.calls ++ taken from hcalls, List.mem_append] at hin
    refine hin.imp_right fun hnew => ?_
    have hnew := hprefix.subset hnew
    rcases outcome with _ | events
    · cases hnew
    · obtain ⟨w, hw, rfl⟩ := List.mem_map.mp hnew
      obtain ⟨event, hevent, hw⟩ := List.mem_flatMap.mp hw
      obtain ⟨condition, hr, hsignals⟩ := IOPoller.mem_wokenBy_iff_registered.mp hw
      rw [hregistered] at hr
      exact ⟨event, hevent, _, hr, rfl, hsignals, hsame w⟩
  rcases ok with _ | _ <;> rcases outcome with _ | events <;> cases hstep
  · exact hgrown s.phase
  · exact hgrown .polled
  · exact hgrown .polled

/-- On the course of `Timer_Tick` the callbacks of the timeouts are collected that are due by the
clock, and nobody is woken. -/
theorem course_expire (h : s.Invariant []) {now : ℕ} {due : List (Timeout Callback)}
    {memory : ℕ → Bool} (hclock : s.clock ≤ now)
    (hstep : { s with clock := now }.expire now due memory = some t) :
    Course s t (s.Collects (.expire now due memory)) woken := by
  unfold Runtime.expire at hstep
  dsimp only at hstep
  rcases htick : s.timer.tick now due memory s.async with _ | ⟨timer, async, _ | _⟩ <;>
    simp only [htick, Option.some.injEq, reduceCtorEq] at hstep
  subst hstep
  unfold Timer.tick at htick
  split_ifs at htick with hpops
  obtain ⟨hcalls, htimeouts⟩ := Timer.tickLoop_spec (Option.some.inj htick)
  obtain ⟨hdue, hnodup⟩ := hpops.nodup h.sources.nodes
  refine .of_clears [] (by simp) rfl hclock ⟨le_rfl, fun _ _ => rfl⟩ (fun timeout hin => ?_)
    fun call hin => ?_
  · rw [show timer.timeouts = _ from htimeouts, List.mem_filter]
    by_cases hover : timeout.dueTime ≤ now
    · exact .inr hover
    · refine .inl ⟨hin, decide_eq_true fun hmem => ?_⟩
      obtain ⟨other, hother, heq⟩ := List.mem_map.mp hmem
      have hsame : other = timeout :=
        List.inj_on_of_nodup_map h.sources.nodes (hdue other hother) hin heq
      subst hsame
      exact hover (of_decide_eq_true (List.mem_filter.mp (hpops.1.mem_iff.mp hother)).2)
  · rw [show async.calls = _ from hcalls, List.mem_append] at hin
    refine hin.imp_right fun hnew => ?_
    obtain ⟨timeout, hover, rfl⟩ := List.mem_map.mp hnew
    exact ⟨timeout, hdue timeout hover, rfl⟩

/-- **Every step** takes a course in which those are collected and those woken that the step itself
tells, one case for each kind of step. -/
theorem course_step (h : s.Invariant []) (hproper : Proper declared s action)
    (hstep : s.step declared action = some t) :
    Course s t (s.Collects action) (s.Wakes declared action) := by
  have hsame : ∀ {use : SchedulerAction}, s.schedule use = some t →
      Course s t (s.Collects action) (s.Wakes declared action) := by
    intro use huse
    obtain ⟨-, rfl⟩ := schedule_eq_some huse
    exact .of_same rfl rfl rfl rfl rfl rfl
  unfold step at hstep
  rw [if_neg (by simp [h.defined])] at hstep
  cases action with
  | addFiber function argument region =>
      obtain ⟨fiber, -, huse⟩ := Option.bind_eq_some_iff.mp hstep
      exact hsame huse
  | addAndRunFiber function argument region =>
      obtain ⟨fiber, -, huse⟩ := Option.bind_eq_some_iff.mp hstep
      exact hsame huse
  | yieldCurrentFiber =>
      obtain ⟨fiber, -, huse⟩ := Option.bind_eq_some_iff.mp hstep
      exact hsame huse
  | exitCurrentFiber =>
      obtain ⟨fiber, -, huse⟩ := Option.bind_eq_some_iff.mp hstep
      exact hsame huse
  | waitForFD fd condition timeout now reallocated block inserted =>
      obtain ⟨fiber, -, hwait⟩ := Option.bind_eq_some_iff.mp hstep
      split_ifs at hwait with hguard
      have hcourse : Course { s with clock := now } t (fun _ => False) fun _ _ => False :=
        course_waitForFD (setClock_keeps h now).invariant hguard.2 hwait
      exact Course.mono ⟨hguard.1.trans hcourse.clock, hcourse.begun, hcourse.timeouts,
        hcourse.calls, hcourse.log⟩ (fun _ => False.elim) fun _ _ => False.elim
  | sleepCurrentFiber duration now inserted =>
      obtain ⟨fiber, -, hsleep⟩ := Option.bind_eq_some_iff.mp hstep
      split_ifs at hsleep with hguard
      cases hsleep
      cases inserted with
      | false => exact .of_enter [] (by simp) rfl hguard rfl rfl (fun _ => id) rfl
      | true =>
        exact .of_enter [] (by simp) rfl hguard rfl rfl (fun _ => List.mem_append_left _) rfl
  | doWork function argument woken =>
      obtain ⟨fiber, -, hwork⟩ := Option.bind_eq_some_iff.mp hstep
      unfold Runtime.doWork at hwork
      dsimp only at hwork
      split at hwork <;> cases hwork
      exact .of_enter [] (by simp) rfl le_rfl rfl rfl (fun _ => id) rfl
  | eventWaitFor event =>
      obtain ⟨fiber, -, rfl⟩ := Option.map_eq_some_iff.mp hstep
      exact .of_same rfl rfl rfl rfl rfl rfl
  | eventTrigger event =>
      obtain ⟨fiber, -, rfl⟩ := Option.map_eq_some_iff.mp hstep
      unfold Runtime.eventTrigger
      split <;> exact .of_same rfl rfl rfl rfl rfl rfl
  | semaphoreDown i | semaphoreUp i =>
      obtain ⟨fiber, -, rfl⟩ := Option.map_eq_some_iff.mp hstep
      exact .of_same rfl rfl rfl rfl rfl rfl
  | close fd =>
      obtain ⟨fiber, -, rfl⟩ := Option.map_eq_some_iff.mp hstep
      unfold Runtime.close
      split <;> exact .of_same rfl rfl rfl rfl rfl rfl
  | proceed =>
      obtain ⟨fiber, -, hproceed⟩ := Option.bind_eq_some_iff.mp hstep
      exact course_proceed hproceed
  | worker action =>
      dsimp only at hstep
      split_ifs at hstep
      obtain ⟨pool, -, rfl⟩ := Option.map_eq_some_iff.mp hstep
      exact .of_same rfl rfl rfl rfl rfl rfl
  | schedulerTick =>
      dsimp only at hstep
      split_ifs at hstep
      obtain ⟨u, huse, rfl⟩ := Option.map_eq_some_iff.mp hstep
      obtain ⟨-, rfl⟩ := schedule_eq_some huse
      exact .of_same rfl rfl rfl rfl rfl rfl
  | poll freeSlot outcome memory =>
      dsimp only at hstep
      split_ifs at hstep
      exact course_poll h hstep
  | dispatch =>
      dsimp only at hstep
      split_ifs at hstep with hphase
      exact (course_dispatch h hphase hproper hstep).mono (fun _ => id) fun _ _ => id
  | expire now due memory =>
      dsimp only at hstep
      split_ifs at hstep with hguard
      exact course_expire h hguard.2.2 hstep

end Runtime

end Pixy.Loop
