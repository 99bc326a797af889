import Pixy.Loop.Invariant

/-!
# The steps of fibers and workers

Every step that a fiber makes keeps the invariant (`Keeps`), and so does every step of a worker.
Only `Close` can take a watch away from a wait (`close_keeps`, `close_kept`).
-/

namespace Pixy.Loop

open Pixy.Found Pixy.Sched Pixy.Sync Pixy.Poll Pixy.Pool

variable {n : ℕ}

namespace Runtime

variable {s t : Runtime n} {fiber : FiberId} {batch : List CallId}

/-! ## Fibers that call nothing that blocks in a call -/

/-- **Frame**, where no fiber enters or leaves a call, and poller, timers and works are left alone.
-/
theorem Invariant.silent (h : s.Invariant batch) (hplaced : t.Placed)
    (hwaiting : ∀ k, t.Waiting k ↔ s.Waiting k)
    (hposition : ∀ fiber k, t.position fiber = .inCall k → s.position fiber = .inCall k)
    (hlog : t.log = s.log)
    (hsame : t.poller = s.poller ∧ t.timer = s.timer ∧ t.pool = s.pool ∧ t.async = s.async ∧
      t.kind = s.kind ∧ t.context = s.context ∧ t.nextCall = s.nextCall ∧ t.halted = s.halted)
    (hrunning : t.scheduler.activeFiber ≠ none → t.phase = .ticking)
    (hcalm : t.phase = .ticking → s.async.calls = []) : Keeps s t batch := by
  have hkind := hsame.2.2.2.2.1
  have hcontext := hsame.2.2.2.2.2.1
  refine h.quiet hplaced hwaiting ?_ hsame hrunning hcalm
  refine h.recorded.frame [] (by simp) hlog hsame.2.2.2.2.2.2.1.ge
    (fun k _ => (hwaiting k).mp) (fun fiber k _ => hposition fiber k) ?_
  intro fiber k hpos hawake
  have hpos' := hposition fiber k hpos
  refine ⟨hpos', fun hs => hawake ?_, ?_, by rw [hkind]⟩
  · have hw : t.Waiting k := (hwaiting k).mpr (h.placed.waiting_iff.mpr ⟨fiber, hpos', hs⟩)
    obtain ⟨hc, -⟩ := hplaced.inCall fiber k hpos
    exact hc ▸ hw.2
  · unfold result
    rw [hkind, hcontext]

/-- Reading the clock changes nothing else, so whatever is said of the calls holds on. -/
theorem setClock_keeps (h : s.Invariant batch) (now : ℕ) : Keeps s { s with clock := now } batch :=
  h.silent (h.placed.congr rfl rfl (fun _ _ => rfl) le_rfl rfl rfl) (fun _ => .rfl)
    (fun _ _ => id) rfl
    ⟨rfl, rfl, rfl, rfl, rfl, rfl, rfl, rfl⟩ h.running h.calm

/-- Nothing is collected while a fiber runs, since the loop has gone on to the scheduler's tick only
after the last callback. -/
theorem Invariant.ticking (h : s.Invariant batch) (ha : s.scheduler.activeFiber = some fiber) :
    s.phase = .ticking :=
  h.running (by simp [ha])

/-- A call of the scheduler is made where its interface allows it, and changes nothing but the
scheduler. -/
theorem schedule_eq_some {action : SchedulerAction} (hschedule : s.schedule action = some t) :
    s.scheduler.Enabled action ∧ t = { s with scheduler := s.scheduler.apply action } := by
  unfold schedule at hschedule
  split_ifs at hschedule with hen
  exact ⟨hen, (Option.some.inj hschedule).symm⟩

/-- A fiber uses the scheduler in a way that suspends nobody and resumes nobody, so the calls that
wait are the same. -/
theorem schedule_keeps (h : s.Invariant batch) (hcaller : s.caller = some fiber)
    {action : SchedulerAction} (hschedule : s.schedule action = some t)
    (hsuspend : action ≠ .suspendCurrentFiber) (hresume : ∀ f, action ≠ .resumeFiber f)
    (hunresume : ∀ f, action ≠ .unresumeFiber f) : Keeps s t batch := by
  obtain ⟨ha, hout⟩ := caller_eq_some hcaller
  obtain ⟨hen, rfl⟩ := schedule_eq_some hschedule
  have hrun : ∀ f, s.scheduler.activeFiber = some f → s.position f = .outside := by
    intro f hf
    cases ha.symm.trans hf
    exact hout
  obtain ⟨hplaced, hwaiting⟩ := h.placed.schedule hen hrun hsuspend hresume hunresume
  exact h.silent hplaced hwaiting (fun _ _ => id) rfl ⟨rfl, rfl, rfl, rfl, rfl, rfl, rfl, rfl⟩
    (fun _ => h.ticking ha) h.calm

/-- The loop calls `Scheduler_Tick`, which dispatches a ready fiber if there is one and leaves all
calls as they are. -/
theorem schedulerTick_keeps (h : s.Invariant batch) (hcalls : s.async.calls = [])
    (htick : ((s.schedule .tick).map fun s => { s with phase := .ticking }) = some t) :
    Keeps s t batch := by
  obtain ⟨u, hschedule, rfl⟩ := Option.map_eq_some_iff.mp htick
  obtain ⟨hen, rfl⟩ := schedule_eq_some hschedule
  have hrun : ∀ f, s.scheduler.activeFiber = some f → s.position f = .outside := by
    intro f hf
    cases hf.symm.trans hen
  obtain ⟨hplaced, hwaiting⟩ := h.placed.schedule hen hrun (by simp) (by simp) (by simp)
  exact h.silent (hplaced.congr rfl rfl (fun _ _ => rfl) le_rfl rfl rfl) hwaiting
    (fun _ _ => id) rfl
    ⟨rfl, rfl, rfl, rfl, rfl, rfl, rfl, rfl⟩ (fun _ => rfl) fun _ => hcalls

/-- `Event_WaitFor` keeps the invariant: its caller is suspended in the event, behind all who wait
there already. -/
theorem eventWaitFor_keeps (h : s.Invariant batch) (hcaller : s.caller = some fiber) (event : ℕ) :
    Keeps s (s.eventWaitFor fiber event) batch := by
  obtain ⟨ha, -⟩ := caller_eq_some hcaller
  obtain ⟨hplaced, hwaiting⟩ := h.placed.eventWaitFor hcaller event
  refine h.silent hplaced hwaiting ?_ rfl ⟨rfl, rfl, rfl, rfl, rfl, rfl, rfl, rfl⟩
    (fun _ => h.ticking ha) h.calm
  intro other k hpos
  by_cases ho : other = fiber
  · subst ho
    simp [Runtime.eventWaitFor, suspend] at hpos
  · simpa [Runtime.eventWaitFor, suspend, ho] using hpos

/-- `Event_Trigger` keeps the invariant: the first waiter of the event, if there is one, is taken
off its list and made ready, and who is in a call stays there. -/
theorem eventTrigger_keeps (h : s.Invariant batch) (hcaller : s.caller = some fiber) (event : ℕ) :
    Keeps s (s.eventTrigger event) batch := by
  obtain ⟨ha, -⟩ := caller_eq_some hcaller
  obtain ⟨hplaced, hwaiting⟩ := h.placed.eventTrigger event
  rcases hwaiters : s.waiterList event with _ | ⟨first, waiters⟩
  · have heq : s.eventTrigger event = s := by simp [Runtime.eventTrigger, hwaiters]
    rw [heq] at hplaced hwaiting ⊢
    exact ⟨h, fun _ => id⟩
  · have heq : s.eventTrigger event = { s with
        waiterList := Function.update s.waiterList event waiters
        scheduler := s.scheduler.resumeFiber first } := by
      simp [Runtime.eventTrigger, hwaiters]
    rw [heq] at hplaced hwaiting ⊢
    exact h.silent hplaced hwaiting (fun _ _ => id) rfl
      ⟨rfl, rfl, rfl, rfl, rfl, rfl, rfl, rfl⟩ (fun _ => h.ticking ha) h.calm

/-- A position that may have been set to one that is in no call. -/
theorem inCall_of_leave {position : FiberId → Position} {p : Position} {k : CallId}
    (hp : ∀ k, p ≠ .inCall k) {other : FiberId}
    (hpos : Function.update position fiber p other = .inCall k) : position other = .inCall k := by
  by_cases ho : other = fiber
  · subst ho
    rw [Function.update_self] at hpos
    exact absurd hpos (hp k)
  · rwa [Function.update_of_ne ho] at hpos

/-- A fiber that waits in a call did so before another one began to wait somewhere that is no
call. -/
theorem inCall_of_update {position : FiberId → Position} {blocked : Bool} {p : Position}
    {k : CallId} (hp : ∀ k, p ≠ .inCall k) {other : FiberId}
    (hpos : (if blocked then Function.update position fiber p else position) other = .inCall k) :
    position other = .inCall k := by
  cases blocked
  · exact hpos
  · exact inCall_of_leave hp hpos

/-- `Semaphore_Down` keeps the invariant, whether it goes on or suspends its caller behind those who
wait already. -/
theorem semaphoreDown_keeps (h : s.Invariant batch) (hcaller : s.caller = some fiber) (i : ℕ) :
    Keeps s (s.semaphoreDown fiber i) batch := by
  obtain ⟨ha, -⟩ := caller_eq_some hcaller
  obtain ⟨hplaced, hwaiting⟩ := h.placed.semaphoreDown hcaller i
  exact h.silent hplaced hwaiting (fun other k hpos => inCall_of_update (by simp) hpos) rfl
    ⟨rfl, rfl, rfl, rfl, rfl, rfl, rfl, rfl⟩ (fun _ => h.ticking ha) h.calm

/-- `Semaphore_Up` keeps the invariant, whether it goes on or suspends its caller behind those who
wait already. -/
theorem semaphoreUp_keeps (h : s.Invariant batch) (hcaller : s.caller = some fiber) (i : ℕ) :
    Keeps s (s.semaphoreUp fiber i) batch := by
  obtain ⟨ha, -⟩ := caller_eq_some hcaller
  obtain ⟨hplaced, hwaiting⟩ := h.placed.semaphoreUp hcaller i
  exact h.silent hplaced hwaiting (fun other k hpos => inCall_of_update (by simp) hpos) rfl
    ⟨rfl, rfl, rfl, rfl, rfl, rfl, rfl, rfl⟩ (fun _ => h.ticking ha) h.calm

/-- A fiber that was woken runs to the return of what it was in. -/
theorem proceed_keeps (h : s.Invariant batch) (ha : s.scheduler.activeFiber = some fiber)
    (hproceed : s.proceed fiber = some t) : Keeps s t batch := by
  have hawake : ¬s.scheduler.Suspended fiber := fun hs => hs.2.1 ha
  have hleft : ∀ {other k}, Function.update s.position fiber .outside other = .inCall k →
      s.position other = .inCall k := by
    intro other k hpos
    exact inCall_of_leave (by simp) hpos
  unfold Runtime.proceed at hproceed
  rcases hpos : s.position fiber with _ | call | event | i | i <;> simp only [hpos] at hproceed
  · cases hproceed
  · cases hproceed
    obtain ⟨hplaced, hwaiting⟩ := h.placed.leave (t := { s with
      position := Function.update s.position fiber .outside }.note
        (.returns call (s.kind call) (s.result call).1 (s.result call).2))
      ha rfl rfl rfl rfl rfl rfl (by simp [hpos])
    refine h.quiet hplaced hwaiting ?_ ⟨rfl, rfl, rfl, rfl, rfl, rfl, rfl, rfl⟩ h.running h.calm
    refine h.recorded.leave hpos (fun other ho => ?_) hawake rfl rfl rfl hwaiting rfl rfl rfl
    rw [← (h.placed.inCall other call ho).1, (h.placed.inCall fiber call hpos).1]
  · cases hproceed
    obtain ⟨hplaced, hwaiting⟩ := h.placed.leave (t := { s with
      position := Function.update s.position fiber .outside }) ha rfl rfl rfl rfl rfl rfl
      (by simp [hpos])
    exact h.silent hplaced hwaiting (fun _ _ => hleft) rfl ⟨rfl, rfl, rfl, rfl, rfl, rfl, rfl, rfl⟩
      h.running h.calm
  · cases hproceed
    obtain ⟨hplaced, hwaiting⟩ := h.placed.downWoken (t := { s with
      position := Function.update s.position fiber .outside
      scheduler := ((s.semaphores i).downWoken s.scheduler fiber).2
      semaphores := Function.update s.semaphores i
        ((s.semaphores i).downWoken s.scheduler fiber).1 }) ha hpos rfl rfl rfl rfl rfl rfl
    exact h.silent hplaced hwaiting (fun _ _ => hleft) rfl ⟨rfl, rfl, rfl, rfl, rfl, rfl, rfl, rfl⟩
      (fun _ => h.ticking ha) h.calm
  · cases hproceed
    obtain ⟨hplaced, hwaiting⟩ := h.placed.upWoken (t := { s with
      position := Function.update s.position fiber .outside
      scheduler := ((s.semaphores i).upWoken s.scheduler fiber).2
      semaphores := Function.update s.semaphores i
        ((s.semaphores i).upWoken s.scheduler fiber).1 }) ha hpos rfl rfl rfl rfl rfl rfl
    exact h.silent hplaced hwaiting (fun _ _ => hleft) rfl ⟨rfl, rfl, rfl, rfl, rfl, rfl, rfl, rfl⟩
      (fun _ => h.ticking ha) h.calm

/-- A worker makes a step, by which no work begins or ends, so the calls of `DoWork` wait as before.
-/
theorem worker_keeps (h : s.Invariant batch) {action : PoolAction n CallId}
    (hworker : OfWorker action) {pool : ThreadPool n CallId}
    (hstep : s.pool.step action = some pool) :
    Keeps s { s with pool := pool } batch := by
  obtain ⟨⟨phase, hlocated⟩, hending⟩ := ThreadPool.step_spec h.located h.ending hstep
  obtain ⟨⟨hworks, hbatch, -⟩, -⟩ := step_ofWorker hworker hstep
  refine ⟨⟨h.placed.congr rfl rfl (fun _ _ => rfl) le_rfl rfl rfl, h.shape, ⟨phase, hlocated⟩,
    hending, hbatch.trans h.batch, ?_, ?_, h.positive, h.running, h.calm, h.defined⟩, fun _ => id⟩
  · exact h.sources.frame (fun _ => .rfl) (fun _ _ => rfl) (fun _ _ => rfl) (fun _ => id)
      (fun _ _ => rfl) rfl (idle_ofWorker hworker hstep hlocated) hworks rfl
      fun _ => ⟨rfl, rfl, rfl⟩
  · exact h.recorded.same rfl rfl rfl rfl rfl rfl

/-! ## Calls that block -/

/-- What is recorded is right after a fiber has blocked in a new call as well, since the log is the
same. -/
theorem Invariant.recorded_block (h : s.Invariant batch) (ha : s.scheduler.activeFiber = some fiber)
    {kind : CallKind} {new : Option (Timeout Callback)} (hblocks : s.Blocks t fiber kind new)
    (hwaiting : ∀ k, t.Waiting k ↔ s.Waiting k ∨ k = s.nextCall) : t.Recorded := by
  obtain ⟨hnext, -, -, -, -, hlog, -⟩ := hblocks.same
  refine h.recorded.frame [] (by simp) hlog (hnext ▸ Nat.le_succ _) ?_ ?_ ?_
  · intro k hk hw
    exact ((hwaiting k).mp hw).resolve_right (Nat.ne_of_lt hk)
  · intro other k hk hpos
    rw [hblocks.position] at hpos
    by_cases ho : other = fiber
    · subst ho
      rw [Function.update_self] at hpos
      exact absurd (Position.inCall.inj hpos).symm (Nat.ne_of_lt hk)
    · rwa [Function.update_of_ne ho] at hpos
  · intro other k hpos hawake
    rw [hblocks.scheduler, h.placed.accounted.suspended_suspendCurrentFiber ha, not_or] at hawake
    rw [hblocks.position, Function.update_of_ne hawake.1] at hpos
    have hk := (h.placed.inCall other k hpos).2.2
    refine ⟨hpos, hawake.2, ?_, hblocks.kind_old hk⟩
    unfold result
    rw [hblocks.kind_old hk, hblocks.context_old hk]

/-- **A fiber blocks in a new call**, with the sources that the kind of the call asks for. -/
theorem Invariant.block (h : s.Invariant batch) (hcaller : s.caller = some fiber) (kind : CallKind)
    (new : Option (Timeout Callback)) (hblocks : s.Blocks t fiber kind new)
    (hshape : ∃ dirty, t.poller.Shape dirty) (hlocated : ∃ phase, Located t.pool phase)
    (hending : Ending t.pool) : Keeps s t batch := by
  obtain ⟨ha, -⟩ := caller_eq_some hcaller
  obtain ⟨hnext, hlists, hsemaphores, hasync, hphase, -, hhalted⟩ := hblocks.same
  have hticking := h.ticking ha
  obtain ⟨hplaced, hwaiting⟩ := h.placed.block hcaller hblocks.scheduler hblocks.position
    hblocks.caller_new (fun _ => hblocks.caller_old) hnext h.positive hlists hsemaphores
  have hlt : ∀ k, s.Waiting k → k < s.nextCall := fun k hw => (h.placed.waiting_lt hw).2
  refine ⟨⟨hplaced, hshape, hlocated, hending, hblocks.batch.trans h.batch,
    h.sources.block hblocks hlt h.positive (h.calm hticking) hwaiting,
    h.recorded_block ha hblocks hwaiting, ?_, ?_, ?_, hhalted.trans h.defined⟩, ?_⟩
  · rw [hnext]
    exact Nat.succ_pos _
  · rw [hphase]
    exact fun _ => hticking
  · rw [hphase, hasync]
    exact h.calm
  · intro timed hkept k fd condition hw hk
    rw [hblocks.registered, List.mem_append]
    rcases (hwaiting k).mp hw with hw | rfl
    · exact .inl (hkept k fd condition hw ((hblocks.kind_old (hlt k hw)).symm.trans hk))
    · cases hblocks.kind_new.symm.trans hk
      exact .inr (List.mem_singleton.mpr rfl)

/-- The works are left alone by a call of another kind than `DoWork`, and none is under way for the
new call. -/
theorem Invariant.idle_same (h : s.Invariant batch) (fiber : FiberId) (kind : CallKind)
    (hkind : kind ≠ .doWork) :
    (∀ k ≠ s.nextCall, (s.pool.Idle k ↔ s.pool.Idle k) ∧ s.pool.works k = s.pool.works k) ∧
      (¬s.pool.Idle s.nextCall ↔ kind = .doWork) ∧
      (kind = .doWork → (s.pool.works s.nextCall).callback = doWorkCallback ∧
        (s.pool.works s.nextCall).data = fiber) :=
  ⟨fun _ _ => ⟨.rfl, rfl⟩, iff_of_false (fun hnot => hnot h.fresh.2.2.1) hkind,
    fun hdo => absurd hdo hkind⟩

/-- The call has been entered, and the poller has been asked for a watch. -/
def watched (s : Runtime n) (fiber : FiberId) (fd : FD) (condition : IOCondition) (timed : Bool)
    (poller : IOPoller Callback) : Runtime n :=
  { s.enter fiber (.waitForFD fd condition timed) with poller := poller }

/-- **What `WaitForFD` does.** It returns at once if the poller got no memory, and, with the watch
cleared again, if the heap got none; else the fiber is suspended, with or without a timeout. -/
theorem waitForFD_cases (h : s.Invariant batch) {fd : FD} (hfd : fd + 1 < 2 ^ 31)
    {condition : IOCondition} {timeout : ℤ} {now : ℕ} {reallocated : Bool} {block : Option EventId}
    {inserted : Bool}
    (hstep : s.waitForFD fiber fd condition timeout now reallocated block inserted = some t) :
    ∃ timed poller ok dirty,
      s.poller.setWatch s.nextCall fd condition s.nextCall
        (if timed = true then Callback.waitForFDCallback2
          else .waitForFDCallback1) reallocated block =
          some (poller, ok) ∧
      poller.Shape dirty ∧
      poller.registered = (if ok then s.poller.registered ++ [⟨s.nextCall, fd, condition⟩]
        else s.poller.registered) ∧
      (ok = false ∧ t = s.watched fiber fd condition timed poller ∨
        ok = true ∧ timed = false ∧
          t = (s.watched fiber fd condition timed poller).suspend fiber (.inCall s.nextCall) ∨
        ok = true ∧ timed = true ∧
          t = ({ s.watched fiber fd condition timed poller with
            timer := ⟨s.timer.timeouts ++
              [⟨s.nextCall, Timer.dueTime now timeout, s.nextCall, .waitForFDCallback3⟩]⟩ } :
              Runtime n).suspend fiber (.inCall s.nextCall) ∨
        ok = true ∧ ∃ cleared dirty', poller.clearWatch s.nextCall = some cleared ∧
          cleared.Shape dirty' ∧ cleared.registered = s.poller.registered ∧
          t = { (s.watched fiber fd condition timed poller).note
            (.clearsWatch s.nextCall poller) with
            poller := cleared }) := by
  obtain ⟨dirty, hshape⟩ := h.shape
  obtain ⟨hunregistered, -⟩ := h.fresh
  obtain ⟨timed, htimed⟩ : ∃ timed : Bool, timed = decide (0 ≤ timeout) := ⟨_, rfl⟩
  let callback := if timed then Callback.waitForFDCallback2 else .waitForFDCallback1
  unfold Runtime.waitForFD at hstep
  simp only [enter, ← htimed] at hstep
  obtain ⟨hnone, -⟩ | ⟨poller, ok, dirty', hset, hshape', hregistered⟩ :=
    hshape.setWatch hunregistered hfd condition s.nextCall callback reallocated block
  · simp [callback, hnone] at hstep
  rw [show s.poller.setWatch s.nextCall fd condition s.nextCall
    (if timed = true then Callback.waitForFDCallback2 else .waitForFDCallback1) reallocated block =
      some (poller, ok) from hset] at hstep
  refine ⟨timed, poller, ok, dirty', hset, hshape', hregistered, ?_⟩
  rcases ok with _ | _
  · cases hstep
    exact .inl ⟨rfl, rfl⟩
  rw [if_pos rfl] at hregistered
  rcases timed with _ | _
  · simp only [Bool.false_eq_true, if_false, Option.some.injEq] at hstep
    exact .inr (.inl ⟨rfl, rfl, hstep.symm⟩)
  simp only [if_true, Timer.setTimeout] at hstep
  rcases inserted with _ | _
  · -- the heap got no memory, and the watch is cleared
    simp only [Bool.false_eq_true, if_false, Option.some.injEq] at hstep
    obtain ⟨-, -, hoffset, -⟩ := offsets
    have hnew : (⟨s.nextCall, fd, condition⟩ : Registration) ∈ poller.registered := by
      rw [hregistered]
      exact List.mem_append_right _ (List.mem_singleton.mpr rfl)
    obtain ⟨cleared, dirty'', hclear, hshape'', hregistered'⟩ :=
      hshape'.clearWatch (List.mem_map_of_mem hnew)
    rw [hoffset, clearWatch_stored (show _ = CallKind.waitForFD fd condition true from
      Function.update_self ..) hclear] at hstep
    refine .inr (.inr (.inr ⟨rfl, cleared, dirty'', hclear, hshape'', ?_, hstep.symm⟩))
    rw [hregistered', hregistered, List.filter_append, filter_registered hunregistered]
    simp
  · simp only [if_true, Option.some.injEq] at hstep
    exact .inr (.inr (.inl ⟨rfl, rfl, hstep.symm⟩))

/-- A fiber waits for a descriptor, with a timeout or without one, and whether or not the
allocations succeed, the invariant is kept. -/
theorem waitForFD_keeps (h : s.Invariant batch) (hcaller : s.caller = some fiber) {fd : FD}
    (hfd : fd + 1 < 2 ^ 31) {condition : IOCondition} {timeout : ℤ} {now : ℕ} {reallocated : Bool}
    {block : Option EventId} {inserted : Bool}
    (hstep : s.waitForFD fiber fd condition timeout now reallocated block inserted = some t) :
    Keeps s t batch := by
  obtain ⟨ha, -⟩ := caller_eq_some hcaller
  obtain ⟨timed, poller, ok, dirty, hset, hshape, hregistered, hcases⟩ :=
    waitForFD_cases h hfd hstep
  have hcontents := IOPoller.watch_setWatch hset
  have hwatch : ∀ w < s.nextCall, poller.watch w = s.poller.watch w := by
    intro w hw
    rw [hcontents]
    by_cases hok : ok = true
    · rw [if_pos hok]
      exact Function.update_of_ne (Nat.ne_of_lt hw) ..
    · rw [if_neg hok]
  have hkinds : ∀ k < s.nextCall,
      Function.update s.kind s.nextCall (.waitForFD fd condition timed) k = s.kind k :=
    fun k hk => Function.update_of_ne (Nat.ne_of_lt hk) ..
  have hcontexts : ∀ k < s.nextCall, Function.update s.context s.nextCall
      { s.context s.nextCall with fiber := fiber } k = s.context k :=
    fun k hk => Function.update_of_ne (Nat.ne_of_lt hk) ..
  obtain ⟨hidle, hpost, hwork⟩ := h.idle_same fiber (.waitForFD fd condition timed) (by simp)
  have hready : ok = true → ∀ fd' condition' timed', CallKind.waitForFD fd condition timed =
      .waitForFD fd' condition' timed' →
        poller.callOf s.nextCall = readyCall timed' s.nextCall := by
    rintro rfl fd' condition' timed' hk
    cases hk
    unfold IOPoller.callOf
    rw [hcontents, if_pos rfl, Function.update_self]
    rfl
  rcases hcases with ⟨rfl, rfl⟩ | ⟨rfl, rfl, rfl⟩ | ⟨rfl, rfl, rfl⟩ |
    ⟨rfl, cleared, dirty', hclear, hshape', hback, rfl⟩
  · -- the poller got no memory
    exact h.enter (h.ticking ha) rfl rfl hkinds hcontexts (Nat.le_succ _) rfl rfl hshape hregistered
      hwatch rfl rfl rfl rfl [] (by simp) rfl h.defined
  · -- without timeout
    exact h.block hcaller (.waitForFD fd condition false) none
      ⟨rfl, rfl, rfl, rfl, ⟨rfl, rfl, rfl, rfl, rfl, rfl, rfl⟩, hregistered, hwatch, hready rfl,
        by simp [suspend, watched, enter], by simp, rfl, rfl, hidle, hpost, hwork⟩ ⟨dirty, hshape⟩
      h.located h.ending
  · -- with timeout
    refine h.block hcaller (.waitForFD fd condition true)
      (some ⟨s.nextCall, Timer.dueTime now timeout, s.nextCall, .waitForFDCallback3⟩)
      ⟨rfl, rfl, rfl, rfl, ⟨rfl, rfl, rfl, rfl, rfl, rfl, rfl⟩, hregistered, hwatch,
        hready rfl, rfl, ?_, rfl, rfl, hidle, hpost, hwork⟩ ⟨dirty, hshape⟩ h.located h.ending
    intro u hu
    cases hu
    refine ⟨rfl, ?_⟩
    unfold expiry
    simp [suspend, watched, enter, Timeout.call]
  · -- the heap got no memory
    have hnew : (⟨s.nextCall, fd, condition⟩ : Registration) ∈ poller.registered := by
      rw [hregistered]
      exact List.mem_append_right _ (List.mem_singleton.mpr rfl)
    refine h.enter (h.ticking ha) rfl rfl hkinds hcontexts (Nat.le_succ _) rfl rfl hshape' hback
      ?_ rfl rfl rfl rfl [.clearsWatch s.nextCall poller] ?_ rfl h.defined
    · intro w hw
      rw [← hwatch w hw]
      exact congrFun (IOPoller.watch_clearWatch hclear) w
    · intro note hnote
      rw [List.mem_singleton] at hnote
      subst hnote
      exact unlinks_of_registered hshape (List.mem_map_of_mem hnew)

/-- A fiber sleeps, or returns at once where its timeout cannot be set; either way the invariant is
kept. -/
theorem sleepCurrentFiber_keeps (h : s.Invariant batch) (hcaller : s.caller = some fiber)
    (duration : ℤ) (now : ℕ) (inserted : Bool) :
    Keeps s (s.sleepCurrentFiber fiber duration now inserted) batch := by
  obtain ⟨ha, -⟩ := caller_eq_some hcaller
  obtain ⟨dirty, hshape⟩ := h.shape
  rcases inserted with _ | _
  · refine h.enter (h.ticking ha) rfl rfl ?_ ?_ (Nat.le_succ _) rfl rfl hshape rfl (fun _ _ => rfl)
      rfl rfl rfl rfl [] (by simp) rfl h.defined
    · exact fun k hk => Function.update_of_ne (Nat.ne_of_lt hk) ..
    · exact fun k hk => Function.update_of_ne (Nat.ne_of_lt hk) ..
  · obtain ⟨hidle, hpost, hwork⟩ := h.idle_same fiber .sleepCurrentFiber (by simp)
    refine h.block hcaller .sleepCurrentFiber
      (some ⟨s.nextCall, Timer.dueTime now duration, fiber, .sleepCallback⟩)
      ⟨rfl, rfl, rfl, rfl, ⟨rfl, rfl, rfl, rfl, rfl, rfl, rfl⟩, (List.append_nil _).symm,
        fun _ _ => rfl, by simp, rfl, ?_, rfl, rfl, hidle, hpost, hwork⟩ ⟨dirty, hshape⟩ h.located
      h.ending
    intro u hu
    cases hu
    refine ⟨rfl, ?_⟩
    unfold expiry callerOf
    simp [Runtime.sleepCurrentFiber, Timer.setTimeout, suspend, enter, Timeout.call]

/-- A fiber has a worker do something: the work it posts is under way until the fiber is resumed. -/
theorem doWork_keeps (h : s.Invariant batch) (hcaller : s.caller = some fiber)
    {function argument : ℕ} {woken : Finset (Fin n)}
    (hstep : s.doWork fiber function argument woken = some t) : Keeps s t batch := by
  obtain ⟨dirty, hshape⟩ := h.shape
  obtain ⟨phase, hlocated⟩ := h.located
  unfold Runtime.doWork at hstep
  simp only [enter] at hstep
  rcases hpost : s.pool.step (.postWork s.nextCall
    ⟨function, argument, fiber, doWorkCallback⟩ woken)
    with _ | pool
  · simp [hpost] at hstep
  · simp only [hpost, Option.some.injEq] at hstep
    subst hstep
    obtain ⟨hlocated', hending⟩ := ThreadPool.step_spec h.located h.ending hpost
    obtain ⟨-, hidle, hworks, hbatch⟩ := idle_postWork hlocated hpost
    refine h.block hcaller .doWork none
      ⟨rfl, rfl, rfl, rfl, ⟨rfl, rfl, rfl, rfl, rfl, rfl, rfl⟩, (List.append_nil _).symm,
        fun _ _ => rfl, by simp, (List.append_nil _).symm, by simp, rfl, hbatch, ?_, ?_, ?_⟩
      ⟨dirty, hshape⟩ hlocated' hending
    · intro k hk
      refine ⟨(hidle k).trans (by simp [hk]), ?_⟩
      show pool.works k = s.pool.works k
      rw [hworks]
      exact Function.update_of_ne hk ..
    · refine iff_of_true (fun hi => ?_) rfl
      exact ((hidle _).mp hi).2 rfl
    · intro _
      show (pool.works s.nextCall).callback = doWorkCallback ∧
        (pool.works s.nextCall).data = fiber
      rw [hworks, Function.update_self]
      exact ⟨rfl, rfl⟩

/-- **A descriptor is closed.** The invariant holds afterwards, but waits may have lost their
watches. -/
theorem close_invariant (h : s.Invariant batch) (hcaller : s.caller = some fiber) (fd : FD) :
    ∃ poller, s.close fd = { s with poller := poller } ∧
      poller.registered = (s.poller.registered.filter fun r => r.fd ≠ fd) ∧
      (s.close fd).Invariant batch := by
  obtain ⟨ha, -⟩ := caller_eq_some hcaller
  obtain ⟨dirty, hshape⟩ := h.shape
  obtain ⟨poller, dirty', hclear, hshape', hregistered⟩ := hshape.clearWatches fd
  have heq : s.close fd = { s with poller := poller } := by simp [Runtime.close, hclear]
  refine ⟨poller, heq, hregistered, ?_⟩
  rw [heq]
  refine ⟨h.placed.congr rfl rfl (fun _ _ => rfl) le_rfl rfl rfl, ⟨dirty', hshape'⟩, h.located,
    h.ending, h.batch, ?_, ?_, h.positive, h.running, h.calm, h.defined⟩
  · refine h.sources.frame (fun _ => .rfl) (fun _ _ => rfl) (fun _ _ => rfl) ?_ ?_ rfl
      (fun _ => .rfl)
      rfl rfl fun hne => absurd (h.calm (h.ticking ha)) hne
    · intro r hr
      rw [hregistered] at hr
      exact (List.mem_filter.mp hr).1
    · intro r _
      unfold IOPoller.callOf
      rw [IOPoller.watch_clearWatches hclear]
  · exact h.recorded.same rfl rfl rfl rfl rfl rfl

/-- Closing a descriptor takes away its own watches only, so those that wait for something else keep
theirs. -/
theorem close_kept (h : s.Invariant batch) (hcaller : s.caller = some fiber) {fd : FD}
    {timed : Bool} (hnone : ∀ k condition, s.Waiting k → s.kind k ≠ .waitForFD fd condition timed)
    (hkept : s.Kept timed) : (s.close fd).Kept timed := by
  obtain ⟨poller, heq, hregistered, -⟩ := close_invariant h hcaller fd
  rw [heq]
  intro k fd' condition hw hk
  show _ ∈ poller.registered
  rw [hregistered, List.mem_filter]
  refine ⟨hkept k fd' condition hw hk, ?_⟩
  simp only [ne_eq, decide_not, Bool.not_eq_eq_eq_not, Bool.not_true, decide_eq_false_iff_not]
  rintro rfl
  exact hnone k condition hw hk

end Runtime

end Pixy.Loop
