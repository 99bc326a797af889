import Pixy.Loop.LoopSteps

/-!
# Every reachable state

The invariant holds when `Loop` begins (`invariant_init`), every step keeps it (`invariant_step`),
and so it holds of every state that a run reaches (`invariant_of_reachable`). The two facts about
watches (`Kept`) hold as long as no descriptor is closed that a wait of the kind waits for.
-/

namespace Pixy.Loop

open Pixy.Found Pixy.Sched Pixy.Sync Pixy.Poll Pixy.Pool

variable {n : ℕ}

namespace Runtime

variable {s t : Runtime n} {declared : Fields FieldName} {action : RuntimeAction n}

/-! ## One step -/

/-- No descriptor is closed that a wait with a timeout, or one without, waits for. -/
def Spares (timed : Bool) (s : Runtime n) : RuntimeAction n → Prop
  | .close fd => ∀ call condition, s.Waiting call → s.kind call ≠ .waitForFD fd condition timed
  | _ => True

/-- **Every step keeps the invariant**, and the watches if the step spares them. -/
theorem invariant_step (h : s.Invariant []) (hproper : Proper declared s action)
    (hstep : s.step declared action = some t) :
    t.Invariant [] ∧ ∀ timed, Spares timed s action → s.Kept timed → t.Kept timed := by
  suffices hkeeps : Keeps s t [] ∨ ∃ fd fiber, action = .close fd ∧ s.caller = some fiber ∧
      t = s.close fd by
    rcases hkeeps with hkeeps | ⟨fd, fiber, rfl, hcaller, rfl⟩
    · exact ⟨hkeeps.invariant, fun timed _ => hkeeps.kept timed⟩
    · obtain ⟨-, -, -, hinvariant⟩ := close_invariant h hcaller fd
      exact ⟨hinvariant, fun timed hspares hkept => close_kept h hcaller hspares hkept⟩
  unfold step at hstep
  rw [if_neg (by simp [h.defined])] at hstep
  cases action with
  | addFiber function argument region =>
      obtain ⟨fiber, hcaller, hschedule⟩ := Option.bind_eq_some_iff.mp hstep
      exact .inl (schedule_keeps h hcaller hschedule (by simp) (by simp) (by simp))
  | addAndRunFiber function argument region =>
      obtain ⟨fiber, hcaller, hschedule⟩ := Option.bind_eq_some_iff.mp hstep
      exact .inl (schedule_keeps h hcaller hschedule (by simp) (by simp) (by simp))
  | yieldCurrentFiber =>
      obtain ⟨fiber, hcaller, hschedule⟩ := Option.bind_eq_some_iff.mp hstep
      exact .inl (schedule_keeps h hcaller hschedule (by simp) (by simp) (by simp))
  | exitCurrentFiber =>
      obtain ⟨fiber, hcaller, hschedule⟩ := Option.bind_eq_some_iff.mp hstep
      exact .inl (schedule_keeps h hcaller hschedule (by simp) (by simp) (by simp))
  | waitForFD fd condition timeout now reallocated block inserted =>
      obtain ⟨fiber, hcaller, hwait⟩ := Option.bind_eq_some_iff.mp hstep
      split_ifs at hwait with hguard
      have hclock := setClock_keeps h now
      exact .inl (hclock.trans
        (waitForFD_keeps hclock.invariant hcaller hguard.2 hwait))
  | sleepCurrentFiber duration now inserted =>
      obtain ⟨fiber, hcaller, hsleep⟩ := Option.bind_eq_some_iff.mp hstep
      split_ifs at hsleep with hguard
      cases hsleep
      have hclock := setClock_keeps h now
      exact .inl (hclock.trans
        (sleepCurrentFiber_keeps hclock.invariant hcaller duration now inserted))
  | doWork function argument woken =>
      obtain ⟨fiber, hcaller, hwork⟩ := Option.bind_eq_some_iff.mp hstep
      exact .inl (doWork_keeps h hcaller hwork)
  | eventWaitFor event =>
      obtain ⟨fiber, hcaller, rfl⟩ := Option.map_eq_some_iff.mp hstep
      exact .inl (eventWaitFor_keeps h hcaller event)
  | eventTrigger event =>
      obtain ⟨fiber, hcaller, rfl⟩ := Option.map_eq_some_iff.mp hstep
      exact .inl (eventTrigger_keeps h hcaller event)
  | semaphoreDown i =>
      obtain ⟨fiber, hcaller, rfl⟩ := Option.map_eq_some_iff.mp hstep
      exact .inl (semaphoreDown_keeps h hcaller i)
  | semaphoreUp i =>
      obtain ⟨fiber, hcaller, rfl⟩ := Option.map_eq_some_iff.mp hstep
      exact .inl (semaphoreUp_keeps h hcaller i)
  | close fd =>
      obtain ⟨fiber, hcaller, rfl⟩ := Option.map_eq_some_iff.mp hstep
      exact .inr ⟨fd, fiber, rfl, hcaller, rfl⟩
  | proceed =>
      obtain ⟨fiber, ha, hproceed⟩ := Option.bind_eq_some_iff.mp hstep
      exact .inl (proceed_keeps h ha hproceed)
  | worker action =>
      dsimp only at hstep
      split_ifs at hstep with hworker
      obtain ⟨pool, hpool, rfl⟩ := Option.map_eq_some_iff.mp hstep
      exact .inl (worker_keeps h hworker hpool)
  | schedulerTick =>
      dsimp only at hstep
      split_ifs at hstep with hguard
      exact .inl (schedulerTick_keeps h hguard.2 hstep)
  | poll freeSlot outcome memory =>
      dsimp only at hstep
      split_ifs at hstep with hguard
      exact .inl (poll_keeps h hguard.1 hguard.2.1 hstep)
  | dispatch =>
      dsimp only at hstep
      split_ifs at hstep with hguard
      exact .inl (dispatch_keeps h hguard hproper hstep)
  | expire now due memory =>
      dsimp only at hstep
      split_ifs at hstep with hguard
      exact .inl (expire_keeps h (by simp [hguard.1]) hguard.2.1 hstep)

/-! ## The first state -/

namespace Initial

/-- The scheduler has one fiber, which is ready, so nobody is suspended and everybody is accounted
for. -/
theorem accounted (hs : s.Initial) :
    Accounted s.scheduler ∧ ∀ fiber, ¬s.scheduler.Suspended fiber := by
  obtain ⟨fibers, function, argument, region, hscheduler⟩ := hs.scheduler
  have hempty : Accounted (Scheduler.init fibers) := accounted_of_reachable (.init ⟨fibers, rfl⟩)
  have hfresh : (Scheduler.init fibers).Fresh region := by
    intro fiber _
    exact Finset.notMem_empty fiber
  rw [hscheduler]
  refine ⟨hempty.add function argument hfresh, fun fiber hsuspended => ?_⟩
  have henabled : (Scheduler.init fibers).Enabled (.addFiber function argument region) := hfresh
  have hbefore := (hempty.suspended_apply henabled (by simp) (by simp) (by simp)).mp hsuspended
  exact Finset.notMem_empty fiber hbefore.1

/-- At the start no call waits, as no fiber is in one. -/
theorem not_waiting (hs : s.Initial) (k : CallId) : ¬s.Waiting k :=
  fun hw => hs.accounted.2 _ hw.2

/-- Nobody waits for a semaphore yet, and each counter is within its bounds. -/
theorem semaphore (hs : s.Initial) (i : ℕ) :
    (s.semaphores i).downWaiterList = [] ∧ (s.semaphores i).upWaiterList = [] ∧
      (s.semaphores i).minValue ≤ (s.semaphores i).value ∧
        (s.semaphores i).value ≤ (s.semaphores i).maxValue := by
  obtain ⟨value, minValue, maxValue, hinit⟩ := hs.semaphores i
  unfold Semaphore.init? at hinit
  split_ifs at hinit with hbounds
  rw [← Option.some.inj hinit]
  rw [not_or, not_lt, not_lt] at hbounds
  exact ⟨rfl, rfl, hbounds⟩

/-- No fiber is in anything yet, so all of them are where their positions say. -/
theorem placed (hs : s.Initial) : s.Placed where
  accounted := hs.accounted.1
  outside fiber _ := hs.accounted.2 fiber
  live fiber hne := absurd (hs.position fiber) hne
  inCall fiber call hpos := by
    rw [hs.position] at hpos
    cases hpos
  inEvent fiber event := by
    rw [hs.waiterList, hs.position]
    simp
  events event := by
    rw [hs.waiterList]
    exact List.nodup_nil
  queued i := by
    obtain ⟨hdown, hup, hlower, hupper⟩ := hs.semaphore i
    refine ⟨hlower, hupper, ?_, ?_, ?_, ?_⟩
    · rw [hdown, hup]
      exact List.nodup_nil
    · rw [hdown, hup]
      exact fun fiber hf => absurd hf List.not_mem_nil
    · rw [hdown]
      exact ⟨by simp, by simp⟩
    · rw [hup]
      exact ⟨by simp, by simp⟩
  inDown fiber i := by
    rw [hs.position, (hs.semaphore i).1]
    simp
  inUp fiber i := by
    rw [hs.position, (hs.semaphore i).2.1]
    simp

/-- The poller watches the descriptor of the thread pool's pipe, and no other one yet. -/
theorem shape (hs : s.Initial) : (∃ dirty, s.poller.Shape dirty) ∧
    ∀ r ∈ s.poller.registered, r.watch = 0 ∧ s.poller.callOf 0 = ⟨.workerCallback, 0⟩ := by
  obtain ⟨event, watch, links, fd, reallocated, block, hfd, hset⟩ := hs.poller
  obtain ⟨-, e, -, he⟩ | ⟨poller, ok, dirty, hset', hshape, hregistered⟩ :=
    (shape_init event watch links).setWatch (w := 0) (by simp [IOPoller.init]) hfd .ioReadable 0
      Callback.workerCallback reallocated block
  · exact absurd he (Finset.notMem_empty e)
  cases hset'.symm.trans hset
  have hcontents := IOPoller.watch_setWatch hset
  rw [if_pos rfl] at hregistered hcontents
  refine ⟨⟨dirty, hshape⟩, fun r hr => ?_⟩
  rw [hregistered] at hr
  refine ⟨by rw [List.mem_singleton.mp hr], ?_⟩
  unfold IOPoller.callOf
  rw [hcontents, Function.update_self]

/-- The pool has no work yet, neither on its list nor with a worker nor in the pipe, and every
call's work is idle. -/
theorem pool_spec (hs : s.Initial) : (∃ phase, Located s.pool phase) ∧ Ending s.pool ∧
    s.pool.batch = [] ∧ ∀ k, s.pool.Idle k := by
  obtain ⟨works, hpool⟩ := hs.pool
  obtain ⟨hlocated, hending⟩ := located_of_reachable (.init ⟨works, rfl⟩ :
    (poolSystem n CallId).Reachable (ThreadPool.init works))
  rw [hpool]
  exact ⟨hlocated, hending, rfl, fun _ => rfl⟩

/-- Nothing can wake a fiber yet, but the thread pool's own watch is registered. -/
theorem sources (hs : s.Initial) : s.Sources where
  registered r hr := .inl (hs.shape.2 r hr)
  pending := by
    rw [hs.timer]
    exact fun u hu => absurd hu List.not_mem_nil
  nodes := by
    rw [hs.timer]
    exact List.nodup_nil
  posted k hk := absurd (hs.pool_spec.2.2.2 k) hk
  collected := by
    rw [hs.async]
    exact fun call hcall => absurd hcall List.not_mem_nil
  distinct := by
    rw [hs.async]
    exact List.nodup_nil
  expires k hw := absurd hw (hs.not_waiting k)
  works k hw := absurd hw (hs.not_waiting k)

/-- Nothing has happened yet, so the log is empty and no call has been made. -/
theorem recorded (hs : s.Initial) : s.Recorded where
  orderly := by
    rw [hs.log]
    exact orderly_nil
  fresh := by
    rw [hs.log]
    exact fun k hk => absurd hk List.not_mem_nil
  woken fiber k hpos := by
    rw [hs.position] at hpos
    cases hpos
  left := by
    rw [hs.log]
    exact fun k hk => absurd hk List.not_mem_nil

end Initial

/-- **The invariant holds when `Loop` begins**, put together from what was said of the single parts.
-/
theorem invariant_init (hs : s.Initial) : s.Invariant [] ∧ ∀ timed, s.Kept timed := by
  obtain ⟨hlocated, hending, hbatch, -⟩ := hs.pool_spec
  refine ⟨⟨hs.placed, hs.shape.1, hlocated, hending, hbatch, hs.sources, hs.recorded, ?_, ?_, ?_,
    hs.halted⟩, fun timed k fd condition hw => absurd hw (hs.not_waiting k)⟩
  · rw [hs.nextCall]
    exact Nat.one_pos
  · obtain ⟨fibers, function, argument, region, hscheduler⟩ := hs.scheduler
    intro hne
    rw [hscheduler, Scheduler.addFiber_activeFiber] at hne
    exact absurd rfl hne
  · rw [hs.phase]
    simp

/-! ## A state to begin in -/

/-- A poller with nothing in it. -/
def emptyPoller : IOPoller Callback :=
  .init (fun _ => ⟨0, 0, 0⟩) (fun _ => ⟨.ioReadable, 0, .workerCallback⟩) ⟨id, id⟩

/-- What `main` may have set up: fiber 1 is ready, and the thread pool watches descriptor 5. -/
def started : Runtime 1 where
  scheduler := ((Scheduler.init fun _ => ⟨none, 0, 0⟩).addFiber 7 0 (some 1)).1
  poller := ((emptyPoller.setWatch 0 5 .ioReadable 0 .workerCallback true (some 100)).getD
    (emptyPoller, false)).1
  timer := .init
  pool := .init fun _ => ⟨0, 0, 0, 0⟩
  async := .init
  phase := .expired
  clock := 0
  kind _ := .doWork
  context _ := ⟨0, false, 0⟩
  nextCall := 1
  position _ := .outside
  waiterList _ := []
  semaphores _ := ⟨0, 0, 1, [], []⟩
  halted := false
  log := []

/-- The state from which these runs start is one in which the program may start: one fiber is
ready, and the pool's watch is set on descriptor 5. -/
theorem started_initial : started.Initial where
  scheduler := ⟨_, 7, 0, some 1, rfl⟩
  poller := ⟨fun _ => ⟨0, 0, 0⟩, fun _ => ⟨.ioReadable, 0, .workerCallback⟩, ⟨id, id⟩, 5, true,
    some 100, by decide, rfl⟩
  timer := rfl
  pool := ⟨_, rfl⟩
  async := rfl
  phase := rfl
  nextCall := rfl
  position _ := rfl
  waiterList _ := rfl
  semaphores _ := ⟨0, 0, 1, rfl⟩
  halted := rfl
  log := rfl

/-! ## Runs -/

/-- **The invariant holds in every state** that a run reaches whose dispatches are proper. -/
theorem invariant_of_reachable {C : Runtime n → RuntimeAction n → Prop}
    (hC : ∀ s action, C s action → Proper declared s action)
    (h : (runtimeSystem n declared).ReachableWhen C s) : s.Invariant [] := by
  refine StepSystem.ReachableWhen.induct (I := fun s => s.Invariant []) ?_ ?_ h
  · intro s hs
    exact (invariant_init hs).1
  · intro s action t _ hs hc hstep
    exact (invariant_step hs (hC s action hc) hstep).1

/-- **And so do the facts about the watches**, if they are spared. -/
theorem kept_of_reachable {C : Runtime n → RuntimeAction n → Prop}
    (hC : ∀ s action, C s action → Proper declared s action) {timed : Bool}
    (hspares : ∀ s action, C s action → Spares timed s action)
    (h : (runtimeSystem n declared).ReachableWhen C s) : s.Kept timed := by
  have hboth : s.Invariant [] ∧ s.Kept timed := by
    refine StepSystem.ReachableWhen.induct (I := fun s => s.Invariant [] ∧ s.Kept timed) ?_ ?_ h
    · intro s hs
      exact ⟨(invariant_init hs).1, (invariant_init hs).2 timed⟩
    · intro s action t _ hs hc hstep
      obtain ⟨hinvariant, hkept⟩ := invariant_step hs.1 (hC s action hc) hstep
      exact ⟨hinvariant, hkept timed (hspares s action hc) hs.2⟩
  exact hboth.2

/-- Where `WaitForFDCallback3` finds the fields where they were stored and no wait with a timeout
loses its watch, every dispatch is proper. -/
theorem proper_of_kept (h : s.Invariant []) (hkept : s.Kept true) (action : RuntimeAction n) :
    Proper timedContext s action := by
  cases action with
  | dispatch =>
      intro call hcall hfunction
      rw [Option.mem_def, List.head?_eq_some_iff] at hcall
      obtain ⟨rest, hcalls⟩ := hcall
      refine ⟨rfl, ?_⟩
      rcases h.sources.collected call (hcalls ▸ List.mem_cons_self) with
        hworker | ⟨r, hr, hne, rfl, -⟩ | ⟨k, hw, htime, rfl, -⟩
      · rw [hworker] at hfunction
        cases hfunction
      · obtain ⟨-, timed, -, hready⟩ := h.sources.watch hr hne
        rw [hready] at hfunction
        cases timed <;> cases hfunction
      · rcases cases_of_hasTimeout htime with ⟨fd, condition, hkind⟩ | hkind
        · rw [expiry_waitForFD hkind]
          exact List.mem_map_of_mem (hkept k fd condition hw hkind)
        · rw [expiry_sleep hkind] at hfunction
          cases hfunction
  | _ => trivial

/-- **Without closing what a wait with a timeout waits for,** both hold in every state. -/
theorem invariant_of_spared {C : Runtime n → RuntimeAction n → Prop}
    (hspares : ∀ s action, C s action → Spares true s action)
    (h : (runtimeSystem n timedContext).ReachableWhen C s) : s.Invariant [] ∧ s.Kept true := by
  refine StepSystem.ReachableWhen.induct (I := fun s => s.Invariant [] ∧ s.Kept true) ?_ ?_ h
  · intro s hs
    exact ⟨(invariant_init hs).1, (invariant_init hs).2 true⟩
  · intro s action t _ hs hc hstep
    obtain ⟨hinvariant, hkept⟩ := invariant_step hs.1 (proper_of_kept hs.1 hs.2 action) hstep
    exact ⟨hinvariant, hkept true (hspares s action hc) hs.2⟩

end Runtime

end Pixy.Loop
