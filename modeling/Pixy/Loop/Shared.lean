import Pixy.Loop.Components
import Pixy.Sync.Trigger

/-!
# Events and semaphores among everything else

`Semaphore.lean` and `Event.lean` have one semaphore or one event, fibers that use it, and a rest of
the program that may do with the scheduler what it likes as long as it leaves alone who waits there.
Here are all of them, with calls that block in the poller, in the timer and in the thread pool. For
each single one the others, and the loop, are such a rest of the program.

* A step that is about something else (`concerns`) leaves it alone (`leaves_step`), and `uses_step`
  says that the scheduler was used only for those who are not in it.
* So a run of the runtime, seen from a semaphore or an event, is a run of its own system
  (`shared_objects`); for an event this is the system with the waiters in memory.
-/

namespace Pixy.Loop

open Pixy.Found Pixy.Sched Pixy.Sync Pixy.Poll Pixy.Pool

variable {n : ℕ}

/-! ## What a step leaves alone -/

namespace Runtime

variable {s t : Runtime n} {declared : Fields FieldName} {action : RuntimeAction n}
  {fiber : FiberId} {x : Shared} {position : Position}

/-- Something that is shared, and who is in it. -/
structure Leaves (x : Shared) (s t : Runtime n) : Prop where
  /-- Nobody has come or gone. -/
  position : ∀ fiber, (s.position fiber).shared = some x ∨ (t.position fiber).shared = some x →
    t.position fiber = s.position fiber
  /-- It is as it was. -/
  semaphore : ∀ i, x = .semaphore i → t.semaphores i = s.semaphores i
  /-- It is as it was. -/
  event : ∀ event, x = .event event → t.waiterList event = s.waiterList event

namespace Leaves

/-- Nobody has moved, and the waiters of events and the semaphores are as they were, so the object
is left alone. -/
theorem of_same (hposition : t.position = s.position) (hlists : t.waiterList = s.waiterList)
    (hsemaphores : t.semaphores = s.semaphores) : Leaves x s t where
  position fiber _ := by rw [hposition]
  semaphore i _ := by rw [hsemaphores]
  event event _ := by rw [hlists]

/-- Somebody has moved from elsewhere to elsewhere, which leaves the object alone, as it is neither
where the fiber was nor where it is. -/
theorem of_moved (hposition : t.position = Function.update s.position fiber position)
    (hwas : (s.position fiber).shared ≠ some x) (hthere : position.shared ≠ some x)
    (hlists : t.waiterList = s.waiterList) (hsemaphores : t.semaphores = s.semaphores) :
    Leaves x s t where
  position other hx := by
    by_cases ho : other = fiber
    · subst ho
      rw [hposition, Function.update_self] at hx
      exact absurd hx (not_or.mpr ⟨hwas, hthere⟩)
    · rw [hposition, Function.update_of_ne ho]
  semaphore i _ := by rw [hsemaphores]
  event event _ := by rw [hlists]

/-- Someone outside falls asleep in a call of their own, which leaves alone every event and every
semaphore. -/
theorem suspend {s' : Runtime n} {call : CallId} (hposition : s'.position = s.position)
    (hlists : s'.waiterList = s.waiterList) (hsemaphores : s'.semaphores = s.semaphores)
    (hout : s.position fiber = .outside) : Leaves x s (s'.suspend fiber (.inCall call)) :=
  of_moved (by rw [← hposition]; rfl) (by simp [hout, Position.shared])
    (by simp [Position.shared]) hlists
    hsemaphores

end Leaves

/-- `WaitForFD` leaves every semaphore and event alone, since its caller, who is at none of them,
falls asleep in a call of its own or goes on. -/
theorem leaves_waitForFD (h : s.Invariant []) (hout : s.position fiber = .outside) {fd : FD}
    (hfd : fd + 1 < 2 ^ 31) {condition : IOCondition} {timeout : ℤ} {now : ℕ} {reallocated : Bool}
    {block : Option EventId} {inserted : Bool}
    (hstep : s.waitForFD fiber fd condition timeout now reallocated block inserted = some t) :
    Leaves x s t := by
  obtain ⟨timed, poller, ok, dirty, -, -, -, ⟨-, rfl⟩ | ⟨-, -, rfl⟩ | ⟨-, -, rfl⟩ |
    ⟨-, cleared, dirty', -, -, -, rfl⟩⟩ := waitForFD_cases h hfd hstep
  · exact .of_same rfl rfl rfl
  · exact .suspend rfl rfl rfl hout
  · exact .suspend rfl rfl rfl hout
  · exact .of_same rfl rfl rfl

/-- A fiber whose suspension is over leaves all semaphores and events alone but the one in which it
was suspended. -/
theorem leaves_proceed (hx : (s.position fiber).shared ≠ some x)
    (hstep : s.proceed fiber = some t) : Leaves x s t := by
  unfold Runtime.proceed at hstep
  rcases hpos : s.position fiber with _ | call | event | i | i <;>
    simp only [hpos, Option.some.injEq, reduceCtorEq] at hstep <;> subst hstep
  · exact .of_moved rfl hx (by simp [Position.shared]) rfl rfl
  · exact .of_moved rfl hx (by simp [Position.shared]) rfl rfl
  · have hleaves : Leaves x s { s with position := Function.update s.position fiber .outside } :=
      .of_moved rfl hx (by simp [Position.shared]) rfl rfl
    refine ⟨hleaves.position, ?_, fun _ _ => rfl⟩
    rintro j rfl
    rw [hpos] at hx
    exact Function.update_of_ne (fun hj => hx (by rw [hj]; rfl)) ..
  · have hleaves : Leaves x s { s with position := Function.update s.position fiber .outside } :=
      .of_moved rfl hx (by simp [Position.shared]) rfl rfl
    refine ⟨hleaves.position, ?_, fun _ _ => rfl⟩
    rintro j rfl
    rw [hpos] at hx
    exact Function.update_of_ne (fun hj => hx (by rw [hj]; rfl)) ..

/-- Triggering one event leaves all other events and every semaphore alone. -/
theorem leaves_eventTrigger (event : ℕ) (hx : some (Shared.event event) ≠ some x) :
    Leaves x s (s.eventTrigger event) := by
  unfold Runtime.eventTrigger
  rcases hwaiters : s.waiterList event with _ | ⟨waiter, waiters⟩
  · exact .of_same rfl rfl rfl
  · refine ⟨fun _ _ => rfl, fun _ _ => rfl, ?_⟩
    rintro other rfl
    exact Function.update_of_ne (fun ho => hx (by rw [ho])) ..

/-- A fiber has called a function of a semaphore, and may have blocked there. -/
theorem leaves_semaphore {i : ℕ} {semaphore : Semaphore} {scheduler : Scheduler} {blocked : Bool}
    (hout : s.position fiber = .outside) (hx : some (Shared.semaphore i) ≠ some x)
    (hthere : position.shared = some (.semaphore i)) :
    Leaves x s
      { s with
        scheduler := scheduler
        semaphores := Function.update s.semaphores i semaphore
        position := if blocked then Function.update s.position fiber position
          else s.position } := by
  refine ⟨fun other hother => ?_, ?_, fun _ _ => rfl⟩
  · dsimp only at hother ⊢
    cases blocked with
    | false => rfl
    | true =>
        have hmoved : Leaves x s { s with position := Function.update s.position fiber position } :=
          .of_moved rfl (by simp [hout, Position.shared]) (by rwa [hthere]) rfl rfl
        exact hmoved.position other hother
  · rintro j rfl
    exact Function.update_of_ne (fun hj => hx (by rw [hj])) ..

/-- **A step leaves alone** every event and every semaphore that it is not about, one case for each
kind of step. -/
theorem leaves_step (h : s.Invariant []) (hstep : s.step declared action = some t)
    (hx : s.concerns action ≠ some x) : Leaves x s t := by
  unfold step at hstep
  rw [if_neg (by simp [h.defined])] at hstep
  have hschedule : ∀ {use : SchedulerAction} {u : Runtime n},
      s.schedule use = some u → Leaves x s u := by
    intro use u huse
    obtain ⟨-, rfl⟩ := schedule_eq_some huse
    exact .of_same rfl rfl rfl
  cases action with
  | addFiber | addAndRunFiber | yieldCurrentFiber | exitCurrentFiber =>
      obtain ⟨fiber, -, huse⟩ := Option.bind_eq_some_iff.mp hstep
      exact hschedule huse
  | waitForFD fd condition timeout now reallocated block inserted =>
      obtain ⟨fiber, hfiber, hwait⟩ := Option.bind_eq_some_iff.mp hstep
      split_ifs at hwait with hguard
      have hleaves : Leaves x { s with clock := now } t :=
        leaves_waitForFD (setClock_keeps h now).invariant (caller_eq_some hfiber).2 hguard.2 hwait
      exact ⟨hleaves.position, hleaves.semaphore, hleaves.event⟩
  | sleepCurrentFiber duration now inserted =>
      obtain ⟨fiber, hfiber, hsleep⟩ := Option.bind_eq_some_iff.mp hstep
      split_ifs at hsleep with hguard
      cases hsleep
      cases inserted with
      | true => exact .suspend rfl rfl rfl (caller_eq_some hfiber).2
      | false => exact .of_same rfl rfl rfl
  | doWork function argument woken =>
      obtain ⟨fiber, hfiber, hwork⟩ := Option.bind_eq_some_iff.mp hstep
      unfold Runtime.doWork at hwork
      dsimp only at hwork
      split at hwork
      · cases hwork
      · cases hwork
        exact .suspend rfl rfl rfl (caller_eq_some hfiber).2
  | eventWaitFor event =>
      obtain ⟨fiber, hfiber, rfl⟩ := Option.map_eq_some_iff.mp hstep
      have hout := (caller_eq_some hfiber).2
      have hmoved :
          Leaves x s { s with position := Function.update s.position fiber (.inEvent event) } :=
        .of_moved rfl (by simp [hout, Position.shared]) hx rfl rfl
      refine ⟨hmoved.position, fun _ _ => rfl, ?_⟩
      rintro other rfl
      exact Function.update_of_ne (fun ho => hx (by rw [ho]; rfl)) ..
  | eventTrigger event =>
      obtain ⟨fiber, -, rfl⟩ := Option.map_eq_some_iff.mp hstep
      exact leaves_eventTrigger event hx
  | semaphoreDown i =>
      obtain ⟨fiber, hfiber, rfl⟩ := Option.map_eq_some_iff.mp hstep
      exact leaves_semaphore (caller_eq_some hfiber).2 hx rfl
  | semaphoreUp i =>
      obtain ⟨fiber, hfiber, rfl⟩ := Option.map_eq_some_iff.mp hstep
      exact leaves_semaphore (caller_eq_some hfiber).2 hx rfl
  | close fd =>
      obtain ⟨fiber, -, rfl⟩ := Option.map_eq_some_iff.mp hstep
      unfold Runtime.close
      split <;> exact .of_same rfl rfl rfl
  | proceed =>
      obtain ⟨fiber, ha, hproceed⟩ := Option.bind_eq_some_iff.mp hstep
      rw [concerns, ha, Option.bind_some] at hx
      exact leaves_proceed hx hproceed
  | worker action =>
      dsimp only at hstep
      split_ifs at hstep
      obtain ⟨pool, -, rfl⟩ := Option.map_eq_some_iff.mp hstep
      exact .of_same rfl rfl rfl
  | schedulerTick =>
      dsimp only at hstep
      split_ifs at hstep
      obtain ⟨u, huse, rfl⟩ := Option.map_eq_some_iff.mp hstep
      have hleaves := hschedule huse
      exact ⟨hleaves.position, hleaves.semaphore, hleaves.event⟩
  | poll freeSlot outcome memory =>
      dsimp only at hstep
      split_ifs at hstep
      unfold Runtime.poll at hstep
      split at hstep <;> cases hstep <;> exact .of_same rfl rfl rfl
  | dispatch =>
      dsimp only at hstep
      split_ifs at hstep
      unfold Runtime.dispatch at hstep
      rcases hcalls : s.async.calls with _ | ⟨next, calls⟩ <;> simp only [hcalls,
        reduceCtorEq] at hstep
      split_ifs at hstep
      cases hstep
      obtain ⟨hposition, hlists, hsemaphores, -⟩ :=
        (Uses.call declared { s with async := { s.async with calls := calls } } next).shares
      exact .of_same hposition hlists hsemaphores
  | expire now due memory =>
      dsimp only at hstep
      split_ifs at hstep
      unfold Runtime.expire at hstep
      split at hstep <;> cases hstep
      exact .of_same rfl rfl rfl

end Runtime

/-! ## One semaphore -/

/-- Where a fiber is, seen from a semaphore. -/
def Position.ofSemaphore (i : ℕ) : Position → Sync.Position
  | .inDown j => if j = i then .inDown else .outside
  | .inUp j => if j = i then .inUp else .outside
  | _ => .outside

/-- Seen from one semaphore, a fiber is outside exactly if it is not suspended in that semaphore,
wherever else it may be. -/
theorem ofSemaphore_eq_outside {i : ℕ} {position : Position} :
    position.ofSemaphore i = .outside ↔ position.shared ≠ some (.semaphore i) := by
  cases position <;> simp [Position.ofSemaphore, Position.shared]

/-- The rest of the program has done something with the scheduler. -/
theorem semaphore_driven {e : SemaphoreState} {next : Scheduler} (he : semaphoreSystem.Reachable e)
    (h : Driven (fun fiber => e.position fiber = .outside) e.scheduler next) :
    semaphoreSystem.Reachable { e with scheduler := next } := by
  induction h with
  | refl => exact he
  | @tail scheduler last _ hstep ih =>
      obtain ⟨action, hapart, hstep⟩ := hstep
      obtain ⟨hen, rfl⟩ := schedulerSystem_step hstep
      have hspares : SemaphoreState.Spares { e with scheduler := scheduler } action := by
        cases action with
        | resumeFiber fiber => exact hapart.spares fiber (.inl rfl)
        | unresumeFiber fiber => exact hapart.spares fiber (.inr rfl)
        | _ => trivial
      have hnext : semaphoreSystem.step { e with scheduler := scheduler } (.scheduler action) =
          some { e with scheduler := scheduler.apply action } :=
        if_pos ⟨fun fiber ha => hapart.runs fiber ha, hen, hspares⟩
      exact ih.step trivial hnext

namespace Runtime

variable {s t : Runtime n} {declared : Fields FieldName} {action : RuntimeAction n}
  {fiber : FiberId}

/-- The runtime, seen from a semaphore. -/
def semaphoreState (s : Runtime n) (i : ℕ) : SemaphoreState where
  scheduler := s.scheduler
  semaphore := s.semaphores i
  position fiber := (s.position fiber).ofSemaphore i

/-- A fiber has moved, and seen from the semaphore it is at the place that its new position stands
for. -/
theorem ofSemaphore_update (i : ℕ) (position : Position) :
    (fun other => (Function.update s.position fiber position other).ofSemaphore i) =
      Function.update (fun other => (s.position other).ofSemaphore i) fiber
      (position.ofSemaphore i) := by
  funext other
  by_cases ho : other = fiber
  · simp [ho]
  · simp [ho]

/-- The caller is outside, also as it is seen from the semaphore, and it is the running fiber. -/
theorem semaphoreState_caller {i : ℕ} (hcaller : s.caller = some fiber) :
    (s.semaphoreState i).scheduler.activeFiber = some fiber ∧
      (s.semaphoreState i).position fiber = .outside := by
  obtain ⟨ha, hout⟩ := caller_eq_some hcaller
  exact ⟨ha, by simp [semaphoreState, hout, Position.ofSemaphore]⟩

/-- A call of a function of the semaphore, which may block. -/
theorem semaphoreState_called {i : ℕ} {semaphore : Semaphore} {scheduler : Scheduler}
    {blocked : Bool} (position : Position) :
    semaphoreState
      { s with
        scheduler := scheduler
        semaphores := Function.update s.semaphores i semaphore
        position := if blocked then Function.update s.position fiber position else s.position } i =
      { scheduler := scheduler
        semaphore := semaphore
        position := if blocked then
            Function.update (s.semaphoreState i).position fiber (position.ofSemaphore i)
          else (s.semaphoreState i).position } := by
  simp only [semaphoreState, Function.update_self]
  cases blocked with
  | false => rfl
  | true => simp only [if_true, ofSemaphore_update]

/-- What is left of a call after the suspension, seen from the semaphore: the fiber is outside
again. -/
theorem semaphoreState_returned {i : ℕ} {semaphore : Semaphore} {scheduler : Scheduler} :
    semaphoreState
      { s with
        scheduler := scheduler
        semaphores := Function.update s.semaphores i semaphore
        position := Function.update s.position fiber .outside } i =
      { scheduler := scheduler
        semaphore := semaphore
        position := Function.update (s.semaphoreState i).position fiber .outside } := by
  simp only [semaphoreState, Function.update_self, ofSemaphore_update]
  rfl

/-- The steps that concern a semaphore are its own: each of them is a step of the system in which
this semaphore is alone. -/
theorem semaphore_step {i : ℕ} (h : s.Invariant []) (hstep : s.step declared action = some t)
    (hx : s.concerns action = some (.semaphore i)) :
    ∃ act, semaphoreSystem.step (s.semaphoreState i) act = some (t.semaphoreState i) := by
  unfold step at hstep
  rw [if_neg (by simp [h.defined])] at hstep
  cases action <;> simp only [concerns, Option.some.injEq, Shared.semaphore.injEq,
    reduceCtorEq] at hx
  case semaphoreDown j =>
    subst hx
    obtain ⟨fiber, hcaller, rfl⟩ := Option.map_eq_some_iff.mp hstep
    obtain ⟨ha, hout⟩ := s.semaphoreState_caller (i := j) hcaller
    refine ⟨.down, ?_⟩
    simp only [semaphoreSystem, SemaphoreState.step, ha, hout, Option.bind_eq_bind,
      Option.bind_some, if_true, semaphoreDown, semaphoreState_called]
    rw [show Position.ofSemaphore j (.inDown j) = .inDown from if_pos rfl]
    rfl
  case semaphoreUp j =>
    subst hx
    obtain ⟨fiber, hcaller, rfl⟩ := Option.map_eq_some_iff.mp hstep
    obtain ⟨ha, hout⟩ := s.semaphoreState_caller (i := j) hcaller
    refine ⟨.up, ?_⟩
    simp only [semaphoreSystem, SemaphoreState.step, ha, hout, Option.bind_eq_bind,
      Option.bind_some, if_true, semaphoreUp, semaphoreState_called]
    rw [show Position.ofSemaphore j (.inUp j) = .inUp from if_pos rfl]
    rfl
  case proceed =>
    obtain ⟨fiber, ha, hproceed⟩ := Option.bind_eq_some_iff.mp hstep
    have ha' : (s.semaphoreState i).scheduler.activeFiber = some fiber := ha
    rw [ha, Option.bind_some] at hx
    refine ⟨.proceed, ?_⟩
    unfold Runtime.proceed at hproceed
    rcases hpos : s.position fiber with _ | call | event | j | j <;>
      rw [hpos] at hx <;>
      simp only [Position.shared, Option.some.injEq, Shared.semaphore.injEq, reduceCtorEq] at hx
    · subst hx
      have hthere : (s.semaphoreState j).position fiber = .inDown := by
        simp [semaphoreState, hpos, Position.ofSemaphore]
      simp only [hpos, Option.some.injEq] at hproceed
      subst hproceed
      simp only [semaphoreSystem, SemaphoreState.step, ha', hthere, Option.bind_eq_bind,
        Option.bind_some, semaphoreState_returned]
      rfl
    · subst hx
      have hthere : (s.semaphoreState j).position fiber = .inUp := by
        simp [semaphoreState, hpos, Position.ofSemaphore]
      simp only [hpos, Option.some.injEq] at hproceed
      subst hproceed
      simp only [semaphoreSystem, SemaphoreState.step, ha', hthere, Option.bind_eq_bind,
        Option.bind_some, semaphoreState_returned]
      rfl

/-- **Each semaphore has had a run of its own** after a step too, if it had one before. -/
theorem semaphoreState_step {i : ℕ} (h : s.Invariant []) (hproper : Proper declared s action)
    (hstep : s.step declared action = some t)
    (hreach : semaphoreSystem.Reachable (s.semaphoreState i)) :
    semaphoreSystem.Reachable (t.semaphoreState i) := by
  by_cases hx : s.concerns action = some (.semaphore i)
  · obtain ⟨act, hact⟩ := semaphore_step h hstep hx
    exact hreach.step trivial hact
  · obtain ⟨hposition, hsemaphore, -⟩ := leaves_step h hstep hx
    obtain ⟨hdriven, -⟩ :=
      uses_step (fun position => position.ofSemaphore i = .outside) h hproper hstep
      fun position hp => ofSemaphore_eq_outside.mpr fun hin => by
        rcases hp with hp | hp
        · cases hp.symm.trans hin
        · exact hx (hp.symm.trans hin)
    have hsame : t.semaphoreState i = { s.semaphoreState i with scheduler := t.scheduler } := by
      unfold semaphoreState
      rw [hsemaphore i rfl]
      congr 1
      funext fiber
      change (t.position fiber).ofSemaphore i = (s.position fiber).ofSemaphore i
      by_cases hin : (s.position fiber).shared = some (.semaphore i) ∨
          (t.position fiber).shared = some (.semaphore i)
      · rw [hposition fiber hin]
      · obtain ⟨hwas, his⟩ := not_or.mp hin
        rw [ofSemaphore_eq_outside.mpr hwas, ofSemaphore_eq_outside.mpr his]
    rw [hsame]
    exact semaphore_driven hreach hdriven

end Runtime

/-! ## One event -/

/-- The rest of the program has done something with the scheduler. -/
theorem event_driven {e : EventState} {pending : List (ℕ × WaiterId)} {next : Scheduler}
    (he : eventSystem.Reachable e) (hqueue : e.Queue pending)
    (h : Driven (fun fiber => e.position fiber = .outside) e.scheduler next) :
    eventSystem.Reachable { e with scheduler := next } ∧
      ({ e with scheduler := next } : EventState).Queue pending := by
  induction h with
  | refl => exact ⟨he, hqueue⟩
  | @tail scheduler last _ hstep ih =>
      obtain ⟨hreach, hqueue'⟩ := ih
      obtain ⟨action, hapart, hstep⟩ := hstep
      obtain ⟨hen, rfl⟩ := schedulerSystem_step hstep
      have hruns : EventState.RunsOutside { e with scheduler := scheduler } := fun fiber ha =>
        hapart.runs fiber ha
      have hspares : EventState.Spares { e with scheduler := scheduler } action := by
        cases action with
        | resumeFiber fiber => exact hapart.spares fiber (.inl rfl)
        | unresumeFiber fiber => exact hapart.spares fiber (.inr rfl)
        | _ => trivial
      have hnext : eventSystem.step { e with scheduler := scheduler } (.scheduler action) =
          some { e with scheduler := scheduler.apply action } := if_pos ⟨hruns, hen, hspares⟩
      exact ⟨hreach.step trivial hnext, hqueue'.schedule hruns hen hspares⟩

namespace Runtime

variable {s t : Runtime n} {declared : Fields FieldName} {action : RuntimeAction n}
  {fiber : FiberId}

/-- The runtime, seen from an event: the fibers in the list are those of the waiters in memory, in
this order. -/
structure Shows (s : Runtime n) (event : ℕ) (e : EventState) (pending : List (ℕ × WaiterId)) :
    Prop where
  /-- It is the same scheduler. -/
  scheduler : e.scheduler = s.scheduler
  /-- Who waits for the event. -/
  position : ∀ fiber, e.position fiber = .outside ↔ s.position fiber ≠ .inEvent event
  /-- The waiters are linked. -/
  queue : e.Queue pending
  /-- They belong to these fibers. -/
  waiters : pending.map (·.2.stack) = s.waiterList event

/-- A call of `Event_WaitFor` is a step of the event's own system, with one more waiter behind the
others. -/
theorem Shows.waitFor {event : ℕ} {e : EventState} {pending : List (ℕ × WaiterId)}
    (h : s.Shows event e pending) (hcaller : s.caller = some fiber) :
    ∃ next pending', eventSystem.step e (.waitFor 0) = some next ∧
      (s.eventWaitFor fiber event).Shows event next pending' := by
  obtain ⟨ha, hout⟩ := caller_eq_some hcaller
  have ha' : e.scheduler.activeFiber = some fiber := by rw [h.scheduler]; exact ha
  have hout' : e.position fiber = .outside := (h.position fiber).mpr (by simp [hout])
  refine ⟨e.waitFor fiber 0, pending ++ [(e.made, ⟨fiber, 0⟩)], ?_, ?_, fun other => ?_,
    h.queue.waitFor ha' hout' 0, ?_⟩
  · have hwho := EventState.caller_eq_some.mpr ⟨ha', hout'⟩
    simp only [eventSystem, EventState.step, hwho, Option.map_some]
  · simp only [EventState.waitFor, eventWaitFor, suspend, h.scheduler]
  · simp only [EventState.waitFor, eventWaitFor, suspend]
    by_cases ho : other = fiber
    · simp [ho]
    · simp [ho, h.position]
  · simp [eventWaitFor, suspend, h.waiters]

/-- A call of `Event_Trigger` is a step of the event's own system, which releases the first waiter
if there is one. -/
theorem Shows.trigger {event : ℕ} {e : EventState} {pending : List (ℕ × WaiterId)}
    (h : s.Shows event e pending) (hcaller : s.caller = some fiber) :
    ∃ next pending', eventSystem.step e .trigger = some next ∧
      (s.eventTrigger event).Shows event next pending' := by
  obtain ⟨ha, hout⟩ := caller_eq_some hcaller
  have ha' : e.scheduler.activeFiber = some fiber := by rw [h.scheduler]; exact ha
  have hout' : e.position fiber = .outside := (h.position fiber).mpr (by simp [hout])
  have hwho := EventState.caller_eq_some.mpr ⟨ha', hout'⟩
  have hstep : eventSystem.step e .trigger = e.trigger := by
    simp only [eventSystem, EventState.step, hwho, Option.bind_some]
  have hwaiters := h.waiters
  rcases pending with _ | ⟨⟨call, waiter⟩, rest⟩
  · refine ⟨e, [], hstep.trans h.queue.trigger_nil, ?_⟩
    have hnone : s.eventTrigger event = s := by
      simp only [eventTrigger, ← hwaiters, List.map_nil]
    rw [hnone]
    exact h
  · refine ⟨_, rest, hstep.trans h.queue.trigger_cons, ?_⟩
    simp only [eventTrigger, ← hwaiters, List.map_cons]
    exact ⟨by rw [h.scheduler], h.position, h.queue.released, by simp⟩

/-- A return from `Event_WaitFor` is a step of the event's own system, by which no waiter comes or
goes. -/
theorem Shows.proceed {event : ℕ} {e : EventState} {pending : List (ℕ × WaiterId)}
    (h : s.Shows event e pending) (ha : s.scheduler.activeFiber = some fiber)
    (hpos : s.position fiber = .inEvent event) :
    ∃ next pending', eventSystem.step e .proceed = some next ∧
      ({ s with position := Function.update s.position fiber .outside } : Runtime n).Shows
      event next
        pending' := by
  have ha' : e.scheduler.activeFiber = some fiber := by rw [h.scheduler]; exact ha
  rcases hpos' : e.position fiber with _ | ⟨call, waiter⟩
  · exact absurd hpos ((h.position fiber).mp hpos')
  · let next : EventState :=
      { e with
        position := Function.update e.position fiber .outside
        returned := e.returned ++ [call] }
    have hqueue : next.Queue pending := h.queue.proceed ha' hpos'
    refine ⟨next, pending, ?_, h.scheduler, fun other => ?_, hqueue, h.waiters⟩
    · simp only [eventSystem, EventState.step, ha', hpos', Option.bind_some]
      rfl
    · by_cases ho : other = fiber
      · simp [next, ho]
      · simp [next, ho, h.position]

/-- The steps that concern an event are its own: each of them is a step of the system in which this
event is alone, and what is shown of it stays true. -/
theorem event_step {event : ℕ} {e : EventState} {pending : List (ℕ × WaiterId)}
    (hs : s.Invariant []) (h : s.Shows event e pending) (hstep : s.step declared action = some t)
    (hx : s.concerns action = some (.event event)) :
    ∃ act next pending', eventSystem.step e act = some next ∧ t.Shows event next pending' := by
  unfold step at hstep
  rw [if_neg (by simp [hs.defined])] at hstep
  cases action <;> simp only [concerns, Option.some.injEq, Shared.event.injEq, reduceCtorEq] at hx
  case eventWaitFor other =>
    subst hx
    obtain ⟨fiber, hcaller, rfl⟩ := Option.map_eq_some_iff.mp hstep
    exact ⟨_, h.waitFor hcaller⟩
  case eventTrigger other =>
    subst hx
    obtain ⟨fiber, hcaller, rfl⟩ := Option.map_eq_some_iff.mp hstep
    exact ⟨_, h.trigger hcaller⟩
  case proceed =>
    obtain ⟨fiber, ha, hproceed⟩ := Option.bind_eq_some_iff.mp hstep
    rw [ha, Option.bind_some] at hx
    unfold Runtime.proceed at hproceed
    rcases hpos : s.position fiber with _ | call | other | j | j <;>
      rw [hpos] at hx <;>
      simp only [Position.shared, Option.some.injEq, Shared.event.injEq, reduceCtorEq] at hx
    subst hx
    simp only [hpos, Option.some.injEq] at hproceed
    subst hproceed
    exact ⟨_, h.proceed ha hpos⟩

/-- **Each event has had a run of its own** after a step too, if it had one before. -/
theorem shows_step {event : ℕ} {e : EventState} {pending : List (ℕ × WaiterId)}
    (hs : s.Invariant []) (hproper : Proper declared s action)
    (hstep : s.step declared action = some t) (hreach : eventSystem.Reachable e)
    (h : s.Shows event e pending) :
    ∃ next pending', eventSystem.Reachable next ∧ t.Shows event next pending' := by
  by_cases hx : s.concerns action = some (.event event)
  · obtain ⟨act, next, pending', hact, hnext⟩ := event_step hs h hstep hx
    exact ⟨next, pending', hreach.step trivial hact, hnext⟩
  · obtain ⟨hposition, -, hlist⟩ := leaves_step hs hstep hx
    obtain ⟨hdriven, -⟩ := uses_step (fun position => position ≠ .inEvent event) hs hproper hstep
      fun position hp => by
        rintro rfl
        rcases hp with hp | hp
        · cases hp
        · exact hx hp.symm
    have hdriven' : Driven (fun fiber => e.position fiber = .outside) e.scheduler t.scheduler := by
      rw [h.scheduler]
      exact hdriven.mono fun fiber => (h.position fiber).mpr
    obtain ⟨hreach', hqueue'⟩ := event_driven hreach h.queue hdriven'
    refine ⟨_, pending, hreach', rfl, fun fiber => ?_,
      hqueue', by rw [hlist event rfl]; exact h.waiters⟩
    refine (h.position fiber).trans (not_congr ⟨fun hin => ?_, fun hin => ?_⟩)
    · rw [hposition fiber (.inl (by rw [hin]; rfl)), hin]
    · rw [← hposition fiber (.inr (by rw [hin]; rfl)), hin]

/-! ## All of them -/

/-- **Every semaphore and every event, whatever else goes on**, has had a run of its own system, in
which the rest of the program spares who waits: fibers come and go, wait for descriptors, sleep,
have works done, and use the other events and semaphores. So what was proved of one semaphore holds
of all of them here, and the list of an event is the ring of the waiters in memory. -/
theorem shared_objects (h : (runtimeSystem n declared).ReachableWhen (Proper declared) s) :
    (∀ i, semaphoreSystem.Reachable (s.semaphoreState i) ∧
      ((s.semaphoreState i).RunsOutside → WakeUpInvariant (s.semaphoreState i))) ∧
    ∀ event, ∃ (e : EventState) (waiters : List WaiterId), eventSystem.Reachable e ∧
      e.scheduler = s.scheduler ∧
      (∀ fiber, e.position fiber = .outside ↔ s.position fiber ≠ .inEvent event) ∧
      e.links.Ring .waiterList (waiters.map .listItem) ∧ waiters.map e.fiber =
      s.waiterList event := by
  have hall : (∀ i, semaphoreSystem.Reachable (s.semaphoreState i)) ∧
      ∀ event, ∃ e pending, eventSystem.Reachable e ∧ s.Shows event e pending := by
    induction h with
    | @init s hs =>
        have hinit : (runtimeSystem n declared).ReachableWhen (Proper declared) s := .init hs
        have hscheduler := scheduler_reachable hinit
        have hout : ∀ fiber, s.position fiber = .outside := hs.position
        refine ⟨fun i => .init ⟨hscheduler, hs.semaphores i, fun fiber => ?_⟩, fun event => ?_⟩
        · simp [semaphoreState, hout, Position.ofSemaphore]
        · have hfresh : eventSystem.Reachable
              ⟨s.scheduler, Links.makeEmpty ⟨id, id⟩ .waiterList, fun _ => 0, fun _ => .outside, 0,
                [], []⟩ :=
            .init ⟨hscheduler, ⟨_, rfl⟩, fun _ => rfl, rfl, rfl, rfl⟩
          obtain ⟨pending, hqueue⟩ := EventState.queue_of_reachable hfresh
          have hnone : pending = [] := by
            rcases pending with _ | ⟨p, pending⟩
            · rfl
            · cases (hqueue.waits p List.mem_cons_self).1
          subst hnone
          refine ⟨_, [], hfresh, rfl, fun fiber => ?_, hqueue, (hs.waiterList event).symm⟩
          simp [hout]
    | step hs hproper hstep ih =>
        have hinvariant := invariant_of_reachable (fun _ _ hc => hc) hs
        refine ⟨fun i => semaphoreState_step hinvariant hproper hstep (ih.1 i), fun event => ?_⟩
        obtain ⟨e, pending, hreach, hshows⟩ := ih.2 event
        exact shows_step hinvariant hproper hstep hreach hshows
  refine ⟨fun i => ⟨hall.1 i, (semaphoreInvariant_of_reachable (hall.1 i)).wakeUpInvariant⟩,
    fun event => ?_⟩
  obtain ⟨e, pending, hreach, hshows⟩ := hall.2 event
  refine ⟨e, pending.map (·.2), hreach, hshows.scheduler, hshows.position, ?_, ?_⟩
  · rw [List.map_map]
    exact hshows.queue.ring
  · rw [← hshows.waiters, List.map_map]
    exact List.map_congr_left fun p hp => (hshows.queue.waits p hp).2.2

/-- Fibers 1 and 2 wait for an event, fiber 3 for a semaphore; fiber 4 triggers the one, raises the
other, and sleeps. -/
def threeWait : List (RuntimeAction 1) :=
  [.schedulerTick, .addFiber 8 0 (some 2), .addFiber 8 0 (some 3), .addFiber 8 0 (some 4),
    .eventWaitFor 7,
    .eventWaitFor 7, .semaphoreDown 3, .eventTrigger 7, .semaphoreUp 3, .sleepCurrentFiber 5 0 true]

/-- In a run with waiters at an event and at a semaphore each of the two has had a run of its own;
the event was triggered for its first waiter, and the second one still waits there. -/
theorem shared_objects_threeWait : ∃ s : Runtime 1,
    (runtimeSystem 1 callback3Context).run started threeWait = some s ∧
      s.waiterList 7 = [2] ∧ (s.semaphores 3).downWaiterList = [3] ∧
      semaphoreSystem.Reachable (s.semaphoreState 3) ∧
      ∃ (e : EventState) (waiters : List WaiterId), eventSystem.Reachable e ∧
      e.scheduler = s.scheduler ∧
        (∀ fiber, e.position fiber = .outside ↔ s.position fiber ≠ .inEvent 7) ∧
        e.links.Ring .waiterList (waiters.map .listItem) ∧ waiters.map e.fiber = [2] := by
  have hend : ((runtimeSystem 1 callback3Context).run started threeWait).map
      (fun s => (s.halted, s.waiterList 7, (s.semaphores 3).downWaiterList)) =
        some (false, [2], [3]) := by
    decide +kernel
  obtain ⟨s, hrun, hs⟩ := Option.map_eq_some_iff.mp hend
  simp only [Prod.mk.injEq] at hs
  obtain ⟨hhalted, hlist, hwaiters⟩ := hs
  have hreach := reachable_of_defined (StepSystem.reachable_of_run started_initial hrun) hhalted
  obtain ⟨hsemaphores, hevents⟩ := shared_objects hreach
  exact ⟨s, hrun, hlist, hwaiters, (hsemaphores 3).1, hlist ▸ hevents 7⟩

end Runtime

end Pixy.Loop
