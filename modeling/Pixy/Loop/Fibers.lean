import Pixy.Loop.Runtime
import Pixy.Sync.WakeUp

/-!
# Where the fibers are

`Placed` says that every fiber is where its position says: in a call of its own, in the list of an
event, or in a list of a semaphore; and that whoever is in none of these is not suspended.

* `Placed.frame`: operations that put nobody to sleep and wake nobody;
* `Placed.moved`: operations by which one fiber falls asleep, wakes up or goes on;
* `Queues`, `Placed.queues`: operations on a semaphore.

`Waiting` is what the rest of the development needs of the fibers: that the caller is suspended in a
call.
-/

namespace Pixy.Loop

open Pixy.Found Pixy.Sched Pixy.Sync Pixy.Poll Pixy.Pool

variable {n : ℕ}

namespace Runtime

/-- Who makes a blocking call. -/
def callerOf (s : Runtime n) (call : CallId) : FiberId := (s.context call).fiber

/-- The caller is suspended in the call. -/
def Waiting (s : Runtime n) (call : CallId) : Prop :=
  s.position (s.callerOf call) = .inCall call ∧ s.scheduler.Suspended (s.callerOf call)

/-- Every fiber is where its position says. -/
structure Placed (s : Runtime n) : Prop where
  /-- The scheduler's invariant holds. -/
  accounted : Accounted s.scheduler
  /-- A suspended fiber is suspended in something. -/
  outside : ∀ fiber, s.position fiber = .outside → ¬s.scheduler.Suspended fiber
  /-- A fiber that is in something is alive. -/
  live : ∀ fiber, s.position fiber ≠ .outside → s.scheduler.Live fiber
  /-- A fiber is in calls of its own. -/
  inCall : ∀ fiber call, s.position fiber = .inCall call →
    s.callerOf call = fiber ∧ 0 < call ∧ call < s.nextCall
  /-- An event's waiters are the fibers suspended in it. -/
  inEvent : ∀ fiber event, fiber ∈ s.waiterList event ↔
    s.position fiber = .inEvent event ∧ s.scheduler.Suspended fiber
  /-- No fiber waits twice. -/
  events : ∀ event, (s.waiterList event).Nodup
  /-- The invariant of every semaphore holds. -/
  queued : ∀ i, WellQueued s.scheduler (s.semaphores i)
  /-- The down-waiters are the fibers inside `Semaphore_Down`. -/
  inDown : ∀ fiber i, s.position fiber = .inDown i ↔ fiber ∈ (s.semaphores i).downWaiterList
  /-- The up-waiters are the fibers inside `Semaphore_Up`. -/
  inUp : ∀ fiber i, s.position fiber = .inUp i ↔ fiber ∈ (s.semaphores i).upWaiterList

variable {s t : Runtime n} {fiber : FiberId} {call : CallId}

/-! ## Waiting calls -/

/-- A call waits exactly if some fiber is suspended in it; which one that is the call itself
knows. -/
theorem Placed.waiting_iff (h : s.Placed) : s.Waiting call ↔
    ∃ fiber, s.position fiber = .inCall call ∧ s.scheduler.Suspended fiber := by
  constructor
  · intro hw
    exact ⟨_, hw⟩
  · rintro ⟨fiber, hpos, hs⟩
    have hc := (h.inCall fiber call hpos).1
    exact ⟨hc ▸ hpos, hc ▸ hs⟩

/-- A call that waits has been made: its number is below the next one, and is not that of the pool's
own watch. -/
theorem Placed.waiting_lt (h : s.Placed) (hw : s.Waiting call) : 0 < call ∧ call < s.nextCall :=
  (h.inCall _ call hw.1).2

/-- A fiber waits in one call only, so two waiting calls of one caller are the same. -/
theorem Waiting.unique {call' : CallId} (h : s.Waiting call) (h' : s.Waiting call')
    (hcaller : s.callerOf call = s.callerOf call') : call = call' := by
  have hpos := h.1
  rw [hcaller, h'.1] at hpos
  exact (Position.inCall.inj hpos).symm

/-- What waiting depends on is where the caller is and whether it is suspended, and nothing else. -/
theorem waiting_congr (hposition : t.position (t.callerOf call) = s.position (s.callerOf call))
    (hsuspended : t.scheduler.Suspended (t.callerOf call) ↔
      s.scheduler.Suspended (s.callerOf call)) : t.Waiting call ↔ s.Waiting call := by
  unfold Waiting
  rw [hposition, hsuspended]

/-- The fiber that makes a call is the running one, and it is outside, in no call that it has not
returned from. -/
theorem caller_eq_some (h : s.caller = some fiber) :
    s.scheduler.activeFiber = some fiber ∧ s.position fiber = .outside := by
  unfold caller at h
  rw [Option.filter_eq_some_iff] at h
  simpa using h

namespace Placed

/-- A fiber in the lists of a semaphore is inside its code. -/
theorem position_of_waiter (h : s.Placed) {i : ℕ}
    (hf : fiber ∈ (s.semaphores i).downWaiterList ++ (s.semaphores i).upWaiterList) :
    s.position fiber = .inDown i ∨ s.position fiber = .inUp i := by
  rw [h.inDown, h.inUp]
  exact List.mem_append.mp hf

/-- Who waits neither to go down nor to go up at a semaphore is in neither of its lists. -/
theorem not_waiter (h : s.Placed) {i : ℕ} (hd : s.position fiber ≠ .inDown i)
    (hu : s.position fiber ≠ .inUp i) :
    fiber ∉ (s.semaphores i).downWaiterList ++ (s.semaphores i).upWaiterList := by
  intro hf
  rcases h.position_of_waiter hf with hp | hp
  · exact hd hp
  · exact hu hp

/-! ## One lemma for each kind of operation -/

/-- **Nobody falls asleep and nobody wakes up**, and nobody moves, so everybody is where the
positions say, and the same calls wait. -/
theorem frame (h : s.Placed) (haccounted : Accounted t.scheduler)
    (hsuspended : ∀ fiber, t.scheduler.Suspended fiber ↔ s.scheduler.Suspended fiber)
    (hinside : ∀ fiber, s.position fiber ≠ .outside → Untouched s.scheduler t.scheduler fiber)
    (hposition : t.position = s.position)
    (hcaller : ∀ call < s.nextCall, t.callerOf call = s.callerOf call)
    (hnext : s.nextCall ≤ t.nextCall) (hlists : t.waiterList = s.waiterList)
    (hsemaphores : t.semaphores = s.semaphores) : t.Placed where
  accounted := haccounted
  outside fiber hpos := by
    rw [hsuspended]
    exact h.outside fiber (hposition ▸ hpos)
  live fiber hpos := by
    rw [hposition] at hpos
    exact (hinside fiber hpos).live.mpr (h.live fiber hpos)
  inCall fiber call hpos := by
    obtain ⟨hc, hpositive, hlt⟩ := h.inCall fiber call (hposition ▸ hpos)
    exact ⟨(hcaller call hlt).trans hc, hpositive, hlt.trans_le hnext⟩
  inEvent fiber event := by
    rw [hlists, hposition, hsuspended]
    exact h.inEvent fiber event
  events := hlists ▸ h.events
  queued i := by
    rw [hsemaphores]
    refine (h.queued i).congr fun fiber hf => ?_
    have hpos : s.position fiber ≠ .outside := by
      rcases h.position_of_waiter hf with hp | hp <;> simp [hp]
    exact ⟨(hinside fiber hpos).live.mpr (h.live fiber hpos), (hinside fiber hpos).awake⟩
  inDown := by rw [hposition, hsemaphores]; exact h.inDown
  inUp := by rw [hposition, hsemaphores]; exact h.inUp

/-- Operations that the fibers do not notice leave them where they are: the scheduler, the positions
and all lists of waiters stay. -/
theorem congr (h : s.Placed) (hscheduler : t.scheduler = s.scheduler)
    (hposition : t.position = s.position)
    (hcaller : ∀ call < s.nextCall, t.callerOf call = s.callerOf call)
    (hnext : s.nextCall ≤ t.nextCall) (hlists : t.waiterList = s.waiterList)
    (hsemaphores : t.semaphores = s.semaphores) : t.Placed :=
  h.frame (hscheduler ▸ h.accounted) (fun _ => by rw [hscheduler])
    (fun _ _ => hscheduler ▸ .refl) hposition hcaller hnext hlists hsemaphores

/-- **One fiber falls asleep, wakes up or goes on**, outside all semaphores. -/
theorem moved (h : s.Placed) (fiber : FiberId) (haccounted : Accounted t.scheduler)
    (hothers : ∀ other ≠ fiber, Untouched s.scheduler t.scheduler other)
    (hposition : ∀ other ≠ fiber, t.position other = s.position other)
    (hcaller : ∀ call < s.nextCall, t.callerOf call = s.callerOf call)
    (hnext : s.nextCall ≤ t.nextCall)
    (hlists : ∀ event, (t.waiterList event).Nodup ∧
      ∀ other ≠ fiber, other ∈ t.waiterList event ↔ other ∈ s.waiterList event)
    (hsemaphores : t.semaphores = s.semaphores)
    (hfree : ∀ i, s.position fiber ≠ .inDown i ∧ s.position fiber ≠ .inUp i ∧
      t.position fiber ≠ .inDown i ∧ t.position fiber ≠ .inUp i)
    (houtside : t.position fiber = .outside → ¬t.scheduler.Suspended fiber)
    (hlive : t.position fiber ≠ .outside → t.scheduler.Live fiber)
    (hcall : ∀ call, t.position fiber = .inCall call →
      t.callerOf call = fiber ∧ 0 < call ∧ call < t.nextCall)
    (hevent : ∀ event, fiber ∈ t.waiterList event ↔
      t.position fiber = .inEvent event ∧ t.scheduler.Suspended fiber) : t.Placed where
  accounted := haccounted
  outside other hpos := by
    by_cases ho : other = fiber
    · subst ho
      exact houtside hpos
    · rw [(hothers other ho).suspended]
      exact h.outside other (hposition other ho ▸ hpos)
  live other hpos := by
    by_cases ho : other = fiber
    · subst ho
      exact hlive hpos
    · exact (hothers other ho).live.mpr (h.live other (hposition other ho ▸ hpos))
  inCall other call hpos := by
    by_cases ho : other = fiber
    · subst ho
      exact hcall call hpos
    · obtain ⟨hc, hpositive, hlt⟩ := h.inCall other call (hposition other ho ▸ hpos)
      exact ⟨(hcaller call hlt).trans hc, hpositive, hlt.trans_le hnext⟩
  inEvent other event := by
    by_cases ho : other = fiber
    · subst ho
      exact hevent event
    · rw [(hlists event).2 other ho, hposition other ho, (hothers other ho).suspended]
      exact h.inEvent other event
  events event := (hlists event).1
  queued i := by
    rw [hsemaphores]
    refine (h.queued i).congr fun other hf => ?_
    have hpos := h.position_of_waiter hf
    have ho : other ≠ fiber := by
      rintro rfl
      rcases hpos with hp | hp
      · exact (hfree i).1 hp
      · exact (hfree i).2.1 hp
    have hinside : s.position other ≠ .outside := by rcases hpos with hp | hp <;> simp [hp]
    exact ⟨(hothers other ho).live.mpr (h.live other hinside), (hothers other ho).awake⟩
  inDown other i := by
    rw [hsemaphores, ← h.inDown]
    by_cases ho : other = fiber
    · subst ho
      exact iff_of_false (hfree i).2.2.1 (hfree i).1
    · rw [hposition other ho]
  inUp other i := by
    rw [hsemaphores, ← h.inUp]
    by_cases ho : other = fiber
    · subst ho
      exact iff_of_false (hfree i).2.2.2 (hfree i).2.1
    · rw [hposition other ho]

end Placed

/-! ## Operations on semaphores -/

/-- **What an operation on a semaphore does**, by the running fiber, which is outside it or inside
it. -/
structure Queues (s t : Runtime n) (fiber : FiberId) (i : ℕ) (semaphore : Semaphore) : Prop where
  accounted : Accounted t.scheduler
  queued : WellQueued t.scheduler semaphore
  /-- Only the fiber and the waiters are concerned. -/
  others : ∀ other ≠ fiber, other ∉ (s.semaphores i).downWaiterList ++
    (s.semaphores i).upWaiterList → Untouched s.scheduler t.scheduler other
  position : ∀ other ≠ fiber, t.position other = s.position other
  caller : t.callerOf = s.callerOf
  nextCall : t.nextCall = s.nextCall
  waiterList : t.waiterList = s.waiterList
  semaphores : t.semaphores = Function.update s.semaphores i semaphore
  /-- The fiber was outside everything, or in the semaphore. -/
  before : s.position fiber = .outside ∨ s.position fiber = .inDown i ∨ s.position fiber = .inUp i
  /-- So it is afterwards. -/
  after : t.position fiber = .outside ∧ ¬t.scheduler.Suspended fiber ∨
    t.position fiber = .inDown i ∨ t.position fiber = .inUp i
  down : ∀ other, t.position other = .inDown i ↔ other ∈ semaphore.downWaiterList
  up : ∀ other, t.position other = .inUp i ↔ other ∈ semaphore.upWaiterList

namespace Queues

variable {i : ℕ} {semaphore : Semaphore} {other : FiberId}

/-- A fiber whose position is elsewhere is neither the one that acts nor a waiter. -/
theorem untouched (hq : s.Queues t fiber i semaphore) (h : s.Placed) (ho : other ≠ fiber)
    (hd : s.position other ≠ .inDown i) (hu : s.position other ≠ .inUp i) :
    Untouched s.scheduler t.scheduler other :=
  hq.others other ho (h.not_waiter hd hu)

/-- Before a call at one semaphore its caller waits at no other. -/
theorem before_elsewhere (hq : s.Queues t fiber i semaphore) {j : ℕ} (hj : j ≠ i) :
    s.position fiber ≠ .inDown j ∧ s.position fiber ≠ .inUp j := by
  rcases hq.before with hp | hp | hp <;> simp [hp, Ne.symm hj]

/-- After a call at one semaphore its caller waits at no other. -/
theorem after_elsewhere (hq : s.Queues t fiber i semaphore) {j : ℕ} (hj : j ≠ i) :
    t.position fiber ≠ .inDown j ∧ t.position fiber ≠ .inUp j := by
  rcases hq.after with ⟨hp, -⟩ | hp | hp <;> simp [hp, Ne.symm hj]

/-- The fiber is in no call and in no event, before and after. -/
theorem not_inCall (hq : s.Queues t fiber i semaphore) (call : CallId) :
    s.position fiber ≠ .inCall call ∧ t.position fiber ≠ .inCall call := by
  constructor
  · rcases hq.before with hp | hp | hp <;> simp [hp]
  · rcases hq.after with ⟨hp, -⟩ | hp | hp <;> simp [hp]

/-- Who calls a semaphore waits for no event, neither before nor after the call. -/
theorem not_inEvent (hq : s.Queues t fiber i semaphore) (event : ℕ) :
    s.position fiber ≠ .inEvent event ∧ t.position fiber ≠ .inEvent event := by
  constructor
  · rcases hq.before with hp | hp | hp <;> simp [hp]
  · rcases hq.after with ⟨hp, -⟩ | hp | hp <;> simp [hp]

/-- Who is outside after the operation on the semaphore is not suspended, as it was not before and
is no waiter. -/
theorem outside (hq : s.Queues t fiber i semaphore) (h : s.Placed)
    (hpos : t.position other = .outside) : ¬t.scheduler.Suspended other := by
  by_cases ho : other = fiber
  · subst ho
    rcases hq.after with ⟨-, hs⟩ | hp | hp
    · exact hs
    · cases hpos.symm.trans hp
    · cases hpos.symm.trans hp
  · rw [hq.position other ho] at hpos
    rw [(hq.untouched h ho (by simp [hpos]) (by simp [hpos])).suspended]
    exact h.outside other hpos

/-- Who is in something after the operation is alive, since it was before, and the operation kills
nobody. -/
theorem live (hq : s.Queues t fiber i semaphore) (h : s.Placed)
    (hpos : t.position other ≠ .outside) :
    t.scheduler.Live other := by
  by_cases hin : t.position other = .inDown i ∨ t.position other = .inUp i
  · apply hq.queued.live
    rw [hq.down, hq.up] at hin
    exact List.mem_append.mpr hin
  · by_cases ho : other = fiber
    · subst ho
      rcases hq.after with ⟨hp, -⟩ | hp
      · exact absurd hp hpos
      · exact absurd hp hin
    · rw [hq.position other ho, not_or] at hin
      rw [hq.position other ho] at hpos
      exact (hq.untouched h ho hin.1 hin.2).live.mpr (h.live other hpos)

/-- Another semaphore's waiters notice nothing, since a fiber waits for one semaphore at a time. -/
theorem queued_elsewhere (hq : s.Queues t fiber i semaphore) (h : s.Placed) {j : ℕ} (hj : j ≠ i) :
    WellQueued t.scheduler (s.semaphores j) := by
  refine (h.queued j).congr fun other hf => ?_
  have hpos := h.position_of_waiter hf
  have ho : other ≠ fiber := by
    rintro rfl
    rcases hpos with hp | hp
    · exact (hq.before_elsewhere hj).1 hp
    · exact (hq.before_elsewhere hj).2 hp
  have hd : s.position other ≠ .inDown i := by
    rcases hpos with hp | hp <;> simp [hp, hj]
  have hu : s.position other ≠ .inUp i := by
    rcases hpos with hp | hp <;> simp [hp, hj]
  have hinside : s.position other ≠ .outside := by
    rcases hpos with hp | hp <;> simp [hp]
  have huntouched := hq.untouched h ho hd hu
  exact ⟨huntouched.live.mpr (h.live other hinside), huntouched.awake⟩

/-- **The fibers are where their positions say** after the operation on the semaphore as well. -/
theorem placed (hq : s.Queues t fiber i semaphore) (h : s.Placed) : t.Placed where
  accounted := hq.accounted
  outside _ := hq.outside h
  live _ := hq.live h
  inCall other call hpos := by
    rw [hq.caller, hq.nextCall]
    by_cases ho : other = fiber
    · subst ho
      exact absurd hpos (hq.not_inCall call).2
    · exact h.inCall other call (hq.position other ho ▸ hpos)
  inEvent other event := by
    rw [hq.waiterList, h.inEvent]
    by_cases ho : other = fiber
    · subst ho
      simp [hq.not_inEvent event]
    · rw [hq.position other ho]
      refine and_congr_right fun hpos => ?_
      rw [(hq.untouched h ho (by simp [hpos]) (by simp [hpos])).suspended]
  events := hq.waiterList ▸ h.events
  queued j := by
    rw [hq.semaphores]
    by_cases hj : j = i
    · subst hj
      rw [Function.update_self]
      exact hq.queued
    · rw [Function.update_of_ne hj]
      exact hq.queued_elsewhere h hj
  inDown other j := by
    rw [hq.semaphores]
    by_cases hj : j = i
    · subst hj
      rw [Function.update_self]
      exact hq.down other
    · rw [Function.update_of_ne hj, ← h.inDown]
      by_cases ho : other = fiber
      · subst ho
        exact iff_of_false (hq.after_elsewhere hj).1 (hq.before_elsewhere hj).1
      · rw [hq.position other ho]
  inUp other j := by
    rw [hq.semaphores]
    by_cases hj : j = i
    · subst hj
      rw [Function.update_self]
      exact hq.up other
    · rw [Function.update_of_ne hj, ← h.inUp]
      by_cases ho : other = fiber
      · subst ho
        exact iff_of_false (hq.after_elsewhere hj).2 (hq.before_elsewhere hj).2
      · rw [hq.position other ho]

end Queues

namespace Placed

/-! ## The operations -/

/-- Who is suspended in which call is all that waiting is about. -/
theorem waiting_iff_of (h : s.Placed) (h' : t.Placed)
    (hsame : ∀ fiber, t.position fiber = .inCall call ∧ t.scheduler.Suspended fiber ↔
      s.position fiber = .inCall call ∧ s.scheduler.Suspended fiber) :
    t.Waiting call ↔ s.Waiting call := by
  rw [h.waiting_iff, h'.waiting_iff]
  exact exists_congr hsame

/-- A use of the scheduler by a fiber that is in nothing, or by the loop. -/
theorem schedule (h : s.Placed) {action : SchedulerAction} (hen : s.scheduler.Enabled action)
    (hrun : ∀ fiber, s.scheduler.activeFiber = some fiber → s.position fiber = .outside)
    (hsuspend : action ≠ .suspendCurrentFiber) (hresume : ∀ f, action ≠ .resumeFiber f)
    (hunresume : ∀ f, action ≠ .unresumeFiber f) :
    Placed { s with scheduler := s.scheduler.apply action } ∧
      ∀ call, Waiting { s with scheduler := s.scheduler.apply action } call ↔ s.Waiting call := by
  have hsuspended : ∀ fiber, (s.scheduler.apply action).Suspended fiber ↔
      s.scheduler.Suspended fiber :=
    fun fiber => h.accounted.suspended_apply hen hsuspend hresume hunresume
  refine ⟨h.frame (h.accounted.apply hen) hsuspended ?_ rfl (fun _ _ => rfl) le_rfl rfl rfl,
    fun call => waiting_congr rfl (hsuspended _)⟩
  intro fiber hpos
  obtain ⟨hlive, hawake⟩ := h.accounted.apply_frame hen (h.live fiber hpos)
    (fun ha => hpos (hrun fiber ha)) (hresume fiber) (hunresume fiber)
  exact ⟨iff_of_true hlive (h.live fiber hpos), hawake⟩

/-- `Scheduler_SuspendCurrentFiber` leaves all fibers alone but the running one, which is the one
that it suspends. -/
theorem untouched_suspend (h : s.Placed) (ha : s.scheduler.activeFiber = some fiber) :
    ∀ other ≠ fiber, Untouched s.scheduler s.scheduler.suspendCurrentFiber other := by
  intro other ho
  refine ⟨Accounted.live_suspendCurrentFiber ha, ?_⟩
  rw [h.accounted.awake_suspendCurrentFiber ha]
  simp [ho]

/-- `Scheduler_ResumeFiber` leaves all fibers alone but the one that it is given. -/
theorem untouched_resume (other : FiberId) (ho : other ≠ fiber) :
    Untouched s.scheduler (s.scheduler.resumeFiber fiber) other := by
  refine ⟨.rfl, ?_⟩
  rw [Accounted.awake_resumeFiber]
  simp [ho]

/-- **A fiber blocks in a new call**: it is suspended there, the call waits, and the others wait as
before. -/
theorem block (h : s.Placed) (hcaller : s.caller = some fiber)
    (hscheduler : t.scheduler = s.scheduler.suspendCurrentFiber)
    (hposition : t.position = Function.update s.position fiber (.inCall s.nextCall))
    (hnew : t.callerOf s.nextCall = fiber)
    (hold : ∀ call < s.nextCall, t.callerOf call = s.callerOf call)
    (hnext : t.nextCall = s.nextCall + 1) (hpositive : 0 < s.nextCall)
    (hlists : t.waiterList = s.waiterList) (hsemaphores : t.semaphores = s.semaphores) :
    t.Placed ∧ ∀ call, t.Waiting call ↔ s.Waiting call ∨ call = s.nextCall := by
  obtain ⟨ha, hout⟩ := caller_eq_some hcaller
  have hself : t.position fiber = .inCall s.nextCall := by rw [hposition, Function.update_self]
  have hothers : ∀ other ≠ fiber, t.position other = s.position other := by
    intro other ho
    rw [hposition, Function.update_of_ne ho]
  have hs : ∀ other, t.scheduler.Suspended other ↔ other = fiber ∨ s.scheduler.Suspended other := by
    intro other
    rw [hscheduler]
    exact h.accounted.suspended_suspendCurrentFiber ha
  have hplaced : t.Placed := by
    refine h.moved fiber (hscheduler ▸ h.accounted.suspendCurrentFiber)
      (hscheduler ▸ h.untouched_suspend ha) hothers hold (hnext ▸ Nat.le_succ _)
      ?_ hsemaphores ?_ ?_ ?_ ?_ ?_
    · intro event
      rw [hlists]
      exact ⟨h.events event, fun _ _ => .rfl⟩
    · simp [hself, hout]
    · simp [hself]
    · intro _
      exact (Scheduler.suspended_iff.mp ((hs fiber).mpr (.inl rfl))).1
    · intro call hpos
      cases hself.symm.trans hpos
      exact ⟨hnew, hpositive, hnext ▸ Nat.lt_succ_self _⟩
    · intro event
      rw [hlists, h.inEvent, hout, hself]
      simp
  refine ⟨hplaced, fun call => ?_⟩
  rw [hplaced.waiting_iff, h.waiting_iff]
  constructor
  · rintro ⟨other, hpos, hsus⟩
    by_cases ho : other = fiber
    · subst ho
      exact .inr (Position.inCall.inj (hpos.symm.trans hself))
    · exact .inl ⟨other, hothers other ho ▸ hpos, ((hs other).mp hsus).resolve_left ho⟩
  · rintro (⟨other, hpos, hsus⟩ | rfl)
    · have ho : other ≠ fiber := by
        rintro rfl
        cases hout.symm.trans hpos
      exact ⟨other, (hothers other ho).trans hpos, (hs other).mpr (.inr hsus)⟩
    · exact ⟨fiber, hself, (hs fiber).mpr (.inl rfl)⟩

/-- **A callback wakes the caller of a call**, which waits no longer, while all other calls wait as
before. -/
theorem wake (h : s.Placed) (hw : s.Waiting call)
    (hscheduler : t.scheduler = s.scheduler.resumeFiber (s.callerOf call))
    (hposition : t.position = s.position) (hcaller : t.callerOf = s.callerOf)
    (hnext : t.nextCall = s.nextCall) (hlists : t.waiterList = s.waiterList)
    (hsemaphores : t.semaphores = s.semaphores) :
    t.Placed ∧ ∀ other, t.Waiting other ↔ s.Waiting other ∧ other ≠ call := by
  obtain ⟨hpos, hsus⟩ := hw
  have hs : ∀ other, t.scheduler.Suspended other ↔
      other ≠ s.callerOf call ∧ s.scheduler.Suspended other := by
    intro other
    rw [hscheduler]
    exact Accounted.suspended_resumeFiber
  have hplaced : t.Placed := by
    refine h.moved (s.callerOf call) (hscheduler ▸ h.accounted.resume hsus)
      (hscheduler ▸ untouched_resume) (by simp [hposition]) (by simp [hcaller]) hnext.ge ?_
      hsemaphores ?_ ?_ ?_ ?_ ?_
    · intro event
      rw [hlists]
      exact ⟨h.events event, fun _ _ => .rfl⟩
    · simp [hposition, hpos]
    · simp [hposition, hpos]
    · intro _
      rw [hscheduler]
      exact (Scheduler.suspended_iff.mp hsus).1
    · rw [hposition, hcaller, hnext]
      exact h.inCall _
    · intro event
      rw [hlists, h.inEvent, hposition, hpos]
      simp
  refine ⟨hplaced, fun other => ?_⟩
  unfold Waiting
  rw [hposition, hcaller, hs]
  constructor
  · rintro ⟨hp, hne, hsus'⟩
    refine ⟨⟨hp, hsus'⟩, ?_⟩
    rintro rfl
    exact hne rfl
  · rintro ⟨hw', hne⟩
    exact ⟨hw'.1, fun hc => hne (Waiting.unique (s := s) hw' ⟨hpos, hsus⟩ hc), hw'.2⟩

/-- **A fiber waits for an event**, at the end of its list of waiters, and no call begins or ends to
wait. -/
theorem eventWaitFor (h : s.Placed) (hcaller : s.caller = some fiber) (event : ℕ) :
    (s.eventWaitFor fiber event).Placed ∧
      ∀ call, (s.eventWaitFor fiber event).Waiting call ↔ s.Waiting call := by
  obtain ⟨ha, hout⟩ := caller_eq_some hcaller
  have hself : (s.eventWaitFor fiber event).position fiber = .inEvent event :=
    Function.update_self ..
  have hothers : ∀ other ≠ fiber,
      (s.eventWaitFor fiber event).position other = s.position other :=
    fun other ho => Function.update_of_ne ho ..
  have hs : ∀ other, (s.eventWaitFor fiber event).scheduler.Suspended other ↔
      other = fiber ∨ s.scheduler.Suspended other :=
    fun other => h.accounted.suspended_suspendCurrentFiber ha
  have hnot : fiber ∉ s.waiterList event := by
    intro hf
    cases hout.symm.trans ((h.inEvent fiber event).mp hf).1
  have hlist : ∀ e, (s.eventWaitFor fiber event).waiterList e =
      if e = event then s.waiterList event ++ [fiber] else s.waiterList e :=
    fun e => Function.update_apply ..
  have hplaced : (s.eventWaitFor fiber event).Placed := by
    refine h.moved fiber h.accounted.suspendCurrentFiber (h.untouched_suspend ha) hothers
      (fun _ _ => rfl) le_rfl ?_ rfl ?_ ?_ ?_ ?_ ?_
    · intro e
      rw [hlist]
      split_ifs with he
      · subst he
        refine ⟨List.nodup_append_comm.mp (List.nodup_cons.mpr ⟨hnot, h.events e⟩), ?_⟩
        intro other ho
        simp [ho]
      · exact ⟨h.events e, fun _ _ => .rfl⟩
    · simp [hself, hout]
    · simp [hself]
    · intro _
      exact (Scheduler.suspended_iff.mp ((hs fiber).mpr (.inl rfl))).1
    · simp [hself]
    · intro e
      rw [hlist, hself, hs]
      split_ifs with he
      · simp [he]
      · rw [h.inEvent, hout]
        simp [Ne.symm he]
  refine ⟨hplaced, fun call => h.waiting_iff_of hplaced fun other => ?_⟩
  by_cases ho : other = fiber
  · subst ho
    simp [hself, hout]
  · rw [hothers other ho, hs]
    simp [ho]

/-- **A fiber triggers an event**, whose first waiter is made ready if there is one, and no call
begins or ends to wait. -/
theorem eventTrigger (h : s.Placed) (event : ℕ) : (s.eventTrigger event).Placed ∧
    ∀ call, (s.eventTrigger event).Waiting call ↔ s.Waiting call := by
  rcases hwaiters : s.waiterList event with _ | ⟨first, waiters⟩
  · have heq : s.eventTrigger event = s := by simp [Runtime.eventTrigger, hwaiters]
    rw [heq]
    exact ⟨h, fun _ => .rfl⟩
  · have heq : s.eventTrigger event = { s with
        waiterList := Function.update s.waiterList event waiters
        scheduler := s.scheduler.resumeFiber first } := by
      simp [Runtime.eventTrigger, hwaiters]
    rw [heq]
    obtain ⟨hpos, hsus⟩ := (h.inEvent first event).mp (hwaiters ▸ List.mem_cons_self)
    obtain ⟨hnot, hnodup⟩ := List.nodup_cons.mp (hwaiters ▸ h.events event)
    have hs : ∀ other, (s.scheduler.resumeFiber first).Suspended other ↔
        other ≠ first ∧ s.scheduler.Suspended other :=
      fun other => Accounted.suspended_resumeFiber
    have hplaced : Placed { s with
        waiterList := Function.update s.waiterList event waiters
        scheduler := s.scheduler.resumeFiber first } := by
      refine h.moved first (h.accounted.resume hsus) untouched_resume (fun _ _ => rfl)
        (fun _ _ => rfl) le_rfl ?_ rfl ?_ ?_ ?_ ?_ ?_
      · intro e
        dsimp only
        by_cases he : e = event
        · subst he
          rw [Function.update_self, hwaiters]
          refine ⟨hnodup, ?_⟩
          intro other ho
          simp [ho]
        · rw [Function.update_of_ne he]
          exact ⟨h.events e, fun _ _ => .rfl⟩
      · simp [hpos]
      · simp [hpos]
      · intro _
        exact (Scheduler.suspended_iff.mp hsus).1
      · simp [hpos]
      · intro e
        dsimp only
        rw [hs]
        by_cases he : e = event
        · subst he
          simp [hnot]
        · rw [Function.update_of_ne he, h.inEvent, hpos]
          simp [Ne.symm he]
    refine ⟨hplaced, fun call => h.waiting_iff_of hplaced fun other => ?_⟩
    rw [hs]
    constructor
    · rintro ⟨hp, -, hsus'⟩
      exact ⟨hp, hsus'⟩
    · rintro ⟨hp, hsus'⟩
      refine ⟨hp, ?_, hsus'⟩
      rintro rfl
      cases hpos.symm.trans hp

/-- **A fiber that was woken leaves what it was in**, unless that is a semaphore. -/
theorem leave (h : s.Placed) (ha : s.scheduler.activeFiber = some fiber)
    (hscheduler : t.scheduler = s.scheduler)
    (hposition : t.position = Function.update s.position fiber .outside)
    (hcaller : t.callerOf = s.callerOf) (hnext : t.nextCall = s.nextCall)
    (hlists : t.waiterList = s.waiterList) (hsemaphores : t.semaphores = s.semaphores)
    (hfree : ∀ i, s.position fiber ≠ .inDown i ∧ s.position fiber ≠ .inUp i) :
    t.Placed ∧ ∀ call, t.Waiting call ↔ s.Waiting call := by
  have hawake : ¬s.scheduler.Suspended fiber := fun hs => hs.2.1 ha
  have hself : t.position fiber = .outside := by rw [hposition, Function.update_self]
  have hothers : ∀ other ≠ fiber, t.position other = s.position other := by
    intro other ho
    rw [hposition, Function.update_of_ne ho]
  have hplaced : t.Placed := by
    refine h.moved fiber (hscheduler ▸ h.accounted) (fun _ _ => hscheduler ▸ .refl) hothers
      (by simp [hcaller]) hnext.ge ?_ hsemaphores ?_ ?_ ?_ ?_ ?_
    · intro event
      rw [hlists]
      exact ⟨h.events event, fun _ _ => .rfl⟩
    · intro i
      exact ⟨(hfree i).1, (hfree i).2, by simp [hself], by simp [hself]⟩
    · intro _
      rwa [hscheduler]
    · exact fun hne => absurd hself hne
    · simp [hself]
    · intro event
      rw [hlists, h.inEvent, hself]
      simp [hawake]
  refine ⟨hplaced, fun call => h.waiting_iff_of hplaced fun other => ?_⟩
  rw [hscheduler]
  by_cases ho : other = fiber
  · subst ho
    simp [hawake]
  · rw [hothers other ho]

/-- The one that runs is not suspended, whoever else is touched. -/
theorem not_suspended_of_untouched {next : Scheduler} (ha : s.scheduler.activeFiber = some fiber)
    (hu : Untouched s.scheduler next fiber) : ¬next.Suspended fiber := by
  rw [hu.suspended]
  exact fun hs => hs.2.1 ha

/-- **An operation on a semaphore.** The fibers in calls are not concerned. -/
theorem queues (h : s.Placed) {i : ℕ} {semaphore : Semaphore}
    (hq : s.Queues t fiber i semaphore) : t.Placed ∧ ∀ call, t.Waiting call ↔ s.Waiting call := by
  have hplaced := hq.placed h
  refine ⟨hplaced, fun call => h.waiting_iff_of hplaced fun other => ?_⟩
  by_cases ho : other = fiber
  · subst ho
    simp [hq.not_inCall call]
  · rw [hq.position other ho]
    refine and_congr_right fun hpos => ?_
    exact (hq.untouched h ho (by simp [hpos]) (by simp [hpos])).suspended

/-- The caller is somewhere else if it is blocked, and everybody else is where they were. -/
theorem update_if_blocked (position : FiberId → Position) (fiber : FiberId) (inside : Position)
    (blocked : Bool) (other : FiberId) :
    (if blocked = true then Function.update position fiber inside else position) other =
      if other = fiber ∧ blocked = true then inside else position other := by
  cases blocked
  · simp
  · simp [Function.update_apply]

/-- **A fiber calls `Semaphore_Down`**: it joins the waiters or goes on, and the same calls wait as
before. -/
theorem semaphoreDown (h : s.Placed) (hcaller : s.caller = some fiber) (i : ℕ) :
    (s.semaphoreDown fiber i).Placed ∧
      ∀ call, (s.semaphoreDown fiber i).Waiting call ↔ s.Waiting call := by
  obtain ⟨ha, hout⟩ := caller_eq_some hcaller
  have hnot : fiber ∉ (s.semaphores i).downWaiterList ++ (s.semaphores i).upWaiterList :=
    h.not_waiter (by simp [hout]) (by simp [hout])
  obtain ⟨haccounted, hqueued, hdown, hup⟩ := (h.queued i).down_spec h.accounted ha hnot
  have hothers : ∀ other ≠ fiber, other ∉ (s.semaphores i).downWaiterList ++
      (s.semaphores i).upWaiterList →
        Untouched s.scheduler (s.semaphoreDown fiber i).scheduler other :=
    fun other ho hf => untouched_down h.accounted ha hf fun _ => ho
  have hawake : ((s.semaphores i).down s.scheduler fiber).2.2 = false →
      ¬(s.semaphoreDown fiber i).scheduler.Suspended fiber := by
    intro hb
    exact not_suspended_of_untouched ha (untouched_down h.accounted ha hnot (by simp [hb]))
  have hposition : ∀ other, (s.semaphoreDown fiber i).position other =
      if other = fiber ∧ ((s.semaphores i).down s.scheduler fiber).2.2 = true then .inDown i
      else s.position other :=
    update_if_blocked s.position fiber (.inDown i) _
  refine h.queues ⟨haccounted, hqueued, hothers, ?_, rfl, rfl, rfl, rfl, .inl hout, ?_, ?_, ?_⟩
  · intro other ho
    simp [hposition, ho]
  · rcases hb : ((s.semaphores i).down s.scheduler fiber).2.2
    · exact .inl ⟨by simp [hposition, hb, hout], hawake hb⟩
    · exact .inr (.inl (by simp [hposition, hb]))
  · intro other
    rw [hposition, hdown]
    by_cases ho : other = fiber <;> rcases ((s.semaphores i).down s.scheduler fiber).2.2 <;>
      simp [ho, h.inDown]
  · intro other
    rw [hposition, hup, ← h.inUp]
    by_cases ho : other = fiber <;> rcases ((s.semaphores i).down s.scheduler fiber).2.2 <;>
      simp [ho, hout]

/-- **A fiber calls `Semaphore_Up`**: it joins the waiters or goes on, and the same calls wait as
before. -/
theorem semaphoreUp (h : s.Placed) (hcaller : s.caller = some fiber) (i : ℕ) :
    (s.semaphoreUp fiber i).Placed ∧
      ∀ call, (s.semaphoreUp fiber i).Waiting call ↔ s.Waiting call := by
  obtain ⟨ha, hout⟩ := caller_eq_some hcaller
  have hnot : fiber ∉ (s.semaphores i).downWaiterList ++ (s.semaphores i).upWaiterList :=
    h.not_waiter (by simp [hout]) (by simp [hout])
  obtain ⟨haccounted, hqueued, hup, hdown⟩ := (h.queued i).up_spec h.accounted ha hnot
  have hothers : ∀ other ≠ fiber, other ∉ (s.semaphores i).downWaiterList ++
      (s.semaphores i).upWaiterList →
        Untouched s.scheduler (s.semaphoreUp fiber i).scheduler other :=
    fun other ho hf => untouched_up h.accounted ha hf fun _ => ho
  have hawake : ((s.semaphores i).up s.scheduler fiber).2.2 = false →
      ¬(s.semaphoreUp fiber i).scheduler.Suspended fiber := by
    intro hb
    exact not_suspended_of_untouched ha (untouched_up h.accounted ha hnot (by simp [hb]))
  have hposition : ∀ other, (s.semaphoreUp fiber i).position other =
      if other = fiber ∧ ((s.semaphores i).up s.scheduler fiber).2.2 = true then .inUp i
      else s.position other :=
    update_if_blocked s.position fiber (.inUp i) _
  refine h.queues ⟨haccounted, hqueued, hothers, ?_, rfl, rfl, rfl, rfl, .inl hout, ?_, ?_, ?_⟩
  · intro other ho
    simp [hposition, ho]
  · rcases hb : ((s.semaphores i).up s.scheduler fiber).2.2
    · exact .inl ⟨by simp [hposition, hb, hout], hawake hb⟩
    · exact .inr (.inr (by simp [hposition, hb]))
  · intro other
    rw [hposition, hdown, ← h.inDown]
    by_cases ho : other = fiber <;> rcases ((s.semaphores i).up s.scheduler fiber).2.2 <;>
      simp [ho, hout]
  · intro other
    rw [hposition, hup]
    by_cases ho : other = fiber <;> rcases ((s.semaphores i).up s.scheduler fiber).2.2 <;>
      simp [ho, h.inUp]

/-- **A fiber that was woken leaves `Semaphore_Down`**: it is a waiter no more, and may have woken
the next one. -/
theorem downWoken (h : s.Placed) (ha : s.scheduler.activeFiber = some fiber) {i : ℕ}
    (hpos : s.position fiber = .inDown i)
    (hscheduler : t.scheduler = ((s.semaphores i).downWoken s.scheduler fiber).2)
    (hposition : t.position = Function.update s.position fiber .outside)
    (hcaller : t.callerOf = s.callerOf) (hnext : t.nextCall = s.nextCall)
    (hlists : t.waiterList = s.waiterList)
    (hsemaphores : t.semaphores = Function.update s.semaphores i
      ((s.semaphores i).downWoken s.scheduler fiber).1) :
    t.Placed ∧ ∀ call, t.Waiting call ↔ s.Waiting call := by
  have hf := (h.inDown fiber i).mp hpos
  obtain ⟨haccounted, hqueued, hdown, hup⟩ := (h.queued i).downWoken_spec h.accounted ha hf
  have hself : t.position fiber = .outside := by rw [hposition, Function.update_self]
  have hothers : ∀ other ≠ fiber, t.position other = s.position other := by
    intro other ho
    rw [hposition, Function.update_of_ne ho]
  have hnodup := (h.queued i).nodup
  have hnot : fiber ∉ (s.semaphores i).downWaiterList.erase fiber ++
      (s.semaphores i).upWaiterList := by
    rw [List.mem_append, not_or]
    exact ⟨(List.nodup_append.mp hnodup).1.not_mem_erase,
      fun hu => List.disjoint_of_nodup_append hnodup hf hu⟩
  have hframe : ∀ other ≠ fiber, other ∉ (s.semaphores i).downWaiterList ++
      (s.semaphores i).upWaiterList → Untouched s.scheduler t.scheduler other := by
    intro other ho hother
    rw [hscheduler]
    refine untouched_downWoken fun hin => hother ?_
    rw [List.mem_append] at hin ⊢
    exact hin.imp_left List.mem_of_mem_erase
  refine h.queues ⟨hscheduler ▸ haccounted, hscheduler ▸ hqueued, hframe, hothers, hcaller, hnext,
    hlists, hsemaphores, .inr (.inl hpos), .inl ⟨hself, ?_⟩, ?_, ?_⟩
  · rw [hscheduler]
    exact not_suspended_of_untouched ha (untouched_downWoken hnot)
  · intro other
    by_cases ho : other = fiber
    · subst ho
      have hleft := (List.nodup_append.mp hnodup).1
      rw [hdown] at hleft
      simp [hself, (List.nodup_cons.mp hleft).1]
    · rw [hothers other ho, h.inDown, hdown]
      simp [ho]
  · intro other
    rw [hup, ← h.inUp]
    by_cases ho : other = fiber
    · simp [ho, hself, hpos]
    · rw [hothers other ho]

/-- **A fiber that was woken leaves `Semaphore_Up`**: it is a waiter no more, and may have woken the
next one. -/
theorem upWoken (h : s.Placed) (ha : s.scheduler.activeFiber = some fiber) {i : ℕ}
    (hpos : s.position fiber = .inUp i)
    (hscheduler : t.scheduler = ((s.semaphores i).upWoken s.scheduler fiber).2)
    (hposition : t.position = Function.update s.position fiber .outside)
    (hcaller : t.callerOf = s.callerOf) (hnext : t.nextCall = s.nextCall)
    (hlists : t.waiterList = s.waiterList)
    (hsemaphores : t.semaphores = Function.update s.semaphores i
      ((s.semaphores i).upWoken s.scheduler fiber).1) :
    t.Placed ∧ ∀ call, t.Waiting call ↔ s.Waiting call := by
  have hf := (h.inUp fiber i).mp hpos
  obtain ⟨haccounted, hqueued, hup, hdown⟩ := (h.queued i).upWoken_spec h.accounted ha hf
  have hself : t.position fiber = .outside := by rw [hposition, Function.update_self]
  have hothers : ∀ other ≠ fiber, t.position other = s.position other := by
    intro other ho
    rw [hposition, Function.update_of_ne ho]
  have hnodup := (h.queued i).nodup
  have hnot : fiber ∉ (s.semaphores i).downWaiterList ++
      (s.semaphores i).upWaiterList.erase fiber := by
    rw [List.mem_append, not_or]
    exact ⟨fun hd => List.disjoint_of_nodup_append hnodup hd hf,
      (List.nodup_append.mp hnodup).2.1.not_mem_erase⟩
  have hframe : ∀ other ≠ fiber, other ∉ (s.semaphores i).downWaiterList ++
      (s.semaphores i).upWaiterList → Untouched s.scheduler t.scheduler other := by
    intro other ho hother
    rw [hscheduler]
    refine untouched_upWoken fun hin => hother ?_
    rw [List.mem_append] at hin ⊢
    exact hin.imp_right List.mem_of_mem_erase
  refine h.queues ⟨hscheduler ▸ haccounted, hscheduler ▸ hqueued, hframe, hothers, hcaller, hnext,
    hlists, hsemaphores, .inr (.inr hpos), .inl ⟨hself, ?_⟩, ?_, ?_⟩
  · rw [hscheduler]
    exact not_suspended_of_untouched ha (untouched_upWoken hnot)
  · intro other
    rw [hdown, ← h.inDown]
    by_cases ho : other = fiber
    · simp [ho, hself, hpos]
    · rw [hothers other ho]
  · intro other
    by_cases ho : other = fiber
    · subst ho
      have hleft := (List.nodup_append.mp hnodup).2.1
      rw [hup] at hleft
      simp [hself, (List.nodup_cons.mp hleft).1]
    · rw [hothers other ho, h.inUp, hup]
      simp [ho]

end Placed

end Runtime

end Pixy.Loop
