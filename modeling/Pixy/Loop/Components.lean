import Pixy.Pool.Once
import Pixy.Loop.TimeOut
import Pixy.Sched.LinkedRefines

/-!
# The runtime uses its parts as it may

The functions of the scheduler ask something of their callers: a fiber that is resumed is suspended,
one that is unresumed is ready, `Scheduler_Tick` is not called by a fiber. So do those of the thread
pool: a work is posted again only when it has been called back. In the runtime the callers are
fibers, events, semaphores and the callbacks of the loop. `Driven` and `Used` say that a scheduler
and a thread pool have gone from one state to another by such calls only.

* `Driven.down`, `Driven.downWoken` and their mirror images are about semaphores: who is woken there
  has been asleep;
* `Uses` is about callbacks: whom a callback resumes is in the log, so that what `Recorded` says of
  the log is that the callbacks may do what they do;
* `uses_step` puts all steps together.

So the scheduler and the thread pool of a runtime have had runs of their own (`scheduler_reachable`,
`pool_reachable`), and what was proved of those holds here: `runtime_schedules` says so of the
memory the scheduler works on.
-/

namespace Pixy.Loop

open Pixy.Found Pixy.Sched Pixy.Sync Pixy.Poll Pixy.Pool

variable {n : ℕ}

/-- A call concerns only those for whom `out` holds: the fiber that runs, and the one it is made
for. -/
structure Apart (out : FiberId → Prop) (scheduler : Scheduler) (action : SchedulerAction) :
    Prop where
  /-- Who runs. -/
  runs : ∀ fiber, scheduler.activeFiber = some fiber → out fiber
  /-- Who is resumed or unresumed. -/
  spares : ∀ fiber, action = .resumeFiber fiber ∨ action = .unresumeFiber fiber → out fiber

/-- **The one scheduler becomes the other** by calls that are made as they may be, and concern only
those for whom `out` holds. -/
def Driven (out : FiberId → Prop) : Scheduler → Scheduler → Prop :=
  Relation.ReflTransGen fun scheduler next =>
    ∃ action, Apart out scheduler action ∧ schedulerSystem.step scheduler action = some next

namespace Driven

variable {out : FiberId → Prop} {scheduler next last : Scheduler} {fiber : FiberId}

/-- No call to the scheduler at all is a way to drive it. -/
theorem refl (scheduler : Scheduler) : Driven out scheduler scheduler := Relation.ReflTransGen.refl

/-- One way to drive the scheduler and then another is a way to drive it. -/
theorem trans (h : Driven out scheduler next) (h' : Driven out next last) :
    Driven out scheduler last :=
  Relation.ReflTransGen.trans h h'

/-- What concerns some fibers only may be said to concern more of them. -/
theorem mono {out' : FiberId → Prop} (h : Driven out scheduler next)
    (hout : ∀ fiber, out fiber → out' fiber) :
    Driven out' scheduler next := by
  induction h with
  | refl => exact refl scheduler
  | tail _ hstep ih =>
      obtain ⟨action, hapart, hstep⟩ := hstep
      refine ih.trans (Relation.ReflTransGen.single ⟨action,
        ⟨fun fiber ha => ?_, fun fiber hr => ?_⟩, hstep⟩)
      · exact hout fiber (hapart.runs fiber ha)
      · exact hout fiber (hapart.spares fiber hr)

/-- One call of the scheduler that it is ready for, and that concerns only these fibers, drives it
so. -/
theorem of_enabled (action : SchedulerAction) (hapart : Apart out scheduler action)
    (hen : scheduler.Enabled action) : Driven out scheduler (scheduler.apply action) :=
  Relation.ReflTransGen.single ⟨action, hapart, if_pos hen⟩

/-- A fiber that is suspended may be resumed by the rest of the program, if it and who runs are
fibers that the part in question leaves to the rest. -/
theorem resume (hrun : ∀ fiber, scheduler.activeFiber = some fiber → out fiber) (hout : out fiber)
    (hs : scheduler.Suspended fiber) : Driven out scheduler (scheduler.resumeFiber fiber) := by
  refine of_enabled (.resumeFiber fiber) ⟨hrun, ?_⟩ hs
  rintro _ (heq | heq) <;> cases heq
  exact hout

/-- A fiber that is ready may be taken back by the rest of the program, if it and who runs are
fibers that the part in question leaves to the rest. -/
theorem unresume (hrun : ∀ fiber, scheduler.activeFiber = some fiber → out fiber) (hout : out fiber)
    (hr : fiber ∈ scheduler.readyFiberList) :
    Driven out scheduler (scheduler.unresumeFiber fiber) := by
  refine of_enabled (.unresumeFiber fiber) ⟨hrun, ?_⟩ hr
  rintro _ (heq | heq) <;> cases heq
  exact hout

/-- The fiber that runs may suspend itself, if it is one that the part in question leaves to the
rest. -/
theorem suspend (ha : scheduler.activeFiber = some fiber) (hout : out fiber) :
    Driven out scheduler scheduler.suspendCurrentFiber := by
  have hactive : scheduler.activeFiber ≠ none := by simp [ha]
  refine of_enabled .suspendCurrentFiber ⟨?_, by simp⟩ hactive
  rintro other ha'
  cases ha.symm.trans ha'
  exact hout

/-- The second scheduler is reached in its own system if the first one is, by the calls that lead
from one to the other. -/
theorem reachable (h : Driven out scheduler next) (hs : schedulerSystem.Reachable scheduler) :
    schedulerSystem.Reachable next := by
  induction h with
  | refl => exact hs
  | tail _ hstep ih =>
      obtain ⟨action, -, hstep⟩ := hstep
      exact ih.step trivial hstep

/-! ## Semaphores -/

section Semaphores

variable {s : Semaphore} {waiters : List FiberId} {go : Prop}

/-- Whoever runs goes on running while a waiter is woken: it only joins the ready list. -/
theorem activeFiber_resumeFront :
    (Semaphore.resumeFront scheduler waiters).activeFiber = scheduler.activeFiber := by
  unfold Semaphore.resumeFront
  split <;> rfl

/-- Taking back the front waiter does not switch, so who runs goes on running. -/
theorem activeFiber_unresumeFront :
    (Semaphore.unresumeFront scheduler waiters).activeFiber = scheduler.activeFiber := by
  unfold Semaphore.unresumeFront
  split <;> rfl

/-- The front waiter of a list that slept is woken, which is one call of the scheduler, or none if
nobody waits. -/
theorem resumeFront (hf : Front scheduler.Awake waiters go) (hwas : ¬go)
    (hlive : ∀ fiber ∈ waiters, scheduler.Live fiber) (hout : ∀ fiber ∈ waiters, out fiber)
    (hrun : ∀ fiber, scheduler.activeFiber = some fiber → out fiber) :
    Driven out scheduler (Semaphore.resumeFront scheduler waiters) := by
  rcases waiters with _ | ⟨first, rest⟩
  · exact refl scheduler
  · exact resume hrun (hout first List.mem_cons_self) (Scheduler.suspended_iff.mpr
      ⟨hlive first List.mem_cons_self, hf.asleep hwas first List.mem_cons_self⟩)

/-- The front of a list that was woken is put back. -/
theorem unresumeFront (hf : Front scheduler.Awake waiters go) (hwas : go)
    (hrest : ∀ fiber ∈ waiters, scheduler.activeFiber ≠ some fiber)
    (hout : ∀ fiber ∈ waiters, out fiber)
    (hrun : ∀ fiber, scheduler.activeFiber = some fiber → out fiber) :
    Driven out scheduler (Semaphore.unresumeFront scheduler waiters) := by
  rcases waiters with _ | ⟨first, rest⟩
  · exact refl scheduler
  · exact unresume hrun (hout first List.mem_cons_self)
      (((hf.front first rfl).mpr hwas).mem_ready (hrest first List.mem_cons_self))

/-- The last statement of `Semaphore_Down` wakes at most the front waiter of the other list, which
is one of the fibers concerned. -/
theorem downTail (hf : Front scheduler.Awake s.upWaiterList (s.value + 1 < s.maxValue))
    (hlive : ∀ fiber ∈ s.upWaiterList, scheduler.Live fiber)
    (hout : ∀ fiber ∈ s.upWaiterList, out fiber)
    (hrun : ∀ fiber, scheduler.activeFiber = some fiber → out fiber) :
    Driven out scheduler (s.downTail scheduler) := by
  unfold Semaphore.downTail
  split_ifs with hedge
  · exact resumeFront hf (by omega) hlive hout hrun
  · exact refl scheduler

/-- **`Semaphore_Down`** by a fiber that waits for nothing drives the scheduler by calls that
concern this fiber and the waiters of the semaphore only. -/
theorem down (h : WellQueued scheduler s) (hacc : Accounted scheduler)
    (ha : scheduler.activeFiber = some fiber) (hnot : fiber ∉ s.downWaiterList ++ s.upWaiterList)
    (hself : out fiber) (hout : ∀ other ∈ s.downWaiterList ++ s.upWaiterList, out other) :
    Driven out scheduler (s.down scheduler fiber).2.1 := by
  have hlower := h.lower
  have hruns : ∀ other, scheduler.activeFiber = some other → out other := by
    rintro other ha'
    cases ha.symm.trans ha'
    exact hself
  have hup : ∀ other ∈ s.upWaiterList, out other := fun other hother =>
    hout other (List.mem_append_right _ hother)
  by_cases hmin : s.value = s.minValue
  · rw [show s.down scheduler fiber = (_, scheduler.suspendCurrentFiber, true) from if_pos hmin]
    exact suspend ha hself
  · have hrest : ∀ other ∈ s.downWaiterList, scheduler.activeFiber ≠ some other := by
      rintro other hother he
      cases ha.symm.trans he
      exact hnot (List.mem_append_left _ hother)
    have hapart : ∀ other ∈ s.upWaiterList, other ∉ s.downWaiterList := fun other hup hdown =>
      List.disjoint_of_nodup_append h.nodup hdown hup
    rw [show s.down scheduler fiber =
        ({ s with value := s.value - 1 },
          Semaphore.downTail { s with value := s.value - 1 }
            (if s.value - 1 = s.minValue then Semaphore.unresumeFront scheduler s.downWaiterList
              else scheduler), false) from if_neg hmin]
    split_ifs with hedge
    · have hmoves : Moves scheduler (Semaphore.unresumeFront scheduler s.downWaiterList)
          s.downWaiterList (s.minValue < s.value - 1) :=
        moves_unresumeFront hacc h.down (by omega) (by omega) hrest
      have hdown : ∀ other ∈ s.downWaiterList, out other := fun other hother =>
        hout other (List.mem_append_left _ hother)
      refine (unresumeFront h.down (by omega) hrest hdown hruns).trans
        (downTail ?_ (fun other hin => ?_) hup ?_)
      · exact h.up.congr (fun other hup => hmoves.frame other (hapart other hup)) (by simp)
      · exact (hmoves.live other).mpr (h.live other (List.mem_append_right _ hin))
      · rw [activeFiber_unresumeFront]
        exact hruns
    · refine downTail ?_ (fun other hin => h.live other (List.mem_append_right _ hin)) hup hruns
      exact h.up.congr (fun _ _ => .rfl) (by simp)

/-- **The rest of it**, run by a fiber that was woken. -/
theorem downWoken (h : WellQueued scheduler s) (hacc : Accounted scheduler)
    (ha : scheduler.activeFiber = some fiber) (hf : fiber ∈ s.downWaiterList)
    (hout : ∀ other ∈ s.downWaiterList ++ s.upWaiterList, out other) :
    Driven out scheduler (s.downWoken scheduler fiber).2 := by
  have hruns : ∀ other, scheduler.activeFiber = some other → out other := by
    rintro other ha'
    cases ha.symm.trans ha'
    exact hout fiber (List.mem_append_left _ hf)
  have hup : ∀ other ∈ s.upWaiterList, out other := fun other hother =>
    hout other (List.mem_append_right _ hother)
  obtain ⟨hgo, rest, hrest⟩ := h.woken ha hf
  have hnodup : (rest ++ s.upWaiterList).Nodup := by
    have hall := h.nodup
    rw [hrest, List.cons_append] at hall
    exact (List.nodup_cons.mp hall).2
  have hin : ∀ other ∈ rest, other ∈ s.downWaiterList ++ s.upWaiterList := fun other hother => by
    rw [hrest]
    exact List.mem_cons_of_mem _ (List.mem_append_left _ hother)
  have hsleep : Front scheduler.Awake rest False := by
    have hbehind := h.down.behind
    rw [hrest] at hbehind
    exact .of_asleep hbehind not_false
  have hapart : ∀ other ∈ s.upWaiterList, other ∉ rest := fun other hup hdown =>
    List.disjoint_of_nodup_append hnodup hdown hup
  have herase : s.downWaiterList.erase fiber = rest := by simp [hrest]
  simp only [Semaphore.downWoken, herase]
  split_ifs with hleft
  · have hlive : ∀ other ∈ rest, scheduler.Live other :=
      fun other hother => h.live other (hin other hother)
    have hmoves : Moves scheduler (Semaphore.resumeFront scheduler rest) rest
      (s.minValue < s.value - 1) :=
      moves_resumeFront hacc hsleep not_false hleft (List.nodup_append.mp hnodup).1 hlive
    have hfront := resumeFront hsleep not_false hlive
      (fun other hother => hout other (hin other hother)) hruns
    refine hfront.trans (downTail ?_ (fun other hother => ?_) hup ?_)
    · exact h.up.congr (fun other hup => hmoves.frame other (hapart other hup)) (by simp)
    · exact (hmoves.live other).mpr (h.live other (List.mem_append_right _ hother))
    · rw [activeFiber_resumeFront]
      exact hruns
  · refine downTail ?_ (fun other hother => h.live other (List.mem_append_right _ hother)) hup hruns
    exact h.up.congr (fun _ _ => .rfl) (by simp)

/-- `Semaphore_Up` drives the scheduler as the interface allows it: the waiters it resumes or takes
back are suspended or ready, and its caller is the fiber that runs. -/
theorem up (h : WellQueued scheduler s) (hacc : Accounted scheduler)
    (ha : scheduler.activeFiber = some fiber) (hnot : fiber ∉ s.downWaiterList ++ s.upWaiterList)
    (hself : out fiber) (hout : ∀ other ∈ s.downWaiterList ++ s.upWaiterList, out other) :
    Driven out scheduler (s.up scheduler fiber).2.1 := by
  rw [Semaphore.up_eq_mirror]
  refine down h.mirror hacc ha (fun hf => hnot (List.mem_append.mpr (List.mem_append.mp hf).symm))
    hself ?_
  exact fun other hother => hout other (List.mem_append.mpr (List.mem_append.mp hother).symm)

/-- `Semaphore_Up` from the return of its suspension on drives the scheduler as the interface allows
it: whoever of the others it resumes is suspended in the semaphore. -/
theorem upWoken (h : WellQueued scheduler s) (hacc : Accounted scheduler)
    (ha : scheduler.activeFiber = some fiber) (hf : fiber ∈ s.upWaiterList)
    (hout : ∀ other ∈ s.downWaiterList ++ s.upWaiterList, out other) :
    Driven out scheduler (s.upWoken scheduler fiber).2 := by
  rw [Semaphore.upWoken_eq_mirror]
  refine downWoken h.mirror hacc ha hf ?_
  exact fun other hother => hout other (List.mem_append.mpr (List.mem_append.mp hother).symm)

end Semaphores

end Driven

/-! ## The thread pool -/

/-- Nothing is posted, and the pool is not stopped. -/
def GoesOn : PoolAction n CallId → Prop
  | .postWork .. | .stop _ | .join => False
  | _ => True

/-- **The one pool becomes the other** by what the workers and `WorkerCallback` do. -/
def Used : ThreadPool n CallId → ThreadPool n CallId → Prop :=
  Relation.ReflTransGen fun pool next => ∃ action, GoesOn action ∧ pool.step action = some next

namespace Used

variable {pool next last : ThreadPool n CallId}

/-- Not to use the pool at all is a way to use it. -/
theorem refl (pool : ThreadPool n CallId) : Used pool pool := Relation.ReflTransGen.refl

/-- One way to use the pool and then another is a way to use it. -/
theorem trans (h : Used pool next) (h' : Used next last) : Used pool last :=
  Relation.ReflTransGen.trans h h'

/-- The loop uses the pool by `WorkerCallback`'s read of the pipe, which is a step of the pool's own
system. -/
theorem readPipe (hstep : pool.step .readPipe = some next) : Used pool next :=
  Relation.ReflTransGen.single ⟨.readPipe, trivial, hstep⟩

/-- The loop uses the pool by the callback of a work that it has read, which is a step of the pool's
own system. -/
theorem callback (hstep : pool.step .callback = some next) : Used pool next :=
  Relation.ReflTransGen.single ⟨.callback, trivial, hstep⟩

/-- A step of a worker is one of the pool's own system, whatever the rest of the program is at. -/
theorem worker {action : PoolAction n CallId} (hworker : OfWorker action)
    (hstep : pool.step action = some next) : Used pool next := by
  refine Relation.ReflTransGen.single ⟨action, ?_, hstep⟩
  cases action <;> first | exact trivial | cases hworker

/-- Nothing but the stop ends the posting, and only a post is one. -/
theorem posting (h : Used pool next) : next.phase = pool.phase ∧
    ∃ news, next.log = news ++ pool.log ∧ ∀ entry ∈ news, entry.2.rank ≠ 0 := by
  induction h with
  | refl => exact ⟨rfl, [], rfl, by simp⟩
  | @tail before next _ hstep ih =>
      obtain ⟨action, hgoes, hstep⟩ := hstep
      obtain ⟨hphase, news, hlog, hnews⟩ := ih
      suffices hmore : next.phase = before.phase ∧
          ∃ more, next.log = more ++ before.log ∧ ∀ entry ∈ more, entry.2.rank ≠ 0 by
        obtain ⟨hphase', more, hlog', hmore⟩ := hmore
        refine ⟨hphase'.trans hphase, more ++ news, by rw [hlog', hlog, List.append_assoc], ?_⟩
        exact fun entry hin => (List.mem_append.mp hin).elim (hmore entry) (hnews entry)
      cases ThreadPool.steps hstep with
      | postWork | stop | join => cases hgoes
      | readPipe _ _ hread =>
          unfold ThreadPool.readPipe at hread
          obtain ⟨works, -, hnext⟩ := Option.bind_eq_some_iff.mp hread
          cases hnext
          exact ⟨rfl, _, rfl, by simp [WorkEvent.rank]⟩
      | callback => exact ⟨rfl, [_], rfl, by simp [WorkEvent.rank]⟩
      | examine hw hexamines =>
          cases hexamines with
          | empty => exact ⟨rfl, [], rfl, by simp⟩
          | marker _ _ hs => exact ⟨by rw [hs.rest]; rfl, [], by rw [hs.rest]; rfl, by simp⟩
          | work _ _ hs =>
              exact ⟨by rw [hs.rest]; rfl, [_], by rw [hs.rest]; rfl, by simp [WorkEvent.rank]⟩
      | start | finish | write => exact ⟨rfl, [_], rfl, by simp [WorkEvent.rank]⟩
      | wake => exact ⟨rfl, [], rfl, by simp⟩

/-- What a post does to the phase and the log of the pool: the one stays, and the other has one
entry more. -/
theorem of_post {work : CallId} {fields : Work} {woken : Finset (Fin n)}
    (hstep : pool.step (.postWork work fields woken) = some next) :
    next.phase = pool.phase ∧ next.log = (work, .posted fields) :: pool.log := by
  cases ThreadPool.steps hstep with
  | postWork _ _ hpost =>
      rw [(Signalled.of_insert hpost).rest]
      exact ⟨rfl, rfl⟩

/-- However the pool is used, what was reachable in its own system leads to what is reachable
there. -/
theorem reachable (h : Used pool next) (hpool : (poolSystem n CallId).Reachable pool) :
    (poolSystem n CallId).Reachable next := by
  induction h with
  | refl => exact hpool
  | tail _ hstep ih =>
      obtain ⟨action, -, hstep⟩ := hstep
      exact ih.step trivial hstep

end Used

/-! ## What is shared -/

/-- What fibers share. -/
inductive Shared
  /-- An event. -/
  | event (event : ℕ)
  /-- A semaphore. -/
  | semaphore (i : ℕ)
  deriving DecidableEq

/-- What a fiber is in that others share. -/
def Position.shared : Position → Option Shared
  | .outside | .inCall _ => none
  | .inEvent event => some (.event event)
  | .inDown i | .inUp i => some (.semaphore i)

namespace Runtime

variable {s t u : Runtime n} {declared : Fields FieldName} {action : RuntimeAction n}
  {fiber : FiberId}

/-! ## Callbacks -/

/-- Who waits in a call that ends through a callback. -/
def InCall (s : Runtime n) (fiber : FiberId) : Prop := ∃ call, s.position fiber = .inCall call

/-- **Whoever has been resumed is in the log**: if the log is right, the scheduler was used as it
may be, for fibers that wait in calls; and so was the pool. Nobody has moved. -/
structure Uses (s t : Runtime n) : Prop where
  /-- The log has grown. -/
  log : ∃ notes, t.log = notes ++ s.log
  /-- Whoever runs goes on. -/
  runs : t.scheduler.activeFiber = s.scheduler.activeFiber
  /-- What the fibers share is as it was, and so is where they are, and no call has begun. -/
  shares : t.position = s.position ∧ t.waiterList = s.waiterList ∧ t.semaphores = s.semaphores ∧
    t.nextCall = s.nextCall ∧ t.kind = s.kind
  /-- The scheduler has been used, if nobody runs. -/
  scheduler : s.scheduler.activeFiber = none → Orderly t.log →
    Driven s.InCall s.scheduler t.scheduler
  /-- The pool has been used. -/
  pool : Used s.pool t.pool

namespace Uses

/-- Neither the scheduler nor the pool has been touched, nor what else the parts are seen by. -/
theorem of_same (hlog : t.log = s.log) (hscheduler : t.scheduler = s.scheduler)
    (hpool : t.pool = s.pool)
    (hshares : t.position = s.position ∧ t.waiterList = s.waiterList ∧ t.semaphores = s.semaphores ∧
      t.nextCall = s.nextCall ∧ t.kind = s.kind) : Uses s t :=
  ⟨⟨[], hlog⟩, by rw [hscheduler], hshares, fun _ _ => hscheduler ▸ .refl _, hpool ▸ .refl _⟩

/-- To leave everything alone is a way to use the parts. -/
theorem refl (s : Runtime n) : Uses s s := of_same rfl rfl rfl ⟨rfl, rfl, rfl, rfl, rfl⟩

/-- One way to use the parts and then another is a way to use them. -/
theorem trans (h : Uses s t) (h' : Uses t u) : Uses s u := by
  obtain ⟨⟨notes, hlog⟩, hruns, ⟨hposition, hlists, hsemaphores, hnext, hkind⟩, hdriven, hpool⟩ := h
  obtain ⟨⟨notes', hlog'⟩, hruns', ⟨hposition', hlists', hsemaphores', hnext', hkind'⟩, hdriven',
    hpool'⟩ := h'
  refine ⟨⟨notes' ++ notes, by rw [hlog', hlog, List.append_assoc]⟩, hruns'.trans hruns,
    ⟨hposition'.trans hposition, hlists'.trans hlists, hsemaphores'.trans hsemaphores,
      hnext'.trans hnext, hkind'.trans hkind⟩,
    fun hidle hright => ?_, hpool.trans hpool'⟩
  have hsame : t.InCall = s.InCall := by
    unfold InCall
    rw [hposition]
  refine (hdriven hidle fun newer older happening heq => ?_).trans
    (hsame ▸ hdriven' (hruns.trans hidle) hright)
  exact hright (notes' ++ newer) older happening (by rw [hlog', heq, List.append_assoc])

/-- The log is a ghost, so an entry in it uses nothing. -/
theorem note (s : Runtime n) (happening : Happening) : Uses s (s.note happening) :=
  ⟨⟨[happening], rfl⟩, rfl, ⟨rfl, rfl, rfl, rfl, rfl⟩, fun _ _ => .refl _, .refl _⟩

/-- The entry says that the fiber was suspended, and in a call. -/
theorem resume (s : Runtime n) (fiber : FiberId) (ready : Bool) :
    Uses s (s.resume fiber ready) where
  log := ⟨[.resumes fiber (s.position fiber) ready s.scheduler], rfl⟩
  runs := rfl
  shares := ⟨rfl, rfl, rfl, rfl, rfl⟩
  scheduler hidle hright := by
    obtain ⟨hsuspended, call, hposition, -⟩ := hright [] s.log _ rfl
    exact .resume (by simp [hidle]) ⟨call, hposition⟩ hsuspended
  pool := .refl _

/-- Two pieces of code in sequence use the parts as each of them does; the second is skipped where
something undefined has happened. -/
theorem andThen {rest : Runtime n → Runtime n} (h : Uses s t) (h' : Uses t (rest t)) :
    Uses s (t.andThen rest) := by
  unfold Runtime.andThen
  split_ifs
  · exact h
  · exact h.trans h'

/-- Waking the fiber that a field names uses the scheduler by one call of `Scheduler_ResumeFiber`,
or halts where the field is none that holds a fiber. -/
theorem resumeAt (s : Runtime n) (call : CallId) (offset : ℕ) (ready : Bool) :
    Uses s (s.resumeAt call offset ready) := by
  unfold Runtime.resumeAt
  split
  · exact resume s _ ready
  · exact of_same rfl rfl rfl ⟨rfl, rfl, rfl, rfl, rfl⟩

/-- A write into a context uses none of the parts, as the contexts lie in the frames of the
calls. -/
theorem writeContext (s : Runtime n) (call : CallId) (offset : ℕ) (name : FieldName)
    (context : Context) : Uses s (s.writeContext call offset name context) := by
  unfold Runtime.writeContext
  split_ifs
  · exact of_same rfl rfl rfl ⟨rfl, rfl, rfl, rfl, rfl⟩
  · exact of_same rfl rfl rfl ⟨rfl, rfl, rfl, rfl, rfl⟩

/-- Clearing the pending watches of a condition changes the poller only, and uses neither the
scheduler nor the pool. -/
theorem clearPending {neighbour : Node} {condition : IOCondition}
    (h : s.clearPending neighbour condition = some t) : Uses s t := by
  unfold Runtime.clearPending at h
  split at h
  · split_ifs at h
    cases h
    exact of_same rfl rfl rfl ⟨rfl, rfl, rfl, rfl, rfl⟩
  · cases h

/-- `IOPoller_ClearWatch` on a place of memory changes the poller only, or halts where no watch lies
there. -/
theorem clearWatchAt {call : CallId} {offset : ℕ} (h : s.clearWatchAt call offset = some t) :
    Uses s t := by
  unfold Runtime.clearWatchAt at h
  simp only [Option.bind_eq_bind, Option.bind_eq_some_iff] at h
  obtain ⟨_, -, _, -, _, -, _, -, _, -, _, -, h⟩ := h
  split_ifs at h
  · obtain ⟨_, -, h⟩ := Option.bind_eq_some_iff.mp h
    obtain ⟨hlog, hruns, hshares, hdriven, hpool⟩ := clearPending h
    exact ⟨hlog, hruns, hshares, hdriven, hpool⟩
  · cases h
    exact of_same rfl rfl rfl ⟨rfl, rfl, rfl, rfl, rfl⟩

/-- A callback's `IOPoller_ClearWatch` changes the poller and the log only, so neither the scheduler
nor the pool is used. -/
theorem clearWatch (s : Runtime n) (call : CallId) (offset : ℕ) :
    Uses s (s.clearWatch call offset) := by
  refine (note s (.clearsWatch call s.poller)).trans ?_
  unfold Runtime.clearWatch
  dsimp only
  rcases h : (s.note (.clearsWatch call s.poller)).clearWatchAt call offset with _ | t
  · exact of_same rfl rfl rfl ⟨rfl, rfl, rfl, rfl, rfl⟩
  · exact clearWatchAt h

/-- A callback's `Timer_ClearTimeout` changes the timer and the log only, so neither the scheduler
nor the pool is used. -/
theorem clearTimeout (s : Runtime n) (call : CallId) (offset : ℕ) :
    Uses s (s.clearTimeout call offset) := by
  refine (note s (.clearsTimeout call s.timer)).trans ?_
  unfold Runtime.clearTimeout
  dsimp only
  split_ifs
  · split <;> exact of_same rfl rfl rfl ⟨rfl, rfl, rfl, rfl, rfl⟩
  · exact of_same rfl rfl rfl ⟨rfl, rfl, rfl, rfl, rfl⟩

/-- The callback of a work uses the pool by that callback, and the scheduler by waking the fiber
that waits for the work. -/
theorem workDone (s : Runtime n) (work : CallId) : Uses s (s.workDone work) := by
  unfold Runtime.workDone
  split
  · rename_i pool hpool
    split_ifs
    · have hcalled : Uses s { s with pool := pool } :=
        ⟨⟨[], rfl⟩, rfl, ⟨rfl, rfl, rfl, rfl, rfl⟩, fun _ _ => .refl _, .callback hpool⟩
      exact hcalled.trans (resume _ _ _)
    · exact of_same rfl rfl rfl ⟨rfl, rfl, rfl, rfl, rfl⟩
  · exact of_same rfl rfl rfl ⟨rfl, rfl, rfl, rfl, rfl⟩

/-- `WorkerCallback` uses the pool by one read of the pipe; the callbacks of the works it has read
follow. -/
theorem workerCallback (s : Runtime n) : Uses s s.workerCallback := by
  have hloop : ∀ (works : List CallId) (s : Runtime n),
      Uses s (works.foldl (fun s work => s.andThen (·.workDone work)) s) := by
    intro works
    induction works with
    | nil => exact refl
    | cons work works ih => exact fun s => (andThen (refl s) (workDone s work)).trans (ih _)
  unfold Runtime.workerCallback
  split
  · rename_i pool hpool
    have hread : Uses s { s with pool := pool } :=
      ⟨⟨[], rfl⟩, rfl, ⟨rfl, rfl, rfl, rfl, rfl⟩, fun _ _ => .refl _, .readPipe hpool⟩
    exact hread.trans (hloop _ _)
  · exact of_same rfl rfl rfl ⟨rfl, rfl, rfl, rfl, rfl⟩

/-- **Every callback** uses the scheduler and the pool through their own operations, one case for
each function. -/
theorem call (declared : Fields FieldName) (s : Runtime n) (call : AsyncCall Callback) :
    Uses s (s.call declared call) := by
  unfold Runtime.call
  split
  · exact workerCallback s
  · exact andThen (clearWatch ..) (resumeAt ..)
  · exact andThen (clearWatch ..) (andThen (clearTimeout ..)
      (andThen (writeContext ..) (resumeAt ..)))
  · exact andThen (clearWatch ..) (andThen (writeContext ..)
      (andThen (writeContext ..) (resumeAt ..)))
  · exact resume s _ false

end Uses

/-! ## All steps -/

/-- What a step is about of what fibers share. -/
def concerns (s : Runtime n) : RuntimeAction n → Option Shared
  | .eventWaitFor event | .eventTrigger event => some (.event event)
  | .semaphoreDown i | .semaphoreUp i => some (.semaphore i)
  | .proceed => s.scheduler.activeFiber.bind fun fiber => (s.position fiber).shared
  | _ => none

/-- **What becomes of the pool and of the number of the next call.** -/
inductive PoolUsed (k k' : CallId) (pool next : ThreadPool n CallId) : Prop
  /-- The pool goes on. -/
  | goesOn (hpool : Used pool next) (hnext : k ≤ k')
  /-- A work is posted, the one of a new call. -/
  | posts {fields : Work} {woken : Finset (Fin n)}
      (hpool : (poolSystem n CallId).step pool (.postWork k fields woken) = some next)
      (hnext : k' = k + 1)

/-- The pool is left alone, while the number of the next call may have grown. -/
theorem PoolUsed.same (pool : ThreadPool n CallId) {k k' : CallId} (hnext : k ≤ k') :
    PoolUsed k k' pool pool :=
  .goesOn (.refl _) hnext

/-- The scheduler has been used as it may be, for those at such positions, and so has the pool. -/
abbrev PartsUsed (only : Position → Prop) (s t : Runtime n) : Prop :=
  Driven (fun fiber => only (s.position fiber)) s.scheduler t.scheduler ∧
    PoolUsed s.nextCall t.nextCall s.pool t.pool

section Parts

variable {only : Position → Prop}

/-- A call that may block suspends the running fiber, or returns. -/
theorem used_waitForFD (h : s.Invariant []) (ha : s.scheduler.activeFiber = some fiber)
    (hself : only (s.position fiber)) {fd : FD} (hfd : fd + 1 < 2 ^ 31) {condition : IOCondition}
    {timeout : ℤ} {now : ℕ} {reallocated : Bool} {block : Option EventId} {inserted : Bool}
    (hstep : s.waitForFD fiber fd condition timeout now reallocated block inserted = some t) :
    PartsUsed only s t := by
  obtain ⟨timed, poller, ok, dirty, -, -, -, ⟨-, rfl⟩ | ⟨-, -, rfl⟩ | ⟨-, -, rfl⟩ |
    ⟨-, cleared, dirty', -, -, -, rfl⟩⟩ := waitForFD_cases h hfd hstep
  · exact ⟨.refl _, .same _ (Nat.le_succ _)⟩
  · exact ⟨.suspend ha hself, .same _ (Nat.le_succ _)⟩
  · exact ⟨.suspend ha hself, .same _ (Nat.le_succ _)⟩
  · exact ⟨.refl _, .same _ (Nat.le_succ _)⟩

/-- `SleepCurrentFiber` uses the scheduler by one suspension of its caller, if its timeout could be
set, and nothing else. -/
theorem used_sleepCurrentFiber (ha : s.scheduler.activeFiber = some fiber)
    (hself : only (s.position fiber)) (duration : ℤ) (now : ℕ) (inserted : Bool) :
    PartsUsed only s (s.sleepCurrentFiber fiber duration now inserted) := by
  cases inserted with
  | true => exact ⟨.suspend ha hself, .same _ (Nat.le_succ _)⟩
  | false => exact ⟨.refl _, .same _ (Nat.le_succ _)⟩

/-- `DoWork` uses the pool by one `ThreadPool_PostWork` and the scheduler by one suspension of its
caller. -/
theorem used_doWork (ha : s.scheduler.activeFiber = some fiber) (hself : only (s.position fiber))
    {function argument : ℕ} {woken : Finset (Fin n)}
    (hstep : s.doWork fiber function argument woken = some t) : PartsUsed only s t := by
  unfold Runtime.doWork at hstep
  dsimp only at hstep
  split at hstep
  · cases hstep
  · rename_i pool hpool
    cases hstep
    exact ⟨.suspend ha hself, .posts hpool rfl⟩

/-- `Event_Trigger` uses the scheduler by one resume, of the first waiter of the event, who is
suspended in it; without waiters it uses nothing. -/
theorem used_eventTrigger (h : s.Invariant []) (ha : s.scheduler.activeFiber = some fiber)
    (hself : only (s.position fiber)) (event : ℕ) (hevent : only (.inEvent event)) :
    PartsUsed only s (s.eventTrigger event) := by
  have hruns : ∀ other, s.scheduler.activeFiber = some other → only (s.position other) := by
    rintro other ha'
    cases ha.symm.trans ha'
    exact hself
  unfold Runtime.eventTrigger
  rcases hwaiters : s.waiterList event with _ | ⟨waiter, waiters⟩
  · exact ⟨.refl _, .same _ le_rfl⟩
  · obtain ⟨hposition, hsuspended⟩ :=
      (h.placed.inEvent waiter event).mp (hwaiters ▸ List.mem_cons_self)
    exact ⟨.resume hruns (by rw [hposition]; exact hevent) hsuspended, .same _ le_rfl⟩

/-- `Close` clears the watches on a descriptor and uses neither the scheduler nor the pool. -/
theorem used_close (fd : FD) : PartsUsed only s (s.close fd) := by
  unfold Runtime.close
  split <;> exact ⟨.refl _, .same _ le_rfl⟩

/-- Whoever waits for a semaphore is in its code, on the way down or on the way up. -/
theorem only_of_waiter (h : s.Placed) {i : ℕ} (hdown : only (.inDown i)) (hup : only (.inUp i)) :
    ∀ other ∈ (s.semaphores i).downWaiterList ++ (s.semaphores i).upWaiterList,
      only (s.position other) := by
  intro other hother
  rcases h.position_of_waiter hother with hposition | hposition <;> rw [hposition]
  · exact hdown
  · exact hup

/-- The rest of a blocking call, after its fiber has been resumed, uses the scheduler for the
waiters of a semaphore at most, and the pool not at all. -/
theorem used_proceed (h : s.Invariant []) (ha : s.scheduler.activeFiber = some fiber)
    (honly : ∀ position : Position, position.shared = (s.position fiber).shared → only position)
    (hstep : s.proceed fiber = some t) : PartsUsed only s t := by
  unfold Runtime.proceed at hstep
  rcases hpos : s.position fiber with _ | call | event | i | i <;>
    simp only [hpos, Option.some.injEq, reduceCtorEq] at hstep <;> subst hstep
  · exact ⟨.refl _, .same _ le_rfl⟩
  · exact ⟨.refl _, .same _ le_rfl⟩
  · have hwaiters := only_of_waiter h.placed (honly (.inDown i) (by rw [hpos]))
      (honly (.inUp i) (by rw [hpos]; rfl))
    exact ⟨.downWoken (h.placed.queued i) h.placed.accounted ha ((h.placed.inDown fiber i).mp hpos)
      hwaiters, .same _ le_rfl⟩
  · have hwaiters := only_of_waiter h.placed (honly (.inDown i) (by rw [hpos]; rfl))
      (honly (.inUp i) (by rw [hpos]))
    exact ⟨.upWoken (h.placed.queued i) h.placed.accounted ha ((h.placed.inUp fiber i).mp hpos)
      hwaiters, .same _ le_rfl⟩

/-- A use of the scheduler that is about nobody but the running fiber concerns only this one. -/
theorem used_schedule {use : SchedulerAction}
    (hruns : ∀ fiber, s.scheduler.activeFiber = some fiber → only (s.position fiber))
    (hnobody : ∀ fiber, use ≠ .resumeFiber fiber ∧ use ≠ .unresumeFiber fiber)
    (huse : s.schedule use = some t) : PartsUsed only s t := by
  obtain ⟨hen, rfl⟩ := schedule_eq_some huse
  refine ⟨.of_enabled use ⟨hruns, ?_⟩ hen, .same _ le_rfl⟩
  rintro fiber (heq | heq)
  · exact absurd heq (hnobody fiber).1
  · exact absurd heq (hnobody fiber).2

/-- The poller's tick touches neither part, as it collects callbacks and makes none. -/
theorem used_poll {freeSlot : EventId → Node} {outcome : EpollWait} {memory : ℕ → Bool}
    (hstep : s.poll freeSlot outcome memory = some t) : PartsUsed only s t := by
  unfold Runtime.poll at hstep
  split at hstep <;> cases hstep <;> exact ⟨.refl _, .same _ le_rfl⟩

/-- `Timer_Tick` collects callbacks and makes none, so neither the scheduler nor the pool is
used. -/
theorem used_expire {now : ℕ} {due : List (Timeout Callback)} {memory : ℕ → Bool}
    (hstep : s.expire now due memory = some t) : PartsUsed only s t := by
  unfold Runtime.expire at hstep
  split at hstep <;> cases hstep
  exact ⟨.refl _, .same _ le_rfl⟩

/-- A dispatched callback uses both parts as they may be used, and the log that it leaves tells whom
it has resumed. -/
theorem used_dispatch (h : s.Invariant []) (hphase : s.phase ≠ .ticking) (hafter : t.Invariant [])
    (honly : ∀ call, only (.inCall call)) (hstep : s.dispatch declared = some t) :
    PartsUsed only s t := by
  have hidle : s.scheduler.activeFiber = none := by_contra fun hne => hphase (h.running hne)
  unfold Runtime.dispatch at hstep
  rcases hcalls : s.async.calls with _ | ⟨next, calls⟩ <;> simp only [hcalls, reduceCtorEq] at hstep
  split_ifs at hstep
  cases hstep
  have huses := Uses.call declared { s with async := { s.async with calls := calls } } next
  refine ⟨(huses.scheduler hidle hafter.recorded.orderly).mono ?_,
    .goesOn huses.pool huses.shares.2.2.2.1.ge⟩
  rintro fiber ⟨call, hposition⟩
  rw [show s.position fiber = .inCall call from hposition]
  exact honly call

/-- **Every step of the runtime** uses the scheduler and the pool as they may be used, and concerns
nobody who is in something that is shared but not what the step is about. -/
theorem uses_step (only : Position → Prop) (h : s.Invariant []) (hproper : Proper declared s action)
    (hstep : s.step declared action = some t)
    (honly : ∀ position : Position, position.shared = none ∨ position.shared = s.concerns action →
      only position) : PartsUsed only s t := by
  have hafter := (invariant_step h hproper hstep).1
  have hcaller : ∀ {fiber}, s.caller = some fiber → s.scheduler.activeFiber = some fiber ∧
      only (s.position fiber) ∧ ∀ other, s.scheduler.activeFiber = some other →
        only (s.position other) := by
    intro fiber hcaller
    obtain ⟨ha, hout⟩ := caller_eq_some hcaller
    have hself : only (s.position fiber) := honly _ (.inl (by rw [hout]; rfl))
    refine ⟨ha, hself, ?_⟩
    rintro other ha'
    cases ha.symm.trans ha'
    exact hself
  unfold step at hstep
  rw [if_neg (by simp [h.defined])] at hstep
  cases action with
  | addFiber function argument region =>
      obtain ⟨fiber, hfiber, huse⟩ := Option.bind_eq_some_iff.mp hstep
      exact used_schedule (hcaller hfiber).2.2 (by simp) huse
  | addAndRunFiber function argument region =>
      obtain ⟨fiber, hfiber, huse⟩ := Option.bind_eq_some_iff.mp hstep
      exact used_schedule (hcaller hfiber).2.2 (by simp) huse
  | yieldCurrentFiber =>
      obtain ⟨fiber, hfiber, huse⟩ := Option.bind_eq_some_iff.mp hstep
      exact used_schedule (hcaller hfiber).2.2 (by simp) huse
  | exitCurrentFiber =>
      obtain ⟨fiber, hfiber, huse⟩ := Option.bind_eq_some_iff.mp hstep
      exact used_schedule (hcaller hfiber).2.2 (by simp) huse
  | waitForFD fd condition timeout now reallocated block inserted =>
      obtain ⟨fiber, hfiber, hwait⟩ := Option.bind_eq_some_iff.mp hstep
      split_ifs at hwait with hguard
      obtain ⟨ha, hself, -⟩ := hcaller hfiber
      have hused : PartsUsed only { s with clock := now } t :=
        used_waitForFD (setClock_keeps h now).invariant ha hself hguard.2 hwait
      exact hused
  | sleepCurrentFiber duration now inserted =>
      obtain ⟨fiber, hfiber, hsleep⟩ := Option.bind_eq_some_iff.mp hstep
      split_ifs at hsleep with hguard
      cases hsleep
      obtain ⟨ha, hself, -⟩ := hcaller hfiber
      have hused : PartsUsed only { s with clock := now }
          ({ s with clock := now }.sleepCurrentFiber fiber duration now inserted) :=
        used_sleepCurrentFiber (s := { s with clock := now }) ha hself duration now inserted
      exact hused
  | doWork function argument woken =>
      obtain ⟨fiber, hfiber, hwork⟩ := Option.bind_eq_some_iff.mp hstep
      obtain ⟨ha, hself, -⟩ := hcaller hfiber
      exact used_doWork ha hself hwork
  | eventWaitFor event =>
      obtain ⟨fiber, hfiber, rfl⟩ := Option.map_eq_some_iff.mp hstep
      obtain ⟨ha, hself, -⟩ := hcaller hfiber
      exact ⟨.suspend ha hself, .same _ le_rfl⟩
  | eventTrigger event =>
      obtain ⟨fiber, hfiber, rfl⟩ := Option.map_eq_some_iff.mp hstep
      obtain ⟨ha, hself, -⟩ := hcaller hfiber
      exact used_eventTrigger h ha hself event (honly _ (.inr rfl))
  | semaphoreDown i =>
      obtain ⟨fiber, hfiber, rfl⟩ := Option.map_eq_some_iff.mp hstep
      obtain ⟨ha, hself, -⟩ := hcaller hfiber
      have hout := (caller_eq_some hfiber).2
      have hwaiters :=
        only_of_waiter h.placed (honly (.inDown i) (.inr rfl)) (honly (.inUp i) (.inr rfl))
      exact ⟨.down (h.placed.queued i) h.placed.accounted ha
        (h.placed.not_waiter (by simp [hout]) (by simp [hout])) hself hwaiters, .same _ le_rfl⟩
  | semaphoreUp i =>
      obtain ⟨fiber, hfiber, rfl⟩ := Option.map_eq_some_iff.mp hstep
      obtain ⟨ha, hself, -⟩ := hcaller hfiber
      have hout := (caller_eq_some hfiber).2
      have hwaiters :=
        only_of_waiter h.placed (honly (.inDown i) (.inr rfl)) (honly (.inUp i) (.inr rfl))
      exact ⟨.up (h.placed.queued i) h.placed.accounted ha
        (h.placed.not_waiter (by simp [hout]) (by simp [hout])) hself hwaiters, .same _ le_rfl⟩
  | close fd =>
      obtain ⟨fiber, -, rfl⟩ := Option.map_eq_some_iff.mp hstep
      exact used_close fd
  | proceed =>
      obtain ⟨fiber, ha, hproceed⟩ := Option.bind_eq_some_iff.mp hstep
      refine used_proceed h ha (fun position hshared => honly position (.inr ?_)) hproceed
      rw [hshared, concerns, ha]
      rfl
  | worker action =>
      dsimp only at hstep
      split_ifs at hstep with hworker
      obtain ⟨pool, hpool, rfl⟩ := Option.map_eq_some_iff.mp hstep
      exact ⟨.refl _, .goesOn (.worker hworker hpool) le_rfl⟩
  | schedulerTick =>
      dsimp only at hstep
      split_ifs at hstep with hguard
      obtain ⟨u, huse, rfl⟩ := Option.map_eq_some_iff.mp hstep
      have hidle : s.scheduler.activeFiber = none := by
        by_contra hne
        have hphase := h.running hne
        rw [hguard.1] at hphase
        cases hphase
      have hused : PartsUsed only s u := used_schedule (by simp [hidle]) (by simp) huse
      exact hused
  | poll freeSlot outcome memory =>
      dsimp only at hstep
      split_ifs at hstep
      exact used_poll hstep
  | dispatch =>
      dsimp only at hstep
      split_ifs at hstep with hphase
      exact used_dispatch h hphase hafter (fun call => honly _ (.inl rfl)) hstep
  | expire now due memory =>
      dsimp only at hstep
      split_ifs at hstep
      have hused : PartsUsed only { s with clock := now } t := used_expire hstep
      exact hused

end Parts

/-- **The scheduler of a runtime has had a run of its own.** -/
theorem scheduler_reachable (h : (runtimeSystem n declared).ReachableWhen (Proper declared) s) :
    schedulerSystem.Reachable s.scheduler := by
  induction h with
  | @init s hs =>
      obtain ⟨fibers, function, argument, region, hscheduler⟩ := hs.scheduler
      rw [hscheduler]
      have hfresh : (Scheduler.init fibers).Fresh region := fun fiber _ => Finset.notMem_empty fiber
      exact StepSystem.ReachableWhen.step (.init ⟨fibers, rfl⟩) trivial
        (show schedulerSystem.step _ (.addFiber function argument region) =
          some _ from if_pos hfresh)
  | step hs hproper hstep ih =>
      have hinvariant := invariant_of_reachable (fun _ _ hc => hc) hs
      exact (uses_step (fun _ => True) hinvariant hproper hstep fun _ _ => trivial).1.reachable ih

/-- **Whatever fibers, events, semaphores, workers, the kernel and the clock do,** the scheduler is
used as it may be used, and over its memory it is in a state that holds these lists. -/
theorem runtime_schedules (h : (runtimeSystem n declared).ReachableWhen (Proper declared) s) :
    ∃ fibers actions, schedulerSystem.run (.init fibers) actions = some s.scheduler ∧
      ∀ calls : List LinkedAction, calls.map (·.action) = actions → ∀ links, ∃ linked,
        linkedSystem.run (.init links fibers) calls = some linked ∧ Refines linked s.scheduler := by
  obtain ⟨_, actions, ⟨fibers, rfl⟩, hrun⟩ := (scheduler_reachable h).exists_run
  refine ⟨fibers, actions, hrun, ?_⟩
  rintro calls rfl links
  obtain ⟨linked, hlinked, hrefines, -⟩ := run_linked hrun links
  exact ⟨linked, hlinked, hrefines⟩

/-- The first fiber waits for a semaphore, is let through by the second, and exits; the second
sleeps, and is woken. -/
def letThrough : List (RuntimeAction 1) :=
  [.schedulerTick, .addFiber 8 0 (some 2), .semaphoreDown 0, .semaphoreUp 0,
    .sleepCurrentFiber 5 0 true, .proceed, .exitCurrentFiber,
    .poll (fun _ => .dirtyEventListHead) (.ready []) (fun _ => true),
    .expire 5 [⟨1, 5, 2, .sleepCallback⟩] (fun _ => true), .dispatch, .schedulerTick]

/-- Two fibers meet at a semaphore, and one of them exits and is freed while the other runs on. The
scheduler of that run has a run of its own, which is carried out in memory. -/
theorem runtime_schedules_letThrough : ∃ s : Runtime 1,
    (runtimeSystem 1 callback3Context).ReachableWhen (Proper callback3Context) s ∧
    s.scheduler.activeFiber = some 2 ∧ s.scheduler.history.count (1, .freed) = 1 ∧
    ∃ fibers actions, schedulerSystem.run (.init fibers) actions = some s.scheduler ∧
      ∀ calls : List LinkedAction, calls.map (·.action) = actions → ∀ links, ∃ linked,
        linkedSystem.run (.init links fibers) calls = some linked ∧ Refines linked s.scheduler := by
  have hend : ((runtimeSystem 1 callback3Context).run started letThrough).map
      (fun s => (s.halted, s.scheduler.activeFiber, s.scheduler.history.count (1, .freed))) =
        some (false, some 2, 1) := by
    decide +kernel
  obtain ⟨s, hrun, hs⟩ := Option.map_eq_some_iff.mp hend
  simp only [Prod.mk.injEq] at hs
  have hreach := reachable_of_defined (StepSystem.reachable_of_run started_initial hrun) hs.1
  exact ⟨s, hreach, hs.2.1, hs.2.2, runtime_schedules hreach⟩

end Runtime

end Pixy.Loop
