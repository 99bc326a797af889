import Pixy.Pool.Idle
import Pixy.Pool.Signals

/-!
# The stop

`ThreadPool_Stop` queues the marker and joins the workers. The marker stays in front once it gets
there, so every worker that is awake comes to an end: each of its steps, and each waking of a
sleeper, takes something from what there is still to do (`ThreadPool.remaining`). So there are only
so many steps.

The thread that stops the pool is the one that reads the pipe, so nobody reads while the workers are
joined. What the pipe holds once everything is written is the same number of bytes all along
(`ThreadPool.completions`), and it decides how the stop goes (`stop_drains`):

* if the pipe takes that many, everybody exits; what was posted has been run, its pointer is in the
  pipe, and nothing is left in the list;
* if not, the pipe fills up, a worker waits to write, and `ThreadPool_Stop` never returns.
-/

namespace Pixy.Pool

open Pixy.Found

variable {n : ℕ} {W : Type}

/-! ## What there is to do -/

/-- The steps of a worker up to the next time it looks at the list, and that look. -/
def Worker.remaining : Worker W → ℕ
  | .exited => 0
  | .atLock | .woken => 1
  | .sleeping | .writing _ => 2
  | .running _ => 3
  | .holding _ => 4

/-- **What there is still to do**: what every worker is at, and four steps for every work in the
list. -/
def ThreadPool.remaining (self : ThreadPool n W) : ℕ :=
  4 * self.queue.length + ∑ worker, (self.workers worker).remaining

/-- How many works a worker has. -/
def Worker.carried : Worker W → ℕ
  | .holding _ | .running _ | .writing _ => 1
  | .atLock | .sleeping | .woken | .exited => 0

/-- **The bytes in the pipe once everything is written**: those that are in it, and a pointer for
every work in the list and for every work with a worker. -/
def ThreadPool.completions (self : ThreadPool n W) : ℕ :=
  self.pipe.length + 8 * (self.queue.length + ∑ worker, (self.workers worker).carried)

variable {s next : ThreadPool n W} {worker : Fin n} {woken : Finset (Fin n)}

/-- Waking takes something away from what the workers have still to do, or nothing if nobody sleeps:
a sleeper has one step more before it. -/
theorem Signalled.remaining_le (h : Signalled s next) : next.remaining ≤ s.remaining := by
  have hqueue : next.queue = s.queue := by rw [h.rest]; rfl
  unfold ThreadPool.remaining
  rw [hqueue]
  refine Nat.add_le_add_left (Finset.sum_le_sum fun worker _ => ?_) _
  rcases h.wakes worker with hsame | ⟨hsleeping, hwoken⟩
  · rw [hsame]
  · rw [hsleeping, hwoken]
    simp [Worker.remaining]

/-- A sum over the workers changes in the place of the one that goes on. -/
theorem sum_setWorker (f : Worker W → ℕ) (s : ThreadPool n W) (worker : Fin n) (state : Worker W) :
    (∑ other, f ((s.setWorker worker state).workers other)) + f (s.workers worker) =
      (∑ other, f (s.workers other)) + f state := by
  have hother : ∀ other ∈ Finset.univ.erase worker,
      f ((s.setWorker worker state).workers other) = f (s.workers other) := by
    intro other hother
    simp [ThreadPool.setWorker, Finset.ne_of_mem_erase hother]
  have hself : (s.setWorker worker state).workers worker = state := by simp [ThreadPool.setWorker]
  rw [← Finset.add_sum_erase Finset.univ _ (Finset.mem_univ worker),
    ← Finset.add_sum_erase Finset.univ (fun other => f (s.workers other)) (Finset.mem_univ worker),
    Finset.sum_congr rfl hother, hself]
  omega

/-- A worker that goes on changes what there is to do by what it is at before and after. -/
theorem remaining_setWorker (s : ThreadPool n W) (worker : Fin n) (state : Worker W) :
    (s.setWorker worker state).remaining + (s.workers worker).remaining =
      s.remaining + state.remaining := by
  have hsum := sum_setWorker Worker.remaining s worker state
  have hqueue : (s.setWorker worker state).queue = s.queue := rfl
  unfold ThreadPool.remaining
  rw [hqueue]
  omega

/-- A worker that goes on changes what is to be written by what it has before and after. -/
theorem completions_setWorker (s : ThreadPool n W) (worker : Fin n) (state : Worker W) :
    (s.setWorker worker state).completions + 8 * (s.workers worker).carried =
      s.completions + 8 * state.carried := by
  have hsum := sum_setWorker Worker.carried s worker state
  have hqueue : (s.setWorker worker state).queue = s.queue := rfl
  have hpipe : (s.setWorker worker state).pipe = s.pipe := rfl
  unfold ThreadPool.completions
  rw [hqueue, hpipe]
  omega

/-- Waking leaves the pipe alone, as a signal of the condition variable changes nothing but who
sleeps. -/
theorem Signalled.pipe_eq (h : Signalled s next) : next.pipe = s.pipe := by
  rw [h.rest]

/-- Waking leaves what is to be written as it is: sleepers have nothing. -/
theorem Signalled.completions_eq (h : Signalled s next) : next.completions = s.completions := by
  have hqueue : next.queue = s.queue := by rw [h.rest]; rfl
  have hcarried : ∀ worker, (next.workers worker).carried = (s.workers worker).carried := by
    intro worker
    rcases h.wakes worker with hsame | ⟨hsleeping, hwoken⟩
    · rw [hsame]
    · rw [hsleeping, hwoken]
      rfl
  unfold ThreadPool.completions
  rw [hqueue, h.pipe_eq, Finset.sum_congr rfl fun worker _ => hcarried worker]

/-- A worker that goes on with what it has leaves it as it is, too. -/
theorem completions_of_worker {state : Worker W} (hlist : next.workList = s.workList)
    (hpipe : next.pipe = s.pipe) (hworkers : next.workers = (s.setWorker worker state).workers)
    (h : state.carried = (s.workers worker).carried) : next.completions = s.completions := by
  have hset := completions_setWorker s worker state
  have hsame : next.completions = (s.setWorker worker state).completions := by
    unfold ThreadPool.completions ThreadPool.queue
    rw [hlist, hpipe, hworkers]
    rfl
  omega

/-- A worker is nearer to its end, and nothing is added to the list. -/
theorem remaining_lt_of_worker {state : Worker W} (hlist : next.workList = s.workList)
    (hworkers : next.workers = (s.setWorker worker state).workers)
    (h : state.remaining < (s.workers worker).remaining) : next.remaining < s.remaining := by
  have hset := remaining_setWorker s worker state
  have hsame : next.remaining = (s.setWorker worker state).remaining := by
    unfold ThreadPool.remaining ThreadPool.queue
    rw [hlist, hworkers]
    rfl
  omega

variable [DecidableEq W]

/-- A look at the list: what is taken off it is with the worker. -/
theorem completions_examine (hw : s.AboutToExamine worker)
    (hexamines : s.Examines worker woken next) : next.completions = s.completions := by
  have hnone : (s.workers worker).carried = 0 := by rcases hw with hw | hw <;> rw [hw] <;> rfl
  have hawake : s.workers worker ≠ .sleeping := by rcases hw with hw | hw <;> simp [hw]
  cases hexamines with
  | empty hlist => exact completions_of_worker rfl rfl rfl hnone.symm
  | @marker rest signalled hlist hrelay hs =>
      have hset := completions_setWorker signalled worker .exited
      rw [hs.awake hawake, hnone, hs.completions_eq] at hset
      simpa [Worker.carried] using hset
  | @work work rest signalled hlist hrelay hs =>
      have hset := completions_setWorker signalled worker (.holding work)
      have hnone' : (({ s with workList := rest } : ThreadPool n W).workers worker).carried = 0 :=
        hnone
      have hawake' : ({ s with workList := rest } : ThreadPool n W).workers worker ≠ .sleeping :=
        hawake
      rw [hs.awake hawake', hnone', hs.completions_eq] at hset
      have hqueue : s.queue = work :: rest.filterMap WorkListItem.work? := by
        rw [ThreadPool.queue, hlist]
        rfl
      have hshorter : ({ s with workList := rest } : ThreadPool n W).completions + 8 =
          s.completions := by
        unfold ThreadPool.completions
        rw [hqueue, List.length_cons]
        simp only [ThreadPool.queue]
        omega
      change (signalled.setWorker worker (.holding work)).completions = s.completions
      simp only [Worker.carried] at hset
      omega

/-- **No step of a worker changes what the pipe is to hold**: a work goes from the list to a worker
and from the worker into the pipe. -/
theorem completions_ofWorker {action : PoolAction n W} (hworker : OfWorker action)
    (hstep : s.step action = some next) : next.completions = s.completions := by
  cases ThreadPool.steps hstep with
  | postWork => cases hworker
  | stop => cases hworker
  | join => cases hworker
  | readPipe => cases hworker
  | callback => cases hworker
  | examine hw hexamines => exact completions_examine hw hexamines
  | start hw => exact completions_of_worker rfl rfl rfl (by rw [hw]; rfl)
  | finish hw => exact completions_of_worker rfl rfl rfl (by rw [hw]; rfl)
  | @write worker work hw hroom =>
      have hset := completions_setWorker s worker .atLock
      have hlength : (pointerBytes work).length = 8 := length_pointerBytes work
      rw [hw] at hset
      simp only [ThreadPool.completions, ThreadPool.record, ThreadPool.queue, Worker.carried,
        List.length_append, hlength] at hset ⊢
      simp only [ThreadPool.setWorker] at hset ⊢
      omega
  | wake hw => exact completions_of_worker rfl rfl rfl (by rw [hw]; rfl)

/-- **The pipe never holds more than it can**: a pointer is written only where there is room for it,
and a read makes room. -/
theorem pipe_length_le (h : s.pipe.length ≤ pipeSize) {action : PoolAction n W}
    (hstep : s.step action = some next) : next.pipe.length ≤ pipeSize := by
  cases ThreadPool.steps hstep with
  | postWork hphase hidle hpost => exact (Signalled.of_insert hpost).pipe_eq ▸ h
  | stop hphase hstop => exact (Signalled.of_insert hstop).pipe_eq ▸ h
  | join => exact h
  | readPipe hpipe hbatch hread =>
      unfold ThreadPool.readPipe at hread
      obtain ⟨works, -, hnext⟩ := Option.bind_eq_some_iff.mp hread
      cases hnext
      simp only [List.length_drop]
      omega
  | callback => exact h
  | examine hw hexamines =>
      cases hexamines with
      | empty hlist => exact h
      | @marker _ signalled hlist hrelay hs =>
          show signalled.pipe.length ≤ pipeSize
          exact hs.pipe_eq ▸ h
      | @work _ _ signalled hlist hrelay hs =>
          show signalled.pipe.length ≤ pipeSize
          exact hs.pipe_eq ▸ h
  | start | finish | wake => exact h
  | @write worker work hw hroom =>
      have hlength : (pointerBytes work).length = 8 := length_pointerBytes work
      simp only [ThreadPool.record, List.length_append, hlength]
      exact hroom

/-- A look at the list, with the marker in it, gets its worker nearer to its end: it takes a work or
exits. -/
theorem remaining_examine (he : Ending s) (hphase : s.phase = .stopping)
    (hw : s.AboutToExamine worker)
    (hexamines : s.Examines worker woken next) : next.remaining < s.remaining := by
  have hone : (s.workers worker).remaining = 1 := by rcases hw with hw | hw <;> rw [hw] <;> rfl
  have hawake : s.workers worker ≠ .sleeping := by rcases hw with hw | hw <;> simp [hw]
  cases hexamines with
  | empty hlist =>
      have hshape := he.shape
      rw [hlist, if_pos hphase] at hshape
      exact absurd hshape.symm (by simp)
  | @marker rest signalled hlist hrelay hs =>
      have hset := remaining_setWorker signalled worker .exited
      have hle := hs.remaining_le
      rw [hs.awake hawake, hone] at hset
      simp only [Worker.remaining] at hset
      omega
  | @work work rest signalled hlist hrelay hs =>
      have hset := remaining_setWorker signalled worker (.holding work)
      have hle := hs.remaining_le
      have hawake' : ({ s with workList := rest } : ThreadPool n W).workers worker ≠ .sleeping :=
        hawake
      rw [hs.awake hawake'] at hset
      -- the list is shorter by the work
      have hqueue : s.queue = work :: rest.filterMap WorkListItem.work? := by
        rw [ThreadPool.queue, hlist]
        rfl
      have hshorter :
          ({ s with workList := rest } : ThreadPool n W).remaining + 4 = s.remaining := by
        unfold ThreadPool.remaining
        rw [hqueue, List.length_cons]
        simp only [ThreadPool.queue]
        omega
      have hone' : (({ s with workList := rest } : ThreadPool n W).workers worker).remaining = 1 :=
        hone
      rw [hone'] at hset
      simp only [Worker.remaining] at hset
      change (signalled.setWorker worker (.holding work)).remaining < s.remaining
      omega

/-- **Every step of a worker takes something away**, once the marker is in the list. -/
theorem remaining_lt (he : Ending s) (hphase : s.phase = .stopping) {action : PoolAction n W}
    (hworker : OfWorker action) (hstep : s.step action = some next) :
    next.remaining < s.remaining := by
  cases ThreadPool.steps hstep with
  | postWork => cases hworker
  | stop => cases hworker
  | join => cases hworker
  | readPipe => cases hworker
  | callback => cases hworker
  | examine hw hexamines => exact remaining_examine he hphase hw hexamines
  | start hw => exact remaining_lt_of_worker rfl rfl (by rw [hw]; simp [Worker.remaining])
  | finish hw => exact remaining_lt_of_worker rfl rfl (by rw [hw]; simp [Worker.remaining])
  | write hw => exact remaining_lt_of_worker rfl rfl (by rw [hw]; simp [Worker.remaining])
  | wake hw => exact remaining_lt_of_worker rfl rfl (by rw [hw]; simp [Worker.remaining])

/-! ## The end -/

/-- What holds while the workers are joined. -/
structure Stopping (s : ThreadPool n W) : Prop where
  /-- The invariant of the pool. -/
  located : ∃ phase, Located s phase
  /-- The invariant of the pool. -/
  ending : Ending s
  /-- Somebody is on the way to the list. -/
  attended : Attended s
  /-- The pipe holds what it can. -/
  capacity : s.pipe.length ≤ pipeSize
  /-- The marker is in the list. -/
  phase : s.phase = .stopping

/-- A step of a worker keeps all of that and takes something from what there is to do. -/
theorem Stopping.step (h : Stopping s) {action : PoolAction n W} (hworker : OfWorker action)
    (hstep : s.step action = some next) : Stopping next ∧ next.remaining < s.remaining := by
  obtain ⟨hlocated, hending⟩ := ThreadPool.step_spec h.located h.ending hstep
  obtain ⟨⟨-, -, hphase⟩, -⟩ := step_ofWorker hworker hstep
  exact ⟨⟨hlocated, hending, h.attended.step hstep, pipe_length_le h.capacity hstep,
    hphase.trans h.phase⟩, remaining_lt h.ending h.phase hworker hstep⟩

omit [DecidableEq W] in
/-- A step of one's own is a step of a worker. -/
theorem PoolAction.By.ofWorker {action : PoolAction n W} (h : action.By worker) :
    OfWorker action := by
  cases action <;> first | rfl | exact h.elim

/-- **What the workers leave**, who have all exited. -/
structure Drained (s : ThreadPool n W) : Prop where
  /-- Nobody is in the pool any more. -/
  exited : ∀ worker, s.workers worker = .exited
  /-- `ThreadPool_Stop` can go on, and leaves an empty list. -/
  join : s.step .join = some s.join ∧ s.join.workList = []
  /-- What was posted and not called back has been run, and waits in the pipe or in the batch. -/
  run : ∃ works, s.pipe = encode works ∧ works.Nodup ∧
    ∀ work, work ∈ works ↔ ¬s.Idle work ∧ work ∉ s.batch

/-- **What the workers leave** where the pipe does not take everything: a stop that never
returns. -/
structure Stuck (s : ThreadPool n W) : Prop where
  /-- The pipe is full, -/
  full : s.pipe.length = pipeSize
  /-- somebody waits to write, -/
  waits : ∃ worker work, s.workers worker = .writing work
  /-- no worker can take a step, -/
  workers : ∀ action, OfWorker action → s.step action = none
  /-- and `ThreadPool_Stop`, which joins them, cannot go on. -/
  join : s.step .join = none

/-- **When no worker can step**, all have exited, or the pipe has no room and all who have not wait
to write. -/
theorem Stopping.ended (h : Stopping s) (hend : ∀ action, OfWorker action → s.step action = none) :
    (∀ worker, s.workers worker = .exited) ∨ ¬ s.PipeHasRoom ∧
      ∀ worker, s.workers worker = .exited ∨ ∃ work, s.workers worker = .writing work := by
  rcases (h.attended.noLostWakeUp h.ending).stop_progress h.phase with hexited | hcan | hfull
  · exact .inl hexited
  · obtain ⟨worker, action, next, hby, hstep⟩ := hcan
    rw [hend action hby.ofWorker] at hstep
    cases hstep
  · exact .inr hfull

/-- Where everybody has exited the list is empty of works, as the first worker to exit found it so.
-/
theorem Stopping.queue_eq_nil (h : Stopping s) (hn : 0 < n)
    (hexited : ∀ worker, s.workers worker = .exited) : s.queue = [] :=
  (h.ending.exited ⟨0, hn⟩ (hexited _)).2

omit [DecidableEq W] in
/-- Once everybody has exited, everything that is to be called back is in the pipe. -/
theorem completions_of_exited (hexited : ∀ worker, s.workers worker = .exited)
    (hqueue : s.queue = []) : s.completions = s.pipe.length := by
  unfold ThreadPool.completions
  simp [hqueue, hexited, Worker.carried]

/-- **If everything fits, everybody exits**: a worker that waits to write has something that does
not fit. -/
theorem Stopping.exited_of_fits (h : Stopping s) (hfits : s.completions ≤ pipeSize)
    (hend : ∀ action, OfWorker action → s.step action = none) :
    ∀ worker, s.workers worker = .exited := by
  rcases h.ended hend with hexited | ⟨hfull, hwaits⟩
  · exact hexited
  · intro worker
    refine (hwaits worker).resolve_right ?_
    rintro ⟨work, hw⟩
    have hone : (s.workers worker).carried ≤ ∑ other, (s.workers other).carried :=
      Finset.single_le_sum (f := fun other => (s.workers other).carried) (fun _ _ => Nat.zero_le _)
        (Finset.mem_univ worker)
    have hcarried : (s.workers worker).carried = 1 := by rw [hw]; rfl
    rw [hcarried] at hone
    unfold ThreadPool.completions at hfits
    exact hfull (show s.pipe.length + 8 ≤ pipeSize by omega)

/-- **If not everything fits, the stop gets stuck**: with everybody out, all of it would be in the
pipe. -/
theorem Stopping.stuck (h : Stopping s) (hn : 0 < n) (hfits : ¬ s.completions ≤ pipeSize)
    (hend : ∀ action, OfWorker action → s.step action = none) : Stuck s := by
  have hsome : ¬ ∀ worker, s.workers worker = .exited := by
    intro hexited
    rw [completions_of_exited hexited (h.queue_eq_nil hn hexited)] at hfits
    exact hfits h.capacity
  obtain ⟨hfull, hwaits⟩ := (h.ended hend).resolve_left hsome
  obtain ⟨worker, hworker⟩ := not_forall.mp hsome
  obtain ⟨work, hw⟩ := (hwaits worker).resolve_left hworker
  refine ⟨?_, ⟨worker, work, hw⟩, hend, if_neg fun hjoin => hsome hjoin.2⟩
  -- whole pointers, so nothing is left when a pointer does not fit
  obtain ⟨phase, hlocated⟩ := h.located
  obtain ⟨works, hpipe, -, -⟩ := hlocated.pipe
  have hlength : s.pipe.length = 8 * works.length := by rw [hpipe, length_encode]
  have hle := h.capacity
  have hlt : ¬ s.pipe.length + 8 ≤ pipeSize := hfull
  unfold pipeSize at hle hlt ⊢
  omega

/-- What was posted is in the pipe or in the batch once everybody has exited with an empty list. -/
theorem Stopping.drained (h : Stopping s) (hexited : ∀ worker, s.workers worker = .exited)
    (hqueue : s.queue = []) : Drained s := by
  obtain ⟨phase, hlocated⟩ := h.located
  obtain ⟨works, hpipe, hnodup, hworks⟩ := hlocated.pipe
  obtain ⟨hlist, -⟩ := h.ending.join_workList h.phase
  have hjoin : s.step .join = some s.join := if_pos ⟨h.phase, hexited⟩
  refine ⟨hexited, ⟨hjoin, by rw [hlist, hqueue]; rfl⟩, works, hpipe, hnodup, fun work => ?_⟩
  rw [hworks, hlocated.batch, hlocated.idle_iff]
  have hnotqueue : (phase work).place ≠ .queue := by
    rw [Ne, ← hlocated.queue, hqueue]
    exact List.not_mem_nil
  have hnotworker : ∀ worker stage, (phase work).place ≠ .worker worker stage := by
    intro worker stage hplace
    rw [← hlocated.worker, hexited] at hplace
    cases hplace
  rcases hphase : phase work with _ | _ | ⟨worker, _⟩ | ⟨worker, _⟩ | ⟨worker, _⟩ | _ | _
  · simp [WorkPhase.place]
  · exact absurd (by rw [hphase]; rfl) hnotqueue
  · exact absurd (by rw [hphase]; rfl) (hnotworker worker .holding)
  · exact absurd (by rw [hphase]; rfl) (hnotworker worker .running)
  · exact absurd (by rw [hphase]; rfl) (hnotworker worker .writing)
  · simp [WorkPhase.place]
  · simp [WorkPhase.place]

/-- All of it holds in every state in which the pool is being stopped. -/
theorem stopping_of_reachable (h : (poolSystem n W).Reachable s) (hphase : s.phase = .stopping) :
    Stopping s := by
  have hcapacity : s.pipe.length ≤ pipeSize := by
    refine StepSystem.ReachableWhen.induct (I := fun s => s.pipe.length ≤ pipeSize) ?_ ?_ h
    · rintro _ ⟨works, rfl⟩
      exact Nat.zero_le _
    · intro s action next _ hs _ hstep
      exact pipe_length_le hs hstep
  exact ⟨(located_of_reachable h).1, (located_of_reachable h).2, attended_of_reachable h, hcapacity,
    hphase⟩

/-- Steps of the workers keep what holds while they are joined, and what the pipe is to hold. -/
theorem Stopping.run (h : Stopping s) {actions : List (PoolAction n W)}
    (hworkers : ∀ action ∈ actions, OfWorker action)
    (hrun : (poolSystem n W).run s actions = some next) :
    (Stopping next ∧ next.completions = s.completions) ∧
      actions.length + next.remaining ≤ s.remaining := by
  refine StepSystem.length_le_of_decreasing (T := poolSystem n W)
    (I := fun u => Stopping u ∧ u.completions = s.completions) ?_ ⟨h, rfl⟩ hworkers hrun
  rintro u action v ⟨hu, hsame⟩ hworker hstep
  obtain ⟨hv, hlt⟩ := hu.step hworker hstep
  exact ⟨⟨hv, (completions_ofWorker hworker hstep).trans hsame⟩, hlt⟩

omit [DecidableEq W] in
/-- When nothing is left to do, everybody has exited and the list is empty. -/
theorem exited_of_remaining (hzero : s.remaining = 0) :
    (∀ worker, s.workers worker = .exited) ∧ s.queue = [] := by
  unfold ThreadPool.remaining at hzero
  have hsum : ∑ worker, (s.workers worker).remaining = 0 := by omega
  refine ⟨fun worker => ?_, List.length_eq_zero_iff.mp (by omega)⟩
  have hworker := Finset.sum_eq_zero_iff.mp hsum worker (Finset.mem_univ worker)
  cases hw : s.workers worker <;> rw [hw] at hworker <;> first | rfl | cases hworker

omit [DecidableEq W] in
/-- When everybody has exited and the list is empty, nothing is left to do. -/
theorem remaining_of_exited (hexited : ∀ worker, s.workers worker = .exited)
    (hqueue : s.queue = []) : s.remaining = 0 := by
  unfold ThreadPool.remaining
  simp [hqueue, hexited, Worker.remaining]

/-- **How `ThreadPool_Stop` goes.** However the workers' steps, the signals and the wakings for no
reason follow each other, there are no more of them than `remaining` says, and nothing is left to do
only when the pool is drained. If the pipe takes what is in it and all that is still to be written,
the workers stop only then, and always can get there. If it does not, they never do: they fill the
pipe, and `ThreadPool_Stop` waits for ever. -/
theorem stop_drains (hn : 0 < n) (h : (poolSystem n W).Reachable s) (hphase : s.phase = .stopping)
    {actions : List (PoolAction n W)} (hworkers : ∀ action ∈ actions, OfWorker action)
    (hrun : (poolSystem n W).run s actions = some next) :
    actions.length + next.remaining ≤ s.remaining ∧
      (next.remaining = 0 → Drained next) ∧
      (s.completions ≤ pipeSize →
        ((∀ action, OfWorker action → next.step action = none) ↔ next.remaining = 0) ∧
          ∃ more last, (∀ action ∈ more, OfWorker action) ∧
            (poolSystem n W).run next more = some last ∧ last.remaining = 0) ∧
      (pipeSize < s.completions →
        ((∀ action, OfWorker action → next.step action = none) ↔ Stuck next) ∧
          ∃ more last, (∀ action ∈ more, OfWorker action) ∧
            (poolSystem n W).run next more = some last ∧ Stuck last) := by
  obtain ⟨⟨hnext, hsame⟩, hlength⟩ := (stopping_of_reachable h hphase).run hworkers hrun
  have hend : next.remaining = 0 → ∀ action, OfWorker action → next.step action = none := by
    intro hnone action hworker
    by_contra hne
    obtain ⟨after, hafter⟩ := Option.ne_none_iff_exists'.mp hne
    have hlt := (hnext.step hworker hafter).2
    omega
  -- wherever the workers have got to, they get to where none of them can go on
  obtain ⟨more, last, hmore, hlast, hstuck⟩ := StepSystem.exists_run_to_end (T := poolSystem n W)
    (C := fun action => OfWorker action) (μ := ThreadPool.remaining)
    (fun _ _ _ hs hworker hstep => Stopping.step hs hworker hstep) hnext
  obtain ⟨⟨hlast', hsame'⟩, -⟩ := hnext.run hmore hlast
  refine ⟨hlength, ?_, ?_, ?_⟩
  · intro hnone
    obtain ⟨hexited, hqueue⟩ := exited_of_remaining hnone
    exact hnext.drained hexited hqueue
  · intro hfits
    have hzero : ∀ last : ThreadPool n W, Stopping last → last.completions ≤ pipeSize →
        (∀ action, OfWorker action → last.step action = none) → last.remaining = 0 := by
      intro last hlast hfits hend
      have hexited := hlast.exited_of_fits hfits hend
      exact remaining_of_exited hexited (hlast.queue_eq_nil hn hexited)
    exact ⟨⟨hzero next hnext (hsame ▸ hfits), hend⟩, more, last, hmore, hlast,
      hzero last hlast' (hsame' ▸ hsame ▸ hfits) hstuck⟩
  · intro hover
    have hnext' : ¬ next.completions ≤ pipeSize := by omega
    have hover' : ¬ last.completions ≤ pipeSize := by omega
    exact ⟨⟨hnext.stuck hn hnext', Stuck.workers⟩, more, last, hmore, hlast,
      hlast'.stuck hn hover' hstuck⟩

/-- Two works are posted, one is taken, and the pool is stopped. -/
def stopsWithTwo : List (PoolAction 2 Bool) :=
  let one : Fin 2 := (Fin.last 0).castSucc
  let other : Fin 2 := Fin.last 1
  [.examine other ∅, .postWork true ⟨1, 2, 3, 4⟩ {other}, .postWork false ⟨5, 6, 7, 8⟩ ∅,
    .examine one ∅, .stop ∅]

/-- The workers' steps after that. -/
def workersOut : List (PoolAction 2 Bool) :=
  let one : Fin 2 := (Fin.last 0).castSucc
  let other : Fin 2 := Fin.last 1
  [.examine other ∅, .start one, .start other, .finish other, .write other, .examine other ∅,
    .finish one, .write one, .examine one ∅]

/-- Two pointers are still to be written when the pool is stopped, they fit, and nine steps get
everybody out. -/
theorem stop_drains_stopsWithTwo : ∃ s t : ThreadPool 2 Bool,
    (poolSystem 2 Bool).run (.init fun _ => ⟨0, 0, 0, 0⟩) stopsWithTwo = some s ∧
      (poolSystem 2 Bool).run s workersOut = some t ∧ s.remaining = 9 ∧ s.completions = 16 ∧
      t.remaining = 0 ∧ t.pipe = encode [false, true] ∧
      workersOut.length + t.remaining ≤ s.remaining ∧ Drained t ∧
      ∃ more last, (∀ action ∈ more, OfWorker action) ∧
        (poolSystem 2 Bool).run t more = some last ∧ last.remaining = 0 := by
  have hend : ((poolSystem 2 Bool).run (.init fun _ => ⟨0, 0, 0, 0⟩) stopsWithTwo).bind (fun s =>
      ((poolSystem 2 Bool).run s workersOut).map fun t =>
        ((s.phase, s.remaining, s.completions), t.remaining, t.pipe)) =
        some ((.stopping, 9, 16), 0, encode [false, true]) := by
    decide +kernel
  obtain ⟨s, hs, ht⟩ := Option.bind_eq_some_iff.mp hend
  obtain ⟨t, ht, hends⟩ := Option.map_eq_some_iff.mp ht
  simp only [Prod.mk.injEq] at hends
  obtain ⟨⟨hphase, hremaining, hcompletions⟩, hzero, hpipe⟩ := hends
  obtain ⟨hlength, hdrained, hfits, -⟩ :=
    stop_drains (by decide) (StepSystem.reachable_of_run ⟨_, rfl⟩ hs) hphase (by decide) ht
  exact ⟨s, t, hs, ht, hremaining, hcompletions, hzero, hpipe, hlength, hdrained hzero,
    (hfits (by rw [hcompletions]; decide)).2⟩

end Pixy.Pool
