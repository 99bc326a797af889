import Pixy.Pool.Idle
import Pixy.Pool.Once

/-!
# First in, first out

The work list and the pipe are queues. So works are taken in the order in which they were posted,
however many workers there are, and called back in the order in which the workers wrote their
pointers, however these were cut into batches. Only between the two can one work overtake another,
and a single worker does not let it: then works are called back in the order in which they were
posted.

`order` lists the works to which something happened; each step adds at most one entry to one of
these lists, where it takes a work from one queue or puts it into the next (`FirstInFirstOut.step`).
-/

namespace Pixy.Pool

open Pixy.Found

variable {n : ℕ} {W : Type}

/-- The works to which an event of that number happened, oldest first. -/
def ThreadPool.order (self : ThreadPool n W) (rank : ℕ) : List W :=
  self.log.reverse.filterMap fun (work, event) => if event.rank = rank then some work else none

variable {s next : ThreadPool n W} {worker : Fin n} {work : W} {rank : ℕ}

/-- The orders are read off the log, so a step that leaves the log alone leaves them as they are. -/
theorem order_congr (hlog : next.log = s.log) (rank : ℕ) : next.order rank = s.order rank := by
  unfold ThreadPool.order
  rw [hlog]

/-- An entry is the last of the works with its number. -/
theorem order_cons {event : WorkEvent n} (hlog : next.log = (work, event) :: s.log) (rank : ℕ) :
    next.order rank = s.order rank ++ if event.rank = rank then [work] else [] := by
  unfold ThreadPool.order
  rw [hlog, List.reverse_cons, List.filterMap_append]
  split_ifs with hrank <;> simp [hrank]

/-- A read of the pipe makes no entry of another kind, so the orders in which works were posted,
taken, written and called back stay. -/
theorem order_read {works : List W} (hlog : next.log = works.map (·, .read) ++ s.log)
    (hrank : rank ≠ 5) :
    next.order rank = s.order rank := by
  unfold ThreadPool.order
  rw [hlog, List.reverse_append, List.filterMap_append]
  suffices hnone : (works.map fun work => (work, (.read : WorkEvent n))).reverse.filterMap
      (fun (work, event) => if event.rank = rank then some work else none) = [] by
    rw [hnone, List.append_nil]
  rw [List.filterMap_eq_nil_iff]
  intro entry hentry
  obtain ⟨work, -, rfl⟩ := List.mem_map.mp (List.mem_reverse.mp hentry)
  exact if_neg hrank.symm

/-- **The two queues**, and the one worker between them. -/
structure FirstInFirstOut (s : ThreadPool n W) : Prop where
  /-- What was posted has been taken, in this order, or is in the list. -/
  taken : s.order 0 = s.order 1 ++ s.queue
  /-- What was written has been called back, in this order, or is in the batch or in the pipe. -/
  called : ∃ works, s.pipe = encode works ∧ s.order 4 = s.order 6 ++ s.batch ++ works
  /-- A single worker has written what it has taken, in this order, or has it. -/
  alone : n = 1 → ∀ worker, s.order 1 = s.order 4 ++ ((s.workers worker).load.map (·.1)).toList

namespace FirstInFirstOut

/-- At first nothing has happened to any work, and all queues are empty. -/
theorem init (works : W → Work) : FirstInFirstOut (.init works : ThreadPool n W) where
  taken := rfl
  called := ⟨[], rfl, rfl⟩
  alone _ _ := rfl

/-- A step after which the orders, the list, the pipe and the batch are the same, and every worker
has the same work, keeps the invariant. -/
theorem congr (h : FirstInFirstOut s)
    (horder : ∀ rank ∈ [0, 1, 4, 6], next.order rank = s.order rank) (hqueue : next.queue = s.queue)
    (hpipe : next.pipe = s.pipe) (hbatch : next.batch = s.batch)
    (hworkers : ∀ worker, (next.workers worker).load.map (·.1) =
      (s.workers worker).load.map (·.1)) :
    FirstInFirstOut next where
  taken := by
    rw [horder 0 (by simp), horder 1 (by simp), hqueue]
    exact h.taken
  called := by
    rw [horder 4 (by simp), horder 6 (by simp), hpipe, hbatch]
    exact h.called
  alone hn worker := by
    rw [horder 1 (by simp), horder 4 (by simp), hworkers]
    exact h.alone hn worker

/-- Waking sleepers moves no work, so the queues are as they were. -/
theorem of_signalled (h : FirstInFirstOut s) (hs : Signalled s next) : FirstInFirstOut next := by
  refine h.congr (fun rank _ => order_congr (by rw [hs.rest]) rank) ?_
    (by rw [hs.rest]) (by rw [hs.rest]) fun worker => ?_
  · rw [hs.rest]
    rfl
  · rcases hs.wakes worker with hsame | ⟨hsleeping, hwoken⟩
    · rw [hsame]
    · rw [hsleeping, hwoken]
      rfl

/-- Where there is only one worker, any two workers are the same. -/
theorem eq_of_one (hn : n = 1) (worker other : Fin n) : other = worker := by
  subst hn
  exact Subsingleton.elim _ _

/-- A worker that has no work goes on without one, which leaves all orders as they are. -/
theorem unloaded (h : FirstInFirstOut s) {state : Worker W} (hwas : (s.workers worker).load = none)
    (hload : state.load = none) : FirstInFirstOut (s.setWorker worker state) := by
  refine h.congr (fun rank _ => rfl) rfl rfl rfl fun other => ?_
  by_cases ho : other = worker
  · subst ho
    simp [ThreadPool.setWorker, hwas, hload]
  · simp [ThreadPool.setWorker, ho]

/-! ## In and out -/

/-- A worker goes on with the work it has; the entry concerns no queue. -/
theorem stay (h : FirstInFirstOut s) {state : Worker W} {event : WorkEvent n}
    (hload : state.load.map (·.1) = (s.workers worker).load.map (·.1))
    (hrank : event.rank ∉ [0, 1, 4, 6]) :
    FirstInFirstOut ((s.setWorker worker state).record work event) := by
  have hlog : ((s.setWorker worker state).record work event).log = (work, event) :: s.log := rfl
  refine h.congr (fun rank hin => ?_) rfl rfl rfl fun other => ?_
  · rw [order_cons hlog, if_neg, List.append_nil]
    rintro rfl
    exact hrank hin
  · by_cases ho : other = worker
    · subst ho
      simpa [ThreadPool.setWorker, ThreadPool.record] using hload
    · simp [ThreadPool.setWorker, ThreadPool.record, ho]

/-- A work is put at the end of the list, behind those that were posted before it. -/
theorem post (h : FirstInFirstOut s) {fields : Work}
    (hlog : next.log = (work, .posted fields) :: s.log) (hqueue : next.queue = s.queue ++ [work])
    (hpipe : next.pipe = s.pipe) (hbatch : next.batch = s.batch)
    (hworkers : next.workers = s.workers) : FirstInFirstOut next where
  taken := by simp [order_cons hlog, WorkEvent.rank, h.taken, hqueue]
  called := by simpa [order_cons hlog, WorkEvent.rank, hpipe, hbatch] using h.called
  alone hn worker := by simpa [order_cons hlog, WorkEvent.rank, hworkers] using h.alone hn worker

/-- A worker takes the front of the list, so the order of taking goes on as the order of posting
did. -/
theorem take (h : FirstInFirstOut s) (hlog : next.log = (work, .taken worker) :: s.log)
    (hqueue : s.queue = work :: next.queue) (hpipe : next.pipe = s.pipe)
    (hbatch : next.batch = s.batch) (hwas : (s.workers worker).load = none)
    (hworker : next.workers worker = .holding work) :
    FirstInFirstOut next where
  taken := by simp [order_cons hlog, WorkEvent.rank, h.taken, hqueue]
  called := by simpa [order_cons hlog, WorkEvent.rank, hpipe, hbatch] using h.called
  alone hn other := by
    obtain rfl := eq_of_one hn worker other
    have hall := h.alone hn other
    rw [hwas] at hall
    simp [order_cons hlog, WorkEvent.rank, hall, hworker, Worker.load]

/-- A pointer is put at the end of the pipe, behind those that were written before it. -/
theorem write (h : FirstInFirstOut s) (hlog : next.log = (work, .written worker) :: s.log)
    (hqueue : next.queue = s.queue) (hpipe : next.pipe = s.pipe ++ pointerBytes work)
    (hbatch : next.batch = s.batch) (hwas : s.workers worker = .writing work)
    (hworker : next.workers worker = .atLock) : FirstInFirstOut next where
  taken := by simp [order_cons hlog, WorkEvent.rank, h.taken, hqueue]
  called := by
    obtain ⟨works, hold, hcalled⟩ := h.called
    refine ⟨works ++ [work], ?_, by simp [order_cons hlog, WorkEvent.rank, hcalled, hbatch]⟩
    rw [hpipe, hold, encode_append]
    simp [encode]
  alone hn other := by
    obtain rfl := eq_of_one hn worker other
    simp [order_cons hlog, WorkEvent.rank, h.alone hn other, hwas, hworker, Worker.load]

/-- The front of the batch is called back, so the order of the callbacks goes on as the order of
writing did. -/
theorem callback (h : FirstInFirstOut s) {callback data : ℕ}
    (hlog : next.log = (work, .calledBack callback data) :: s.log) (hqueue : next.queue = s.queue)
    (hpipe : next.pipe = s.pipe) (hbatch : s.batch = work :: next.batch)
    (hworkers : next.workers = s.workers) : FirstInFirstOut next where
  taken := by simp [order_cons hlog, WorkEvent.rank, h.taken, hqueue]
  called := by
    obtain ⟨works, hold, hcalled⟩ := h.called
    exact ⟨works, hpipe.trans hold, by simp [order_cons hlog, WorkEvent.rank, hcalled, hbatch]⟩
  alone hn worker := by simpa [order_cons hlog, WorkEvent.rank, hworkers] using h.alone hn worker

variable [DecidableEq W]

/-- A batch is cut off the front of the pipe, so the works in the batch come before those still in
the pipe. -/
theorem readPipe (h : FirstInFirstOut s) (hbatch : s.batch = []) (hread : s.readPipe = some next) :
    FirstInFirstOut next := by
  obtain ⟨works, hpipe, hcalled⟩ := h.called
  -- whole pointers are read, as many as fit
  have hbytes : min s.pipe.length (8192 * 8) = 8 * min works.length 8192 := by
    rw [hpipe, length_encode]
    omega
  have hcount : 8 * min works.length 8192 / 8 = min works.length 8192 := by omega
  unfold ThreadPool.readPipe at hread
  obtain ⟨batch, hdecode, hnext⟩ := Option.bind_eq_some_iff.mp hread
  rw [hbytes, hcount, hpipe, decode_encode works (Nat.min_le_left _ _)] at hdecode
  obtain rfl := Option.some.inj hdecode
  rw [hbytes, hpipe, drop_encode] at hnext
  have hlog : next.log = (works.take (min works.length 8192)).map (·, .read) ++ s.log := by
    cases hnext; rfl
  have hrest : next.queue = s.queue ∧ next.workers = s.workers ∧
      next.pipe = encode (works.drop (min works.length 8192)) ∧
      next.batch = works.take (min works.length 8192) := by
    cases hnext
    exact ⟨rfl, rfl, rfl, rfl⟩
  obtain ⟨hqueue, hworkers, hpipe', hbatch'⟩ := hrest
  refine ⟨?_, ⟨_, hpipe', ?_⟩, fun hn worker => ?_⟩
  · rw [order_read hlog (by simp), order_read hlog (by simp), hqueue]
    exact h.taken
  · rw [order_read hlog (by simp), order_read hlog (by simp), hbatch', hcalled, hbatch]
    simp
  · rw [order_read hlog (by simp), order_read hlog (by simp), hworkers]
    exact h.alone hn worker

/-- **Every step** keeps the order, one case for each of the pool's steps. -/
theorem step (h : FirstInFirstOut s) (he : Ending s) {action : PoolAction n W}
    (hstep : s.step action = some next) : FirstInFirstOut next := by
  cases ThreadPool.steps hstep with
  | postWork _ _ hpost =>
      refine of_signalled ?_ (Signalled.of_insert hpost)
      refine h.post rfl ?_ rfl rfl rfl
      simp [ThreadPool.queue, ThreadPool.record, WorkListItem.work?]
  | stop _ hstop =>
      refine of_signalled ?_ (Signalled.of_insert hstop)
      refine h.congr (fun rank _ => order_congr rfl rank) ?_ rfl rfl fun _ => rfl
      simp [ThreadPool.queue, WorkListItem.work?]
  | join hphase _ =>
      exact h.congr (fun rank _ => order_congr rfl rank) (he.join_workList hphase).2 rfl rfl
        fun _ => rfl
  | readPipe _ hbatch hread => exact h.readPipe hbatch hread
  | callback hbatch => exact h.callback rfl rfl rfl hbatch rfl
  | @examine worker woken next hw hexamines =>
      have hload : (s.workers worker).load = none := by rcases hw with hw | hw <;> rw [hw] <;> rfl
      have hawake : s.workers worker ≠ .sleeping := by rcases hw with hw | hw <;> simp [hw]
      cases hexamines with
      | empty => exact h.unloaded hload rfl
      | marker _ _ hs =>
          refine (h.of_signalled hs).unloaded ?_ rfl
          rw [hs.awake hawake]
          exact hload
      | @work work rest signalled hlist _ hs =>
          have hrest := hs.rest
          have hlog : ((signalled.setWorker worker (.holding work)).record work
            (.taken worker)).log =
              (work, .taken worker) :: s.log := by
            rw [hrest]
            rfl
          have hqueue : s.queue = work :: signalled.queue := by
            rw [ThreadPool.queue, hlist, hrest]
            rfl
          have hpipe : signalled.pipe = s.pipe := by rw [hrest]
          have hbatch : signalled.batch = s.batch := by rw [hrest]
          exact h.take hlog hqueue hpipe hbatch hload
            (by simp [ThreadPool.record, ThreadPool.setWorker])
  | start hw => exact h.stay (by rw [hw]; rfl) (by simp [WorkEvent.rank])
  | finish hw => exact h.stay (by rw [hw]; rfl) (by simp [WorkEvent.rank])
  | write hw =>
      exact h.write rfl rfl rfl rfl hw (by simp [ThreadPool.record, ThreadPool.setWorker])
  | wake hw => exact h.unloaded (by rw [hw]; rfl) rfl

end FirstInFirstOut

variable [DecidableEq W]

/-- The two queues, and the one worker between them, are kept by every step, so every reachable
state has them. -/
theorem firstInFirstOut_of_reachable (h : (poolSystem n W).Reachable s) : FirstInFirstOut s := by
  have hall : FirstInFirstOut s ∧ Ending s ∧ ∃ phase, Located s phase := by
    refine StepSystem.ReachableWhen.induct
      (I := fun s => FirstInFirstOut s ∧ Ending s ∧ ∃ phase, Located s phase) ?_ ?_ h
    · rintro _ ⟨works, rfl⟩
      obtain ⟨hlocated, hending⟩ := located_of_reachable (.init ⟨works, rfl⟩)
      exact ⟨.init works, hending, hlocated⟩
    · rintro s action next - ⟨hfifo, hending, hlocated⟩ - hstep
      obtain ⟨hlocated', hending'⟩ := ThreadPool.step_spec hlocated hending hstep
      exact ⟨hfifo.step hending hstep, hending', hlocated'⟩
  exact hall.1

/-- Whatever is on the list, with a worker, in the pipe or in the batch is under way, and so not
idle. -/
theorem Located.not_idle {phase : W → WorkPhase n} (h : Located s phase) {works : List W}
    (hpipe : s.pipe = encode works)
    (hin : work ∈ s.batch ∨ work ∈ works ∨
      (∃ worker stage, (s.workers worker).load = some (work, stage)) ∨ work ∈ s.queue) :
    ¬s.Idle work := by
  intro hidle
  have hfree : (phase work).place = .free := by
    rw [h.idle_iff.mp hidle]
    rfl
  obtain hbatch | hwork | ⟨worker, stage, hload⟩ | hqueue := hin
  · rw [h.batch, hfree] at hbatch
    cases hbatch
  · obtain ⟨piped, hpipe', -, hpiped⟩ := h.pipe
    have hbyte := mem_encode.mpr hwork
    rw [← hpipe, hpipe', mem_encode, hpiped, hfree] at hbyte
    cases hbyte
  · rw [h.worker, hfree] at hload
    cases hload
  · rw [h.queue, hfree] at hqueue
    cases hqueue

/-- **First in, first out**, whatever poster, workers and `WorkerCallback` do. With a single worker
the works are called back in the order in which they were posted: those not yet called back are the
last. -/
theorem first_in_first_out (h : (poolSystem n W).Reachable s) : FirstInFirstOut s ∧
    (n = 1 → ∃ underWay, s.order 0 = s.order 6 ++ underWay ∧ ∀ work ∈ underWay, ¬s.Idle work) := by
  have hfifo := firstInFirstOut_of_reachable h
  obtain ⟨⟨phase, hlocated⟩, -⟩ := located_of_reachable h
  refine ⟨hfifo, fun hn => ?_⟩
  obtain ⟨works, hpipe, hcalled⟩ := hfifo.called
  have hworker : 0 < n := by omega
  refine ⟨s.batch ++ works ++ ((s.workers ⟨0, hworker⟩).load.map (·.1)).toList ++ s.queue, ?_, ?_⟩
  · rw [hfifo.taken, hfifo.alone hn ⟨0, hworker⟩, hcalled]
    simp only [List.append_assoc]
  · intro work hin
    simp only [List.mem_append, Option.mem_toList, Option.map_eq_some_iff] at hin
    obtain ((hbatch | hwork) | ⟨⟨_, stage⟩, hload, rfl⟩) | hqueue := hin
    · exact hlocated.not_idle hpipe (.inl hbatch)
    · exact hlocated.not_idle hpipe (.inr (.inl hwork))
    · exact hlocated.not_idle hpipe (.inr (.inr (.inl ⟨_, stage, hload⟩)))
    · exact hlocated.not_idle hpipe (.inr (.inr (.inr hqueue)))

/-- Three works for one worker: the first is called back, the second waits in the batch, the third
is run. -/
def threeInOrder : List (PoolAction 1 ℕ) :=
  let worker : Fin 1 := Fin.last 0
  [.postWork 2 ⟨1, 2, 3, 4⟩ ∅, .postWork 0 ⟨1, 2, 3, 4⟩ ∅, .examine worker ∅, .start worker,
    .finish worker, .write worker, .postWork 1 ⟨1, 2, 3, 4⟩ ∅, .examine worker ∅, .start worker,
    .finish worker, .write worker, .readPipe, .callback, .examine worker ∅, .start worker]

/-- With one worker, the first of three works has been called back, and the other two are still
under way, in the order in which they were posted. -/
theorem first_in_first_out_threeInOrder : ∃ s : ThreadPool 1 ℕ,
    (poolSystem 1 ℕ).run (.init fun _ => ⟨0, 0, 0, 0⟩) threeInOrder = some s ∧
      s.order 0 = [2, 0, 1] ∧ s.order 6 = [2] ∧ FirstInFirstOut s ∧
      ∃ underWay, s.order 0 = s.order 6 ++ underWay ∧ ∀ work ∈ underWay, ¬s.Idle work := by
  have hend : ((poolSystem 1 ℕ).run (.init fun _ => ⟨0, 0, 0, 0⟩) threeInOrder).map
      (fun s => (s.order 0, s.order 6)) = some ([2, 0, 1], [2]) := by
    decide +kernel
  obtain ⟨s, hrun, hs⟩ := Option.map_eq_some_iff.mp hend
  obtain ⟨hposted, hcalled⟩ := Prod.mk.inj hs
  obtain ⟨hfifo, hall⟩ := first_in_first_out (StepSystem.reachable_of_run ⟨_, rfl⟩ hrun)
  exact ⟨s, hrun, hposted, hcalled, hfifo, hall rfl⟩

end Pixy.Pool
