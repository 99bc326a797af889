import Mathlib
import Pixy.Found.Runs

/-!
# The thread pool

`ThreadPool.c` as a system of one poster, `n` workers and the reader of the pipe. A section between
`pthread_mutex_lock` and `pthread_mutex_unlock`, or up to `pthread_cond_wait`, which gives the mutex
back, is one step; everything else a thread does is a step of its own, and steps of different
threads follow each other in any order.

* `pthread_cond_signal` wakes a set of sleepers that the environment chooses, not empty if anyone
  sleeps; a sleeper may also wake by itself.
* The pipe is a list of bytes. Each byte is told apart by the pointer it is part of and its place in
  it, so a reader that got out of step with the writers would not find a pointer (`decode`).
* The pipe holds `pipeSize` bytes. Its writing end blocks, so a worker whose pointer does not fit
  waits until `WorkerCallback` has read; a pointer is written whole or not at all.
* Works are a type; `works` is what `ThreadPool_PostWork` wrote into them.
* `log` is a ghost: what happened to which work, newest first. `WorkEvent.next` is the life of a
  posted work, and `replay` reads a log by it.
-/

namespace Pixy.Pool

open Pixy.Found

/-- The fields of a work.
Source: `ThreadPool.h`, `struct Work`, without `listItem`. -/
structure Work where
  /-- What a worker runs. -/
  function : ℕ
  /-- What it is given. -/
  argument : ℕ
  /-- What the callback is given. -/
  data : ℕ
  /-- What the main thread runs when the work is done. -/
  callback : ℕ
  deriving DecidableEq

/-- An entry of the work list. -/
inductive WorkListItem (W : Type)
  /-- A work's `listItem`. -/
  | work (work : W)
  /-- `&self->stopSignal`. -/
  | stopSignal
  deriving DecidableEq

/-- Where a worker is in `ThreadPool_Worker`. -/
inductive Worker (W : Type)
  /-- About to lock the mutex, at the top of the loop. -/
  | atLock
  /-- In `pthread_cond_wait`, and not woken. -/
  | sleeping
  /-- Woken from `pthread_cond_wait`, about to lock the mutex and to look at the list again. -/
  | woken
  /-- Past the mutex with a work, about to run its function. -/
  | holding (work : W)
  /-- In the work's function. -/
  | running (work : W)
  /-- Past the function, about to write the pointer. -/
  | writing (work : W)
  /-- Past the loop. -/
  | exited
  deriving DecidableEq

/-- What the main thread does with the pool. -/
inductive PoolPhase
  /-- Before `ThreadPool_Stop`. -/
  | posting
  /-- In `ThreadPool_Stop`, joining the workers. -/
  | stopping
  /-- Past the joins. -/
  | stopped
  deriving DecidableEq

/-- A byte of a pointer in the pipe. -/
structure Byte (W : Type) where
  /-- The pointer it is part of. -/
  work : W
  /-- Its place in the pointer. -/
  place : Fin 8
  deriving DecidableEq

/-- What can happen to a work. -/
inductive WorkEvent (n : ℕ)
  /-- It is passed to `ThreadPool_PostWork` with these fields. -/
  | posted (fields : Work)
  /-- A worker takes it off the list. -/
  | taken (worker : Fin n)
  /-- A worker calls the function with the argument. -/
  | started (worker : Fin n) (function argument : ℕ)
  /-- The function returns to the worker. -/
  | returned (worker : Fin n)
  /-- A worker writes its pointer to the pipe. -/
  | written (worker : Fin n)
  /-- `WorkerCallback` reads its pointer from the pipe. -/
  | read
  /-- `WorkerCallback` calls the callback with the data. -/
  | calledBack (callback data : ℕ)
  deriving DecidableEq

/-- The state of the pool and of all who use it. -/
structure ThreadPool (n : ℕ) (W : Type) where
  /-- The work list, front first. -/
  workList : List (WorkListItem W)
  /-- The workers. -/
  workers : Fin n → Worker W
  /-- The bytes in the pipe, oldest first. -/
  pipe : List (Byte W)
  /-- The works `WorkerCallback` has read and not yet called back, in order. -/
  batch : List W
  /-- What the poster does. -/
  phase : PoolPhase
  /-- The fields of the works. -/
  works : W → Work
  /-- What happened to which work, newest first. -/
  log : List (W × WorkEvent n)

/-! ## The life of one work -/

/-- Where a posted work can be, and the fields it was posted with. -/
inductive WorkPhase (n : ℕ)
  /-- Nowhere: it was never posted, or was called back since. -/
  | idle
  /-- In the work list. -/
  | queued (fields : Work)
  /-- With a worker that has not run it. -/
  | held (worker : Fin n) (fields : Work)
  /-- With a worker that runs it. -/
  | executing (worker : Fin n) (fields : Work)
  /-- With a worker that has run it. -/
  | executed (worker : Fin n) (fields : Work)
  /-- In the pipe. -/
  | piped (fields : Work)
  /-- In the batch just read. -/
  | collected (fields : Work)
  deriving DecidableEq

/-- **The life of a posted work.** It is taken, run and written by one and the same worker, in this
order, with the function and the argument it was posted with; then read, and called back with its
callback and data. -/
def WorkEvent.next {n : ℕ} : WorkEvent n → WorkPhase n → Option (WorkPhase n)
  | .posted fields, .idle => some (.queued fields)
  | .taken worker, .queued fields => some (.held worker fields)
  | .started worker function argument, .held worker' fields =>
    if worker = worker' ∧ function = fields.function ∧ argument = fields.argument then
      some (.executing worker fields)
    else none
  | .returned worker, .executing worker' fields =>
    if worker = worker' then some (.executed worker fields) else none
  | .written worker, .executed worker' fields =>
    if worker = worker' then some (.piped fields) else none
  | .read, .piped fields => some (.collected fields)
  | .calledBack callback data, .collected fields =>
    if callback = fields.callback ∧ data = fields.data then some .idle else none
  | _, _ => none

section Pool

variable {n : ℕ} {W : Type} [DecidableEq W]

/-- The phase a log leaves a work in, `none` where the log breaks the life of a work. -/
def replay (work : W) : List (W × WorkEvent n) → Option (WorkPhase n)
  | [] => some .idle
  | (other, event) :: log =>
    if other = work then (replay work log).bind event.next else replay work log

/-! ## The pipe -/

/-- How many bytes the pipe holds.
Source: `ThreadPool.c`, `ThreadPool_Initialize`, the call of `xfcntl` with `F_SETPIPE_SZ`. -/
def pipeSize : ℕ := 8192 * 8

/-- The bytes of a pointer. -/
def pointerBytes (work : W) : List (Byte W) := (List.finRange 8).map (⟨work, ·⟩)

/-- The pointer some bytes are, `none` where they are not the bytes of one pointer in order. -/
def pointer (bytes : List (Byte W)) : Option W :=
  match bytes with
  | [] => none
  | byte :: _ => if bytes = pointerBytes byte.work then some byte.work else none

/-- The first `count` pointers in some bytes. -/
def decode : ℕ → List (Byte W) → Option (List W)
  | 0, _ => some []
  | count + 1, bytes => do
    let work ← pointer (bytes.take 8)
    let works ← decode count (bytes.drop 8)
    some (work :: works)

/-! ## The steps -/

namespace ThreadPool

/-- Every worker at the top of its loop, and no work yet.
Source: `ThreadPool.c`, `ThreadPool_Initialize` and `ThreadPool_Start`. -/
def init (works : W → Work) : ThreadPool n W where
  workList := []
  workers := fun _ => .atLock
  pipe := []
  batch := []
  phase := .posting
  works := works
  log := []

/-- Record an event. -/
def record (self : ThreadPool n W) (work : W) (event : WorkEvent n) : ThreadPool n W :=
  { self with log := (work, event) :: self.log }

/-- A worker goes on. -/
def setWorker (self : ThreadPool n W) (worker : Fin n) (state : Worker W) : ThreadPool n W :=
  { self with workers := Function.update self.workers worker state }

/-- A pointer fits into the pipe, so that `xwrite` does not wait. -/
def PipeHasRoom (self : ThreadPool n W) : Prop := self.pipe.length + 8 ≤ pipeSize

instance (self : ThreadPool n W) : Decidable self.PipeHasRoom :=
  inferInstanceAs (Decidable (_ ≤ _))

/-- Whom a signal may wake: only sleepers, and at least one if there is one. -/
def MayWake (self : ThreadPool n W) (woken : Finset (Fin n)) : Prop :=
  (∀ worker ∈ woken, self.workers worker = .sleeping) ∧
    ((∃ worker, self.workers worker = .sleeping) → woken.Nonempty)

instance (self : ThreadPool n W) (woken : Finset (Fin n)) : Decidable (self.MayWake woken) :=
  inferInstanceAs (Decidable (_ ∧ _))

/-- `pthread_cond_signal`. -/
def signal (self : ThreadPool n W) (woken : Finset (Fin n)) : Option (ThreadPool n W) :=
  if self.MayWake woken then
    some
      { self with
        workers := fun worker => if worker ∈ woken then .woken else self.workers worker }
  else none

/-- The item's neighbours are the last item before it, or the list head, and the list head.
Source: `ThreadPool.c`, `ThreadPool_InsertWorkListItem`. -/
def insertWorkListItem (self : ThreadPool n W) (item : WorkListItem W) (woken : Finset (Fin n)) :
    Option (ThreadPool n W) :=
  let prev := self.workList.getLast?
  let next := none
  let self := { self with workList := self.workList ++ [item] }
  if prev = next then self.signal woken else some self

/-- Source: `ThreadPool.c`, `ThreadPool_PostWork`. -/
def postWork (self : ThreadPool n W) (work : W) (fields : Work) (woken : Finset (Fin n)) :
    Option (ThreadPool n W) :=
  ({ self with works := Function.update self.works work fields }.record work
    (.posted fields)).insertWorkListItem (.work work) woken

/-- Source: `ThreadPool.c`, `ThreadPool_Stop`, up to the joins. -/
def stop (self : ThreadPool n W) (woken : Finset (Fin n)) : Option (ThreadPool n W) :=
  { self with phase := .stopping }.insertWorkListItem .stopSignal woken

/-- The rest, once every worker has exited.
Source: `ThreadPool.c`, `ThreadPool_Stop`, from the joins on. -/
def join (self : ThreadPool n W) : ThreadPool n W :=
  { self with phase := .stopped, workList := self.workList.erase .stopSignal }

/-- The signal the workers send, compiled only where there are two of them or more. -/
def relay (self : ThreadPool n W) (woken : Finset (Fin n)) : Option (ThreadPool n W) :=
  if 2 ≤ n then self.signal woken else some self

/-- The mutex-protected section of a worker's loop.
Source: `ThreadPool.c`, `ThreadPool_Worker`. -/
def examine (self : ThreadPool n W) (worker : Fin n) (woken : Finset (Fin n)) :
    Option (ThreadPool n W) :=
  match self.workList with
  | [] => some (self.setWorker worker .sleeping)
  | .stopSignal :: _ => (self.relay woken).map (·.setWorker worker .exited)
  | .work work :: rest =>
    let self := { self with workList := rest }
    let self := if rest ≠ [] then self.relay woken else some self
    self.map fun self => (self.setWorker worker (.holding work)).record work (.taken worker)

/-- Source: `ThreadPool.c`, `WorkerCallback`, the call of `xread`. -/
def readPipe (self : ThreadPool n W) : Option (ThreadPool n W) := do
  let nbytes := min self.pipe.length (8192 * 8)
  let works ← decode (nbytes / 8) self.pipe
  some
    { self with
      pipe := self.pipe.drop nbytes
      batch := works
      log := works.map (·, .read) ++ self.log }

end ThreadPool

/-- What can happen next. -/
inductive PoolAction (n : ℕ) (W : Type)
  /-- The main thread calls `ThreadPool_PostWork`. -/
  | postWork (work : W) (fields : Work) (woken : Finset (Fin n))
  /-- The main thread calls `ThreadPool_Stop`. -/
  | stop (woken : Finset (Fin n))
  /-- `ThreadPool_Stop` returns. -/
  | join
  /-- The main thread enters `WorkerCallback` and reads. -/
  | readPipe
  /-- `WorkerCallback` calls the next callback. -/
  | callback
  /-- A worker goes through its mutex-protected section. -/
  | examine (worker : Fin n) (woken : Finset (Fin n))
  /-- A worker calls the function of its work. -/
  | start (worker : Fin n)
  /-- The function returns. -/
  | finish (worker : Fin n)
  /-- A worker writes the pointer. -/
  | write (worker : Fin n)
  /-- A sleeper wakes by itself. -/
  | wake (worker : Fin n)

/-- One step. A work is posted only when it is idle, works are posted only before the stop,
`WorkerCallback` is entered only when the pipe is not empty and the batch before is done, and a
worker gets past `xwrite` only when the pointer fits into the pipe. -/
def ThreadPool.step (self : ThreadPool n W) : PoolAction n W → Option (ThreadPool n W)
  | .postWork work fields woken =>
    if self.phase = .posting ∧ replay work self.log = some .idle then
      self.postWork work fields woken
    else none
  | .stop woken => if self.phase = .posting then self.stop woken else none
  | .join =>
    if self.phase = .stopping ∧ ∀ worker, self.workers worker = .exited then some self.join
    else none
  | .readPipe => if self.pipe ≠ [] ∧ self.batch = [] then self.readPipe else none
  | .callback =>
    match self.batch with
    | [] => none
    | work :: rest =>
      some ({ self with batch := rest }.record work
        (.calledBack (self.works work).callback (self.works work).data))
  | .examine worker woken =>
    match self.workers worker with
    | .atLock | .woken => self.examine worker woken
    | _ => none
  | .start worker =>
    match self.workers worker with
    | .holding work =>
      some ((self.setWorker worker (.running work)).record work
        (.started worker (self.works work).function (self.works work).argument))
    | _ => none
  | .finish worker =>
    match self.workers worker with
    | .running work =>
      some ((self.setWorker worker (.writing work)).record work (.returned worker))
    | _ => none
  | .write worker =>
    match self.workers worker with
    | .writing work =>
      -- `xwrite` blocks until the whole pointer fits
      if self.PipeHasRoom then
        some ({ self.setWorker worker .atLock with
          pipe := self.pipe ++ pointerBytes work }.record work (.written worker))
      else none
    | _ => none
  | .wake worker =>
    match self.workers worker with
    | .sleeping => some (self.setWorker worker .woken)
    | _ => none

/-- **The pool under every interleaving.** -/
def poolSystem (n : ℕ) (W : Type) [DecidableEq W] :
    StepSystem (ThreadPool n W) (PoolAction n W) where
  init self := ∃ works, self = .init works
  step := ThreadPool.step

end Pool

end Pixy.Pool
