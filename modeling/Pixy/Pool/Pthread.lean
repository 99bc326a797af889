import Mathlib
import Pixy.Found.Process
import Pixy.Pool.ThreadPool

/-!
# The pool and the thread library

`ThreadPool.c` call by call: one thread runs one of its functions, and the thread library may fail
each call it is given. The functions of the library give 0 or a positive error number; the wrappers
ask for a negative one, so none of them ever stops the process (`ensures_checked`), and the pool
goes on after a failed call as it does after one that succeeded.

* `Outside` is all the thread has no say in: what the library returns, what the other threads make
  of the work list while it is in a call, and what becomes of a write to the pipe.
* `trace` is a ghost: what the thread has done, newest first.
* A worker does not end by itself, so it has fuel; any part of its run is a run with some fuel.
-/

namespace Pixy.Pool

open Pixy.Found Pixy.Found.Process

/-- A call of the thread library; a thread is its place in `threads`.
Source: `pthread.h`, as used by `ThreadPool.c`. -/
inductive PthreadCall
  | mutexInit
  | mutexDestroy
  | mutexLock
  | mutexUnlock
  | condInit
  | condDestroy
  | condWait
  | condSignal
  | create (thread : ℕ)
  | join (thread : ℕ)
  deriving DecidableEq

/-- What `write` does: it writes some bytes, is interrupted, or fails for another reason. -/
inductive WriteResult
  | written (nbytes : ℕ)
  | interrupted
  | failed (errorNumber : ℤ)
  deriving DecidableEq

/-- What a thread can do. -/
inductive ThreadEvent (W : Type)
  /-- It calls the thread library, and this is returned. -/
  | called (call : PthreadCall) (result : ℤ)
  /-- It reads or writes the work list. -/
  | touched
  /-- It calls the function of a work. -/
  | ran (work : W)
  /-- It writes the pointer of a work to the pipe. -/
  | wrote (work : W) (result : WriteResult)
  /-- `LOG_FATAL_ERROR`: it logs a message and aborts the process. -/
  | fatalError (message : String)
  deriving DecidableEq

/-- What one thread sees and has done. -/
structure PoolThread (W : Type) where
  /-- The work list, front first. -/
  workList : List (WorkListItem W)
  /-- What it has done, newest first. -/
  trace : List (ThreadEvent W)

/-- Everything the thread has no say in, by what it has done so far. -/
structure Outside (W : Type) where
  /-- What a function of the thread library returns. -/
  result : List (ThreadEvent W) → PthreadCall → ℤ
  /-- 0 or an error number. -/
  result_nonneg : ∀ trace call, 0 ≤ result trace call
  /-- What the other threads make of the work list during a call. -/
  others : List (ThreadEvent W) → List (WorkListItem W) → List (WorkListItem W)
  /-- What a write to the pipe does. -/
  write : List (ThreadEvent W) → W → WriteResult

/-- Why a run stops before its function returns. -/
inductive Interruption
  /-- The process is aborted. -/
  | aborted
  /-- The fuel is used up. -/
  | running
  deriving DecidableEq

/-- What a thread runs. -/
abbrev PoolProcess (W α : Type) := Process (PoolThread W) Interruption α

section Code

variable {W : Type}

/-! ## Calls -/

/-- The thread does something. -/
def record (event : ThreadEvent W) : PoolProcess W Unit :=
  modify fun s => { s with trace := event :: s.trace }

/-- Source: `Logging.h`, `LOG_FATAL_ERROR`; nothing is above its level. -/
def logFatalError (message : String) : PoolProcess W Unit := do
  record (.fatalError message)
  throw .aborted

/-- It reads the work list. -/
def look : PoolProcess W (List (WorkListItem W)) := do
  record .touched
  return (← get).workList

/-- It writes the work list. -/
def setWorkList (workList : List (WorkListItem W)) : PoolProcess W Unit := do
  record .touched
  modify fun s => { s with workList := workList }

variable (outside : Outside W)

/-- A call of the thread library. -/
def pthread (call : PthreadCall) : PoolProcess W ℤ := do
  let s ← get
  let result := outside.result s.trace call
  modify fun s => { s with workList := outside.others s.trace s.workList }
  record (.called call result)
  return result

/-- **The convention the wrappers share.** -/
def checked (call : PthreadCall) (message : String) : PoolProcess W Unit := do
  let result ← pthread outside call
  if result < 0 then logFatalError message

/-- Source: `ThreadPool.c`, `xpthread_mutex_init`. -/
def xpthreadMutexInit : PoolProcess W Unit :=
  checked outside .mutexInit "`pthread_mutex_init()` failed: %s"

/-- Source: `ThreadPool.c`, `xpthread_mutex_destroy`. -/
def xpthreadMutexDestroy : PoolProcess W Unit :=
  checked outside .mutexDestroy "`pthread_mutex_destroy()` failed: %s"

/-- Source: `ThreadPool.c`, `xpthread_mutex_lock`. -/
def xpthreadMutexLock : PoolProcess W Unit :=
  checked outside .mutexLock "`pthread_mutex_lock()` failed: %s"

/-- Source: `ThreadPool.c`, `xpthread_mutex_unlock`. -/
def xpthreadMutexUnlock : PoolProcess W Unit :=
  checked outside .mutexUnlock "`pthread_mutex_unlock()` failed: %s"

/-- Source: `ThreadPool.c`, `xpthread_cond_init`. -/
def xpthreadCondInit : PoolProcess W Unit :=
  checked outside .condInit "`pthread_cond_init()` failed: %s"

/-- Source: `ThreadPool.c`, `xpthread_cond_destroy`. -/
def xpthreadCondDestroy : PoolProcess W Unit :=
  checked outside .condDestroy "`pthread_cond_destroy()` failed: %s"

/-- Source: `ThreadPool.c`, `xpthread_cond_wait`. -/
def xpthreadCondWait : PoolProcess W Unit :=
  checked outside .condWait "`pthread_cond_wait()` failed: %s"

/-- Source: `ThreadPool.c`, `xpthread_cond_signal`. -/
def xpthreadCondSignal : PoolProcess W Unit :=
  checked outside .condSignal "`pthread_cond_signal()` failed: %s"

/-- Source: `ThreadPool.c`, `xpthread_create`. -/
def xpthreadCreate (thread : ℕ) : PoolProcess W Unit :=
  checked outside (.create thread) "`pthread_create()` failed: %s"

/-- Source: `ThreadPool.c`, `xpthread_join`. -/
def xpthreadJoin (thread : ℕ) : PoolProcess W Unit :=
  checked outside (.join thread) "`pthread_join()` failed: %s"

/-- Source: `ThreadPool.c`, `xwrite`. -/
def xwrite (work : W) : ℕ → PoolProcess W Unit
  | 0 => throw .running
  | fuel + 1 => do
    let s ← get
    let result := outside.write s.trace work
    record (.wrote work result)
    match result with
    | .written _ => pure ()
    | .interrupted => xwrite work fuel
    | .failed _ => logFatalError "`write()` failed: %s"

/-! ## The functions of the pool -/

/-- Source: `ThreadPool.c`, `ThreadPool_Start`. -/
def start (n : ℕ) : PoolProcess W Unit := do
  xpthreadMutexInit outside
  xpthreadCondInit outside
  (List.range n).forM (xpthreadCreate outside)

/-- `InsertWorkListItem` keeps what holds outside of the critical sections: it enters one, stays in
it for the list and the signal, and leaves it. -/
def insertWorkListItem (item : WorkListItem W) : PoolProcess W Unit := do
  xpthreadMutexLock outside
  let workList ← look
  setWorkList (workList ++ [item])
  (if workList.isEmpty then xpthreadCondSignal outside else pure ())
  xpthreadMutexUnlock outside

/-- The item is `&self->stopSignal`. -/
def WorkListItem.isStopSignal : WorkListItem W → Bool
  | .work _ => false
  | .stopSignal => true

/-- Source: `ThreadPool.c`, `ThreadPool_Stop`. -/
def stop (n : ℕ) : PoolProcess W Unit := do
  insertWorkListItem outside .stopSignal
  (List.range n).forM (xpthreadJoin outside)
  let workList ← look
  setWorkList (workList.eraseP (·.isStopSignal))
  xpthreadMutexDestroy outside
  xpthreadCondDestroy outside

/-- The loop in which a worker waits stays in the critical section; if it is interrupted, only what
holds outside is promised. -/
def awaitWork : ℕ → PoolProcess W (WorkListItem W × List (WorkListItem W))
  | 0 => throw .running
  | fuel + 1 => do
    match ← look with
    | [] => do
      xpthreadCondWait outside
      awaitWork fuel
    | front :: rest => pure (front, rest)

/-- Passing a signal on stays in the critical section; if it is interrupted, only what holds outside
is promised. -/
def relaySignal (n : ℕ) : PoolProcess W Unit :=
  if 2 ≤ n then xpthreadCondSignal outside else pure ()

/-- Source: `ThreadPool.c`, `ThreadPool_Worker`. -/
def worker (n : ℕ) : ℕ → PoolProcess W Unit
  | 0 => throw .running
  | fuel + 1 => do
    xpthreadMutexLock outside
    let (front, rest) ← awaitWork outside (fuel + 1)
    match front with
    | .stopSignal => do
      relaySignal outside n
      xpthreadMutexUnlock outside
    | .work work => do
      setWorkList rest
      let workList ← look
      (if workList.isEmpty then pure () else relaySignal outside n)
      xpthreadMutexUnlock outside
      record (.ran work)
      xwrite outside work (fuel + 1)
      worker n fuel

/-- What a thread may be asked to run. -/
inductive PoolFunction (W : Type)
  | start
  | stop
  | insertWorkListItem (item : WorkListItem W)
  | worker (fuel : ℕ)

/-- It is run by a pool of `n` workers. -/
def PoolFunction.process (n : ℕ) : PoolFunction W → PoolProcess W Unit
  | .start => Pool.start outside n
  | .stop => Pool.stop outside n
  | .insertWorkListItem item => Pool.insertWorkListItem outside item
  | .worker fuel => Pool.worker outside n fuel

/-- How it ends with this work list, and what it has done by then. -/
def PoolFunction.run (n : ℕ) (function : PoolFunction W) (workList : List (WorkListItem W)) :
    Except Interruption Unit × PoolThread W :=
  (function.process outside n).exec ⟨workList, []⟩

end Code

/-! ## What the pool should do when the library fails -/

section Failures

variable {W : Type}

/-- The thread has the mutex, by what it has done. -/
def held : List (ThreadEvent W) → Bool
  | [] => false
  | .called .mutexLock result :: trace => result = 0 || held trace
  | .called .mutexUnlock result :: trace => result ≠ 0 && held trace
  | _ :: trace => held trace

/-- It touches the work list only with the mutex. -/
abbrev TouchesLocked : List (ThreadEvent W) → Prop :=
  Throughout fun event before => event = .touched → held before

/-- It destroys the mutex and the condition only when `n` threads are joined. -/
abbrev DestroysJoined (n : ℕ) : List (ThreadEvent W) → Prop :=
  Throughout fun event before =>
    (∃ result, event = .called .mutexDestroy result ∨ event = .called .condDestroy result) →
      ∀ thread < n, .called (.join thread) 0 ∈ before

/-- No call of the library has failed. -/
def Succeeded (trace : List (ThreadEvent W)) : Prop :=
  ∀ call result, .called call result ∈ trace → result = 0

/-- **What should become of a run.** -/
structure StopsOnFailure (n : ℕ) (function : PoolFunction W) (ending : Except Interruption Unit)
    (trace : List (ThreadEvent W)) : Prop where
  started : function = .start → ending = .ok () →
    .called .mutexInit 0 ∈ trace ∧ .called .condInit 0 ∈ trace ∧
      ∀ thread < n, .called (.create thread) 0 ∈ trace
  locked : (∃ item, function = .insertWorkListItem item) ∨ (∃ fuel, function = .worker fuel) →
    TouchesLocked trace
  joined : function = .stop → DestroysJoined n trace
  aborted : ∀ after call result before,
    trace = after ++ .called call result :: before → result ≠ 0 →
    ending = .error .aborted ∧ ∃ message, after = [.fatalError message]

/-! ## Contracts of the calls

All assertions are about what the thread has done. -/

/-- The assertion holds of the trace. -/
def onTrace (A : List (ThreadEvent W) → Prop) (s : PoolThread W) : Prop := A s.trace

variable {outside : Outside W} {A B : List (ThreadEvent W) → Prop}
  {E : Interruption → PoolThread W → Prop}

/-- An entry in the trace is all that recording changes; what is to hold of the trace then is what
holds of it with the entry. -/
theorem ensures_record {event : ThreadEvent W} (h : ∀ trace, A trace → B (event :: trace)) :
    Ensures (onTrace A) (record event) (fun _ => onTrace B) E :=
  .modify fun s => h s.trace

/-- A look at the work list leaves its mark in the trace and changes nothing else. -/
theorem ensures_look (h : ∀ trace, A trace → B (.touched :: trace)) :
    Ensures (onTrace A) (look (W := W)) (fun _ => onTrace B) E :=
  .bind (ensures_record h) fun _ => .bind (.get (Q := fun _ => onTrace B) fun _ => id) fun _ =>
    .pure fun _ => id

/-- An assignment to the work list leaves the same mark in the trace as a look at it. -/
theorem ensures_setWorkList {workList : List (WorkListItem W)}
    (h : ∀ trace, A trace → B (.touched :: trace)) :
    Ensures (onTrace A) (setWorkList workList) (fun _ => onTrace B) E :=
  .bind (ensures_record h) fun _ => .modify fun _ => id

/-- A call of the library is recorded with its result, which is never negative: failure is a
positive error number. -/
theorem ensures_pthread {call : PthreadCall}
    (h : ∀ trace result, 0 ≤ result → A trace → B (.called call result :: trace)) :
    Ensures (onTrace A) (pthread outside call)
      (fun result s => 0 ≤ result ∧ onTrace B s) E :=
  ⟨fun _ hs => ⟨outside.result_nonneg .., h _ _ (outside.result_nonneg ..) hs⟩⟩

/-- **A wrapper never stops the process**: it ends with the call made, whatever came of it. -/
theorem ensures_checked {call : PthreadCall} {message : String}
    (h : ∀ trace result, 0 ≤ result → A trace → B (.called call result :: trace)) :
    Ensures (onTrace A) (checked outside call message) (fun _ => onTrace B) E := by
  refine .bind (ensures_pthread h) fun result => .ite (fun hnegative => ?_) fun _ => ?_
  · exact ⟨fun s hs => absurd hnegative (not_lt.mpr hs.1)⟩
  · exact .pure fun s hs => hs.2

/-! ## Contracts of the functions -/

/-- **What the sections with the mutex keep**: `A` outside of them, and `B` in them. -/
structure Protects (A B : List (ThreadEvent W) → Prop) : Prop where
  weaken : ∀ trace, B trace → A trace
  lock : ∀ trace result, 0 ≤ result → A trace → B (.called .mutexLock result :: trace)
  touch : ∀ trace, B trace → B (.touched :: trace)
  wait : ∀ trace result, 0 ≤ result → B trace → B (.called .condWait result :: trace)
  signal : ∀ trace result, 0 ≤ result → B trace → B (.called .condSignal result :: trace)
  unlock : ∀ trace result, 0 ≤ result → B trace → A (.called .mutexUnlock result :: trace)
  run : ∀ trace work, A trace → A (.ran work :: trace)
  write : ∀ trace work result, A trace → A (.wrote work result :: trace)
  fail : ∀ trace work result message, A (.wrote work result :: trace) →
    A (.fatalError message :: .wrote work result :: trace)

namespace Protects

/-- `InsertWorkListItem` keeps what holds outside of the critical sections, as it unlocks the mutex
wherever it returns. -/
theorem insertWorkListItem (h : Protects A B) (item : WorkListItem W) :
    Keeps (onTrace A) (insertWorkListItem outside item) := by
  refine .bind (ensures_checked h.lock) fun _ => ?_
  refine .bind (ensures_look h.touch) fun workList => ?_
  refine .bind (ensures_setWorkList h.touch) fun _ => ?_
  refine .bind (Q := fun _ => onTrace B) (.ite (fun _ => ?_) fun _ => .pure fun _ => id) fun _ => ?_
  · exact ensures_checked h.signal
  · exact ensures_checked h.unlock

/-- The loop in which a worker waits stays in the critical section; where a call fails it may end
outside of it. -/
theorem awaitWork (h : Protects A B) (fuel : ℕ) :
    Ensures (onTrace B) (awaitWork outside fuel) (fun _ => onTrace B) (fun _ => onTrace A) := by
  induction fuel with
  | zero => exact .throw fun s => h.weaken s.trace
  | succ fuel ih =>
      refine .bind (ensures_look h.touch) fun workList => ?_
      rcases workList with _ | ⟨front, rest⟩
      · exact .bind (ensures_checked h.wait) fun _ => ih
      · exact .pure fun _ => id

/-- Passing a signal on stays in the critical section; where the call fails it may end outside of
it. -/
theorem relaySignal (h : Protects A B) (n : ℕ) :
    Ensures (onTrace B) (relaySignal outside n) (fun _ => onTrace B) (fun _ => onTrace A) :=
  .ite (fun _ => ensures_checked h.signal) fun _ => .pure fun _ => id

/-- The write of the pointer happens outside of the critical sections, however often it is
interrupted. -/
theorem xwrite (h : Protects A B) (work : W) (fuel : ℕ) :
    Keeps (onTrace A) (xwrite outside work fuel) := by
  induction fuel with
  | zero => exact .throw fun _ => id
  | succ fuel ih =>
      refine .bind (.get (Q := fun _ => onTrace A) fun _ => id) fun s => ?_
      rcases outside.write s.trace work with nbytes | _ | errorNumber
      · exact .bind (ensures_record fun trace => h.write trace work _) fun _ => .pure fun _ => id
      · exact .bind (ensures_record fun trace => h.write trace work _) fun _ => ih
      · -- the only call whose failure stops the process
        exact ⟨fun s hs => h.fail s.trace work _ _ (h.write s.trace work _ hs)⟩

/-- **A worker keeps what its sections keep**, however far it gets. -/
theorem worker (h : Protects A B) (n fuel : ℕ) : Keeps (onTrace A) (worker outside n fuel) := by
  induction fuel with
  | zero => exact .throw fun _ => id
  | succ fuel ih =>
      refine .bind (ensures_checked h.lock) fun _ => ?_
      refine .bind (h.awaitWork (fuel + 1)) ?_
      rintro ⟨work | _, rest⟩
      · refine .bind (ensures_setWorkList h.touch) fun _ => ?_
        refine .bind (ensures_look h.touch) fun workList => ?_
        refine .bind (Q := fun _ => onTrace B)
          (.ite (fun _ => .pure fun _ => id) fun _ => h.relaySignal n) fun _ => ?_
        refine .bind (ensures_checked h.unlock) fun _ => ?_
        refine .bind (ensures_record fun trace => h.run trace work) fun _ => ?_
        exact .bind (h.xwrite work (fuel + 1)) fun _ => ih
      · exact .bind (h.relaySignal n) fun _ => ensures_checked h.unlock

/-- What is in order at every event that is no end of the mutex, nor an abort out of turn. -/
theorem of_throughout {R : ThreadEvent W → List (ThreadEvent W) → Prop}
    (hcalled : ∀ call result before, call ≠ .mutexDestroy → call ≠ .condDestroy →
      R (.called call result) before)
    (htouched : ∀ before, R .touched before) (hran : ∀ work before, R (.ran work) before)
    (hwrote : ∀ work result before, R (.wrote work result) before)
    (hfatal : ∀ message work result before, R (.fatalError message)
      (.wrote work result :: before)) :
    Protects (Throughout R) (Throughout R) where
  weaken _ := id
  lock trace result _ h := throughout_cons.mpr ⟨hcalled _ _ _ (by simp) (by simp), h⟩
  touch trace h := throughout_cons.mpr ⟨htouched trace, h⟩
  wait trace result _ h := throughout_cons.mpr ⟨hcalled _ _ _ (by simp) (by simp), h⟩
  signal trace result _ h := throughout_cons.mpr ⟨hcalled _ _ _ (by simp) (by simp), h⟩
  unlock trace result _ h := throughout_cons.mpr ⟨hcalled _ _ _ (by simp) (by simp), h⟩
  run trace work h := throughout_cons.mpr ⟨hran work trace, h⟩
  write trace work result h := throughout_cons.mpr ⟨hwrote work result trace, h⟩
  fail trace work result message h := throughout_cons.mpr ⟨hfatal message work result trace, h⟩

end Protects

/-! ## What they keep -/

/-- If no call has failed, none of the earlier ones has. -/
theorem Succeeded.tail {event : ThreadEvent W} {trace : List (ThreadEvent W)}
    (h : Succeeded (event :: trace)) : Succeeded trace :=
  fun call result hmem => h call result (List.mem_cons_of_mem _ hmem)

/-- If no call of the trace has failed, the latest one has not, and its result is null. -/
theorem Succeeded.head {call : PthreadCall} {result : ℤ} {trace : List (ThreadEvent W)}
    (h : Succeeded (.called call result :: trace)) : result = 0 :=
  h call result List.mem_cons_self

/-- The process is aborted only after a write. -/
abbrev AbortsOnWrite : List (ThreadEvent W) → Prop :=
  Throughout fun event before => (∃ message, event = .fatalError message) →
    ∃ work result earlier, before = .wrote work result :: earlier

/-- A call of the library is no abort, so recording one, with whatever error number, keeps that
aborts follow writes. -/
theorem abortsOnWrite_called (call : PthreadCall) (trace : List (ThreadEvent W)) (result : ℤ)
    (_ : 0 ≤ result) (h : AbortsOnWrite trace) : AbortsOnWrite (.called call result :: trace) :=
  throughout_cons.mpr ⟨by simp, h⟩

/-- That the process is aborted after a write only is kept in and around the critical sections: the
one abort there comes behind a write that has failed. -/
theorem protects_abortsOnWrite : Protects (W := W) AbortsOnWrite AbortsOnWrite := by
  apply Protects.of_throughout
  · intro call result before _ _ hfatal
    simp at hfatal
  · intro before hfatal
    simp at hfatal
  · intro work before hfatal
    simp at hfatal
  · intro work result before hfatal
    simp at hfatal
  · intro message work result before _
    exact ⟨work, result, before, rfl⟩

/-- That mutex and condition variable are destroyed after the joins only is kept by every critical
section, as none of them destroys anything. -/
theorem protects_destroysJoined (n : ℕ) :
    Protects (W := W) (DestroysJoined n) (DestroysJoined n) := by
  apply Protects.of_throughout
  · rintro call result before hmutex hcond ⟨result', hdestroy⟩
    simp [hmutex, hcond] at hdestroy
  · rintro before ⟨result', hdestroy⟩
    simp at hdestroy
  · rintro work before ⟨result', hdestroy⟩
    simp at hdestroy
  · rintro work result before ⟨result', hdestroy⟩
    simp at hdestroy
  · rintro message work result before ⟨result', hdestroy⟩
    simp at hdestroy

/-- **The mutex protects the work list**, as long as the calls succeed. -/
theorem protects_touchesLocked : Protects (W := W)
    (fun trace => Succeeded trace → TouchesLocked trace)
    (fun trace => Succeeded trace → TouchesLocked trace ∧ held trace) where
  weaken trace h hs := (h hs).1
  lock trace result _ h hs := by
    obtain rfl := hs.head
    exact ⟨throughout_cons.mpr ⟨by simp, h hs.tail⟩, by simp [held]⟩
  touch trace h hs := by
    obtain ⟨htouches, hheld⟩ := h hs.tail
    exact ⟨throughout_cons.mpr ⟨fun _ => hheld, htouches⟩, hheld⟩
  wait trace result _ h hs := by
    obtain ⟨htouches, hheld⟩ := h hs.tail
    exact ⟨throughout_cons.mpr ⟨by simp, htouches⟩, hheld⟩
  signal trace result _ h hs := by
    obtain ⟨htouches, hheld⟩ := h hs.tail
    exact ⟨throughout_cons.mpr ⟨by simp, htouches⟩, hheld⟩
  unlock trace result _ h hs := throughout_cons.mpr ⟨by simp, (h hs.tail).1⟩
  run trace work h hs := throughout_cons.mpr ⟨by simp, h hs.tail⟩
  write trace work result h hs := throughout_cons.mpr ⟨by simp, h hs.tail⟩
  fail trace work result message h hs := throughout_cons.mpr ⟨by simp, h hs.tail⟩

/-- No function of the pool aborts the process after a call of the library. -/
theorem keeps_abortsOnWrite (function : PoolFunction W) (n : ℕ) :
    Keeps (onTrace AbortsOnWrite) (function.process outside n) := by
  have hcalls (call : PthreadCall) (message : String) :
      Keeps (onTrace AbortsOnWrite) (checked outside call message) :=
    ensures_checked (abortsOnWrite_called call)
  have htouch (trace : List (ThreadEvent W)) (h : AbortsOnWrite trace) :
      AbortsOnWrite (.touched :: trace) := protects_abortsOnWrite.touch trace h
  rcases function with _ | _ | item | fuel
  · refine .bind (hcalls _ _) fun _ => .bind (hcalls _ _) fun _ => ?_
    exact .forM (I := fun _ => onTrace AbortsOnWrite) fun _ thread _ _ => hcalls _ _
  · refine .bind (protects_abortsOnWrite.insertWorkListItem _) fun _ => ?_
    refine .bind (.forM (I := fun _ => onTrace AbortsOnWrite) fun _ thread _ _ => hcalls _ _)
      fun _ => ?_
    refine .bind (ensures_look htouch) fun workList => ?_
    refine .bind (ensures_setWorkList htouch) fun _ => ?_
    exact .bind (hcalls _ _) fun _ => hcalls _ _
  · exact protects_abortsOnWrite.insertWorkListItem item
  · exact protects_abortsOnWrite.worker n fuel

/-- What a thread has made of `ThreadPool_Start`, the first of its threads created. -/
def Started (created : List ℕ) (trace : List (ThreadEvent W)) : Prop :=
  Succeeded trace → .called .mutexInit 0 ∈ trace ∧ .called .condInit 0 ∈ trace ∧
    ∀ thread ∈ created, .called (.create thread) 0 ∈ trace

/-- Where no call has failed `ThreadPool_Start` has initialized the mutex and the condition variable
and created all its threads. -/
theorem ensures_start (outside : Outside W) (n : ℕ) :
    Ensures (onTrace fun _ => True) (start outside n)
    (fun _ => onTrace (Started (List.range n))) E := by
  refine .bind (ensures_checked (B := fun trace => Succeeded trace →
    .called .mutexInit 0 ∈ trace) ?_)
    fun _ => .bind (ensures_checked (B := Started []) ?_) fun _ => ?_
  · intro trace result _ _ hs
    obtain rfl := hs.head
    exact List.mem_cons_self
  · intro trace result _ hinit hs
    obtain rfl := hs.head
    exact ⟨List.mem_cons_of_mem _ (hinit hs.tail), List.mem_cons_self, by simp⟩
  · refine .forM (I := fun created => onTrace (Started created)) fun created thread _ _ => ?_
    apply ensures_checked
    intro trace result _ hstarted hs
    obtain rfl := hs.head
    obtain ⟨hmutex, hcond, hcreated⟩ := hstarted hs.tail
    refine ⟨List.mem_cons_of_mem _ hmutex, List.mem_cons_of_mem _ hcond, fun other hother => ?_⟩
    obtain hother | rfl := List.mem_append.mp hother |>.imp_right List.mem_singleton.mp
    · exact List.mem_cons_of_mem _ (hcreated other hother)
    · exact List.mem_cons_self

/-- What a thread has made of `ThreadPool_Stop`, the first threads joined. -/
def Joined (n : ℕ) (joined : List ℕ) (trace : List (ThreadEvent W)) : Prop :=
  Succeeded trace → DestroysJoined n trace ∧ ∀ thread ∈ joined, .called (.join thread) 0 ∈ trace

/-- Nothing but the two ends of `ThreadPool_Stop` is bound to the joins. -/
theorem Joined.cons {n : ℕ} {joined : List ℕ} {event : ThreadEvent W} {trace : List (ThreadEvent W)}
    (h : Joined n joined trace) (hevent : (∃ result, event = .called .mutexDestroy result ∨
      event = .called .condDestroy result) → joined = List.range n) :
    Joined n joined (event :: trace) := by
  intro hs
  obtain ⟨hdestroys, hjoined⟩ := h hs.tail
  refine ⟨throughout_cons.mpr ⟨fun hdestroy thread hthread => ?_, hdestroys⟩, fun thread hthread =>
    List.mem_cons_of_mem _ (hjoined thread hthread)⟩
  apply hjoined
  rw [hevent hdestroy]
  exact List.mem_range.mpr hthread

/-- Where no call has failed `ThreadPool_Stop` has joined all threads, and only then destroyed the
mutex and the condition variable. -/
theorem ensures_stop (outside : Outside W) (n : ℕ) :
    Ensures (onTrace (DestroysJoined n)) (stop outside n)
    (fun _ => onTrace (Joined n (List.range n))) (fun _ => onTrace (DestroysJoined n)) := by
  refine .bind ((protects_destroysJoined n).insertWorkListItem _) fun _ => ?_
  refine .bind (Q := fun _ => onTrace (Joined n (List.range n))) ?_ fun _ => ?_
  · refine Ensures.weaken (.forM (I := fun joined => onTrace (Joined n joined)) ?_)
      (fun s h _ => ⟨h, by simp⟩) (fun _ _ => id) (fun _ _ h => h)
    intro joined thread _ _
    apply ensures_checked
    intro trace result _ hjoined hs
    obtain rfl := hs.head
    obtain ⟨hdestroys, hjoined⟩ := hjoined hs.tail
    refine ⟨throughout_cons.mpr ⟨by simp, hdestroys⟩, fun other hother => ?_⟩
    obtain hother | rfl := List.mem_append.mp hother |>.imp_right List.mem_singleton.mp
    · exact List.mem_cons_of_mem _ (hjoined other hother)
    · exact List.mem_cons_self
  · have htouch (trace : List (ThreadEvent W)) (h : Joined n (List.range n) trace) :
        Joined n (List.range n) (.touched :: trace) := h.cons fun _ => rfl
    refine .bind (ensures_look htouch) fun workList => ?_
    refine .bind (ensures_setWorkList htouch) fun _ => ?_
    refine .bind (ensures_checked (B := Joined n (List.range n)) ?_) fun _ => ensures_checked ?_
    · exact fun trace result _ h => h.cons fun _ => rfl
    · exact fun trace result _ h => h.cons fun _ => rfl

/-! ## A run of a function -/

section Run

variable (outside : Outside W) (n : ℕ) (workList : List (WorkListItem W))

/-- Of every run of each of the four functions, with any results of the library: the process is
aborted only after a write. -/
theorem abortsOnWrite_run (function : PoolFunction W) :
    AbortsOnWrite (function.run outside n workList).2.trace :=
  Keeps.exec (keeps_abortsOnWrite function n) (s := ⟨workList, []⟩) throughout_nil rfl

/-- A run does as it should when every call has succeeded. -/
theorem stopsOnFailure_of_succeeded {function : PoolFunction W}
    (hs : Succeeded (function.run outside n workList).2.trace) :
    StopsOnFailure n function (function.run outside n workList).1
      (function.run outside n workList).2.trace where
  started := by
    rintro rfl hreturned
    obtain ⟨hok, -⟩ := (ensures_start outside n (E := fun _ _ => True)).exec
      (s := ⟨workList, []⟩) trivial rfl
    obtain ⟨hmutex, hcond, hcreated⟩ := hok () hreturned hs
    exact ⟨hmutex, hcond, fun thread hthread => hcreated thread (List.mem_range.mpr hthread)⟩
  locked := by
    have hnil : Succeeded ([] : List (ThreadEvent W)) → TouchesLocked ([] : List (ThreadEvent W)) :=
      fun _ => throughout_nil
    rintro (⟨item, rfl⟩ | ⟨fuel, rfl⟩)
    · exact Keeps.exec (protects_touchesLocked.insertWorkListItem item) (s := ⟨workList, []⟩)
        hnil rfl hs
    · exact Keeps.exec (protects_touchesLocked.worker n fuel) (s := ⟨workList, []⟩) hnil rfl hs
  joined := by
    rintro rfl
    obtain ⟨hok, herror⟩ := (ensures_stop outside n).exec (s := ⟨workList, []⟩)
      throughout_nil rfl
    rcases hending : (PoolFunction.stop.run outside n workList).1 with reason | _
    · exact herror reason hending
    · exact (hok () hending hs).1
  aborted := by
    intro after call result before htrace hresult
    refine absurd (hs call result ?_) hresult
    rw [htrace]
    exact List.mem_append_right _ List.mem_cons_self

/-- **A failure stops the pool if and only if there is none.** -/
theorem stopsOnFailure_iff (function : PoolFunction W) :
    StopsOnFailure n function (function.run outside n workList).1
        (function.run outside n workList).2.trace ↔
      ∀ call result,
        .called call result ∈ (function.run outside n workList).2.trace → result = 0 := by
  refine ⟨fun h call result hcalled => ?_, stopsOnFailure_of_succeeded outside n workList⟩
  by_contra hresult
  obtain ⟨after, before, htrace⟩ := List.append_of_mem hcalled
  obtain ⟨-, message, rfl⟩ := h.aborted after call result before htrace hresult
  -- the process would have been aborted right after the call
  have hsuffix : ThreadEvent.fatalError message :: .called call result :: before <:+
      (function.run outside n workList).2.trace := by
    rw [htrace]
    exact List.suffix_rfl
  obtain ⟨work, written, earlier, hbefore⟩ :=
    abortsOnWrite_run outside n workList function _ _ hsuffix ⟨message, rfl⟩
  simp at hbefore

end Run

/-- Only one thread can be created: for the second there are no resources (`EAGAIN`). -/
def oneThread : Outside Unit where
  result _ call := if call = .create 1 then 11 else 0
  result_nonneg _ call := by split <;> decide
  others _ workList := workList
  write _ _ := .written 8

/-- **`ThreadPool_Start` returns without its second worker** where `pthread_create` gives `EAGAIN`
for it: the error is a positive number, and the wrapper tests for a negative one. -/
theorem not_stopsOnFailure_oneThread :
    (PoolFunction.start.run oneThread 2 []).1 = .ok () ∧
      (PoolFunction.start.run oneThread 2 []).2.trace =
        [.called (.create 1) 11, .called (.create 0) 0, .called .condInit 0, .called .mutexInit 0] ∧
      ¬StopsOnFailure 2 .start (PoolFunction.start.run oneThread 2 []).1
        (PoolFunction.start.run oneThread 2 []).2.trace := by
  refine ⟨rfl, rfl, fun h => ?_⟩
  obtain ⟨-, -, hcreated⟩ := h.started rfl rfl
  have hmissing : ThreadEvent.called (.create 1) 0 ∉
      (PoolFunction.start.run oneThread 2 []).2.trace := by decide
  exact hmissing (hcreated 1 (by decide))

end Failures

end Pixy.Pool
