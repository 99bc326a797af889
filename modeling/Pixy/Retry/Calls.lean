import Pixy.Retry.Wait

/-!
# The retrying calls

`Read`, `Write` and the nine like them: a system call is made again while it is interrupted; where
it would block the fiber waits for the descriptor, with the whole timeout each time, and tries once
more.

They differ in the system call they make and in what they wait for (`RetryingCall`). One call is a
system of its own: what the kernel returns, what memory there is, what the clock says and what the
other fibers and the loop have done to the globals while the fiber was suspended are the actions.

`log` is no part of the program: it says what the call has done.
-/

namespace Pixy.Retry

open Pixy.Found Pixy.Store Pixy.Poll Pixy.Loop

/-- The system calls, without the descriptor; a pointer is an address.
Source: `unistd.h`, `sys/uio.h` and `sys/socket.h`, as used by `IO.c`. -/
inductive SystemCall
  | read (buffer bufferSize : ℕ)
  | write (data dataSize : ℕ)
  | readv (vector : ℕ) (vectorLength : ℤ)
  | writev (vector : ℕ) (vectorLength : ℤ)
  | accept4 (name nameSize : ℕ) (flags : BitVec 32)
  | recv (buffer bufferSize : ℕ) (flags : BitVec 32)
  | send (data dataSize : ℕ) (flags : BitVec 32)
  | recvfrom (buffer bufferSize : ℕ) (flags : BitVec 32) (name nameSize : ℕ)
  | sendto (data dataSize : ℕ) (flags : BitVec 32) (name nameSize : ℕ)
  | recvmsg (message : ℕ) (flags : BitVec 32)
  | sendmsg (message : ℕ) (flags : BitVec 32)
  deriving DecidableEq

/-- What a system call returns: something that is not negative, or -1 and an error number. -/
inductive SystemResult
  | value (value : ℕ)
  | failure (errorNumber : ℤ)
  deriving DecidableEq

/-- A call that retries. -/
structure RetryingCall where
  /-- The system call that is made. -/
  systemCall : SystemCall
  /-- The descriptor. -/
  fd : FD
  /-- What is waited for. -/
  condition : IOCondition
  /-- For how long; negative for ever. -/
  timeout : ℤ
  deriving DecidableEq

namespace RetryingCall

/-- Source: `fcntl.h`. -/
def oNonblock : BitVec 32 := 0x800

/-- Source: `IO.c`, `Read`. -/
def read (fd : FD) (buffer bufferSize : ℕ) (timeout : ℤ) : RetryingCall :=
  ⟨.read buffer bufferSize, fd, .ioReadable, timeout⟩

/-- Source: `IO.c`, `Write`. -/
def write (fd : FD) (data dataSize : ℕ) (timeout : ℤ) : RetryingCall :=
  ⟨.write data dataSize, fd, .ioWritable, timeout⟩

/-- Source: `IO.c`, `ReadV`. -/
def readV (fd : FD) (vector : ℕ) (vectorLength timeout : ℤ) : RetryingCall :=
  ⟨.readv vector vectorLength, fd, .ioReadable, timeout⟩

/-- Source: `IO.c`, `WriteV`. -/
def writeV (fd : FD) (vector : ℕ) (vectorLength timeout : ℤ) : RetryingCall :=
  ⟨.writev vector vectorLength, fd, .ioWritable, timeout⟩

/-- Source: `IO.c`, `Accept4`. -/
def accept4 (fd : FD) (name nameSize : ℕ) (flags : BitVec 32) (timeout : ℤ) : RetryingCall :=
  ⟨.accept4 name nameSize (flags ||| oNonblock), fd, .ioReadable, timeout⟩

/-- Source: `IO.c`, `Recv`. -/
def recv (fd : FD) (buffer bufferSize : ℕ) (flags : BitVec 32) (timeout : ℤ) : RetryingCall :=
  ⟨.recv buffer bufferSize flags, fd, .ioReadable, timeout⟩

/-- Source: `IO.c`, `Send`. -/
def send (fd : FD) (data dataSize : ℕ) (flags : BitVec 32) (timeout : ℤ) : RetryingCall :=
  ⟨.send data dataSize flags, fd, .ioWritable, timeout⟩

/-- Source: `IO.c`, `RecvFrom`. -/
def recvFrom (fd : FD) (buffer bufferSize : ℕ) (flags : BitVec 32) (name nameSize : ℕ)
    (timeout : ℤ) : RetryingCall :=
  ⟨.recvfrom buffer bufferSize flags name nameSize, fd, .ioReadable, timeout⟩

/-- Source: `IO.c`, `SendTo`. -/
def sendTo (fd : FD) (data dataSize : ℕ) (flags : BitVec 32) (name nameSize : ℕ)
    (timeout : ℤ) : RetryingCall :=
  ⟨.sendto data dataSize flags name nameSize, fd, .ioWritable, timeout⟩

/-- Source: `IO.c`, `RecvMsg`. -/
def recvMsg (fd : FD) (message : ℕ) (flags : BitVec 32) (timeout : ℤ) : RetryingCall :=
  ⟨.recvmsg message flags, fd, .ioReadable, timeout⟩

/-- Source: `IO.c`, `SendMsg`. -/
def sendMsg (fd : FD) (message : ℕ) (flags : BitVec 32) (timeout : ℤ) : RetryingCall :=
  ⟨.sendmsg message flags, fd, .ioWritable, timeout⟩

end RetryingCall

/-! ## The state of a call -/

/-- Where a call is. -/
inductive RetryPhase
  /-- Before the system call. -/
  | trying
  /-- Before `WaitForFD`. -/
  | blocked
  /-- Suspended in `WaitForFD`. -/
  | waiting
  /-- At the end. -/
  | returned (result : ℤ)
  deriving DecidableEq

/-- What a call has done. -/
inductive RetryEvent
  /-- It made the system call. -/
  | called (systemCall : SystemCall) (fd : FD) (result : SystemResult)
  /-- It waits; a timeout was armed at a time for another, unless the wait has none. -/
  | waits (now : ℕ) (dueTime : Option ℕ)
  /-- It could not wait. -/
  | refused
  /-- The descriptor was found ready. -/
  | woken
  /-- The timeout expired, and its callback stored an error number. -/
  | expired (errorNumber : ℤ)
  deriving DecidableEq

/-- A call in progress, and the globals. -/
structure RetryState where
  /-- What `WaitForFD` works on. -/
  globals : Globals
  /-- `errno`. -/
  errno : ℤ
  /-- The latest time read. -/
  clock : ℕ
  /-- Where the call is. -/
  phase : RetryPhase
  /-- What it has done, in order. -/
  log : List RetryEvent

/-- What can happen next. -/
inductive RetryAction
  /-- The system call returns. -/
  | systemCall (result : SystemResult)
  /-- `WaitForFD` is called and has its context in a stack frame. -/
  | wait (frame : CallId) (memory : Memory) (now : ℕ)
  /-- The fiber is resumed: the descriptor is ready, or else the timeout has expired. The others
  have left the globals and `errno` as they please. -/
  | resume (globals : Globals) (errno : ℤ) (ready : Bool)

namespace RetryState

/-- Remember. -/
def note (s : RetryState) (event : RetryEvent) : RetryState := { s with log := s.log ++ [event] }

/-- The inner loop is left unless the call was interrupted.
Source: `IO.c`, `Read` and the others, up to `WaitForFD`. -/
def tried (s : RetryState) (call : RetryingCall) (result : SystemResult) : RetryState :=
  let s := s.note (.called call.systemCall call.fd result)
  match result with
  | .value value => { s with phase := .returned value }
  | .failure errorNumber =>
    let s := { s with errno := errorNumber }
    if s.errno = eintr then s
    else if s.errno ≠ eagain ∧ s.errno ≠ ewouldblock then { s with phase := .returned (-1) }
    else { s with phase := .blocked }

/-- Source: `IO.c`, `WaitForFD`, up to the suspension, and what the callers do if it fails. -/
def wait (s : RetryState) (call : RetryingCall) (frame : CallId) (memory : Memory) (now : ℕ) :
    Option RetryState :=
  match waitForFD s.globals frame call.fd call.condition call.timeout now memory s.errno with
  | none => none
  | some (globals, true, errno) =>
    let dueTime := if call.timeout < 0 then none else some (globals.timer.timeoutHeap.key frame)
    some ({ s with globals := globals, errno := errno, clock := now, phase := .waiting }.note
      (.waits now dueTime))
  | some (globals, false, errno) =>
    some ({ s with globals := globals, errno := errno, clock := now, phase := .returned (-1) }.note
      .refused)

/-- A wait without timeout does not expire; `WaitForFDCallback3` stores `EINTR`, in the place where
`WaitForFD` looks for it (`offsets`), and what is wrong with it otherwise is the business of
`TimeOut.lean`. Source: `IO.c`, `WaitForFD`, after the suspension, and what the callers do then. -/
def resume (s : RetryState) (call : RetryingCall) (globals : Globals) (errno : ℤ) (ready : Bool) :
    Option RetryState :=
  if ready then
    some ({ s with globals := globals, errno := errno, phase := .trying }.note .woken)
  else if call.timeout < 0 then none
  else
    some ({ s with globals := globals, errno := eintr, phase := .returned (-1) }.note
      (.expired eintr))

/-- One step; the clock does not go back. -/
def step (call : RetryingCall) (s : RetryState) : RetryAction → Option RetryState
  | .systemCall result => if s.phase = .trying then some (s.tried call result) else none
  | .wait frame memory now =>
    if s.phase = .blocked ∧ s.clock ≤ now then s.wait call frame memory now else none
  | .resume globals errno ready =>
    if s.phase = .waiting then s.resume call globals errno ready else none

/-- A call begins. -/
def start (globals : Globals) (errno : ℤ) (clock : ℕ) : RetryState where
  globals := globals
  errno := errno
  clock := clock
  phase := .trying
  log := []

end RetryState

/-- **A retrying call**, under every behaviour of the kernel, the memory, the clock and the
others. -/
def retrySystem (call : RetryingCall) : StepSystem RetryState RetryAction where
  init s := ∃ globals errno clock, s = .start globals errno clock
  step := RetryState.step call

/-! ## What a step can do -/

namespace RetryState

variable {call : RetryingCall} {s s' : RetryState} {action : RetryAction}

/-- A try of the system call adds one entry to the log, whatever it returns. -/
@[simp] theorem tried_log (s : RetryState) (call : RetryingCall) (result : SystemResult) :
    (s.tried call result).log = s.log ++ [.called call.systemCall call.fd result] := by
  unfold tried
  cases result with
  | value value => rfl
  | failure errorNumber =>
      dsimp only
      split_ifs <;> rfl

/-- A try of the system call takes no time in the model; the clock advances where the call waits. -/
@[simp] theorem tried_clock (s : RetryState) (call : RetryingCall) (result : SystemResult) :
    (s.tried call result).clock = s.clock := by
  unfold tried
  cases result with
  | value value => rfl
  | failure errorNumber =>
      dsimp only
      split_ifs <;> rfl

/-- **The wait**: the fiber is suspended, with what the timer has been asked for, or the call
fails. -/
theorem wait_cases {frame : CallId} {memory : Memory} {now : ℕ}
    (h : s.wait call frame memory now = some s') :
    (∃ globals errno, ¬s.globals.LacksEvent call.fd memory ∧
      s' = { s with globals := globals, errno := errno, clock := now, phase := .waiting }.note
        (.waits now
          (if call.timeout < 0 then none else some (Timer.dueTime now call.timeout)))) ∨
    ∃ globals errno, s' = { s with
        globals := globals, errno := errno, clock := now, phase := .returned (-1) }.note .refused ∧
      ((s.globals.LacksEvent call.fd memory ∧ errno = s.errno) ∨
        (¬s.globals.LacksEvent call.fd memory ∧ errno = enomem)) := by
  unfold wait at h
  rcases hwait : waitForFD s.globals frame call.fd call.condition call.timeout now memory
    s.errno with _ | ⟨globals, _ | _, errno⟩
  · rw [hwait] at h
    cases h
  · rw [hwait] at h
    cases h
    obtain ⟨⟨⟩, -⟩ | ⟨-, hlacks, herrno⟩ | ⟨-, hevent, herrno⟩ := waitForFD_spec hwait
    · exact .inr ⟨globals, errno, rfl, .inl ⟨hlacks, herrno⟩⟩
    · exact .inr ⟨globals, errno, rfl, .inr ⟨hevent, herrno⟩⟩
  · rw [hwait] at h
    cases h
    obtain ⟨-, hevent, hdue⟩ | ⟨⟨⟩, -⟩ | ⟨⟨⟩, -⟩ := waitForFD_spec hwait
    refine .inl ⟨globals, errno, hevent, ?_⟩
    split_ifs with htimed
    · rfl
    · rw [hdue (not_lt.mp htimed)]

/-- **After the suspension** the system call is tried again, or the call fails because its time has
run out. -/
theorem resume_cases {globals : Globals} {errno : ℤ} {ready : Bool}
    (h : s.resume call globals errno ready = some s') :
    s' = { s with globals := globals, errno := errno, phase := .trying }.note .woken ∨
      s' = { s with globals := globals, errno := eintr, phase := .returned (-1) }.note
        (.expired eintr) := by
  unfold resume at h
  split_ifs at h
  · exact .inl (Option.some.inj h).symm
  · exact .inr (Option.some.inj h).symm

/-- **What a step can do**: the system call is tried, the fiber waits for the descriptor, or it is
resumed, each in one phase only. -/
theorem step_cases (h : s.step call action = some s') :
    (∃ result, s.phase = .trying ∧ action = .systemCall result ∧ s' = s.tried call result) ∨
    (∃ frame memory now, s.phase = .blocked ∧ s.clock ≤ now ∧ action = .wait frame memory now ∧
      s.wait call frame memory now = some s') ∨
    (∃ globals errno ready, s.phase = .waiting ∧ action = .resume globals errno ready ∧
      s.resume call globals errno ready = some s') := by
  cases action with
  | systemCall result =>
      obtain ⟨hphase, hstep⟩ := Option.ite_none_right_eq_some.mp h
      exact .inl ⟨result, hphase, rfl, (Option.some.inj hstep).symm⟩
  | wait frame memory now =>
      obtain ⟨⟨hphase, hclock⟩, hstep⟩ := Option.ite_none_right_eq_some.mp h
      exact .inr (.inl ⟨frame, memory, now, hphase, hclock, rfl, hstep⟩)
  | resume globals errno ready =>
      obtain ⟨hphase, hstep⟩ := Option.ite_none_right_eq_some.mp h
      exact .inr (.inr ⟨globals, errno, ready, hphase, rfl, hstep⟩)

end RetryState

/-! ## Runs -/

/-- Globals as they are before anything has been done with them. -/
def fresh : Globals where
  poller := .init (fun _ => ⟨0, 0, 0⟩) (fun _ => ⟨.ioReadable, 0, .workerCallback⟩)
    ⟨fun node => node, fun node => node⟩
  eventMemoryPool :=
    .init 64 ⟨fun node => node, fun node => node⟩ (fun _ => 0) (fun _ => 0) fun _ => 0
  timer := .init (fun _ => 0) (fun _ => 0) (fun _ => 0) (fun _ => 0) fun _ => .workerCallback

/-- Memory for everything. -/
def ample : Memory := ⟨true, some (65536, fun _ => 0), true, some fun _ => 0⟩

end Pixy.Retry
