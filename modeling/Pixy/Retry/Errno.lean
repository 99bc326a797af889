import Pixy.Retry.Calls

/-!
# What a failed call reports

A failed call has `errno` from its last system call, from the callback of its timeout or from the
allocator (`Truthful`), unless what is missing is the event of the descriptor. Then nobody has
written `errno` since the system call would have blocked, and that is what is reported
(`truthful_iff`).
-/

namespace Pixy.Retry

open Pixy.Found Pixy.Store Pixy.Mem Pixy.Poll Pixy.Loop

/-- **What `errno` should be after a failed call**: the error of its last system call, or what was
stored for the expired timeout, or `ENOMEM` if it could not wait; and not that the call would
block. -/
structure RetryState.Truthful (call : RetryingCall) (s : RetryState) : Prop where
  explained :
    (s.log.getLast? = some (.called call.systemCall call.fd (.failure s.errno)) ∧ s.errno ≠ eintr) ∨
    s.log.getLast? = some (.expired s.errno) ∨
    (s.log.getLast? = some .refused ∧ s.errno = enomem)
  not_wouldBlock : s.errno ≠ eagain ∧ s.errno ≠ ewouldblock

/-- `ENOMEM` is told apart from the error numbers of a call that would block. -/
theorem enomem_not_wouldBlock : enomem ≠ eagain ∧ enomem ≠ ewouldblock := by decide

/-- `EINTR` is told apart from the error numbers of a call that would block. -/
theorem eintr_not_wouldBlock : eintr ≠ eagain ∧ eintr ≠ ewouldblock := by decide

/-- The wait that a step makes lacks an event. -/
def RetryAction.LacksEvent (call : RetryingCall) (s : RetryState) : RetryAction → Prop
  | .wait _ memory _ => s.globals.LacksEvent call.fd memory
  | .systemCall _ | .resume .. => False

/-- **The invariant**: a call that is about to wait has been told that it would block. -/
def RetryState.Blocked (s : RetryState) : Prop :=
  s.phase = .blocked → s.errno = eagain ∨ s.errno = ewouldblock

namespace RetryState

variable {call : RetryingCall} {s s' : RetryState} {action : RetryAction}

/-- **The system call returns** a number, is interrupted and tried again, or fails with an error
that the call returns with or waits for. -/
theorem tried_cases (s : RetryState) (call : RetryingCall) (result : SystemResult) :
    (∃ value : ℕ, (s.tried call result).phase = .returned value) ∨
    (result = .failure eintr ∧ (s.tried call result).phase = s.phase) ∨
    (∃ errorNumber, result = .failure errorNumber ∧ errorNumber ≠ eintr ∧
      (s.tried call result).errno = errorNumber ∧
      (((s.tried call result).phase = .returned (-1) ∧ errorNumber ≠ eagain ∧
          errorNumber ≠ ewouldblock) ∨
        ((s.tried call result).phase = .blocked ∧
          (errorNumber = eagain ∨ errorNumber = ewouldblock)))) := by
  unfold tried
  cases result with
  | value value => exact .inl ⟨value, rfl⟩
  | failure errorNumber =>
      dsimp only
      split_ifs with hinterrupted hother
      · exact .inr (.inl ⟨congrArg _ hinterrupted, rfl⟩)
      · exact .inr (.inr ⟨errorNumber, rfl, hinterrupted, rfl, .inl ⟨rfl, hother⟩⟩)
      · refine .inr (.inr ⟨errorNumber, rfl, hinterrupted, rfl, .inr ⟨rfl, ?_⟩⟩)
        by_contra hneither
        exact hother (not_or.mp hneither)

/-- A step keeps the invariant: a call gets to its wait only by a system call that has just said it
would block. -/
theorem Blocked.step (hstep : s.step call action = some s') : s'.Blocked := by
  intro hblocked
  obtain ⟨result, hphase, -, rfl⟩ | ⟨frame, memory, now, -, -, -, hwait⟩ |
    ⟨globals, errno, ready, -, -, hresume⟩ := step_cases hstep
  · obtain ⟨value, hend⟩ | ⟨-, hsame⟩ | ⟨errorNumber, -, -, herrno, ⟨hend, -⟩ | ⟨-, hwould⟩⟩ :=
      s.tried_cases call result
    · cases hend.symm.trans hblocked
    · cases hphase.symm.trans (hsame.symm.trans hblocked)
    · cases hend.symm.trans hblocked
    · rw [herrno]
      exact hwould
  · obtain ⟨globals', errno', -, rfl⟩ | ⟨globals', errno', rfl, -⟩ :=
      wait_cases hwait <;> cases hblocked
  · obtain rfl | rfl := resume_cases hresume <;> cases hblocked

end RetryState

variable {call : RetryingCall} {s s' : RetryState} {action : RetryAction}

/-- In every reachable state a call that is about to wait has been told that it would block. -/
theorem blocked_of_reachable (h : (retrySystem call).Reachable s) : s.Blocked := by
  refine StepSystem.ReachableWhen.induct ?_ ?_ h
  · rintro s ⟨globals, errno, clock, rfl⟩ hblocked
    cases hblocked
  · intro s action s' _ _ _ hstep
    exact RetryState.Blocked.step hstep

open RetryState

/-- **`errno` tells the truth about a failed call if and only if** the wait it failed in, if any,
did not lack the event of the descriptor. -/
theorem truthful_iff (h : (retrySystem call).Reachable s)
    (hstep : (retrySystem call).step s action = some s') (hfailed : s'.phase = .returned (-1)) :
    s'.Truthful call ↔ ¬action.LacksEvent call s := by
  have hblocked := blocked_of_reachable h
  obtain ⟨result, hphase, rfl, rfl⟩ | ⟨frame, memory, now, hphase, -, rfl, hwait⟩ |
    ⟨globals, errno, ready, -, rfl, hresume⟩ := step_cases hstep
  · -- the system call has failed
    refine iff_of_true ?_ id
    obtain ⟨value, hend⟩ | ⟨-, hsame⟩ | ⟨errorNumber, rfl, hne, herrno, ⟨-, hother⟩ | ⟨hend, -⟩⟩ :=
      s.tried_cases call result
    · cases hend.symm.trans hfailed
    · cases hphase.symm.trans (hsame.symm.trans hfailed)
    · refine ⟨.inl ⟨?_, ?_⟩, ?_⟩
      · rw [tried_log, List.getLast?_concat, herrno]
      · rw [herrno]
        exact hne
      · rw [herrno]
        exact hother
    · cases hend.symm.trans hfailed
  · obtain ⟨globals', errno', -, rfl⟩ | ⟨globals', errno', rfl, hlacks⟩ := wait_cases hwait
    · cases hfailed
    · obtain ⟨hlacks, rfl⟩ | ⟨hevent, rfl⟩ := hlacks
      · -- nobody has written the error number
        refine iff_of_false (fun htruthful => ?_) (not_not.mpr hlacks)
        obtain heagain | hewouldblock := hblocked hphase
        · exact htruthful.not_wouldBlock.1 heagain
        · exact htruthful.not_wouldBlock.2 hewouldblock
      · exact iff_of_true
          ⟨.inr (.inr ⟨List.getLast?_concat .., rfl⟩), enomem_not_wouldBlock⟩ hevent
  · obtain rfl | rfl := resume_cases hresume
    · cases hfailed
    · exact iff_of_true ⟨.inr (.inl (List.getLast?_concat ..)), eintr_not_wouldBlock⟩ id

/-- There is memory for an event and none for a timeout. -/
def segmentless : Memory := { ample with segment := none }

/-- A read whose wait finds no memory for the timeout fails with `ENOMEM`, although it was
interrupted and told that it would block before. -/
theorem truthful_iff_refused :
    ∃ s s', (retrySystem (.read 3 0 16 10)).run (.start fresh 0 0)
        [.systemCall (.failure eintr), .systemCall (.failure eagain)] = some s ∧
      (retrySystem (.read 3 0 16 10)).step s (.wait 1 segmentless 0) = some s' ∧
      s'.errno = enomem ∧ s'.Truthful (.read 3 0 16 10) := by
  have hend : ((retrySystem (.read 3 0 16 10)).run (.start fresh 0 0)
      [.systemCall (.failure eintr), .systemCall (.failure eagain)]).bind (fun s =>
        ((retrySystem (.read 3 0 16 10)).step s (.wait 1 segmentless 0)).map fun s' =>
          (s'.phase, s'.errno)) = some (.returned (-1), enomem) := by decide +kernel
  obtain ⟨s, hrun, hs⟩ := Option.bind_eq_some_iff.mp hend
  obtain ⟨s', hstep, hs'⟩ := Option.map_eq_some_iff.mp hs
  obtain ⟨hphase, herrno⟩ := Prod.mk.inj hs'
  refine ⟨s, s', hrun, hstep, herrno, ?_⟩
  apply (truthful_iff (StepSystem.reachable_of_run ⟨fresh, 0, 0, rfl⟩ hrun) hstep hphase).mpr
  rintro ⟨-, -, -, hchunk⟩
  cases hchunk

/-! ## Without an event -/

/-- The block that the pool hands out for the descriptor, when the descriptors come in order. -/
def eventOf (fd : FD) : EventId := 131072 - 64 * (fd + 1)

/-- The descriptor of that block. -/
def fdOf (event : EventId) : FD := (131072 - event) / 64 - 1

/-- One watch waits for every event. -/
def partner : Node → Node
  | .watchListHead event .ioReadable => .watchItem (fdOf event + 1)
  | .watchItem watch => .watchListHead (eventOf (watch - 1)) .ioReadable
  | node => node

/-- 1023 watches are set, each on one of the first descriptors, and their events fill a chunk of the
pool. (While the program runs, one of them is the thread pool's, on its pipe.) -/
def crowded : Globals where
  poller :=
    { eventVector := ⟨8, 8192, 1024⟩
      elements := fun fd => if fd < 1023 then some (eventOf fd) else none
      allocated := ((List.range 1023).map eventOf).toFinset
      event := fun event => ⟨fdOf event, epollIn, epollIn⟩
      watch := fun watch => ⟨.ioReadable, watch, .waitForFDCallback1⟩
      links := ⟨partner, partner⟩
      interest := fun fd => if fd < 1023 then some (epollIn, eventOf fd) else none
      registered := (List.range 1023).map fun fd => ⟨fd + 1, fd, .ioReadable⟩
      ledger := (List.range 1023).flatMap fun fd => [(eventOf fd, .allocate), (eventOf fd, .hold)] }
  eventMemoryPool :=
    { blockSize := 64
      numberOfSlotsPerChunk := 1023
      links := (fresh.eventMemoryPool.links).insertBack .unusableChunkListHead (.listItem 65536)
      freeSlot := fun _ => 0
      numberOfFreeSlots := fun _ => 0
      bytes := fun _ => 0
      chunks := {65536}
      allocated := (List.range 1023).map eventOf
      released := [] }
  timer := fresh.timer

/-- No memory for another chunk. -/
def chunkless : Memory := { ample with chunk := none }

/-- **A read reports that it would block**: it has to wait for a descriptor that has no event. -/
theorem not_truthful_crowded :
    ∃ s, (retrySystem (.read 1023 0 16 10)).run (.start crowded 0 0)
        [.systemCall (.failure eagain), .wait 1024 chunkless 0] = some s ∧
      s.phase = .returned (-1) ∧ s.errno = eagain ∧ ¬s.Truthful (.read 1023 0 16 10) := by
  have hend : ((retrySystem (.read 1023 0 16 10)).run (.start crowded 0 0)
      [.systemCall (.failure eagain), .wait 1024 chunkless 0]).map (fun s => (s.phase, s.errno)) =
      some (.returned (-1), eagain) := by decide +kernel
  obtain ⟨s, hrun, hs⟩ := Option.map_eq_some_iff.mp hend
  obtain ⟨hphase, herrno⟩ := Prod.mk.inj hs
  exact ⟨s, hrun, hphase, herrno, fun htruthful => htruthful.not_wouldBlock.1 herrno⟩

end Pixy.Retry
