import Pixy.Retry.Calls

/-!
# How long a call may last

Every wait of a call arms the whole timeout again: what it arms is due the timeout after the time of
that wait (`Sound.armed`). A deadline for the call as a whole is nowhere computed. So the due times
stay within the timeout of the first wait if and only if no later wait reads a later clock
(`armed_per_wait`), and a call that is woken and waits again may go on (`readAgain`).
-/

namespace Pixy.Retry

open Pixy.Found Pixy.Poll Pixy.Loop

/-- The timeouts armed, with the time at which they were. -/
def armed (log : List RetryEvent) : List (ℕ × ℕ) :=
  log.filterMap fun
    | .waits now (some dueTime) => some (now, dueTime)
    | _ => none

/-- The waits that are armed in a log and one more event are those of the log and that of the
event. -/
theorem armed_append (log : List RetryEvent) (event : RetryEvent) :
    armed (log ++ [event]) = armed log ++ armed [event] := List.filterMap_append

/-- **The invariant**: what has been armed is due the timeout later, and the clock has not gone
back. -/
structure RetryState.Timed (call : RetryingCall) (s : RetryState) : Prop where
  dueTime : ∀ wait ∈ armed s.log, wait.2 = Timer.dueTime wait.1 call.timeout
  past : ∀ wait ∈ armed s.log, wait.1 ≤ s.clock
  ordered : (armed s.log).Pairwise fun wait later => wait.1 ≤ later.1

namespace RetryState.Timed

variable {call : RetryingCall} {s s' : RetryState} {action : RetryAction}

/-- A step that arms nothing, while time may go on, keeps what is said about the waits armed so far.
-/
theorem of_armed_eq (h : s.Timed call) (harmed : armed s'.log = armed s.log)
    (hclock : s.clock ≤ s'.clock) : s'.Timed call where
  dueTime := harmed ▸ h.dueTime
  past wait hwait := (h.past wait (harmed ▸ hwait)).trans hclock
  ordered := harmed ▸ h.ordered

/-- **What a step arms** is a wait that begins now and ends after the timeout that the call was
given, however often it has waited before. -/
theorem step (h : s.Timed call) (hstep : s.step call action = some s') : s'.Timed call := by
  obtain ⟨result, -, -, rfl⟩ | ⟨frame, memory, now, -, hclock, -, hwait⟩ |
    ⟨globals, errno, ready, -, -, hresume⟩ := step_cases hstep
  · apply h.of_armed_eq
    · rw [tried_log, armed_append]
      exact List.append_nil _
    · rw [tried_clock]
  · obtain ⟨globals', errno', -, rfl⟩ | ⟨globals', errno', rfl, -⟩ := wait_cases hwait
    · split_ifs with htimed
      · apply h.of_armed_eq
        · exact (armed_append ..).trans (List.append_nil _)
        · exact hclock
      · have harmed : armed (s.log ++ [.waits now (some (Timer.dueTime now call.timeout))]) =
            armed s.log ++ [(now, Timer.dueTime now call.timeout)] := armed_append ..
        refine ⟨?_, ?_, ?_⟩
        · intro wait hin
          rcases List.mem_append.mp (harmed ▸ hin) with hin | hin
          · exact h.dueTime wait hin
          · rw [List.mem_singleton.mp hin]
        · intro wait hin
          rcases List.mem_append.mp (harmed ▸ hin) with hin | hin
          · exact (h.past wait hin).trans hclock
          · rw [List.mem_singleton.mp hin]
            exact le_rfl
        · refine harmed ▸ List.pairwise_append.mpr ⟨h.ordered, List.pairwise_singleton .., ?_⟩
          intro wait hin later hlater
          rw [List.mem_singleton.mp hlater]
          exact (h.past wait hin).trans hclock
    · apply h.of_armed_eq
      · exact (armed_append ..).trans (List.append_nil _)
      · exact hclock
  · obtain rfl | rfl := resume_cases hresume
    all_goals
      apply h.of_armed_eq
      · exact (armed_append ..).trans (List.append_nil _)
      · exact le_rfl

end RetryState.Timed

variable {call : RetryingCall} {s : RetryState}

/-- That every wait has the timeout of the call is kept by every step, so it holds of every
reachable state. -/
theorem timed_of_reachable (h : (retrySystem call).Reachable s) : s.Timed call := by
  refine StepSystem.ReachableWhen.induct ?_ ?_ h
  · rintro s ⟨globals, errno, clock, rfl⟩
    exact ⟨by simp [RetryState.start, armed], by simp [RetryState.start, armed],
      by simp [RetryState.start, armed]⟩
  · intro s action s' _ htimed _ hstep
    exact htimed.step hstep

/-- A timeout is due no later than its length after it was set; where the sum wraps around it is
only smaller. -/
theorem dueTime_le (now : ℕ) {timeout : ℤ} (h : 0 ≤ timeout) :
    Timer.dueTime now timeout ≤ now + timeout.toNat := by
  rw [Timer.dueTime, if_pos h]
  exact Nat.mod_le _ _

/-- **Every wait has the whole timeout.** No timeout that a call arms is due later than the timeout
after the time at which it is armed; and unless the clock runs over, none is due later than the
timeout after the first wait if and only if they were all armed at the time of the first. -/
theorem armed_per_wait (htimeout : 0 ≤ call.timeout) (h : (retrySystem call).Reachable s) :
    (∀ wait ∈ armed s.log, wait.2 = Timer.dueTime wait.1 call.timeout ∧
      wait.2 ≤ wait.1 + call.timeout.toNat) ∧
    ∀ first rest, armed s.log = first :: rest →
      (∀ wait ∈ armed s.log, wait.1 + call.timeout.toNat < 2 ^ 64) →
      ((∀ wait ∈ armed s.log, wait.2 ≤ first.1 + call.timeout.toNat) ↔
        ∀ wait ∈ armed s.log, wait.1 = first.1) := by
  have htimed := timed_of_reachable h
  refine ⟨fun wait hin => ⟨htimed.dueTime wait hin, ?_⟩, fun first rest hfirst hrange => ?_⟩
  · rw [htimed.dueTime wait hin]
    exact dueTime_le _ htimeout
  · have hfirst_le : ∀ wait ∈ armed s.log, first.1 ≤ wait.1 := by
      intro wait hin
      have hordered := htimed.ordered
      rw [hfirst] at hordered hin
      rcases List.mem_cons.mp hin with rfl | hin
      · exact le_rfl
      · exact (List.pairwise_cons.mp hordered).1 wait hin
    have hdue : ∀ wait ∈ armed s.log, wait.2 = wait.1 + call.timeout.toNat := by
      intro wait hin
      rw [htimed.dueTime wait hin, Timer.dueTime, if_pos htimeout]
      exact Nat.mod_eq_of_lt (hrange wait hin)
    constructor
    · intro hle wait hin
      have hbound := hle wait hin
      rw [hdue wait hin] at hbound
      exact Nat.le_antisymm (Nat.le_of_add_le_add_right hbound) (hfirst_le wait hin)
    · intro hsame wait hin
      rw [hdue wait hin, hsame wait hin]

/-- A read that is woken after five milliseconds, when somebody else has taken the data, and waits
again. -/
def readAgain : List RetryAction :=
  [.systemCall (.failure eagain), .wait 1 ample 0, .resume fresh 0 true,
    .systemCall (.failure eagain), .wait 2 ample 5]

/-- A read waits twice, the second time from a later moment: each of its waits is due within the
timeout, counted from its own start. -/
theorem armed_per_wait_readAgain :
    ∃ s, (retrySystem (.read 3 0 16 10)).run (.start fresh 0 0) readAgain = some s ∧
      ∀ wait ∈ armed s.log, wait.2 ≤ wait.1 + 10 := by
  have hend : ((retrySystem (.read 3 0 16 10)).run (.start fresh 0 0) readAgain).map (·.clock) =
      some 5 := by decide +kernel
  obtain ⟨s, hrun, -⟩ := Option.map_eq_some_iff.mp hend
  obtain ⟨hwaits, -⟩ :=
    armed_per_wait (by decide) (StepSystem.reachable_of_run ⟨fresh, 0, 0, rfl⟩ hrun)
  exact ⟨s, hrun, fun wait hin => (hwaits wait hin).2⟩

/-- **The call outlasts its timeout**: it may go on until fifteen, though it first waits at zero. -/
theorem not_armed_within_readAgain :
    ∃ s, (retrySystem (.read 3 0 16 10)).run (.start fresh 0 0) readAgain = some s ∧
      armed s.log = [(0, 10), (5, 15)] ∧ ¬∀ wait ∈ armed s.log, wait.2 ≤ 0 + 10 := by
  have hend : ((retrySystem (.read 3 0 16 10)).run (.start fresh 0 0) readAgain).map
      (fun s => armed s.log) = some [(0, 10), (5, 15)] := by decide +kernel
  obtain ⟨s, hrun, harmed⟩ := Option.map_eq_some_iff.mp hend
  refine ⟨s, hrun, harmed, ?_⟩
  rw [harmed]
  decide

end Pixy.Retry
