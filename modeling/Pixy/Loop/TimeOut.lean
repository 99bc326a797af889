import Pixy.Loop.Reach

/-!
# What the two callbacks do to the context

`WaitForFDCallback2` finds in the block what `WaitForFD` put there and completes the wait.
`WaitForFDCallback3` declares the fields in another order and never does
(`completes_iff`).
-/

namespace Pixy.Loop

open Pixy.Found Pixy.Sched Pixy.Sync Pixy.Poll Pixy.Pool

variable {n : ℕ}

namespace Runtime

variable {s t : Runtime n} {k : CallId} {fd : FD} {condition : IOCondition}

/-- **A wait with a timeout is completed** by its readiness, or by its expiry: exactly its watch is
removed, and its timeout if that is still pending, exactly its fiber becomes ready, and the call
will return what it should. -/
structure Completes (s t : Runtime n) (call : CallId) (ready : Bool) : Prop where
  /-- The fiber was suspended in the call. -/
  waiting : s.Waiting call
  /-- Nothing undefined happens. -/
  defined : t.halted = false
  /-- The flags and the dirty list are as `IOPoller_ClearWatch` leaves them. -/
  cleared : s.poller.clearWatch call = some t.poller
  /-- The watch is out of its list, and all other lists are as before. -/
  drops : s.poller.Drops t.poller call
  /-- The timeout is out of the heap, if it was there. -/
  timer : if ready then s.timer.clearTimeout call = some t.timer else t.timer = s.timer
  /-- The fiber is the last in the ready list. -/
  resumed : t.scheduler = s.scheduler.resumeFiber (s.callerOf call)
  /-- What the call will return, and set `errno` to. -/
  result : t.result call = if ready then (true, none) else (false, some eintr)
  /-- Nothing else is different. -/
  frame : t = { s with
    poller := t.poller
    timer := t.timer
    scheduler := t.scheduler
    context := Function.update s.context call (t.context call)
    log := t.log }

/-! ## The callbacks -/

/-- **`WaitForFDCallback3` would complete it,** if it found the fields where they were stored. -/
theorem completes_waitForFDCallback3 (hdefined : s.halted = false) (hw : s.Waiting k)
    (hkind : s.kind k = .waitForFD fd condition true) {dirty : List EventId}
    (hshape : s.poller.Shape dirty) (hregistered : k ∈ s.poller.registered.map (·.watch)) :
    Completes s (s.waitForFDCallback3 timedContext k) k false := by
  obtain ⟨poller, dirty', hclear, hshape', hfiltered⟩ := hshape.clearWatch hregistered
  rw [waitForFDCallback3_eq hdefined hkind hclear]
  refine ⟨hw, hdefined, hclear, IOPoller.drops_clearWatch hshape hshape' hclear hfiltered, rfl, rfl,
    ?_, ?_⟩
  · simp [Runtime.result, resume, note, hkind]
  · simp [resume, note]

/-- A collected call to one of the two callbacks is for a wait with a timeout; for readiness, the
watch is registered and the timeout is pending. -/
theorem Sources.timed (h : s.Sources) {function : Callback} (hin : ⟨function, k⟩ ∈ s.async.calls)
    (hfunction : function = .waitForFDCallback2 ∨ function = .waitForFDCallback3) :
    s.Waiting k ∧ (∃ fd condition, s.kind k = .waitForFD fd condition true) ∧
      (function = .waitForFDCallback2 →
        k ∈ s.poller.registered.map (·.watch) ∧ k ∈ s.timer.nodes) := by
  rcases h.collected _ hin with hworker | ⟨r, hr, hne, hcall, htime⟩ | ⟨j, hw, htime, hcall, -⟩
  · simp only at hworker
    simp [hworker] at hfunction
  · obtain ⟨hw, timed, hk, hready⟩ := h.watch hr hne
    rw [hready] at hcall
    cases timed
    · cases hcall
      simp at hfunction
    · cases hcall
      refine ⟨hw, ⟨_, _, hk⟩, fun _ => ⟨List.mem_map_of_mem hr, htime ?_⟩⟩
      rw [hk]
      rfl
  · rcases cases_of_hasTimeout htime with ⟨fd, condition, hkind⟩ | hkind
    · rw [expiry_waitForFD hkind] at hcall
      cases hcall
      exact ⟨hw, ⟨_, _, hkind⟩, nofun⟩
    · rw [expiry_sleep hkind] at hcall
      cases hcall
      simp at hfunction

/-- Where a step of the program as it is leaves nothing undefined, it was no call of
`WaitForFDCallback3`, which would have read a field that is not there. -/
theorem proper_of_defined (h : s.Invariant []) {action : RuntimeAction n}
    (hstep : s.step callback3Context action = some t) (hdefined : t.halted = false) :
    Proper callback3Context s action := by
  cases action with
  | dispatch =>
      intro call hcall hfunction
      rw [Option.mem_def, List.head?_eq_some_iff] at hcall
      obtain ⟨rest, hcalls⟩ := hcall
      obtain ⟨function, j⟩ := call
      subst hfunction
      obtain ⟨-, ⟨fd, condition, hkind⟩, -⟩ :=
        h.sources.timed (hcalls ▸ List.mem_cons_self) (.inr rfl)
      -- the call would halt
      simp only [Runtime.step, Runtime.dispatch, hcalls, h.defined] at hstep
      simp only [Bool.false_eq_true, if_false, reduceCtorEq, false_and,
        Option.ite_none_right_eq_some, Option.some.injEq] at hstep
      rw [← hstep.2] at hdefined
      refine absurd hdefined ?_
      simp only [call]
      rw [waitForFDCallback3_halt (by exact hkind)]
      simp [halt]
  | _ => trivial

/-- After something undefined no step is made, so a state that a step is made from is a defined one.
-/
theorem defined_of_step {declared : Fields FieldName} {action : RuntimeAction n}
    (hstep : s.step declared action = some t) : s.halted = false := by
  by_contra hhalted
  rw [Bool.not_eq_false] at hhalted
  simp [Runtime.step, hhalted] at hstep

/-- In a run of the program as it is, nothing undefined has happened as long as no
`WaitForFDCallback3` was called. -/
theorem reachable_of_defined (h : (runtimeSystem n callback3Context).Reachable s)
    (hdefined : s.halted = false) :
    (runtimeSystem n callback3Context).ReachableWhen (Proper callback3Context) s := by
  induction h with
  | init h => exact .init h
  | @step s t action _ _ hstep ih =>
      have hs := ih (defined_of_step hstep)
      have hinvariant := invariant_of_reachable (fun _ _ hc => hc) hs
      exact .step hs (proper_of_defined hinvariant hstep hdefined) hstep

end Runtime

end Pixy.Loop
