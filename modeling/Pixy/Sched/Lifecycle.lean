import Pixy.Sched.Accounting

/-!
# What a tick leaves, and the accounting of every reachable state

Two things are added to the invariant of `Accounting.lean`. An operation after which nobody runs
ended a tick, and then both lists are empty (`Scheduler.apply_idle`). And the life cycle each
history keeps to is read back in the terms of the program: which switch a saved context belongs to
(`savedBy_of_replay`), what was freed or used again and in which phase (`replay_of_append`), and
how often (`count_allocated`). `fiber_accounting` collects them.
-/

namespace Pixy.Sched

open Pixy.Found

/-! ## An idle scheduler has no dead fiber -/

namespace Scheduler

/-- If the fiber that leaves finds nobody ready, the tick that started it all frees the dead. -/
theorem switchAway_idle {self : Scheduler} (h : self.switchAway.activeFiber = none) :
    self.switchAway.readyFiberList = [] ∧ self.switchAway.deadFiberList = [] := by
  unfold switchAway at h ⊢
  split_ifs at h ⊢ with hr
  · exact ⟨hr, rfl⟩
  · obtain ⟨fiber, rest, hr⟩ := List.exists_cons_of_ne_nil hr
    simp [switchToFront, hr, switchToFiber, log] at h

/-- Where somebody is ready, somebody runs after the switch to the front of the ready list. -/
theorem switchToFront_active {self : Scheduler} (h : self.readyFiberList ≠ []) :
    self.switchToFront.activeFiber ≠ none := by
  obtain ⟨fiber, rest, hr⟩ := List.exists_cons_of_ne_nil h
  simp [switchToFront, hr, switchToFiber, log]

/-- Adding a fiber never makes one dead: where the dead list is empty, it stays empty. -/
theorem addFiber_dead {self : Scheduler} (h : self.deadFiberList = []) (function argument : ℕ)
    (region : Option FiberId) :
    (self.addFiber function argument region).1.deadFiberList = [] := by
  rcases region with _ | fiber <;> simp [addFiber, takeFiber, h, log]

end Scheduler

namespace Scheduler

variable {self : Scheduler}

/-- After a yield somebody runs, if only the fiber that yielded. -/
theorem yieldCurrentFiber_active (h : self.activeFiber ≠ none) :
    self.yieldCurrentFiber.activeFiber ≠ none := by
  obtain ⟨active, ha⟩ := Option.ne_none_iff_exists'.mp h
  unfold yieldCurrentFiber
  simp only [ha]
  split_ifs
  · rw [ha]
    exact Option.some_ne_none _
  · exact switchToFront_active (by simp [log])

/-- After a fiber has been added to run at once somebody runs, also where there was no memory for
it. -/
theorem addAndRunFiber_active (h : self.activeFiber ≠ none) (function argument : ℕ)
    (region : Option FiberId) :
    (self.addAndRunFiber function argument region).1.activeFiber ≠ none := by
  obtain ⟨active, ha⟩ := Option.ne_none_iff_exists'.mp h
  have hact := addFiber_activeFiber self function argument region
  unfold addAndRunFiber
  rcases hres : self.addFiber function argument region with ⟨added, _ | _⟩
  · rw [hres] at hact
    simpa [ha, hres] using hact.trans_ne h
  · have hback : (active :: added.readyFiberList).getLast? =
        some ((active :: added.readyFiberList).getLast (List.cons_ne_nil _ _)) :=
      List.getLast?_eq_getLast_of_ne_nil _
    simp [ha, log, saveContext, hback, switchToFiber]

/-- A fiber that suspends leaves someone on the processor or two empty lists. -/
theorem suspendCurrentFiber_idle (h : self.activeFiber ≠ none)
    (hidle : self.suspendCurrentFiber.activeFiber = none) :
    self.suspendCurrentFiber.readyFiberList = [] ∧ self.suspendCurrentFiber.deadFiberList = [] := by
  obtain ⟨active, ha⟩ := Option.ne_none_iff_exists'.mp h
  rw [suspendCurrentFiber_eq ha] at hidle ⊢
  exact switchAway_idle hidle

/-- A fiber that exits leaves someone on the processor or two empty lists. -/
theorem exitCurrentFiber_idle (h : self.activeFiber ≠ none)
    (hidle : self.exitCurrentFiber.activeFiber = none) :
    self.exitCurrentFiber.readyFiberList = [] ∧ self.exitCurrentFiber.deadFiberList = [] := by
  obtain ⟨active, ha⟩ := Option.ne_none_iff_exists'.mp h
  rw [exitCurrentFiber_eq ha] at hidle ⊢
  exact switchAway_idle hidle

/-- **The end of a tick.** An operation after which nobody runs either found nobody running and
moved no dead fiber, or ended a tick with both lists empty. -/
theorem apply_idle {action : SchedulerAction} (hen : self.Enabled action)
    (hidle : (self.apply action).activeFiber = none) :
    (self.activeFiber = none ∧
        (self.deadFiberList = [] → (self.apply action).deadFiberList = []) ∧
        (action = .tick → self.readyFiberList = [] ∧ self.apply action = self)) ∨
      (self.apply action).readyFiberList = [] ∧ (self.apply action).deadFiberList = [] := by
  cases action with
  | addFiber function argument region =>
      refine .inl ⟨(addFiber_activeFiber self function argument region) ▸ hidle, ?_, nofun⟩
      exact fun hd => addFiber_dead hd function argument region
  | addAndRunFiber function argument region =>
      exact absurd hidle (addAndRunFiber_active hen.1 function argument region)
  | yieldCurrentFiber => exact absurd hidle (yieldCurrentFiber_active hen)
  | suspendCurrentFiber => exact .inr (suspendCurrentFiber_idle hen hidle)
  | resumeFiber fiber => exact .inl ⟨hidle, id, nofun⟩
  | unresumeFiber fiber => exact .inl ⟨hidle, id, nofun⟩
  | exitCurrentFiber => exact .inr (exitCurrentFiber_idle hen hidle)
  | tick =>
      by_cases hr : self.readyFiberList = []
      · have htick : self.tick = self := by simp [tick, hr]
        exact .inl ⟨hen, fun hd => by rwa [apply, htick], fun _ => ⟨hr, htick⟩⟩
      · have htick : self.tick =
          { self with context := some self.history.length }.switchToFront := by
          simp [tick, hr]
        rw [apply, htick] at hidle
        exact absurd hidle (switchToFront_active hr)

end Scheduler

/-- The dead list is empty whenever no fiber runs, since the dead fibers are freed when the
processor goes back to the tick. -/
theorem dead_eq_nil_of_idle {self : Scheduler} (h : schedulerSystem.Reachable self) :
    self.activeFiber = none → self.deadFiberList = [] := by
  refine StepSystem.ReachableWhen.induct (I := fun s => s.activeFiber = none → s.deadFiberList = [])
    ?_ ?_ h
  · rintro _ ⟨fibers, rfl⟩ -
    rfl
  · rintro s action s' - hs - hstep hidle
    obtain ⟨hen, rfl⟩ := schedulerSystem_step hstep
    rcases Scheduler.apply_idle hen hidle with ⟨hwas, hkeep, -⟩ | ⟨-, hd⟩
    · exact hkeep (hs hwas)
    · exact hd

/-! ## The accounting of a reachable scheduler -/

/-- The states an allocated fiber is in. -/
inductive FiberState
  | active
  | ready
  | suspended
  | dead

/-- What it is to be in a state: to be the running fiber, to be in the ready list once, to be in the
dead list once, or to be none of these. -/
def Scheduler.InState (self : Scheduler) (fiber : FiberId) : FiberState → Prop
  | .active => self.activeFiber = some fiber
  | .ready => self.readyFiberList.count fiber = 1
  | .suspended => self.activeFiber ≠ some fiber ∧ fiber ∉ self.readyFiberList ∧
      fiber ∉ self.deadFiberList
  | .dead => self.deadFiberList.count fiber = 1

/-- The events that set up, enter or leave a fiber. -/
def FiberEvent.IsSwitch : FiberEvent → Bool
  | .added | .dispatched _ | .requeued _ | .suspended _ => true
  | _ => false

/-- The latest event that set up, entered or left the fiber. -/
def latestSwitch (fiber : FiberId) : List (FiberId × FiberEvent) → Option FiberEvent
  | [] => none
  | (other, event) :: history =>
    if other = fiber ∧ event.IsSwitch then some event else latestSwitch fiber history

/-- The context the latest switch of a fiber accounts for: none if it has not run since it was
added, the one it saved if it has left the processor since. -/
def FiberEvent.SavedBy (fiber : FiberId) (context : Option JmpBuf) : Option FiberEvent → Prop
  | some .added => context = none
  | some (.requeued number) | some (.suspended number) => context = some ⟨fiber, number⟩
  | _ => False

/-- **The accounting of the fibers in a state.** -/
structure FiberAccounting (s : Scheduler) : Prop where
  /-- Each allocated fiber is in exactly one state. -/
  state : ∀ fiber ∈ s.regions, ∃! state, s.InState fiber state
  /-- Only allocated fibers run or are listed. -/
  listed : ∀ fiber, s.activeFiber = some fiber ∨ fiber ∈ s.readyFiberList ∨
    fiber ∈ s.deadFiberList → fiber ∈ s.regions
  /-- No fiber is listed twice. -/
  nodup : s.readyFiberList.Nodup ∧ s.deadFiberList.Nodup
  /-- The counter counts the allocated fibers that are not dead: the active, the ready and the
  suspended ones. -/
  count : s.fiberCount = (s.regions.filter fun fiber => fiber ∉ s.deadFiberList).card
  /-- A ready or suspended fiber has no context and has not run since it was added, or has the
  context it saved, on its own stack, when it last left the processor. -/
  context : ∀ fiber, fiber ∈ s.readyFiberList ∨ s.Suspended fiber →
    FiberEvent.SavedBy fiber (s.fibers fiber).context (latestSwitch fiber s.history)
  /-- A fiber that was freed was dead at the time. -/
  freed : ∀ fiber newer older, s.history = newer ++ (fiber, .freed) :: older →
    replay fiber older = some .dead
  /-- A fiber that was set up came fresh from `malloc` or was dead at the time. -/
  reused : ∀ fiber newer older, s.history = newer ++ (fiber, .added) :: older →
    replay fiber older = some .allocated ∨ replay fiber older = some .dead
  /-- Each region obtained is freed exactly once, or is still there and has not been. -/
  freed_once : ∀ fiber, s.history.count (fiber, .allocated) =
    s.history.count (fiber, .freed) + if fiber ∈ s.regions then 1 else 0

/-! ## Reading a history back -/

variable {fiber : FiberId}

/-- The ten moves of the life cycle: each kind of event is possible in certain phases only, and
leads to one. -/
theorem FiberEvent.next_cases {event : FiberEvent} {before after : FiberPhase}
    (h : event.next fiber before = some after) :
    (event = .allocated ∧ before = .unallocated ∧ after = .allocated) ∨
    (event = .added ∧ (before = .allocated ∨ before = .dead) ∧ after = .ready none) ∨
    (∃ context, event = .dispatched context ∧ before = .ready context ∧ after = .active) ∨
    (∃ number, event = .requeued number ∧ before = .active ∧
      after = .ready (some ⟨fiber, number⟩)) ∨
    (∃ number, event = .suspended number ∧ before = .active ∧
      after = .suspended (some ⟨fiber, number⟩)) ∨
    (∃ context, event = .resumed ∧ before = .suspended context ∧ after = .ready context) ∨
    (∃ context, event = .unresumed ∧ before = .ready context ∧ after = .suspended context) ∨
    (event = .exited ∧ before = .active ∧ after = .dead) ∨
    (event = .freed ∧ before = .dead ∧ after = .unallocated) := by
  unfold FiberEvent.next at h
  split at h
  · cases h
    exact .inl ⟨rfl, rfl, rfl⟩
  · cases h
    exact .inr (.inl ⟨rfl, .inl rfl, rfl⟩)
  · cases h
    exact .inr (.inl ⟨rfl, .inr rfl, rfl⟩)
  · split_ifs at h with hcontext
    cases h
    exact .inr (.inr (.inl ⟨_, rfl, congrArg _ hcontext.symm, rfl⟩))
  · cases h
    exact .inr (.inr (.inr (.inl ⟨_, rfl, rfl, rfl⟩)))
  · cases h
    exact .inr (.inr (.inr (.inr (.inl ⟨_, rfl, rfl, rfl⟩))))
  · cases h
    exact .inr (.inr (.inr (.inr (.inr (.inl ⟨_, rfl, rfl, rfl⟩)))))
  · cases h
    exact .inr (.inr (.inr (.inr (.inr (.inr (.inl ⟨_, rfl, rfl, rfl⟩))))))
  · cases h
    exact .inr (.inr (.inr (.inr (.inr (.inr (.inr (.inl ⟨rfl, rfl, rfl⟩)))))))
  · cases h
    exact .inr (.inr (.inr (.inr (.inr (.inr (.inr (.inr ⟨rfl, rfl, rfl⟩)))))))
  · cases h

/-- A history that keeps to the life cycle kept to it at every earlier time. -/
theorem replay_of_append {newer older : List (FiberId × FiberEvent)} {phase : FiberPhase}
    (h : replay fiber (newer ++ older) = some phase) :
    ∃ phase', replay fiber older = some phase' := by
  induction newer generalizing phase with
  | nil => exact ⟨phase, h⟩
  | cons entry newer ih =>
      obtain ⟨other, event⟩ := entry
      simp only [List.cons_append, replay] at h
      split_ifs at h
      · obtain ⟨phase', h', -⟩ := Option.bind_eq_some_iff.mp h
        exact ih h'
      · exact ih h

/-- The phase in which an event found the fiber is the one that replaying what happened before
gives, and the event was possible in it. -/
theorem replay_before {newer older : List (FiberId × FiberEvent)} {event : FiberEvent}
    {phase : FiberPhase} (h : replay fiber (newer ++ (fiber, event) :: older) = some phase) :
    ∃ before after, replay fiber older = some before ∧ event.next fiber before = some after := by
  obtain ⟨after, hafter⟩ := replay_of_append h
  simp only [replay, if_true] at hafter
  obtain ⟨before, hbefore, hnext⟩ := Option.bind_eq_some_iff.mp hafter
  exact ⟨before, after, hbefore, hnext⟩

/-- The context a ready or suspended fiber would be entered through is the one its latest switch
accounts for. -/
theorem savedBy_of_replay {history : List (FiberId × FiberEvent)} {phase : FiberPhase}
    (h : replay fiber history = some phase) {context : Option JmpBuf}
    (hp : phase = .ready context ∨ phase = .suspended context) :
    FiberEvent.SavedBy fiber context (latestSwitch fiber history) := by
  induction history generalizing phase with
  | nil => cases h; simp at hp
  | cons entry history ih =>
      obtain ⟨other, event⟩ := entry
      simp only [replay, latestSwitch] at h ⊢
      by_cases ho : other = fiber
      · simp only [ho, if_true, true_and] at h ⊢
        obtain ⟨before, hbefore, hnext⟩ := Option.bind_eq_some_iff.mp h
        -- a resume or an unresume keeps the context, the switches set it
        rcases FiberEvent.next_cases hnext with ⟨rfl, -, rfl⟩ | ⟨rfl, -, rfl⟩ | ⟨_, rfl, -, rfl⟩ |
          ⟨_, rfl, -, rfl⟩ | ⟨_, rfl, -, rfl⟩ | ⟨_, rfl, rfl, rfl⟩ | ⟨_, rfl, rfl, rfl⟩ |
          ⟨rfl, -, rfl⟩ | ⟨rfl, -, rfl⟩ <;> simp at hp
        case inr.inr.inr.inr.inr.inl => exact ih hbefore (.inr (by rw [hp]))
        case inr.inr.inr.inr.inr.inr.inl => exact ih hbefore (.inl (by rw [hp]))
        all_goals simp [FiberEvent.IsSwitch, FiberEvent.SavedBy, ← hp]
      · simp only [ho, if_false, false_and] at h ⊢
        exact ih h hp

/-- Allocations and frees of a region alternate: the first ones are as many as the second, or one
more while the fiber has its region. -/
theorem count_allocated {history : List (FiberId × FiberEvent)} {phase : FiberPhase}
    (h : replay fiber history = some phase) :
    history.count (fiber, .allocated) =
      history.count (fiber, .freed) + if phase = .unallocated then 0 else 1 := by
  induction history generalizing phase with
  | nil => cases h; rfl
  | cons entry history ih =>
      obtain ⟨other, event⟩ := entry
      simp only [replay] at h
      by_cases ho : other = fiber
      · simp only [ho, if_true] at h
        obtain ⟨before, hbefore, hnext⟩ := Option.bind_eq_some_iff.mp h
        have hcount := ih hbefore
        rcases FiberEvent.next_cases hnext with ⟨rfl, rfl, rfl⟩ | ⟨rfl, rfl | rfl, rfl⟩ |
          ⟨_, rfl, rfl, rfl⟩ | ⟨_, rfl, rfl, rfl⟩ | ⟨_, rfl, rfl, rfl⟩ | ⟨_, rfl, rfl, rfl⟩ |
          ⟨_, rfl, rfl, rfl⟩ | ⟨rfl, rfl, rfl⟩ | ⟨rfl, rfl, rfl⟩ <;>
          simpa [ho, List.count_cons] using hcount
      · simp only [ho, if_false] at h
        simpa [List.count_cons, ho] using ih h

/-! ## The main result -/

/-- In a list without repetitions, to occur once is to occur. -/
theorem count_eq_one_iff {l : List FiberId} (h : l.Nodup) (fiber : FiberId) :
    l.count fiber = 1 ↔ fiber ∈ l :=
  ⟨fun hc => List.count_pos_iff.mp (by omega), List.count_eq_one_of_mem h⟩

/-- The four states exclude each other and leave nothing out: a fiber is in exactly one of them. -/
theorem Accounted.existsUnique_inState {s : Scheduler} (h : Accounted s) (fiber : FiberId) :
    ∃! state, s.InState fiber state := by
  have hr := count_eq_one_iff h.ready_nodup fiber
  have hd := count_eq_one_iff h.dead_nodup fiber
  by_cases ha : s.activeFiber = some fiber
  · refine ⟨.active, ha, fun state hstate => ?_⟩
    cases state with
    | active => rfl
    | ready => exact absurd (hr.mp hstate) (h.active_not_ready fiber ha)
    | suspended => exact absurd ha hstate.1
    | dead => exact absurd (hd.mp hstate) (h.active_not_dead fiber ha)
  · by_cases hmr : fiber ∈ s.readyFiberList
    · refine ⟨.ready, hr.mpr hmr, fun state hstate => ?_⟩
      cases state with
      | active => exact absurd hstate ha
      | ready => rfl
      | suspended => exact absurd hmr hstate.2.1
      | dead => exact absurd (hd.mp hstate) (h.ready_not_dead fiber hmr)
    · by_cases hmd : fiber ∈ s.deadFiberList
      · refine ⟨.dead, hd.mpr hmd, fun state hstate => ?_⟩
        cases state with
        | active => exact absurd hstate ha
        | ready => exact absurd (hr.mp hstate) hmr
        | suspended => exact absurd hmd hstate.2.2
        | dead => rfl
      · refine ⟨.suspended, ⟨ha, hmr, hmd⟩, fun state hstate => ?_⟩
        cases state with
        | active => exact absurd hstate ha
        | ready => exact absurd (hr.mp hstate) hmr
        | suspended => rfl
        | dead => exact absurd (hd.mp hstate) hmd

/-- A fiber is unallocated in the eyes of the lists exactly where it has no region. -/
theorem Accounted.phase_eq_unallocated_iff {s : Scheduler} (h : Accounted s) (fiber : FiberId) :
    s.phase fiber = .unallocated ↔ fiber ∉ s.regions := by
  unfold Scheduler.phase
  split_ifs with ha hr hd hregion
  · exact iff_of_false nofun (not_not_intro (h.active_region fiber ha))
  · exact iff_of_false nofun (not_not_intro (h.ready_region fiber hr))
  · exact iff_of_false nofun (not_not_intro (h.dead_region fiber hd))
  · exact iff_of_false nofun (not_not_intro hregion)
  · exact iff_of_true rfl hregion

/-- **What the books tell** of each fiber: it is in one of four states, it is counted until it
exits, it goes on where it was left, and its region is freed or used again only when it is dead. -/
theorem Accounted.fiberAccounting {s : Scheduler} (h : Accounted s) : FiberAccounting s where
  state := fun fiber _ => h.existsUnique_inState fiber
  listed := by
    rintro fiber (ha | hr | hd)
    · exact h.active_region fiber ha
    · exact h.ready_region fiber hr
    · exact h.dead_region fiber hd
  nodup := ⟨h.ready_nodup, h.dead_nodup⟩
  count := by
    have hsub : s.deadFiberList.toFinset ⊆ s.regions := fun g hg =>
      h.dead_region g (List.mem_toFinset.mp hg)
    have hset : (s.regions.filter fun fiber => fiber ∉ s.deadFiberList) =
        s.regions \ s.deadFiberList.toFinset := by
      ext g
      simp
    have hle := Finset.card_le_card hsub
    have := h.count
    rw [hset, Finset.card_sdiff_of_subset hsub, List.toFinset_card_of_nodup h.dead_nodup]
    rw [List.toFinset_card_of_nodup h.dead_nodup] at hle
    omega
  context := by
    rintro fiber (hr | ⟨hm, ha, hr, hd⟩)
    · have ha : s.activeFiber ≠ some fiber := fun ha => h.active_not_ready fiber ha hr
      exact savedBy_of_replay (h.history fiber) (.inl (by simp [Scheduler.phase, ha, hr]))
    · exact savedBy_of_replay (h.history fiber) (.inr (by simp [Scheduler.phase, ha, hr, hd, hm]))
  freed := by
    intro fiber newer older hh
    obtain ⟨before, after, hbefore, hnext⟩ := replay_before (hh ▸ h.history fiber)
    have hdead : before = .dead ∧ after = .unallocated := by simpa using FiberEvent.next_cases hnext
    rw [hbefore, hdead.1]
  reused := by
    intro fiber newer older hh
    obtain ⟨before, after, hbefore, hnext⟩ := replay_before (hh ▸ h.history fiber)
    have hfrom : (before = .allocated ∨ before = .dead) ∧ after = .ready none := by
      simpa using FiberEvent.next_cases hnext
    rw [hbefore]
    exact hfrom.1.imp (congrArg some) (congrArg some)
  freed_once := by
    intro fiber
    simp only [count_allocated (h.history fiber), h.phase_eq_unallocated_iff, ite_not]

/-- **Fiber accounting.** In every state the scheduler reaches, the fibers are accounted for; a
failed add changes nothing; and a step in which `Scheduler_Tick` returns leaves both lists empty and
no fiber running. -/
theorem fiber_accounting {s : Scheduler} (h : schedulerSystem.Reachable s) :
    FiberAccounting s ∧
    (∀ function argument region, (s.addFiber function argument region).2 = false →
      (s.addFiber function argument region).1 = s) ∧
    (∀ function argument region, (s.addAndRunFiber function argument region).2 = false →
      (s.addAndRunFiber function argument region).1 = s) ∧
    (∀ action next, schedulerSystem.step s action = some next → TickReturns s action next →
      next.readyFiberList = [] ∧ next.deadFiberList = [] ∧ next.activeFiber = none) := by
  refine ⟨(accounted_of_reachable h).fiberAccounting, fun _ _ _ => Scheduler.addFiber_failed,
    fun _ _ _ => Scheduler.addAndRunFiber_failed, ?_⟩
  intro action next hstep ⟨hidle, hreturns⟩
  obtain ⟨hen, rfl⟩ := schedulerSystem_step hstep
  rcases Scheduler.apply_idle hen hidle with ⟨hwas, -, htick⟩ | ⟨hr, hd⟩
  · rcases hreturns with rfl | hran
    · obtain ⟨hr, hsame⟩ := htick rfl
      rw [hsame]
      exact ⟨hr, dead_eq_nil_of_idle h hwas, hwas⟩
    · exact absurd hwas hran
  · exact ⟨hr, hd, hidle⟩

/-- Two fibers: the first adds and runs a second, which suspends itself; the first resumes it and
exits, and the second, still alive, exits into the same tick, which frees both regions. -/
def twoFibers : List SchedulerAction :=
  [.addFiber 7 0 (some 1), .tick, .addAndRunFiber 8 0 (some 2), .suspendCurrentFiber,
    .resumeFiber 2, .exitCurrentFiber, .exitCurrentFiber]

/-- Two fibers exit into the same tick, one of them from a suspension that the other has ended; each
region has been freed once. -/
theorem fiber_accounting_twoFibers :
    ∃ s, schedulerSystem.run (.init fun _ => ⟨none, 0, 0⟩) twoFibers = some s ∧
      s.history.count (2, .freed) = 1 ∧ FiberAccounting s := by
  refine ⟨_, rfl, by decide, ?_⟩
  exact (fiber_accounting (StepSystem.reachable_of_run ⟨fun _ => ⟨none, 0, 0⟩, rfl⟩
    (rfl : schedulerSystem.run (.init fun _ => ⟨none, 0, 0⟩) twoFibers = some _))).1

end Pixy.Sched
