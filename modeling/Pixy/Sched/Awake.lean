import Pixy.Sched.Accounting

/-!
# What the users of the scheduler see of it

A blocking primitive does not care where in the ready list a fiber is. It needs two sets: the fibers
that are *awake* (running or ready) and those that are *live* (allocated and not dead). This file
says what each operation does to them, in one lemma an operation; the proofs about semaphores,
events and the event loop use these and never look into the scheduler again.
-/

namespace Pixy.Sched

namespace Scheduler

/-- Running or ready. -/
def Awake (self : Scheduler) (fiber : FiberId) : Prop :=
  self.activeFiber = some fiber ∨ fiber ∈ self.readyFiberList

/-- Allocated and not dead. -/
def Live (self : Scheduler) (fiber : FiberId) : Prop :=
  fiber ∈ self.regions ∧ fiber ∉ self.deadFiberList

instance (self : Scheduler) (fiber : FiberId) : Decidable (self.Awake fiber) :=
  inferInstanceAs (Decidable (_ ∨ _))

instance (self : Scheduler) (fiber : FiberId) : Decidable (self.Live fiber) :=
  inferInstanceAs (Decidable (_ ∧ _))

variable {self : Scheduler} {fiber other : FiberId}

/-- A fiber is suspended when it is live and not awake. -/
theorem suspended_iff : self.Suspended fiber ↔ self.Live fiber ∧ ¬ self.Awake fiber := by
  unfold Suspended Live Awake
  tauto

/-- An awake fiber that does not run is ready, as those are the two ways of being awake. -/
theorem Awake.mem_ready (h : self.Awake fiber) (ha : self.activeFiber ≠ some fiber) :
    fiber ∈ self.readyFiberList :=
  h.resolve_left ha

/-! ## Handing over the processor -/

/-- When the front fiber is entered, awake are those who were ready: the one that runs then and the
rest of the list. -/
theorem awake_switchToFront (h : self.readyFiberList ≠ []) :
    self.switchToFront.Awake other ↔ other ∈ self.readyFiberList := by
  obtain ⟨fiber, rest, hr⟩ := List.exists_cons_of_ne_nil h
  simp [Awake, switchToFront, switchToFiber, log, hr, eq_comm]

/-- Entering the fiber at the front of the ready list kills nobody and creates nobody. -/
theorem live_switchToFront : self.switchToFront.Live other ↔ self.Live other := by
  unfold switchToFront
  rcases self.readyFiberList.head? with _ | fiber <;> rfl

/-- Whoever leaves the processor, exactly the ready fibers are awake afterwards, one of them
running. -/
theorem awake_switchAway : self.switchAway.Awake other ↔ other ∈ self.readyFiberList := by
  unfold switchAway
  split_ifs with hr
  · simp [Awake, switchTo, freeDeadFibers, hr]
  · exact awake_switchToFront hr

/-- Switching away kills nobody; what it may free is dead already. -/
theorem live_switchAway : self.switchAway.Live other ↔ self.Live other := by
  unfold switchAway
  split_ifs with hr
  · simp [Live, switchTo, freeDeadFibers]
  · exact live_switchToFront

end Scheduler

namespace Accounted

open Scheduler

variable {self : Scheduler} {fiber other : FiberId}

/-- Who runs or is ready is allocated and not dead, so an awake fiber is alive. -/
theorem live_of_awake (h : Accounted self) (ha : self.Awake fiber) : self.Live fiber := by
  rcases ha with ha | hr
  · exact ⟨h.active_region fiber ha, h.active_not_dead fiber ha⟩
  · exact ⟨h.ready_region fiber hr, h.ready_not_dead fiber hr⟩

/-- The ready fibers are those that are awake and not running, as no fiber is both. -/
theorem mem_ready_iff (h : Accounted self) (ha : self.activeFiber = some fiber) :
    other ∈ self.readyFiberList ↔ other ≠ fiber ∧ self.Awake other := by
  have := h.active_not_ready fiber ha
  unfold Awake
  rw [ha]
  constructor
  · exact fun hr => ⟨fun he => this (he ▸ hr), .inr hr⟩
  · rintro ⟨hne, he | hr⟩
    · exact absurd (Option.some.inj he).symm hne
    · exact hr

/-! ## The operations of the running fiber -/

/-- After a suspension all are awake who were, but for the fiber that suspended itself. -/
theorem awake_suspendCurrentFiber (h : Accounted self) (ha : self.activeFiber = some fiber) :
    self.suspendCurrentFiber.Awake other ↔ other ≠ fiber ∧ self.Awake other := by
  rw [suspendCurrentFiber_eq ha, awake_switchAway, ← h.mem_ready_iff ha]
  rfl

/-- A fiber that suspends itself stays alive, and so do all others. -/
theorem live_suspendCurrentFiber (ha : self.activeFiber = some fiber) :
    self.suspendCurrentFiber.Live other ↔ self.Live other := by
  rw [suspendCurrentFiber_eq ha, live_switchAway]
  rfl

/-- After an exit all are awake who were, but for the fiber that exited. -/
theorem awake_exitCurrentFiber (h : Accounted self) (ha : self.activeFiber = some fiber) :
    self.exitCurrentFiber.Awake other ↔ other ≠ fiber ∧ self.Awake other := by
  rw [exitCurrentFiber_eq ha, awake_switchAway, ← h.mem_ready_iff ha]
  rfl

/-- After an exit all are alive who were, but for the fiber that exited. -/
theorem live_exitCurrentFiber (ha : self.activeFiber = some fiber) :
    self.exitCurrentFiber.Live other ↔ other ≠ fiber ∧ self.Live other := by
  rw [exitCurrentFiber_eq ha, live_switchAway]
  simp only [Live, log, List.mem_append, List.mem_singleton]
  tauto

/-- A yield puts nobody to sleep and wakes nobody: who ran is ready and who was in front runs. -/
theorem awake_yieldCurrentFiber : self.yieldCurrentFiber.Awake other ↔ self.Awake other := by
  unfold Scheduler.yieldCurrentFiber
  rcases ha : self.activeFiber with _ | active
  · rfl
  · dsimp only
    split_ifs
    · rfl
    · rw [awake_switchToFront (by simp [log])]
      simp [Awake, log, saveContext, ha, or_comm, eq_comm]

/-- A yield kills nobody and creates nobody, so the fibers alive are the same before and after it.
-/
theorem live_yieldCurrentFiber : self.yieldCurrentFiber.Live other ↔ self.Live other := by
  unfold Scheduler.yieldCurrentFiber
  rcases ha : self.activeFiber with _ | active
  · rfl
  · dsimp only
    split_ifs
    · rfl
    · rw [live_switchToFront]
      rfl

/-! ## The operations on other fibers -/

/-- A resumed fiber is awake, and all others are as awake as they were before. -/
theorem awake_resumeFiber :
    (self.resumeFiber fiber).Awake other ↔ other = fiber ∨ self.Awake other := by
  simp only [Awake, resumeFiber, log, List.mem_append, List.mem_singleton]
  tauto

/-- To resume a fiber kills nobody and creates nobody, as it only links the fiber into the ready
list. -/
theorem live_resumeFiber : (self.resumeFiber fiber).Live other ↔ self.Live other := .rfl

/-- A ready fiber that is taken back is asleep, and all others as before. -/
theorem awake_unresumeFiber (h : Accounted self) (hr : fiber ∈ self.readyFiberList) :
    (self.unresumeFiber fiber).Awake other ↔ other ≠ fiber ∧ self.Awake other := by
  have ha : self.activeFiber ≠ some fiber := fun ha => h.active_not_ready fiber ha hr
  simp only [Awake, unresumeFiber, log, h.ready_nodup.mem_erase_iff]
  constructor
  · rintro (he | ⟨hne, hr⟩)
    · exact ⟨fun hf => ha (hf ▸ he), .inl he⟩
    · exact ⟨hne, .inr hr⟩
  · rintro ⟨hne, he | hr⟩
    · exact .inl he
    · exact .inr ⟨hne, hr⟩

/-- To take a resumed fiber back kills nobody and creates nobody, as it only unlinks the fiber. -/
theorem live_unresumeFiber : (self.unresumeFiber fiber).Live other ↔ self.Live other := .rfl

/-! ## The operations that create fibers, and the tick -/

/-- What a successful add does: one fiber that was not live is live and awake. -/
structure Adds (s next : Scheduler) (fiber : FiberId) : Prop where
  /-- The fiber is new. -/
  not_live : ¬ s.Live fiber
  /-- It is awake, and nobody else wakes or falls asleep. -/
  awake : ∀ other, next.Awake other ↔ other = fiber ∨ s.Awake other
  /-- It is live, and nobody else comes to life or dies. -/
  live : ∀ other, next.Live other ↔ other = fiber ∨ s.Live other

/-- Where there is memory for it, `Scheduler_AddFiber` adds one fiber that is ready. -/
theorem adds_addFiber (h : Accounted self) (function argument : ℕ) {region : Option FiberId}
    (hfresh : self.Fresh region) (hok : (self.addFiber function argument region).2 = true) :
    ∃ fiber, Adds self (self.addFiber function argument region).1 fiber := by
  unfold Scheduler.addFiber takeFiber at hok ⊢
  rcases hback : self.deadFiberList.getLast? with _ | fiber
  · rcases region with _ | fiber
    · simp [hback] at hok
    · have hnew : fiber ∉ self.regions := hfresh fiber rfl
      have hd : fiber ∉ self.deadFiberList := fun hd => hnew (h.dead_region fiber hd)
      refine ⟨fiber, fun hl => hnew hl.1, fun other => ?_, fun other => ?_⟩
      · simp only [Awake, log, List.mem_append, List.mem_singleton]
        tauto
      · by_cases ho : other = fiber <;> simp [Live, log, ho, hd]
  · have hmem : fiber ∈ self.deadFiberList := List.mem_of_getLast? hback
    refine ⟨fiber, fun hl => hl.2 hmem, fun other => ?_, fun other => ?_⟩
    · simp only [Awake, log, List.mem_append, List.mem_singleton]
      tauto
    · by_cases ho : other = fiber
      · simp [Live, log, ho, h.dead_region fiber hmem, h.dead_nodup.mem_erase_iff]
      · simp [Live, log, ho, h.dead_nodup.mem_erase_iff]

/-- Where there is memory for it, `Scheduler_AddAndRunFiber` adds one fiber that runs, and the
caller stays awake. -/
theorem adds_addAndRunFiber (h : Accounted self) {function argument : ℕ}
    {region : Option FiberId} (hfresh : self.Fresh region)
    (hok : (self.addAndRunFiber function argument region).2 = true) :
    ∃ fiber, Adds self (self.addAndRunFiber function argument region).1 fiber := by
  unfold Scheduler.addAndRunFiber at hok ⊢
  rcases ha : self.activeFiber with _ | active
  · simp [ha] at hok
  · rcases hres : self.addFiber function argument region with ⟨added, _ | _⟩
    · simp [ha, hres] at hok
    · obtain ⟨fiber, hadds⟩ := h.adds_addFiber function argument hfresh (by rw [hres])
      have hacc := h.add function argument hfresh
      have hact := addFiber_activeFiber self function argument region
      rw [hres] at hadds hacc hact
      have hact : added.activeFiber = some active := hact.trans ha
      -- the switch turns the two ends of the list round, which the set of awake fibers forgets
      have hback : (active :: added.readyFiberList).getLast? =
          some ((active :: added.readyFiberList).getLast (List.cons_ne_nil _ _)) :=
        List.getLast?_eq_getLast_of_ne_nil _
      have hmem := List.mem_of_getLast? hback
      refine ⟨fiber, hadds.not_live, fun other => ?_, fun other => ?_⟩
      · rw [← hadds.awake other]
        have hn : (active :: added.readyFiberList).Nodup :=
          List.nodup_cons.mpr ⟨hacc.active_not_ready active hact, hacc.ready_nodup⟩
        simp only [log, saveContext, hback, switchToFiber, Awake, hn.mem_erase_iff, hact,
          Option.some.injEq, List.mem_cons]
        constructor
        · rintro (rfl | ⟨-, h⟩)
          · exact (List.mem_cons.mp hmem).imp Eq.symm id
          · exact h.imp Eq.symm id
        · intro h
          by_cases ho : (active :: added.readyFiberList).getLast (List.cons_ne_nil _ _) = other
          · exact .inl ho
          · exact .inr ⟨Ne.symm ho, h.imp Eq.symm id⟩
      · rw [← hadds.live other]
        simp only [log, saveContext, hback]
        rfl

/-- A tick puts nobody to sleep and wakes nobody: it lets a ready fiber run, if there is one. -/
theorem awake_tick (hidle : self.activeFiber = none) :
    self.tick.Awake other ↔ self.Awake other := by
  unfold Scheduler.tick
  split_ifs with hr
  · rfl
  · rw [awake_switchToFront (by exact hr)]
    simp [Awake, hidle]

/-- A tick kills nobody and creates nobody: it dispatches one of the ready fibers, if there is any.
-/
theorem live_tick : self.tick.Live other ↔ self.Live other := by
  unfold Scheduler.tick
  split_ifs
  · rfl
  · rw [live_switchToFront]
    rfl

/-! ## Fibers an operation is not about -/

/-- **Frame.** A live fiber that does not run, and that the call does not resume or unresume, stays
live, and awake or asleep as it was. -/
theorem apply_frame (h : Accounted self) {action : SchedulerAction} (hen : self.Enabled action)
    (hlive : self.Live fiber) (hrun : self.activeFiber ≠ some fiber)
    (hresume : action ≠ .resumeFiber fiber) (hunresume : action ≠ .unresumeFiber fiber) :
    (self.apply action).Live fiber ∧ ((self.apply action).Awake fiber ↔ self.Awake fiber) := by
  have hadds : ∀ {next new}, Adds self next new →
      next.Live fiber ∧ (next.Awake fiber ↔ self.Awake fiber) := fun {next new} hadds => by
    have hne : fiber ≠ new := fun he => hadds.not_live (he ▸ hlive)
    rw [hadds.live, hadds.awake]
    simp [hne, hlive]
  cases action with
  | addFiber function argument region =>
      rcases hok : (self.addFiber function argument region).2
      · rw [Scheduler.apply, addFiber_failed hok]
        exact ⟨hlive, .rfl⟩
      · obtain ⟨new, hnew⟩ := h.adds_addFiber function argument hen hok
        exact hadds hnew
  | addAndRunFiber function argument region =>
      rcases hok : (self.addAndRunFiber function argument region).2
      · rw [Scheduler.apply, addAndRunFiber_failed hok]
        exact ⟨hlive, .rfl⟩
      · obtain ⟨new, hnew⟩ := h.adds_addAndRunFiber hen.2 hok
        exact hadds hnew
  | yieldCurrentFiber => exact ⟨live_yieldCurrentFiber.mpr hlive, awake_yieldCurrentFiber⟩
  | suspendCurrentFiber =>
      obtain ⟨active, ha⟩ := Option.ne_none_iff_exists'.mp hen
      have hne : fiber ≠ active := fun he => hrun (he ▸ ha)
      rw [Scheduler.apply, live_suspendCurrentFiber ha, h.awake_suspendCurrentFiber ha]
      simp [hne, hlive]
  | resumeFiber other =>
      have hne : fiber ≠ other := fun he => hresume (he ▸ rfl)
      rw [Scheduler.apply, live_resumeFiber, awake_resumeFiber]
      simp [hne, hlive]
  | unresumeFiber other =>
      have hne : fiber ≠ other := fun he => hunresume (he ▸ rfl)
      rw [Scheduler.apply, live_unresumeFiber, h.awake_unresumeFiber hen]
      simp [hne, hlive]
  | exitCurrentFiber =>
      obtain ⟨active, ha⟩ := Option.ne_none_iff_exists'.mp hen
      have hne : fiber ≠ active := fun he => hrun (he ▸ ha)
      rw [Scheduler.apply, live_exitCurrentFiber ha, h.awake_exitCurrentFiber ha]
      simp [hne, hlive]
  | tick => exact ⟨live_tick.mpr hlive, awake_tick hen⟩

/-! ## Falling asleep and waking up -/

/-- The running fiber falls asleep, and no other: who is suspended afterwards is this fiber, or was
suspended before. -/
theorem suspended_suspendCurrentFiber (h : Accounted self) (ha : self.activeFiber = some fiber) :
    self.suspendCurrentFiber.Suspended other ↔ other = fiber ∨ self.Suspended other := by
  have hlive : self.Live fiber := h.live_of_awake (.inl ha)
  rw [suspended_iff, suspended_iff, live_suspendCurrentFiber ha, h.awake_suspendCurrentFiber ha]
  constructor
  · rintro ⟨hl, hnot⟩
    by_cases ho : other = fiber
    · exact .inl ho
    · exact .inr ⟨hl, fun hawake => hnot ⟨ho, hawake⟩⟩
  · rintro (rfl | ⟨hl, hnot⟩)
    · exact ⟨hlive, fun hawake => hawake.1 rfl⟩
    · exact ⟨hl, fun hawake => hnot hawake.2⟩

/-- The fiber passed wakes up, and no other: who is suspended afterwards was so before, and is
another fiber. -/
theorem suspended_resumeFiber :
    (self.resumeFiber fiber).Suspended other ↔ other ≠ fiber ∧ self.Suspended other := by
  rw [suspended_iff, suspended_iff, live_resumeFiber, awake_resumeFiber]
  tauto

/-- **Frame.** A call that is about the running fiber or a new one puts nobody to sleep and wakes
nobody. -/
theorem suspended_apply (h : Accounted self) {action : SchedulerAction} (hen : self.Enabled action)
    (hsuspend : action ≠ .suspendCurrentFiber) (hresume : ∀ f, action ≠ .resumeFiber f)
    (hunresume : ∀ f, action ≠ .unresumeFiber f) :
    (self.apply action).Suspended other ↔ self.Suspended other := by
  have hadds : ∀ {next new}, Adds self next new →
    (next.Suspended other ↔ self.Suspended other) := by
    intro next new hadds
    rw [suspended_iff, suspended_iff, hadds.live, hadds.awake]
    by_cases ho : other = new
    · simp [ho, hadds.not_live]
    · simp [ho]
  cases action with
  | addFiber function argument region =>
      rcases hok : (self.addFiber function argument region).2
      · rw [Scheduler.apply, addFiber_failed hok]
      · obtain ⟨new, hnew⟩ := h.adds_addFiber function argument hen hok
        exact hadds hnew
  | addAndRunFiber function argument region =>
      rcases hok : (self.addAndRunFiber function argument region).2
      · rw [Scheduler.apply, addAndRunFiber_failed hok]
      · obtain ⟨new, hnew⟩ := h.adds_addAndRunFiber hen.2 hok
        exact hadds hnew
  | yieldCurrentFiber =>
      rw [Scheduler.apply, suspended_iff, suspended_iff, live_yieldCurrentFiber,
        awake_yieldCurrentFiber]
  | suspendCurrentFiber => exact absurd rfl hsuspend
  | resumeFiber fiber => exact absurd rfl (hresume fiber)
  | unresumeFiber fiber => exact absurd rfl (hunresume fiber)
  | exitCurrentFiber =>
      obtain ⟨active, ha⟩ := Option.ne_none_iff_exists'.mp hen
      have hawake : self.Awake active := .inl ha
      rw [Scheduler.apply, suspended_iff, suspended_iff, live_exitCurrentFiber ha,
        h.awake_exitCurrentFiber ha]
      by_cases ho : other = active
      · simp [ho, hawake]
      · simp [ho]
  | tick => rw [Scheduler.apply, suspended_iff, suspended_iff, live_tick, awake_tick hen]

end Accounted

end Pixy.Sched
