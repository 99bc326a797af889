import Pixy.Sched.Scheduler

/-!
# Fiber accounting

`Accounted` is the scheduler's invariant: the two lists hold distinct fibers and share none, the
counter is right, and for every fiber the phase its history leads to is the phase the lists show.
Each operation is a few elementary moves (link, save and leave, dispatch, free); each move keeps
the invariant, and a fiber that leaves the processor is first taken off it (`vacate`), which the
switch that follows cannot tell (`switchAway_vacate`).
-/

namespace Pixy.Sched

open Pixy.Found

/-- **The scheduler's invariant.** -/
structure Accounted (s : Scheduler) : Prop where
  /-- No fiber is ready twice. -/
  ready_nodup : s.readyFiberList.Nodup
  /-- No fiber is dead twice. -/
  dead_nodup : s.deadFiberList.Nodup
  /-- No fiber is both ready and dead. -/
  ready_not_dead : ∀ fiber ∈ s.readyFiberList, fiber ∉ s.deadFiberList
  /-- The running fiber is not ready. -/
  active_not_ready : ∀ fiber, s.activeFiber = some fiber → fiber ∉ s.readyFiberList
  /-- The running fiber is not dead. -/
  active_not_dead : ∀ fiber, s.activeFiber = some fiber → fiber ∉ s.deadFiberList
  /-- The running fiber has its region. -/
  active_region : ∀ fiber, s.activeFiber = some fiber → fiber ∈ s.regions
  /-- Ready fibers have their regions. -/
  ready_region : ∀ fiber ∈ s.readyFiberList, fiber ∈ s.regions
  /-- Dead fibers still have their regions. -/
  dead_region : ∀ fiber ∈ s.deadFiberList, fiber ∈ s.regions
  /-- The counter counts the fibers that are not dead. -/
  count : s.fiberCount = s.regions.card - s.deadFiberList.length
  /-- The history of every fiber keeps to the life cycle and ends in the phase the lists show. -/
  history : ∀ fiber, replay fiber s.history = some (s.phase fiber)

/-! ## Small facts -/

namespace Scheduler

/-- The same state with nobody on the processor. -/
def vacate (self : Scheduler) : Scheduler := { self with activeFiber := none }

/-- `log` records an event and changes nothing else. -/
@[simp] theorem log_fields (self : Scheduler) (fiber : FiberId) (event : FiberEvent) :
    (self.log fiber event).activeFiber = self.activeFiber ∧
      (self.log fiber event).readyFiberList = self.readyFiberList ∧
      (self.log fiber event).deadFiberList = self.deadFiberList ∧
      (self.log fiber event).fiberCount = self.fiberCount ∧
      (self.log fiber event).regions = self.regions ∧
      (self.log fiber event).fibers = self.fibers ∧
      (self.log fiber event).history = (fiber, event) :: self.history :=
  ⟨rfl, rfl, rfl, rfl, rfl, rfl, rfl⟩

/-- Neither way of obtaining a fiber, a new one or a dead one, touches who is running. -/
theorem addFiber_activeFiber (self : Scheduler) (function argument : ℕ)
    (region : Option FiberId) :
    (self.addFiber function argument region).1.activeFiber = self.activeFiber := by
  unfold addFiber takeFiber
  rcases self.deadFiberList.getLast? with _ | fiber <;> rcases region with _ | fiber <;> rfl

/-- A failed `Scheduler_AddFiber` changes nothing: there was no dead fiber to use again, and
`malloc` gave no region. -/
theorem addFiber_failed {self : Scheduler} {function argument : ℕ} {region : Option FiberId}
    (h : (self.addFiber function argument region).2 = false) :
    (self.addFiber function argument region).1 = self := by
  unfold addFiber at h ⊢
  rcases hres : self.takeFiber region with _ | ⟨taken, fiber⟩
  · rfl
  · simp [hres] at h

/-- A failed `Scheduler_AddAndRunFiber` changes nothing, since it adds the fiber before anything
else. -/
theorem addAndRunFiber_failed {self : Scheduler} {function argument : ℕ} {region : Option FiberId}
    (h : (self.addAndRunFiber function argument region).2 = false) :
    (self.addAndRunFiber function argument region).1 = self := by
  unfold addAndRunFiber at h ⊢
  rcases ha : self.activeFiber with _ | active
  · rfl
  · rcases hres : self.addFiber function argument region with ⟨added, _ | _⟩
    · have : (self.addFiber function argument region).1 = self := addFiber_failed (by rw [hres])
      rwa [hres] at this
    · have hback : (active :: added.readyFiberList).getLast? =
          some ((active :: added.readyFiberList).getLast (List.cons_ne_nil _ _)) :=
        List.getLast?_eq_getLast_of_ne_nil _
      simp [ha, hres, log, saveContext, hback] at h

/-- A suspension in three parts: the context of the fiber is saved, the event is logged, and the
scheduler switches away. -/
theorem suspendCurrentFiber_eq {self : Scheduler} {active : FiberId}
    (ha : self.activeFiber = some active) :
    self.suspendCurrentFiber =
      ((self.saveContext active).log active (.suspended self.history.length)).switchAway := by
  simp only [suspendCurrentFiber, ha]

/-- An exit in three parts: the fiber becomes a dead one, the event is logged, and the scheduler
switches away. -/
theorem exitCurrentFiber_eq {self : Scheduler} {active : FiberId}
    (ha : self.activeFiber = some active) :
    self.exitCurrentFiber =
      ({ self with
          deadFiberList := self.deadFiberList ++ [active]
          fiberCount := self.fiberCount - 1 }.log active .exited).switchAway := by
  simp only [exitCurrentFiber, ha]

/-- Entering the front fiber overwrites who runs, so it does not matter whether the processor was
vacated before. -/
theorem switchToFront_vacate {self : Scheduler} (h : self.readyFiberList ≠ []) :
    self.vacate.switchToFront = self.switchToFront := by
  obtain ⟨fiber, rest, hr⟩ := List.exists_cons_of_ne_nil h
  simp [vacate, switchToFront, switchToFiber, log, hr]

/-- Switching away overwrites who runs in either case, so it does not matter whether the processor
was vacated before. -/
theorem switchAway_vacate (self : Scheduler) : self.vacate.switchAway = self.switchAway := by
  unfold switchAway
  by_cases h : self.readyFiberList = []
  · simp [vacate, h, switchTo]
  · rw [if_neg h, ← switchToFront_vacate h]
    exact if_neg h

end Scheduler

/-- The phase of a fiber depends on what the fields say about it alone. -/
theorem Scheduler.phase_congr {s t : Scheduler} {fiber : FiberId}
    (ha : t.activeFiber = some fiber ↔ s.activeFiber = some fiber)
    (hr : fiber ∈ t.readyFiberList ↔ fiber ∈ s.readyFiberList)
    (hd : fiber ∈ t.deadFiberList ↔ fiber ∈ s.deadFiberList)
    (hm : fiber ∈ t.regions ↔ fiber ∈ s.regions)
    (hc : (t.fibers fiber).context = (s.fibers fiber).context) : t.phase fiber = s.phase fiber := by
  unfold Scheduler.phase
  rw [hc]
  exact if_congr ha rfl (if_congr hr rfl (if_congr hd rfl (if_congr hm rfl rfl)))

/-- Every history a fiber-by-fiber comparison needs: one more event moves the fiber it is about as
the life cycle says, and no other. -/
theorem replay_eq_phase_of_log {s t : Scheduler} {fiber : FiberId} {event : FiberEvent}
    (h : ∀ g, replay g s.history = some (s.phase g))
    (ht : t.history = (fiber, event) :: s.history)
    (hself : event.next fiber (s.phase fiber) = some (t.phase fiber))
    (hother : ∀ g, g ≠ fiber → t.phase g = s.phase g) (g : FiberId) :
    replay g t.history = some (t.phase g) := by
  rw [ht]
  by_cases hg : g = fiber
  · subst hg
    simp [replay, h, hself]
  · simp [replay, Ne.symm hg, h, hother g hg]

namespace Accounted

variable {self : Scheduler}

/-! ## The elementary moves -/

/-- A ready fiber is dispatched where none is running: it leaves the ready list and becomes the
active one, and the others keep their states. -/
theorem dispatch (h : Accounted self) (hidle : self.activeFiber = none) {fiber : FiberId}
    (hf : fiber ∈ self.readyFiberList) :
    Accounted ({ self with readyFiberList := self.readyFiberList.erase fiber }.switchToFiber
      fiber) := by
  have hmem : ∀ g, g ∈ self.readyFiberList.erase fiber ↔ g ≠ fiber ∧ g ∈ self.readyFiberList :=
    fun g => h.ready_nodup.mem_erase_iff
  constructor
  · exact h.ready_nodup.erase fiber
  · exact h.dead_nodup
  · exact fun g hg => h.ready_not_dead g ((hmem g).mp hg).2
  · rintro g hg hr
    cases hg
    exact ((hmem _).mp hr).1 rfl
  · rintro g hg
    cases hg
    exact h.ready_not_dead fiber hf
  · rintro g hg
    cases hg
    exact h.ready_region fiber hf
  · exact fun g hg => h.ready_region g ((hmem g).mp hg).2
  · exact h.dead_region
  · exact h.count
  · refine replay_eq_phase_of_log h.history rfl ?_ fun g hg => Scheduler.phase_congr ?_ ?_ ?_ ?_ ?_
    · simp [Scheduler.phase, Scheduler.switchToFiber, Scheduler.log, hidle, hf, FiberEvent.next]
    · simp [Scheduler.switchToFiber, Scheduler.log, hidle, Ne.symm hg]
    · simp [Scheduler.switchToFiber, Scheduler.log, hmem, hg]
    all_goals rfl

/-- The running fiber saves its context and leaves, linked into the ready list at either end. -/
theorem requeue (h : Accounted self) {fiber : FiberId} (ha : self.activeFiber = some fiber)
    {ready : List FiberId} (hready : ready.Perm (fiber :: self.readyFiberList)) :
    Accounted ({ self.saveContext fiber with readyFiberList := ready }.log fiber
      (.requeued self.history.length)).vacate := by
  have hmem : ∀ g, g ∈ ready ↔ g = fiber ∨ g ∈ self.readyFiberList := fun g => by
    rw [hready.mem_iff, List.mem_cons]
  constructor
  · exact hready.nodup_iff.mpr (List.nodup_cons.mpr ⟨h.active_not_ready fiber ha, h.ready_nodup⟩)
  · exact h.dead_nodup
  · intro g hg
    rcases (hmem g).mp hg with rfl | hg
    · exact h.active_not_dead g ha
    · exact h.ready_not_dead g hg
  · rintro g ⟨⟩
  · rintro g ⟨⟩
  · rintro g ⟨⟩
  · intro g hg
    rcases (hmem g).mp hg with rfl | hg
    · exact h.active_region g ha
    · exact h.ready_region g hg
  · exact h.dead_region
  · exact h.count
  · refine replay_eq_phase_of_log h.history rfl ?_ fun g hg => Scheduler.phase_congr ?_ ?_ ?_ ?_ ?_
    · simp [Scheduler.phase, Scheduler.vacate, Scheduler.saveContext, Scheduler.log, ha, hmem,
        FiberEvent.next]
    · simp [Scheduler.vacate, ha, Ne.symm hg]
    · simp [Scheduler.vacate, Scheduler.log, hmem, hg]
    · rfl
    · rfl
    · simp [Scheduler.vacate, Scheduler.saveContext, Scheduler.log, hg]

/-- The running fiber saves its context and leaves the processor, linked nowhere, which is to be
suspended. -/
theorem suspend (h : Accounted self) {fiber : FiberId} (ha : self.activeFiber = some fiber) :
    Accounted ((self.saveContext fiber).log fiber (.suspended self.history.length)).vacate := by
  refine ⟨h.ready_nodup, h.dead_nodup, h.ready_not_dead, nofun, nofun, nofun, h.ready_region,
    h.dead_region, h.count, replay_eq_phase_of_log h.history rfl ?_
      fun g hg => Scheduler.phase_congr ?_ .rfl .rfl .rfl ?_⟩
  · simp [Scheduler.phase, Scheduler.vacate, Scheduler.saveContext, Scheduler.log, ha,
      h.active_not_ready fiber ha, h.active_not_dead fiber ha, h.active_region fiber ha,
      FiberEvent.next]
  · simp [Scheduler.vacate, ha, Ne.symm hg]
  · simp [Scheduler.vacate, Scheduler.saveContext, Scheduler.log, hg]

/-- The running fiber exits: it goes to the dead list, is counted no more, and nobody is active. -/
theorem exit (h : Accounted self) {fiber : FiberId} (ha : self.activeFiber = some fiber) :
    Accounted ({ self with
        deadFiberList := self.deadFiberList ++ [fiber]
        fiberCount := self.fiberCount - 1 }.log fiber .exited).vacate := by
  have hmem : ∀ g, g ∈ self.deadFiberList ++ [fiber] ↔ g ∈ self.deadFiberList ∨ g = fiber :=
    fun g => by rw [List.mem_append, List.mem_singleton]
  constructor
  · exact h.ready_nodup
  · exact List.nodup_append_comm.mp
      (List.nodup_cons.mpr ⟨h.active_not_dead fiber ha, h.dead_nodup⟩)
  · intro g hg hd
    rcases (hmem g).mp hd with hd | rfl
    · exact h.ready_not_dead g hg hd
    · exact h.active_not_ready g ha hg
  · rintro g ⟨⟩
  · rintro g ⟨⟩
  · rintro g ⟨⟩
  · exact h.ready_region
  · intro g hg
    rcases (hmem g).mp hg with hg | rfl
    · exact h.dead_region g hg
    · exact h.active_region g ha
  · have := h.count
    simp only [Scheduler.vacate, Scheduler.log, List.length_append, List.length_singleton]
    omega
  · refine replay_eq_phase_of_log h.history rfl ?_ fun g hg =>
      Scheduler.phase_congr ?_ .rfl ?_ .rfl ?_
    · simp [Scheduler.phase, Scheduler.vacate, Scheduler.log, ha, h.active_not_ready fiber ha,
        FiberEvent.next]
    · simp [Scheduler.vacate, ha, Ne.symm hg]
    · simp [Scheduler.vacate, Scheduler.log, hg]
    · rfl

/-- A suspended fiber is linked at the back of the ready list. -/
theorem resume (h : Accounted self) {fiber : FiberId} (hs : self.Suspended fiber) :
    Accounted (self.resumeFiber fiber) := by
  obtain ⟨hm, ha, hr, hd⟩ := hs
  have hmem : ∀ g, g ∈ self.readyFiberList ++ [fiber] ↔ g ∈ self.readyFiberList ∨ g = fiber :=
    fun g => by rw [List.mem_append, List.mem_singleton]
  constructor
  · exact List.nodup_append_comm.mp (List.nodup_cons.mpr ⟨hr, h.ready_nodup⟩)
  · exact h.dead_nodup
  · intro g hg
    rcases (hmem g).mp hg with hg | rfl
    · exact h.ready_not_dead g hg
    · exact hd
  · intro g hg hmg
    rcases (hmem g).mp hmg with hmg | rfl
    · exact h.active_not_ready g hg hmg
    · exact ha hg
  · exact h.active_not_dead
  · exact h.active_region
  · intro g hg
    rcases (hmem g).mp hg with hg | rfl
    · exact h.ready_region g hg
    · exact hm
  · exact h.dead_region
  · exact h.count
  · refine replay_eq_phase_of_log h.history rfl ?_ fun g hg =>
      Scheduler.phase_congr .rfl ?_ .rfl .rfl ?_
    · simp [Scheduler.phase, Scheduler.resumeFiber, Scheduler.log, hm, ha, hr, hd, FiberEvent.next]
    · simp [Scheduler.resumeFiber, Scheduler.log, hg]
    · rfl

/-- A ready fiber is taken off the ready list, and is then linked nowhere, as it was before it was
resumed. -/
theorem unresume (h : Accounted self) {fiber : FiberId} (hf : fiber ∈ self.readyFiberList) :
    Accounted (self.unresumeFiber fiber) := by
  have hmem : ∀ g, g ∈ self.readyFiberList.erase fiber ↔ g ≠ fiber ∧ g ∈ self.readyFiberList :=
    fun g => h.ready_nodup.mem_erase_iff
  have ha : self.activeFiber ≠ some fiber := fun ha => h.active_not_ready fiber ha hf
  constructor
  · exact h.ready_nodup.erase fiber
  · exact h.dead_nodup
  · exact fun g hg => h.ready_not_dead g ((hmem g).mp hg).2
  · exact fun g hg hr => h.active_not_ready g hg ((hmem g).mp hr).2
  · exact h.active_not_dead
  · exact h.active_region
  · exact fun g hg => h.ready_region g ((hmem g).mp hg).2
  · exact h.dead_region
  · exact h.count
  · refine replay_eq_phase_of_log h.history rfl ?_ fun g hg =>
      Scheduler.phase_congr .rfl ?_ .rfl .rfl ?_
    · simp [Scheduler.phase, Scheduler.unresumeFiber, Scheduler.log, ha, hf, hmem,
        h.ready_not_dead fiber hf, h.ready_region fiber hf, FiberEvent.next]
    · simp [Scheduler.unresumeFiber, Scheduler.log, hmem, hg]
    · rfl

/-- A new region becomes a ready fiber, which was in no state before, as its region was not one of
the scheduler's. -/
theorem link_new (h : Accounted self) {fiber function argument : ℕ} (hnew : fiber ∉ self.regions) :
    Accounted ({ self with
        regions := insert fiber self.regions
        fibers := Function.update self.fibers fiber
          { context := none, function := function, argument := argument }
        readyFiberList := self.readyFiberList ++ [fiber]
        fiberCount := self.fiberCount + 1
        history := (fiber, .allocated) :: self.history }.log fiber .added) := by
  have ha : self.activeFiber ≠ some fiber := fun ha => hnew (h.active_region fiber ha)
  have hr : fiber ∉ self.readyFiberList := fun hr => hnew (h.ready_region fiber hr)
  have hd : fiber ∉ self.deadFiberList := fun hd => hnew (h.dead_region fiber hd)
  have hmem : ∀ g, g ∈ self.readyFiberList ++ [fiber] ↔ g ∈ self.readyFiberList ∨ g = fiber :=
    fun g => by rw [List.mem_append, List.mem_singleton]
  constructor
  · exact List.nodup_append_comm.mp (List.nodup_cons.mpr ⟨hr, h.ready_nodup⟩)
  · exact h.dead_nodup
  · intro g hg
    rcases (hmem g).mp hg with hg | rfl
    · exact h.ready_not_dead g hg
    · exact hd
  · intro g hg hmg
    rcases (hmem g).mp hmg with hmg | rfl
    · exact h.active_not_ready g hg hmg
    · exact ha hg
  · exact h.active_not_dead
  · exact fun g hg => Finset.mem_insert_of_mem (h.active_region g hg)
  · intro g hg
    rcases (hmem g).mp hg with hg | rfl
    · exact Finset.mem_insert_of_mem (h.ready_region g hg)
    · exact Finset.mem_insert_self g _
  · exact fun g hg => Finset.mem_insert_of_mem (h.dead_region g hg)
  · have := h.count
    simp only [Scheduler.log, Finset.card_insert_of_notMem hnew]
    push_cast
    omega
  · intro g
    by_cases hg : g = fiber
    · subst hg
      simp [replay, Scheduler.log, h.history, Scheduler.phase, ha, hr, hd, hnew, FiberEvent.next]
    · have : ({ self with
          regions := insert fiber self.regions
          fibers := Function.update self.fibers fiber
            { context := none, function := function, argument := argument }
          readyFiberList := self.readyFiberList ++ [fiber]
          fiberCount := self.fiberCount + 1
          history := (fiber, .allocated) :: self.history }.log fiber .added).phase g =
            self.phase g := by
        refine Scheduler.phase_congr .rfl ?_ .rfl ?_ ?_
        all_goals simp [Scheduler.log, hg]
      rw [this]
      simp [Scheduler.log, replay, Ne.symm hg, h.history]

/-- The region of a dead fiber becomes a ready fiber again, which is counted as one more. -/
theorem link_dead (h : Accounted self) {fiber function argument : ℕ}
    (hdead : fiber ∈ self.deadFiberList) :
    Accounted ({ self with
        deadFiberList := self.deadFiberList.erase fiber
        fibers := Function.update self.fibers fiber
          { context := none, function := function, argument := argument }
        readyFiberList := self.readyFiberList ++ [fiber]
        fiberCount := self.fiberCount + 1 }.log fiber .added) := by
  have ha : self.activeFiber ≠ some fiber := fun ha => h.active_not_dead fiber ha hdead
  have hr : fiber ∉ self.readyFiberList := fun hr => h.ready_not_dead fiber hr hdead
  have hmem : ∀ g, g ∈ self.readyFiberList ++ [fiber] ↔ g ∈ self.readyFiberList ∨ g = fiber :=
    fun g => by rw [List.mem_append, List.mem_singleton]
  have hmemd : ∀ g, g ∈ self.deadFiberList.erase fiber ↔ g ≠ fiber ∧ g ∈ self.deadFiberList :=
    fun g => h.dead_nodup.mem_erase_iff
  constructor
  · exact List.nodup_append_comm.mp (List.nodup_cons.mpr ⟨hr, h.ready_nodup⟩)
  · exact h.dead_nodup.erase fiber
  · intro g hg hmg
    rcases (hmem g).mp hg with hg | rfl
    · exact h.ready_not_dead g hg ((hmemd g).mp hmg).2
    · exact ((hmemd g).mp hmg).1 rfl
  · intro g hg hmg
    rcases (hmem g).mp hmg with hmg | rfl
    · exact h.active_not_ready g hg hmg
    · exact ha hg
  · exact fun g hg hmg => h.active_not_dead g hg ((hmemd g).mp hmg).2
  · exact h.active_region
  · intro g hg
    rcases (hmem g).mp hg with hg | rfl
    · exact h.ready_region g hg
    · exact h.dead_region g hdead
  · exact fun g hg => h.dead_region g ((hmemd g).mp hg).2
  · have := h.count
    have hpos := List.length_pos_of_mem hdead
    simp only [Scheduler.log, List.length_erase_of_mem hdead]
    omega
  · refine replay_eq_phase_of_log h.history rfl ?_ fun g hg =>
      Scheduler.phase_congr .rfl ?_ ?_ .rfl ?_
    · simp [Scheduler.phase, Scheduler.log, ha, hr, hdead, FiberEvent.next]
    · simp [Scheduler.log, hg]
    · simp [Scheduler.log, hmemd, hg]
    · simp [Scheduler.log, hg]

/-- A new fiber is linked at the back of the ready list, whether its memory was freshly allocated
or that of a dead one; without memory for it nothing is different. -/
theorem add (h : Accounted self) (function argument : ℕ) {region : Option FiberId}
    (hfresh : self.Fresh region) : Accounted (self.addFiber function argument region).1 := by
  unfold Scheduler.addFiber Scheduler.takeFiber
  rcases hback : self.deadFiberList.getLast? with _ | fiber
  · rcases region with _ | fiber
    · exact h
    · have hnew : fiber ∉ self.regions := hfresh fiber rfl
      exact h.link_new hnew
  · have hmem : fiber ∈ self.deadFiberList := List.mem_of_getLast? hback
    exact h.link_dead hmem

/-- Freeing a list of distinct fibers moves each of them, and no other, from dead to
unallocated. -/
theorem replay_freed {fiber : FiberId} {dead : List FiberId}
    {history : List (FiberId × FiberEvent)} (hnodup : dead.Nodup) :
    replay fiber (dead.map (·, .freed) ++ history) =
      if fiber ∈ dead then (replay fiber history).bind (FiberEvent.freed.next fiber)
      else replay fiber history := by
  induction dead with
  | nil => rfl
  | cons other dead ih =>
      obtain ⟨hnot, hnodup⟩ := List.nodup_cons.mp hnodup
      by_cases ho : other = fiber
      · subst ho
        simp [replay, ih hnodup, hnot]
      · simp [replay, ih hnodup, ho, Ne.symm ho]

/-- The dead fibers are freed, back to front, while nobody runs; their regions are no longer the
scheduler's. -/
theorem free (h : Accounted self) (hidle : self.activeFiber = none) :
    Accounted self.freeDeadFibers := by
  have hsub : self.deadFiberList.toFinset ⊆ self.regions := fun g hg =>
    h.dead_region g (List.mem_toFinset.mp hg)
  constructor
  · exact h.ready_nodup
  · exact List.nodup_nil
  · exact fun g _ => List.not_mem_nil
  · intro g hg
    exact h.active_not_ready g hg
  · exact fun g _ => List.not_mem_nil
  · rintro g hg
    exact absurd (hidle.symm.trans hg) nofun
  · intro g hg
    simp only [Scheduler.freeDeadFibers, Finset.mem_sdiff, List.mem_toFinset]
    exact ⟨h.ready_region g hg, h.ready_not_dead g hg⟩
  · exact fun g hg => absurd hg List.not_mem_nil
  · have := h.count
    have hle := Finset.card_le_card hsub
    simp only [Scheduler.freeDeadFibers, Finset.card_sdiff_of_subset hsub,
      List.toFinset_card_of_nodup h.dead_nodup, List.length_nil] at hle ⊢
    omega
  · intro g
    rw [Scheduler.freeDeadFibers, replay_freed h.dead_nodup, h.history]
    by_cases hg : g ∈ self.deadFiberList
    · have hr : g ∉ self.readyFiberList := fun hr => h.ready_not_dead g hr hg
      simp [Scheduler.phase, hidle, hg, hr, FiberEvent.next]
    · simp [Scheduler.phase, hg]

/-! ## The operations -/

/-- The books are kept when the front fiber is entered: it leaves the ready list and runs. -/
theorem switchToFront (h : Accounted self) (hidle : self.activeFiber = none) :
    Accounted self.switchToFront := by
  unfold Scheduler.switchToFront
  rcases hf : self.readyFiberList.head? with _ | fiber
  · exact h
  · exact h.dispatch hidle (List.mem_of_head? hf)

/-- The books are kept when the scheduler switches away, to a ready fiber or back to
`Scheduler_Tick`. -/
theorem switchAway (h : Accounted self) (hidle : self.activeFiber = none) :
    Accounted self.switchAway := by
  unfold Scheduler.switchAway
  split_ifs
  · have : self.vacate = self := by cases self; cases hidle; rfl
    rw [Scheduler.switchTo]
    have hvacant : Accounted self.vacate := this ▸ h
    exact hvacant.free rfl
  · exact h.switchToFront hidle

/-- The books are kept by a suspension: the fiber is in no list then and still counted. -/
theorem suspendCurrentFiber (h : Accounted self) : Accounted self.suspendCurrentFiber := by
  rcases ha : self.activeFiber with _ | active
  · rwa [Scheduler.suspendCurrentFiber, ha]
  · rw [Scheduler.suspendCurrentFiber_eq ha, ← Scheduler.switchAway_vacate]
    exact (h.suspend ha).switchAway rfl

/-- The books are kept by an exit: the fiber is dead and no longer counted. -/
theorem exitCurrentFiber (h : Accounted self) : Accounted self.exitCurrentFiber := by
  rcases ha : self.activeFiber with _ | active
  · rwa [Scheduler.exitCurrentFiber, ha]
  · rw [Scheduler.exitCurrentFiber_eq ha, ← Scheduler.switchAway_vacate]
    exact (h.exit ha).switchAway rfl

/-- The books are kept by a yield: the fiber goes to the end of the ready list and the front one
runs. -/
theorem yieldCurrentFiber (h : Accounted self) : Accounted self.yieldCurrentFiber := by
  unfold Scheduler.yieldCurrentFiber
  rcases ha : self.activeFiber with _ | active
  · exact h
  · dsimp only
    split_ifs
    · exact h
    · rw [← Scheduler.switchToFront_vacate (by simp [Scheduler.log])]
      exact (h.requeue ha (List.perm_append_singleton _ _)).switchToFront rfl

/-- The books are kept by the tick: it enters the front fiber if one is ready, and does nothing
otherwise. -/
theorem tick (h : Accounted self) (hidle : self.activeFiber = none) : Accounted self.tick := by
  unfold Scheduler.tick
  split_ifs
  · exact h
  · refine Accounted.switchToFront ?_ hidle
    exact ⟨h.ready_nodup, h.dead_nodup, h.ready_not_dead, h.active_not_ready, h.active_not_dead,
      h.active_region, h.ready_region, h.dead_region, h.count, h.history⟩

/-- The books are kept by adding a fiber that runs at once, also where there is no memory for it. -/
theorem addAndRunFiber (h : Accounted self) {function argument : ℕ} {region : Option FiberId}
    (hfresh : self.Fresh region) : Accounted (self.addAndRunFiber function argument region).1 := by
  unfold Scheduler.addAndRunFiber
  rcases ha : self.activeFiber with _ | active
  · exact h
  · have hadd := h.add function argument hfresh
    have hact := Scheduler.addFiber_activeFiber self function argument region
    rcases hres : self.addFiber function argument region with ⟨added, _ | _⟩
    · rwa [hres] at hadd
    · rw [hres] at hadd hact
      have hleft := hadd.requeue (hact.trans ha) (.refl _)
      have hback : (active :: added.readyFiberList).getLast? =
          some ((active :: added.readyFiberList).getLast (List.cons_ne_nil _ _)) :=
        List.getLast?_eq_getLast_of_ne_nil _
      exact hleft.dispatch rfl (List.mem_of_getLast? hback)

/-- **Every operation keeps the invariant**, where the operation is one that the scheduler may be
asked for in its state. -/
theorem apply (h : Accounted self) {action : SchedulerAction} (hen : self.Enabled action) :
    Accounted (self.apply action) := by
  cases action with
  | addFiber function argument region => exact h.add function argument hen
  | addAndRunFiber function argument region => exact h.addAndRunFiber hen.2
  | yieldCurrentFiber => exact h.yieldCurrentFiber
  | suspendCurrentFiber => exact h.suspendCurrentFiber
  | resumeFiber fiber => exact h.resume hen
  | unresumeFiber fiber => exact h.unresume hen
  | exitCurrentFiber => exact h.exitCurrentFiber
  | tick => exact h.tick hen

end Accounted

/-- **A step** of the system is an operation that the scheduler allows in its state, carried out. -/
theorem schedulerSystem_step {self next : Scheduler} {action : SchedulerAction}
    (hstep : schedulerSystem.step self action = some next) :
    self.Enabled action ∧ next = self.apply action := by
  simp only [schedulerSystem] at hstep
  split_ifs at hstep with hen
  exact ⟨hen, (Option.some.inj hstep).symm⟩

/-- Every reachable scheduler is accounted for, by induction over the run that leads to it. -/
theorem accounted_of_reachable {self : Scheduler} (h : schedulerSystem.Reachable self) :
    Accounted self := by
  refine StepSystem.ReachableWhen.induct (I := Accounted) ?_ ?_ h
  · rintro _ ⟨fibers, rfl⟩
    constructor <;> simp [Scheduler.init, replay, Scheduler.phase]
  · rintro s action s' - hs - hstep
    obtain ⟨hen, rfl⟩ := schedulerSystem_step hstep
    exact hs.apply hen

end Pixy.Sched
