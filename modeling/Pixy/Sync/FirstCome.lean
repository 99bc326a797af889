import Pixy.Sync.WakeUp

/-!
# First come, first served

A waiter list changes at its two ends only: who blocks is put at the back (`SemaphoreState.enters`),
and who goes on was at the front (`SemaphoreState.leaves`). So along a run the fibers that blocked
are those that have gone on, followed by those that still wait (`served_run`), whatever was
un-readied and readied again in between.
-/

namespace Pixy.Sync

open Pixy.Found Pixy.Sched

namespace SemaphoreState

/-- The fibers that wait in the one function or the other, in the order of the list. -/
def waiters (s : SemaphoreState) : Position → List FiberId
  | .inDown => s.semaphore.downWaiterList
  | .inUp => s.semaphore.upWaiterList
  | .outside => []

/-- The running fiber, if a step takes it from one place to another. -/
def goes (s : SemaphoreState) (origin place : Position) (action : SemaphoreAction) : List FiberId :=
  match s.scheduler.activeFiber, s.step action with
  | some fiber, some next =>
    if s.position fiber = origin ∧ next.position fiber = place then [fiber] else []
  | _, _ => []

/-- The fiber that a step makes block there. -/
def enters (s : SemaphoreState) (place : Position) (action : SemaphoreAction) : List FiberId :=
  s.goes .outside place action

/-- The fiber that goes on from there. -/
def leaves (s : SemaphoreState) (place : Position) (action : SemaphoreAction) : List FiberId :=
  s.goes place .outside action

/-- What the steps of a run say, one after the other. -/
def along (what : SemaphoreState → SemaphoreAction → List FiberId) (s : SemaphoreState) :
    List SemaphoreAction → List FiberId
  | [] => []
  | action :: actions =>
    what s action ++ ((s.step action).map fun next => along what next actions).getD []

end SemaphoreState

open SemaphoreState

variable {s next : SemaphoreState} {fiber : FiberId} {place : Position}

/-! ## One step -/

/-- Whom a step takes from one place to another, where it is known who runs and where the step
leads. -/
theorem goes_eq {origin : Position} {action : SemaphoreAction}
    (ha : s.scheduler.activeFiber = some fiber) (hstep : s.step action = some next) :
    s.goes origin place action =
      if s.position fiber = origin ∧ next.position fiber = place then [fiber] else [] := by
  simp only [goes, ha, hstep]

/-- A step that moves nobody and leaves the list of waiters as it is serves nobody, and nobody comes
to wait. -/
theorem served_same {action : SemaphoreAction} (hplace : place ≠ .outside)
    (hstep : s.step action = some next) (hposition : next.position = s.position)
    (hwaiters : next.waiters place = s.waiters place) :
    s.waiters place ++ s.enters place action = s.leaves place action ++ next.waiters place := by
  have hnone : ∀ origin place : Position, origin ≠ place → s.goes origin place action = [] := by
    intro origin place hne
    rcases ha : s.scheduler.activeFiber with _ | fiber
    · simp only [goes, ha]
    · rw [goes_eq ha hstep, hposition]
      exact if_neg fun h => hne (h.1.symm.trans h.2)
  rw [enters, leaves, hnone _ _ hplace.symm, hnone _ _ hplace, hwaiters]
  simp

/-- A call that blocks puts its fiber at the back of one list, and one that does not changes no
list. -/
theorem served_call {action : SemaphoreAction} (there : Position) (hthere : there ≠ .outside)
    (hplace : place ≠ .outside)
    (ha : s.scheduler.activeFiber = some fiber) (hout : s.position fiber = .outside)
    (hstep : s.step action = some next) {blocked : Bool}
    (hposition : next.position =
      if blocked then Function.update s.position fiber there else s.position)
    (hwaiters : next.waiters place =
      if blocked ∧ place = there then s.waiters place ++ [fiber] else s.waiters place) :
    s.waiters place ++ s.enters place action = s.leaves place action ++ next.waiters place := by
  rcases blocked with _ | _
  · exact served_same hplace hstep hposition (by simpa using hwaiters)
  · have hnext : next.position fiber = there := by
      rw [hposition, if_pos rfl, Function.update_self]
    rw [enters, leaves, goes_eq ha hstep, goes_eq ha hstep, hwaiters, hout, hnext]
    by_cases hp : place = there
    · simp [hp, hthere.symm]
    · simp [hp, Ne.symm hp, hplace.symm]

/-- A fiber that goes on was the front of its list. -/
theorem served_proceed {action : SemaphoreAction}
    (ha : s.scheduler.activeFiber = some fiber) {there : Position} (hpos : s.position fiber = there)
    (hthere : there ≠ .outside) (hstep : s.step action = some next)
    (hposition : next.position = Function.update s.position fiber .outside)
    (hwaiters : s.waiters place =
      if place = there then fiber :: next.waiters place else next.waiters place) :
    s.waiters place ++ s.enters place action = s.leaves place action ++ next.waiters place := by
  have hnext : next.position fiber = .outside := by
    rw [hposition, Function.update_self]
  rw [enters, leaves, goes_eq ha hstep, goes_eq ha hstep, hwaiters, hpos, hnext]
  by_cases hp : place = there
  · simp [hp, hthere]
  · simp [hp, Ne.symm hp, hthere]

/-- **One step.** What waits and what comes is what goes and what waits then. -/
theorem served_step (h : SemaphoreInvariant s) {action : SemaphoreAction}
    (hstep : s.step action = some next) (hplace : place ≠ .outside) :
    s.waiters place ++ s.enters place action = s.leaves place action ++ next.waiters place := by
  have hstep' := hstep
  obtain ⟨use, rfl, -, -, -, rfl⟩ | ⟨fiber, rfl, ha, hout, rfl⟩ | ⟨fiber, rfl, ha, hout, rfl⟩ |
    ⟨fiber, rfl, ha, hpos, rfl⟩ | ⟨fiber, rfl, ha, hpos, rfl⟩ := SemaphoreState.step_cases hstep
  · exact served_same hplace hstep' rfl (by cases place <;> rfl)
  · obtain ⟨-, -, hdown, hup⟩ := h.queued.down_spec h.accounted ha (h.outside_iff.mp hout)
    refine served_call .inDown (by simp) hplace ha hout hstep' rfl ?_
    cases place <;> simp [waiters, hdown, hup]
  · obtain ⟨-, -, hup, hdown⟩ := h.queued.up_spec h.accounted ha (h.outside_iff.mp hout)
    refine served_call .inUp (by simp) hplace ha hout hstep' rfl ?_
    cases place <;> simp [waiters, hdown, hup]
  · obtain ⟨-, -, hdown, hup⟩ := h.queued.downWoken_spec h.accounted ha ((h.inDown fiber).mp hpos)
    refine served_proceed ha hpos (by simp) hstep' rfl ?_
    cases place <;> simp [waiters, ← hdown, hup]
  · obtain ⟨-, -, hup, hdown⟩ := h.queued.upWoken_spec h.accounted ha ((h.inUp fiber).mp hpos)
    refine served_proceed ha hpos (by simp) hstep' rfl ?_
    cases place <;> simp [waiters, hdown, ← hup]

/-! ## Un-readied waiters -/

/-- Waking a front waiter puts nobody to sleep: who was awake stays so. -/
theorem awake_resumeFront {scheduler : Scheduler} {list : List FiberId}
    (h : scheduler.Awake fiber) :
    (Semaphore.resumeFront scheduler list).Awake fiber := by
  unfold Semaphore.resumeFront
  split
  · exact h
  · exact Accounted.awake_resumeFiber.mpr (.inr h)

/-- The last statement of `Semaphore_Down` puts nobody to sleep, as it wakes a fiber or does
nothing. -/
theorem awake_downTail {scheduler : Scheduler} {semaphore : Semaphore}
    (h : scheduler.Awake fiber) : (semaphore.downTail scheduler).Awake fiber := by
  unfold Semaphore.downTail
  split_ifs
  · exact awake_resumeFront h
  · exact h

/-- Nobody falls asleep when a fiber that waited to go down goes on, as the second half of
`Semaphore_Down` suspends nobody. -/
theorem awake_downWoken {scheduler : Scheduler} {semaphore : Semaphore} {other : FiberId}
    (h : scheduler.Awake fiber) : (semaphore.downWoken scheduler other).2.Awake fiber := by
  unfold Semaphore.downWoken
  refine awake_downTail ?_
  split_ifs
  · exact awake_resumeFront h
  · exact h

/-- Of those that wait, a call of `Semaphore_Down` puts someone to sleep only if it does not block,
and then it changes no list. -/
theorem waiters_of_down {scheduler : Scheduler} {semaphore : Semaphore} {other : FiberId}
    (hacc : Accounted scheduler) (ha : scheduler.activeFiber = some other) (hne : fiber ≠ other)
    (hawake : scheduler.Awake fiber) (hasleep : ¬(semaphore.down scheduler other).2.1.Awake fiber) :
    (semaphore.down scheduler other).1.downWaiterList = semaphore.downWaiterList ∧
      (semaphore.down scheduler other).1.upWaiterList = semaphore.upWaiterList := by
  unfold Semaphore.down at hasleep ⊢
  by_cases hmin : semaphore.value = semaphore.minValue
  · rw [if_pos hmin] at hasleep
    exact absurd ((hacc.awake_suspendCurrentFiber ha).mpr ⟨hne, hawake⟩) hasleep
  · rw [if_neg hmin]
    exact ⟨rfl, rfl⟩

/-- **A waiter that is un-readied keeps its place**: nothing changes in the lists. -/
theorem waiters_of_unreadied (h : SemaphoreInvariant s) {action : SemaphoreAction}
    (hstep : s.step action = some next) (hplace : place ≠ .outside) (hin : fiber ∈ s.waiters place)
    (hawake : s.scheduler.Awake fiber) (hasleep : ¬next.scheduler.Awake fiber) :
    ∀ place, next.waiters place = s.waiters place := by
  have hnot : s.position fiber ≠ .outside := by
    rw [ne_eq, h.outside_iff, not_not, List.mem_append]
    cases place
    · exact absurd rfl hplace
    · exact .inl hin
    · exact .inr hin
  obtain ⟨use, -, -, -, -, rfl⟩ | ⟨other, -, ha, hout, rfl⟩ | ⟨other, -, ha, hout, rfl⟩ |
    ⟨other, -, -, -, rfl⟩ | ⟨other, -, -, -, rfl⟩ := SemaphoreState.step_cases hstep
  · exact fun place => by cases place <;> rfl
  · have hne : fiber ≠ other := fun he => hnot (he ▸ hout)
    obtain ⟨hdown, hup⟩ := waiters_of_down h.accounted ha hne hawake hasleep
    exact fun place => by cases place <;> simp [waiters, hdown, hup]
  · have hne : fiber ≠ other := fun he => hnot (he ▸ hout)
    dsimp only at hasleep
    rw [Semaphore.up_eq_mirror] at hasleep
    obtain ⟨hup, hdown⟩ := waiters_of_down h.accounted ha hne hawake hasleep
    intro place
    cases place <;> simp only [waiters, Semaphore.up_eq_mirror]
    · exact hdown
    · exact hup
  · exact absurd (awake_downWoken hawake) hasleep
  · dsimp only at hasleep
    rw [Semaphore.upWoken_eq_mirror] at hasleep
    exact absurd (awake_downWoken hawake) hasleep

/-! ## Runs -/

/-- **A run.** Those who waited and those who came to wait are those who have gone on, in that
order, and behind them those who wait still. -/
theorem served_run {actions : List SemaphoreAction} {t : SemaphoreState} (h : SemaphoreInvariant s)
    (hrun : semaphoreSystem.run s actions = some t) (hplace : place ≠ .outside) :
    s.waiters place ++ s.along (enters · place) actions =
      s.along (leaves · place) actions ++ t.waiters place := by
  induction actions generalizing s with
  | nil =>
      cases hrun
      simp [along]
  | cons action actions ih =>
      obtain ⟨next, hstep, hrest⟩ := Option.bind_eq_some_iff.mp hrun
      have hfirst := served_step h hstep hplace
      have hlater := ih (h.step hstep) hrest
      have hstep' : s.step action = some next := hstep
      simp only [along, hstep', Option.map_some, Option.getD_some]
      rw [← List.append_assoc, hfirst, List.append_assoc, hlater, List.append_assoc]

/-- **First come, first served.** -/
structure FirstComeFirstServed (s : SemaphoreState) : Prop where
  /-- Whoever blocked in `Semaphore_Down`, or in `Semaphore_Up`, goes on in the order in which they
  blocked. -/
  order : ∀ actions t, semaphoreSystem.run s actions = some t → ∀ place ≠ Position.outside,
    s.waiters place ++ s.along (enters · place) actions =
      s.along (leaves · place) actions ++ t.waiters place
  /-- A waiter that is un-readied keeps its place. -/
  unreadied : ∀ action next, s.step action = some next → ∀ place ≠ Position.outside,
    ∀ fiber ∈ s.waiters place, s.scheduler.Awake fiber → ¬next.scheduler.Awake fiber →
      ∀ place, next.waiters place = s.waiters place

/-- **First come, first served**, in every run and for both lists of waiters: they are left in the
order in which they were entered. -/
theorem first_come_first_served (h : semaphoreSystem.Reachable s) : FirstComeFirstServed s := by
  have hs := semaphoreInvariant_of_reachable h
  refine ⟨fun actions t hrun place hplace => served_run hs hrun hplace, ?_⟩
  intro action next hstep place hplace fiber hin hawake hasleep
  exact waiters_of_unreadied hs hstep hplace hin hawake hasleep

/-- The waiter that was woken and put back keeps its place: who waits to go down is still served in
the order of coming. -/
theorem first_come_first_served_bargingFiber : ∃ s,
    semaphoreSystem.run ⟨.init fun _ => ⟨none, 0, 0⟩, ⟨0, 0, 1, [], []⟩, fun _ => .outside⟩
      bargingFiber = some s ∧ s.waiters .inDown = [1] ∧ FirstComeFirstServed s := by
  refine ⟨_, rfl, by decide, ?_⟩
  refine first_come_first_served (StepSystem.reachable_of_run ?_
    (rfl : semaphoreSystem.run ⟨.init fun _ => ⟨none, 0, 0⟩, ⟨0, 0, 1, [], []⟩, fun _ => .outside⟩
      bargingFiber = some _))
  exact ⟨.init ⟨_, rfl⟩, ⟨0, 0, 1, rfl⟩, fun _ => rfl⟩

end Pixy.Sync
