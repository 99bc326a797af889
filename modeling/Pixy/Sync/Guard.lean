import Pixy.Found.Permits
import Pixy.Sync.WakeUp

/-!
# What semaphores are for

Fibers that come in through `Semaphore_Down` and go out through `Semaphore_Up` hold one of so many
permits while they are inside. The counter and the lists of waiters are how the code keeps that
promise: whatever the fibers do, in whatever order the scheduler runs them, overtakes that un-ready
a waiter included, the code simulates the permits (`guarding`), so never more are inside than the
counter had above its lower bound.

* Who is inside is a ghost (`GuardedState.inside`): a fiber is, from the return of `Semaphore_Down`
  to the return of `Semaphore_Up`.
* `Guarded.step` is the step lemma: the counter and the number of those inside always add up to the
  same.
-/

namespace Pixy.Sync

open Pixy.Found Pixy.Sched

/-! ## Coming in and going out -/

/-- The two functions. -/
inductive Passage
  | down
  | up
  deriving DecidableEq

/-- Who returns from which of them in a step. -/
def SemaphoreState.returns (s : SemaphoreState) (action : SemaphoreAction) :
    Option (FiberId × Passage) :=
  match s.scheduler.activeFiber, action with
  | some fiber, .down => if (s.semaphore.down s.scheduler fiber).2.2 then none
    else some (fiber, .down)
  | some fiber, .up => if (s.semaphore.up s.scheduler fiber).2.2 then none else some (fiber, .up)
  | some fiber, .proceed =>
    match s.position fiber with
    | .outside => none
    | .inDown => some (fiber, .down)
    | .inUp => some (fiber, .up)
  | _, _ => none

/-- The fibers, the semaphore, and who is inside. -/
structure GuardedState where
  /-- The fibers and the semaphore. -/
  state : SemaphoreState
  /-- Who has come in and has not gone out. -/
  inside : Finset FiberId

namespace GuardedState

/-- Nobody comes in twice, and nobody goes out who has not come in. -/
def Disciplined (s : GuardedState) : SemaphoreAction → Prop
  | .down => ∀ fiber ∈ s.state.scheduler.activeFiber, fiber ∉ s.inside
  | .up => ∀ fiber ∈ s.state.scheduler.activeFiber, fiber ∈ s.inside
  | _ => True

instance (s : GuardedState) : (action : SemaphoreAction) → Decidable (s.Disciplined action)
  | .down | .up => inferInstanceAs (Decidable (∀ fiber ∈ s.state.scheduler.activeFiber, _))
  | .scheduler _ | .proceed => isTrue trivial

/-- Who is inside after a step. -/
def after (s : GuardedState) (action : SemaphoreAction) : Finset FiberId :=
  match s.state.returns action with
  | some (fiber, .down) => insert fiber s.inside
  | some (fiber, .up) => s.inside.erase fiber
  | none => s.inside

end GuardedState

/-- **Fibers that guard something** with a semaphore that begins so. -/
def guardSystem (initial : Semaphore) : StepSystem GuardedState SemaphoreAction where
  init s := semaphoreSystem.init s.state ∧ s.state.semaphore = initial ∧ s.inside = ∅
  step s action :=
    if s.Disciplined action then
      (s.state.step action).map fun next => ⟨next, s.after action⟩
    else none

/-! ## What the functions do to the counter -/

section Counter

variable {semaphore : Semaphore} {scheduler : Scheduler} {fiber : FiberId}

/-- A call that blocks leaves the counter alone, and one that does not lowers it. -/
theorem down_counter : (semaphore.down scheduler fiber).1.minValue = semaphore.minValue ∧
    (semaphore.down scheduler fiber).1.maxValue = semaphore.maxValue ∧
    (semaphore.down scheduler fiber).1.value =
      if (semaphore.down scheduler fiber).2.2 then semaphore.value else semaphore.value - 1 := by
  unfold Semaphore.down
  by_cases hmin : semaphore.value = semaphore.minValue
  · rw [if_pos hmin]
    exact ⟨rfl, rfl, rfl⟩
  · rw [if_neg hmin]
    exact ⟨rfl, rfl, rfl⟩

/-- The same for going up: a call that blocks leaves the counter alone, and one that does not raises
it. -/
theorem up_counter : (semaphore.up scheduler fiber).1.minValue = semaphore.minValue ∧
    (semaphore.up scheduler fiber).1.maxValue = semaphore.maxValue ∧
    (semaphore.up scheduler fiber).1.value =
      if (semaphore.up scheduler fiber).2.2 then semaphore.value else semaphore.value + 1 := by
  unfold Semaphore.up
  by_cases hmax : semaphore.value = semaphore.maxValue
  · rw [if_pos hmax]
    exact ⟨rfl, rfl, rfl⟩
  · rw [if_neg hmax]
    exact ⟨rfl, rfl, rfl⟩

/-- Going up waits exactly at the upper bound, and never below it. -/
theorem up_blocks : (semaphore.up scheduler fiber).2.2 = true ↔
    semaphore.value = semaphore.maxValue := by
  unfold Semaphore.up
  by_cases hmax : semaphore.value = semaphore.maxValue
  · simp [hmax]
  · simp [hmax]

end Counter

namespace GuardedState

variable {s : GuardedState} {fiber : FiberId}

/-- What the rest of the program does with the scheduler brings nobody in or out. -/
@[simp] theorem after_scheduler (use : SchedulerAction) : s.after (.scheduler use) = s.inside := by
  unfold after SemaphoreState.returns
  cases s.state.scheduler.activeFiber <;> rfl

/-- `Semaphore_Down` brings its caller in unless it waits: then it comes in when it goes on. -/
theorem after_down (ha : s.state.scheduler.activeFiber = some fiber) : s.after .down =
    if (s.state.semaphore.down s.state.scheduler fiber).2.2 then s.inside
      else insert fiber s.inside := by
  simp only [after, SemaphoreState.returns, ha]
  split_ifs <;> rfl

/-- `Semaphore_Up` brings its caller out unless it waits, in which case those inside are the same as
before. -/
theorem after_up (ha : s.state.scheduler.activeFiber = some fiber) : s.after .up =
    if (s.state.semaphore.up s.state.scheduler fiber).2.2 then s.inside
      else s.inside.erase fiber := by
  simp only [after, SemaphoreState.returns, ha]
  split_ifs <;> rfl

/-- A fiber that returns from waiting in `Semaphore_Down` comes in then, and everybody else stays
where they are. -/
theorem after_downWoken (ha : s.state.scheduler.activeFiber = some fiber)
    (hpos : s.state.position fiber = .inDown) : s.after .proceed = insert fiber s.inside := by
  simp only [after, SemaphoreState.returns, ha, hpos]

end GuardedState

/-! ## The invariant -/

/-- **The counter and those inside add up.** -/
structure Guarded (initial : Semaphore) (s : GuardedState) : Prop where
  /-- The invariant of the semaphore. -/
  invariant : SemaphoreInvariant s.state
  /-- The bounds are those it began with. -/
  bounds : s.state.semaphore.minValue = initial.minValue ∧
    s.state.semaphore.maxValue = initial.maxValue
  /-- They add up to what it began with. -/
  total : s.state.semaphore.value + s.inside.card = initial.value
  /-- Who waits to come in is not inside. -/
  waiting : ∀ fiber, s.state.position fiber = .inDown → fiber ∉ s.inside
  /-- Nobody waits to go out. -/
  leaving : ∀ fiber, s.state.position fiber ≠ .inUp

namespace Guarded

variable {initial : Semaphore} {s next : GuardedState} {fiber : FiberId}

/-- There is room for who is let in: above its lower bound the counter stands for at least one
permit that nobody holds. -/
theorem room (h : Guarded initial s) (hgo : s.state.semaphore.minValue < s.state.semaphore.value) :
    s.inside.card < (initial.value - initial.minValue).toNat := by
  have htotal := h.total
  have hmin := h.bounds.1
  omega

/-- Who is inside can go out at once, as the counter is then below what it began with, and so below
its upper bound. -/
theorem goes_out (h : Guarded initial s) (hupper : initial.value ≤ initial.maxValue)
    (hin : fiber ∈ s.inside) : s.state.semaphore.value ≠ s.state.semaphore.maxValue := by
  have htotal := h.total
  have hmax := h.bounds.2
  have hpos := Finset.card_pos.mpr ⟨fiber, hin⟩
  omega

/-- What those inside are afterwards is what the permits allow. -/
abbrev Permitted (initial : Semaphore) (s next : GuardedState) : Prop := ∃ actions,
  (permitSystem FiberId (initial.value - initial.minValue).toNat).run s.inside actions =
    some next.inside

/-- Nobody comes in or goes out; someone may wait to come in. -/
theorem stay (h : Guarded initial s) (hinvariant : SemaphoreInvariant next.state)
    (hbounds : next.state.semaphore.minValue = s.state.semaphore.minValue ∧
      next.state.semaphore.maxValue = s.state.semaphore.maxValue)
    (hvalue : next.state.semaphore.value = s.state.semaphore.value)
    (hinside : next.inside = s.inside)
    (hposition : ∀ other, next.state.position other = s.state.position other ∨
      next.state.position other = .inDown ∧ other ∉ s.inside) :
    Guarded initial next ∧ Permitted initial s next := by
  refine ⟨⟨hinvariant, ?_, ?_, fun other hpos => ?_, fun other => ?_⟩, [], by rw [hinside]; rfl⟩
  · exact ⟨hbounds.1.trans h.bounds.1, hbounds.2.trans h.bounds.2⟩
  · rw [hvalue, hinside]
    exact h.total
  · rw [hinside]
    rcases hposition other with hsame | ⟨-, hnot⟩
    · exact h.waiting other (hsame ▸ hpos)
    · exact hnot
  · rcases hposition other with hsame | ⟨hdown, -⟩
    · rw [hsame]
      exact h.leaving other
    · simp [hdown]

/-- Someone comes in, and the counter is lowered by one, which keeps the sum of the counter and
those inside. -/
theorem come (h : Guarded initial s) (hinvariant : SemaphoreInvariant next.state)
    (hbounds : next.state.semaphore.minValue = s.state.semaphore.minValue ∧
      next.state.semaphore.maxValue = s.state.semaphore.maxValue)
    (hvalue : next.state.semaphore.value = s.state.semaphore.value - 1) (hnot : fiber ∉ s.inside)
    (hinside : next.inside = insert fiber s.inside)
    (hposition : next.state.position = Function.update s.state.position fiber .outside) :
    Guarded initial next ∧ Permitted initial s next := by
  have htotal := h.total
  have hlower := hinvariant.queued.lower
  have hroom : s.inside.card < (initial.value - initial.minValue).toNat := h.room (by omega)
  refine ⟨⟨hinvariant, ?_, ?_, fun other hpos => ?_, fun other => ?_⟩, [.acquire fiber], ?_⟩
  · exact ⟨hbounds.1.trans h.bounds.1, hbounds.2.trans h.bounds.2⟩
  · rw [hvalue, hinside, Finset.card_insert_of_notMem hnot]
    push_cast
    omega
  · rw [hposition] at hpos
    by_cases ho : other = fiber
    · simp [ho] at hpos
    · rw [Function.update_of_ne ho] at hpos
      rw [hinside, Finset.mem_insert, not_or]
      exact ⟨ho, h.waiting other hpos⟩
  · rw [hposition]
    by_cases ho : other = fiber
    · simp [ho]
    · rw [Function.update_of_ne ho]
      exact h.leaving other
  · rw [hinside]
    exact acquire_eq_some hnot hroom

/-- Someone goes out, and the counter is raised by one, which keeps the sum of the counter and those
inside. -/
theorem go (h : Guarded initial s) (hinvariant : SemaphoreInvariant next.state)
    (hbounds : next.state.semaphore.minValue = s.state.semaphore.minValue ∧
      next.state.semaphore.maxValue = s.state.semaphore.maxValue)
    (hvalue : next.state.semaphore.value = s.state.semaphore.value + 1) (hin : fiber ∈ s.inside)
    (hinside : next.inside = s.inside.erase fiber)
    (hposition : next.state.position = s.state.position) :
    Guarded initial next ∧ Permitted initial s next := by
  have htotal := h.total
  have hcard := Finset.card_erase_add_one hin
  refine ⟨⟨hinvariant, ?_, ?_, fun other hpos => ?_, fun other => ?_⟩, [.release fiber], ?_⟩
  · exact ⟨hbounds.1.trans h.bounds.1, hbounds.2.trans h.bounds.2⟩
  · rw [hvalue, hinside]
    omega
  · rw [hinside]
    exact fun hstill => h.waiting other (hposition ▸ hpos) (Finset.mem_of_mem_erase hstill)
  · rw [hposition]
    exact h.leaving other
  · rw [hinside]
    exact release_eq_some hin

/-- **One step** of the guarded system keeps the balance of the counter and those inside, and is one
that the permits allow. -/
theorem step (h : Guarded initial s) (hupper : initial.value ≤ initial.maxValue)
    {action : SemaphoreAction} (hstep : (guardSystem initial).step s action = some next) :
    Guarded initial next ∧ Permitted initial s next := by
  obtain ⟨hdisciplined, hmap⟩ := Option.ite_none_right_eq_some.mp hstep
  obtain ⟨state, hstate, rfl⟩ := Option.map_eq_some_iff.mp hmap
  have hinvariant := h.invariant.step hstate
  obtain ⟨use, rfl, -, -, -, rfl⟩ | ⟨fiber, rfl, ha, hout, rfl⟩ | ⟨fiber, rfl, ha, hout, rfl⟩ |
    ⟨fiber, rfl, ha, hpos, rfl⟩ | ⟨fiber, rfl, ha, hpos, rfl⟩ := SemaphoreState.step_cases hstate
  · exact h.stay hinvariant ⟨rfl, rfl⟩ rfl (GuardedState.after_scheduler use) fun _ => .inl rfl
  · have hnot : fiber ∉ s.inside := hdisciplined fiber ha
    obtain ⟨hmin, hmax, hvalue⟩ := @down_counter s.state.semaphore s.state.scheduler fiber
    have hafter := GuardedState.after_down ha
    by_cases hblocked : (s.state.semaphore.down s.state.scheduler fiber).2.2 = true
    · rw [if_pos hblocked] at hvalue hafter
      refine h.stay hinvariant ⟨hmin, hmax⟩ hvalue hafter fun other => ?_
      dsimp only
      rw [if_pos hblocked]
      by_cases ho : other = fiber
      · exact .inr ⟨by simp [ho], ho ▸ hnot⟩
      · exact .inl (Function.update_of_ne ho ..)
    · rw [if_neg hblocked] at hvalue hafter
      refine h.come hinvariant ⟨hmin, hmax⟩ hvalue hnot hafter ?_
      dsimp only
      rw [if_neg hblocked, ← hout, Function.update_eq_self]
  · have hin : fiber ∈ s.inside := hdisciplined fiber ha
    obtain ⟨hmin, hmax, hvalue⟩ := @up_counter s.state.semaphore s.state.scheduler fiber
    have hafter := GuardedState.after_up ha
    have hgoes : ¬(s.state.semaphore.up s.state.scheduler fiber).2.2 = true :=
      fun hblocked => h.goes_out hupper hin (up_blocks.mp hblocked)
    rw [if_neg hgoes] at hvalue hafter
    exact h.go hinvariant ⟨hmin, hmax⟩ hvalue hin hafter (if_neg hgoes)
  · exact h.come hinvariant ⟨rfl, rfl⟩ rfl (h.waiting fiber hpos)
      (GuardedState.after_downWoken ha hpos) rfl
  · exact absurd hpos (h.leaving fiber)

end Guarded

/-! ## The result -/

section Result

variable {initial : Semaphore} {s : GuardedState} {value minValue maxValue : ℤ}

/-- **The code simulates the permits**: whoever comes in or goes out takes or gives back one of as
many permits as the counter is above its lower bound. -/
theorem guardSystem_simulates (hinit : Semaphore.init? value minValue maxValue = some initial) :
    (guardSystem initial).Simulates (permitSystem FiberId (value - minValue).toNat)
      fun s held => Guarded initial s ∧ s.inside = held := by
  unfold Semaphore.init? at hinit
  split_ifs at hinit with hbounds
  cases hinit
  constructor
  · rintro s ⟨hstate, hsemaphore, hinside⟩
    refine ⟨∅, rfl, ⟨?_, ?_, ?_, ?_, ?_⟩, hinside⟩
    · exact semaphoreInvariant_of_reachable (.init hstate)
    · rw [hsemaphore]
      exact ⟨rfl, rfl⟩
    · simp [hsemaphore, hinside]
    · simp [hinside]
    · intro fiber
      simp [hstate.2.2 fiber]
  · rintro s held action next ⟨hs, rfl⟩ hstep
    obtain ⟨hnext, actions, hrun⟩ := hs.step (by dsimp only; omega) hstep
    exact ⟨actions, next.inside, hrun, hnext, rfl⟩

/-- **What a semaphore guards.** Of the fibers that come in through `Semaphore_Down` and go out
through `Semaphore_Up`, no more are ever inside than the counter was above its lower bound, and the
counter tells how many still fit; who is inside gets out without waiting; and where everybody else
sleeps, who waits waits for those inside. -/
theorem guarding (hinit : Semaphore.init? value minValue maxValue = some initial)
    (h : (guardSystem initial).Reachable s) :
    (permitSystem FiberId (value - minValue).toNat).Reachable s.inside ∧
      s.state.semaphore.value + s.inside.card = value ∧ (s.inside.card : ℤ) ≤ value - minValue ∧
      (value = minValue + 1 → ∀ fiber ∈ s.inside, ∀ other ∈ s.inside, fiber = other) ∧
      (∀ fiber ∈ s.inside, (s.state.semaphore.up s.state.scheduler fiber).2.2 = false) ∧
      (s.state.RunsOutside → s.state.scheduler.readyFiberList = [] →
        s.state.semaphore.downWaiterList ≠ [] → (s.inside.card : ℤ) = value - minValue) := by
  obtain ⟨_, hpermits, hguarded, rfl⟩ := (guardSystem_simulates hinit).reachable h
  unfold Semaphore.init? at hinit
  split_ifs at hinit with hbounds
  cases hinit
  have htotal : s.state.semaphore.value + s.inside.card = value := hguarded.total
  have hmin : s.state.semaphore.minValue = minValue := hguarded.bounds.1
  have hlower := hguarded.invariant.queued.lower
  refine ⟨hpermits, htotal, by omega, fun hone fiber hf other ho => ?_, fun fiber hf => ?_,
    fun hrun hready hwaiters => ?_⟩
  · have hcapacity : (value - minValue).toNat = 1 := by omega
    rw [hcapacity] at hpermits
    exact eq_of_reachable hpermits hf ho
  · have hgoes := hguarded.goes_out (by dsimp only; omega) hf
    exact Bool.eq_false_iff.mpr fun hblocked => hgoes (up_blocks.mp hblocked)
  · have hfull := (hguarded.invariant.wakeUpInvariant hrun).down_blocked hready hwaiters
    omega

/-- Fiber 1 comes in and yields, fiber 2 waits, fiber 1 goes out and wakes it, comes in again before
it runs, and yields. -/
def overtaken : List SemaphoreAction :=
  [.scheduler (.addFiber 7 0 (some 1)), .scheduler (.addFiber 7 0 (some 2)), .scheduler .tick,
    .down, .scheduler .yieldCurrentFiber, .down, .up, .down, .scheduler .yieldCurrentFiber]

/-- A waiter is woken, and overtaken before it runs by the fiber that woke it: one of them is
inside, and the other waits again. -/
theorem guarding_overtaken : ∃ initial s, Semaphore.init? 1 0 1 = some initial ∧
    (guardSystem initial).run ⟨⟨.init fun _ => ⟨none, 0, 0⟩, initial, fun _ => .outside⟩, ∅⟩
        overtaken = some s ∧
      s.inside = {1} ∧ s.state.semaphore.downWaiterList = [2] ∧
      (permitSystem FiberId 1).Reachable s.inside ∧
      s.state.semaphore.value + s.inside.card = 1 := by
  have hend : ((guardSystem ⟨1, 0, 1, [], []⟩).run
      ⟨⟨.init fun _ => ⟨none, 0, 0⟩, ⟨1, 0, 1, [], []⟩, fun _ => .outside⟩, ∅⟩ overtaken).map
      (fun s => (s.inside, s.state.semaphore.downWaiterList)) = some ({1}, [2]) := by
    decide +kernel
  obtain ⟨s, hrun, hs⟩ := Option.map_eq_some_iff.mp hend
  obtain ⟨hinside, hwaiters⟩ := Prod.mk.inj hs
  have hfresh : (guardSystem ⟨1, 0, 1, [], []⟩).init
      ⟨⟨.init fun _ => ⟨none, 0, 0⟩, ⟨1, 0, 1, [], []⟩, fun _ => .outside⟩, ∅⟩ :=
    ⟨⟨.init ⟨_, rfl⟩, ⟨1, 0, 1, rfl⟩, fun _ => rfl⟩, rfl, rfl⟩
  have hinit : Semaphore.init? 1 0 1 = some ⟨1, 0, 1, [], []⟩ := rfl
  obtain ⟨hpermits, htotal, -⟩ := guarding hinit (StepSystem.reachable_of_run hfresh hrun)
  exact ⟨_, s, hinit, hrun, hinside, hwaiters, hpermits, htotal⟩

end Result

end Pixy.Sync
