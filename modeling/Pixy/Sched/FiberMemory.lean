import Pixy.Found.CLayout
import Pixy.Sched.Lifecycle

/-!
# The memory of fibers

A fiber is a region from `malloc` with its record at the end; the rest is its stack. Here the two
fields of the record that say where the stack is are added to the scheduler, and the regions that
`malloc` has handed out. `Fiber_Allocate`, `Fiber_Free` and the start of a fiber are where the
scheduler's history says so (`FiberMemory.handle`); `free` of anything but such a region is `none`.

* `Housed.handleAll`: whatever happens, a fiber's fields are what `Fiber_Allocate` has set;
* `fiber_memory`: so records and stacks are apart, `free` gets what `malloc` gave, and a fiber is
  started on its own stack. The stack pointer is aligned as the calling convention asks if and only
  if the record has the field that `USE_VALGRIND` adds.

The addresses are those of x86-64.
-/

namespace Pixy.Sched

open Pixy.Found

/-! ## Regions -/

/-- Source: `Scheduler.c`, the fields of `struct Fiber`. -/
inductive FiberField
  | listItem
  | prev
  | next
  | stack
  | stackSize
  | stackID
  | context
  | function
  | argument
  deriving DecidableEq

/-- Source: `Scheduler.c`, `struct Fiber`, with and without `USE_VALGRIND`. -/
def fiberLayout (useValgrind : Bool) : CType FiberField :=
  let fields : Fields FiberField :=
    .cons .context (.scalar 8) (.cons .function (.scalar 8) (.cons .argument (.scalar 8) .nil))
  let fields := if useValgrind then .cons .stackID (.scalar 4) fields else fields
  .struct (.cons .listItem (.struct (.cons .prev (.scalar 8) (.cons .next (.scalar 8) .nil)))
    (.cons .stack (.scalar 8) (.cons .stackSize (.scalar 8) fields)))

/-- Source: `Scheduler.c`, `FIBER_SIZE`. -/
def fiberSize : ℕ := 65536

/-- Source: `Scheduler.c`, `struct Fiber`, the fields that `Fiber_Allocate` sets. -/
structure FiberStack where
  /-- The lowest address. -/
  stack : ℕ
  /-- The size. -/
  stackSize : ℕ
  deriving DecidableEq

/-- What becomes of a region that `malloc` has returned: the record, with its fields.
Source: `Scheduler.c`, `Fiber_Allocate`. -/
def fiberAllocate (useValgrind : Bool) (region : ℕ) : FiberId × FiberStack :=
  let self := region + fiberSize - (fiberLayout useValgrind).size
  (self, { stack := region, stackSize := fiberSize - (fiberLayout useValgrind).size })

/-- The address that is given to `free`. Source: `Scheduler.c`, `Fiber_Free`. -/
def fiberFree (useValgrind : Bool) (self : FiberId) : ℕ :=
  self + (fiberLayout useValgrind).size - fiberSize

/-- The stack pointer with which `Scheduler_FiberStart` is entered.
Source: `Scheduler.c`, `Scheduler_SwitchToFiber`, the instructions for x86-64. -/
def startStackPointer (self : FiberStack) : ℕ :=
  -- `movq %0, %rsp`
  let rsp := self.stack + self.stackSize
  -- `pushq $0`, and `jmpq` pushes nothing
  let rsp := rsp - 8
  rsp

/-! ## The scheduler's memory -/

/-- A fiber has been started. -/
structure FiberStart where
  /-- The fiber. -/
  fiber : FiberId
  /-- Its stack, as its fields say. -/
  stack : FiberStack
  /-- The stack pointer at the entry of `Scheduler_FiberStart`. -/
  stackPointer : ℕ
  deriving DecidableEq

/-- The memory of the fibers. -/
structure FiberMemory where
  /-- The regions that `malloc` has handed out and that have not been given back. -/
  regions : List ℕ
  /-- The fields of every record. -/
  fields : FiberId → FiberStack
  /-- The starts, newest first. No part of the program. -/
  starts : List FiberStart

namespace FiberMemory

/-- What an event does to the memory, where `region` is what `malloc` returns. -/
def handle (useValgrind : Bool) (region : Option ℕ) (self : FiberMemory) :
    FiberId × FiberEvent → Option FiberMemory
  | (_, .allocated) => region.map fun region =>
    let (fiber, stack) := fiberAllocate useValgrind region
    { self with
      regions := region :: self.regions
      fields := Function.update self.fields fiber stack }
  | (fiber, .dispatched none) =>
    let stack := self.fields fiber
    some { self with starts := ⟨fiber, stack, startStackPointer stack⟩ :: self.starts }
  | (fiber, .freed) =>
    let region := fiberFree useValgrind fiber
    if region ∈ self.regions then some { self with regions := self.regions.erase region } else none
  | _ => some self

/-- What some events do, newest first. -/
def handleAll (useValgrind : Bool) (region : Option ℕ) (self : FiberMemory) :
    List (FiberId × FiberEvent) → Option FiberMemory
  | [] => some self
  | event :: events =>
    (self.handleAll useValgrind region events).bind fun self => self.handle useValgrind region event

/-- `malloc` returns regions that are aligned for every type and have no byte in common. -/
def Malloced (self : FiberMemory) (region : Option ℕ) : Prop :=
  ∀ r ∈ region, 16 ∣ r ∧ ∀ other ∈ self.regions, r + fiberSize ≤ other ∨ other + fiberSize ≤ r

instance (self : FiberMemory) (region : Option ℕ) : Decidable (self.Malloced region) :=
  match region with
  | none => isTrue (by simp [Malloced])
  | some r =>
    decidable_of_iff (16 ∣ r ∧ ∀ other ∈ self.regions, r + fiberSize ≤ other ∨
      other + fiberSize ≤ r)
      (by simp [Malloced])

end FiberMemory

/-- What `malloc` returns to a call. -/
def SchedulerAction.region : SchedulerAction → Option ℕ
  | .addFiber _ _ region => region
  | .addAndRunFiber _ _ region => region
  | _ => none

/-- The same call, where the fiber is named by its record. -/
def SchedulerAction.place (useValgrind : Bool) : SchedulerAction → SchedulerAction
  | .addFiber function argument region =>
    .addFiber function argument (region.map fun region => (fiberAllocate useValgrind region).1)
  | .addAndRunFiber function argument region =>
    .addAndRunFiber function argument (region.map fun region =>
      (fiberAllocate useValgrind region).1)
  | action => action

/-- The scheduler and its memory. -/
structure FiberScheduler where
  /-- The scheduler. -/
  scheduler : Scheduler
  /-- The memory. -/
  memory : FiberMemory

/-- What the callers and `malloc` promise of a call. -/
def FiberScheduler.Enabled (self : FiberScheduler) : SchedulerAction → Prop
  | .addFiber _ _ region => self.memory.Malloced region
  | .addAndRunFiber _ _ region => self.scheduler.activeFiber ≠ none ∧ self.memory.Malloced region
  | action => self.scheduler.Enabled action

instance (self : FiberScheduler) : (action : SchedulerAction) → Decidable (self.Enabled action)
  | .addFiber _ _ region => inferInstanceAs (Decidable (self.memory.Malloced region))
  | .addAndRunFiber _ _ region =>
    inferInstanceAs (Decidable (self.scheduler.activeFiber ≠ none ∧ self.memory.Malloced region))
  | .yieldCurrentFiber | .suspendCurrentFiber | .exitCurrentFiber =>
    inferInstanceAs (Decidable (self.scheduler.activeFiber ≠ none))
  | .resumeFiber fiber => inferInstanceAs (Decidable (self.scheduler.Suspended fiber))
  | .unresumeFiber fiber => inferInstanceAs (Decidable (fiber ∈ self.scheduler.readyFiberList))
  | .tick => inferInstanceAs (Decidable (self.scheduler.activeFiber = none))

/-- **The scheduler with the memory of its fibers**, under any sequence of calls. -/
def fiberSystem (useValgrind : Bool) : StepSystem FiberScheduler SchedulerAction where
  init self := (∃ fibers, self.scheduler = .init fibers) ∧ self.memory.regions = [] ∧
    self.memory.starts = []
  step self action :=
    if self.Enabled action then
      let scheduler := self.scheduler.apply (action.place useValgrind)
      let events :=
        scheduler.history.take (scheduler.history.length - self.scheduler.history.length)
      (self.memory.handleAll useValgrind action.region events).map fun memory => ⟨scheduler, memory⟩
    else none

/-! ## One region -/

section Region

variable {useValgrind : Bool} {region region' : ℕ}

/-- The size of the record of a fiber in the two builds, computed from the struct: with Valgrind it
has a field more. -/
theorem fiberLayout_size (useValgrind : Bool) :
    (fiberLayout useValgrind).size = if useValgrind then 64 else 56 := by
  cases useValgrind
  · rfl
  · rfl

/-- The stack of a fiber begins where its region begins. -/
@[simp] theorem fiberAllocate_stack (useValgrind : Bool) (region : ℕ) :
    (fiberAllocate useValgrind region).2.stack = region := rfl

/-- What the stack has of the 64 KiB of a region, below the fields of the fiber at its end. -/
theorem fiberAllocate_stackSize (useValgrind : Bool) (region : ℕ) :
    (fiberAllocate useValgrind region).2.stackSize = if useValgrind then 65472 else 65480 := by
  unfold fiberAllocate
  rw [fiberLayout_size]
  cases useValgrind
  · rfl
  · rfl

/-- The record of a fiber is where its stack ends, as many bytes above the beginning of the region
as the stack has. -/
theorem fiberAllocate_fst (useValgrind : Bool) (region : ℕ) :
    (fiberAllocate useValgrind region).1 =
      region + (fiberAllocate useValgrind region).2.stackSize := by
  have hle : (fiberLayout useValgrind).size ≤ fiberSize := by
    rw [fiberLayout_size, fiberSize]
    split_ifs <;> omega
  exact Nat.add_sub_assoc hle region

/-- `Fiber_Free` finds the region again that `Fiber_Allocate` was given, from the fiber's address
alone. -/
theorem fiberFree_fiberAllocate (useValgrind : Bool) (region : ℕ) :
    fiberFree useValgrind (fiberAllocate useValgrind region).1 = region := by
  rw [fiberFree, fiberAllocate_fst, fiberAllocate_stackSize, fiberLayout_size, fiberSize]
  split_ifs <;> omega

/-- Different regions give fibers at different addresses, as a fiber is at the same distance from
the beginning of its region. -/
theorem fiberAllocate_injective
    (h : (fiberAllocate useValgrind region).1 = (fiberAllocate useValgrind region').1) :
    region = region' := by
  have hfree := congrArg (fiberFree useValgrind) h
  rwa [fiberFree_fiberAllocate, fiberFree_fiberAllocate] at hfree

/-- **A record and a stack in a region**: both are inside, the stack ends where the record begins,
and what is given to `free` is the region. -/
structure FitsIn (useValgrind : Bool) (region fiber : ℕ) (fields : FiberStack) : Prop where
  record : region ≤ fiber ∧ fiber + (fiberLayout useValgrind).size ≤ region + fiberSize
  stack : region ≤ fields.stack ∧ fields.stack + fields.stackSize ≤ region + fiberSize
  apart : fields.stack + fields.stackSize ≤ fiber
  free : fiberFree useValgrind fiber = region

/-- The stack and the fields of a fiber lie in its region and do not overlap. -/
theorem fitsIn_fiberAllocate (useValgrind : Bool) (region : ℕ) :
    FitsIn useValgrind region (fiberAllocate useValgrind region).1
      (fiberAllocate useValgrind region).2 := by
  refine ⟨?_, ?_, ?_, fiberFree_fiberAllocate useValgrind region⟩
  · rw [fiberAllocate_fst, fiberAllocate_stackSize, fiberLayout_size, fiberSize]
    split_ifs <;> omega
  · rw [fiberAllocate_stack, fiberAllocate_stackSize, fiberSize]
    split_ifs <;> omega
  · rw [fiberAllocate_fst, fiberAllocate_stack]

/-- A stack pointer is on a stack. -/
def FiberStack.Contains (self : FiberStack) (stackPointer : ℕ) : Prop :=
  self.stack ≤ stackPointer ∧ stackPointer < self.stack + self.stackSize

/-- What the calling convention asks at the entry of a function. -/
def EntryAligned (stackPointer : ℕ) : Prop := 16 ∣ stackPointer + 8

/-- The stack pointer on entry is one word below the top of the stack: a zero has been pushed, and
the jump pushes nothing. -/
theorem startStackPointer_eq (self : FiberStack) :
    startStackPointer self = self.stack + self.stackSize - 8 := rfl

/-- A fiber is started on its stack: the stack pointer it is given lies within the bounds of the
stack. -/
theorem contains_startStackPointer (useValgrind : Bool) (region : ℕ) :
    (fiberAllocate useValgrind region).2.Contains
      (startStackPointer (fiberAllocate useValgrind region).2) := by
  rw [FiberStack.Contains, startStackPointer_eq, fiberAllocate_stack, fiberAllocate_stackSize]
  split_ifs <;> omega

/-- **The alignment at the start of a fiber**, wherever its region is, depends on the build. -/
theorem entryAligned_iff (useValgrind : Bool) (h : 16 ∣ region) :
    EntryAligned (startStackPointer (fiberAllocate useValgrind region).2) ↔ useValgrind = true := by
  rw [EntryAligned, startStackPointer_eq, fiberAllocate_stack, fiberAllocate_stackSize]
  split_ifs with hbuild
  · refine iff_of_true ?_ hbuild
    omega
  · refine iff_of_false ?_ hbuild
    omega

end Region

/-! ## What the scheduler does to the history -/

/-- The history has grown, and nothing but the region has been allocated. -/
def Scheduler.Grows (self next : Scheduler) (region : Option FiberId) : Prop :=
  ∃ events, next.history = events ++ self.history ∧
    ∀ fiber, (fiber, .allocated) ∈ events → region = some fiber

namespace Scheduler

variable {s m t : Scheduler} {region : Option FiberId}

/-- A history that is the same has grown by no event, so nothing is asked of the memory. -/
theorem Grows.of_eq (h : t.history = s.history) : s.Grows t region :=
  ⟨[], h, fun _ hin => absurd hin List.not_mem_nil⟩

/-- A history that has grown in two steps has grown by both, and only the region was allocated in
either. -/
theorem Grows.trans (h : s.Grows m region) (h' : m.Grows t region) : s.Grows t region := by
  obtain ⟨older, holder, hallocated⟩ := h
  obtain ⟨newer, hnewer, hallocated'⟩ := h'
  refine ⟨newer ++ older, by rw [hnewer, holder, List.append_assoc], ?_⟩
  intro fiber hin
  rcases List.mem_append.mp hin with hin | hin
  · exact hallocated' fiber hin
  · exact hallocated fiber hin

/-- A history grows by one event that is no allocation, for whatever region. -/
theorem Grows.of_cons {fiber : FiberId} {event : FiberEvent}
    (h : t.history = (fiber, event) :: s.history) (hevent : event ≠ .allocated) :
    s.Grows t region := by
  refine ⟨[(fiber, event)], h, ?_⟩
  intro other hin
  cases List.mem_singleton.mp hin
  exact absurd rfl hevent

/-- Entering a fiber adds its dispatch to the history, and allocates no region. -/
theorem grows_switchToFiber (s : Scheduler) (fiber : FiberId) :
    s.Grows (s.switchToFiber fiber) region :=
  .of_cons rfl (by simp)

/-- Entering the front fiber adds its dispatch to the history, and nothing where nobody is ready. -/
theorem grows_switchToFront (s : Scheduler) : s.Grows s.switchToFront region := by
  unfold switchToFront
  rcases s.readyFiberList.head? with _ | fiber
  · exact .of_eq rfl
  · exact grows_switchToFiber { s with readyFiberList := s.readyFiberList.erase fiber } fiber

/-- Freeing the dead fibers adds that they were freed, and allocates nothing. -/
theorem grows_freeDeadFibers (s : Scheduler) : s.Grows s.freeDeadFibers region := by
  refine ⟨s.deadFiberList.map (·, .freed), rfl, ?_⟩
  intro fiber hin
  obtain ⟨other, -, heq⟩ := List.mem_map.mp hin
  cases heq

/-- Switching away adds a dispatch, or that the dead fibers were freed, and allocates nothing. -/
theorem grows_switchAway (s : Scheduler) : s.Grows s.switchAway region := by
  unfold switchAway
  split_ifs
  · exact grows_freeDeadFibers { s with activeFiber := none }
  · exact s.grows_switchToFront

/-- Adding a fiber allocates the region it is given or reuses a dead one, so no other region is
allocated. -/
theorem grows_addFiber (s : Scheduler) (function argument : ℕ) (region : Option FiberId) :
    s.Grows (s.addFiber function argument region).1 region := by
  unfold addFiber takeFiber
  rcases s.deadFiberList.getLast? with _ | fiber
  · rcases region with _ | fiber
    · exact .of_eq rfl
    · refine ⟨[(fiber, .added), (fiber, .allocated)], rfl, ?_⟩
      simp
  · exact .of_cons rfl (by simp)

/-- Adding a fiber that runs at once allocates no other region than the one it is given. -/
theorem grows_addAndRunFiber (s : Scheduler) (function argument : ℕ) (region : Option FiberId) :
    s.Grows (s.addAndRunFiber function argument region).1 region := by
  unfold addAndRunFiber
  rcases s.activeFiber with _ | active
  · exact .of_eq rfl
  · have hadd := s.grows_addFiber function argument region
    rcases hres : s.addFiber function argument region with ⟨added, _ | _⟩
    · rw [hres] at hadd
      exact hadd
    · rw [hres] at hadd
      apply hadd.trans
      dsimp only
      split
      · exact .of_cons rfl (by simp)
      · exact (Grows.of_cons (t := { added.saveContext active with
          readyFiberList := active :: added.readyFiberList }.log active _) rfl (by simp)).trans
          (.of_cons rfl (by simp))

/-- **A call allocates the region it is given**, or none, whichever operation of the scheduler it
is. -/
theorem grows_apply (s : Scheduler) (useValgrind : Bool) (action : SchedulerAction) :
    s.Grows (s.apply (action.place useValgrind))
      (action.region.map fun region => (fiberAllocate useValgrind region).1) := by
  cases action with
  | addFiber function argument region => exact s.grows_addFiber function argument _
  | addAndRunFiber function argument region => exact s.grows_addAndRunFiber function argument _
  | yieldCurrentFiber =>
      unfold SchedulerAction.place apply yieldCurrentFiber
      rcases s.activeFiber with _ | active
      · exact .of_eq rfl
      · dsimp only
        split_ifs
        · exact .of_eq rfl
        · exact (Grows.of_cons rfl (by simp)).trans (grows_switchToFront _)
  | suspendCurrentFiber =>
      unfold SchedulerAction.place apply suspendCurrentFiber
      rcases s.activeFiber with _ | active
      · exact .of_eq rfl
      · exact (Grows.of_cons rfl (by simp)).trans (grows_switchAway _)
  | resumeFiber fiber => exact .of_cons rfl (by simp)
  | unresumeFiber fiber => exact .of_cons rfl (by simp)
  | exitCurrentFiber =>
      unfold SchedulerAction.place apply exitCurrentFiber
      rcases s.activeFiber with _ | active
      · exact .of_eq rfl
      · exact (Grows.of_cons rfl (by simp)).trans (grows_switchAway _)
  | tick =>
      unfold SchedulerAction.place apply tick
      split_ifs
      · exact .of_eq rfl
      · exact grows_switchToFront { s with context := some s.history.length }

end Scheduler

/-! ## What the events do to the memory -/

/-- The fiber has been allocated and not freed since. -/
def Allocated (history : List (FiberId × FiberEvent)) (fiber : FiberId) : Prop :=
  ∃ phase, replay fiber history = some phase ∧ phase ≠ .unallocated

section Allocated

variable {history : List (FiberId × FiberEvent)} {fiber other : FiberId} {event : FiberEvent}
  {phase : FiberPhase}

/-- What happens to one fiber does not change whether another is allocated. -/
theorem allocated_cons_of_ne (hne : other ≠ fiber) :
    Allocated ((fiber, event) :: history) other ↔ Allocated history other := by
  simp [Allocated, replay, Ne.symm hne]

/-- The event found the fiber in a phase, and led to one. -/
theorem exists_next (h : replay fiber ((fiber, event) :: history) = some phase) :
    ∃ before, replay fiber history = some before ∧ event.next fiber before = some phase := by
  simp only [replay, if_true] at h
  exact Option.bind_eq_some_iff.mp h

/-- A fiber is allocated only where it is not yet: the life cycle allows the event in no other
phase. -/
theorem not_allocated_of_allocated
    (h : replay fiber ((fiber, .allocated) :: history) = some phase) :
    ¬Allocated history fiber := by
  obtain ⟨before, hbefore, hnext⟩ := exists_next h
  rintro ⟨phase', hphase', hne⟩
  rw [hbefore] at hphase'
  cases hphase'
  have hfresh : before = .unallocated ∧ phase = .allocated := by
    simpa using FiberEvent.next_cases hnext
  exact hne hfresh.1

/-- A fiber is freed where it was allocated, and is not allocated then. -/
theorem allocated_of_freed (h : replay fiber ((fiber, .freed) :: history) = some phase) :
    Allocated history fiber ∧ ¬Allocated ((fiber, .freed) :: history) fiber := by
  obtain ⟨before, hbefore, hnext⟩ := exists_next h
  refine ⟨⟨before, hbefore, ?_⟩, ?_⟩
  · rintro rfl
    simp [FiberEvent.next] at hnext
  · rintro ⟨phase', hphase', hne⟩
    rw [h] at hphase'
    cases hphase'
    have hgone : before = .dead ∧ phase = .unallocated := by
      simpa using FiberEvent.next_cases hnext
    exact hne hgone.2

/-- All other events in the life of a fiber find it allocated and leave it so. -/
theorem allocated_of_other (h : replay fiber ((fiber, event) :: history) = some phase)
    (hallocated : event ≠ .allocated) (hfreed : event ≠ .freed) :
    Allocated history fiber ∧ Allocated ((fiber, event) :: history) fiber := by
  obtain ⟨before, hbefore, hnext⟩ := exists_next h
  rcases FiberEvent.next_cases hnext with ⟨rfl, -, -⟩ | ⟨-, rfl | rfl, rfl⟩ | ⟨_, -, rfl, rfl⟩ |
    ⟨_, -, rfl, rfl⟩ | ⟨_, -, rfl, rfl⟩ | ⟨_, -, rfl, rfl⟩ | ⟨_, -, rfl, rfl⟩ | ⟨-, rfl, rfl⟩ |
    ⟨rfl, -, -⟩
  · exact absurd rfl hallocated
  case inr.inr.inr.inr.inr.inr.inr.inr => exact absurd rfl hfreed
  all_goals exact ⟨⟨_, hbefore, by simp⟩, ⟨_, h, by simp⟩⟩

end Allocated

/-- Two regions have no byte in common. -/
def RegionsApart (region region' : ℕ) : Prop :=
  region + fiberSize ≤ region' ∨ region' + fiberSize ≤ region

/-- **The memory's invariant.** -/
structure Housed (useValgrind : Bool) (history : List (FiberId × FiberEvent))
    (memory : FiberMemory) : Prop where
  /-- A fiber has a region, and its fields are those that `Fiber_Allocate` has set. -/
  region : ∀ fiber, Allocated history fiber → ∃ region ∈ memory.regions, 16 ∣ region ∧
    fiberAllocate useValgrind region = (fiber, memory.fields fiber)
  /-- A region has a fiber. -/
  owner : ∀ region ∈ memory.regions, Allocated history (fiberAllocate useValgrind region).1
  /-- The regions are apart. -/
  apart : memory.regions.Pairwise RegionsApart
  /-- Fibers have been started on the stacks of such regions. -/
  starts : ∀ start ∈ memory.starts, start.stackPointer = startStackPointer start.stack ∧
    ∃ region, 16 ∣ region ∧ fiberAllocate useValgrind region = (start.fiber, start.stack)

/-- What `malloc` returns is aligned and apart from all other regions. -/
def FiberMemory.Room (self : FiberMemory) (region : Option ℕ) : Prop :=
  ∀ r ∈ region, 16 ∣ r ∧ ∀ other ∈ self.regions, other ≠ r → RegionsApart r other

namespace Housed

variable {useValgrind : Bool} {history : List (FiberId × FiberEvent)} {memory : FiberMemory}
  {fiber : FiberId} {event : FiberEvent} {phase : FiberPhase} {region : Option ℕ}

/-- No region is given out twice at a time, since the regions do not overlap and are not empty. -/
theorem nodup (h : Housed useValgrind history memory) : memory.regions.Nodup := by
  refine h.apart.imp fun {r r'} hapart he => ?_
  have hregion : fiberSize = 65536 := rfl
  subst he
  unfold RegionsApart at hapart
  omega

/-- A region is allocated that overlaps no other one, so the stacks of all fibers are still apart.
-/
theorem allocate (h : Housed useValgrind history memory) {r : ℕ}
    (hroom : memory.Room (some r))
    (hlegal : replay (fiberAllocate useValgrind r).1
      (((fiberAllocate useValgrind r).1, .allocated) :: history) = some phase) :
    Housed useValgrind (((fiberAllocate useValgrind r).1, .allocated) :: history)
      { memory with
        regions := r :: memory.regions
        fields := Function.update memory.fields (fiberAllocate useValgrind r).1
          (fiberAllocate useValgrind r).2 } := by
  obtain ⟨haligned, hapart⟩ := hroom r rfl
  have hnew := not_allocated_of_allocated hlegal
  have hfresh : ∀ other ∈ memory.regions, other ≠ r := by
    rintro other hother rfl
    exact hnew (h.owner other hother)
  have hself : Allocated (((fiberAllocate useValgrind r).1, .allocated) :: history)
      (fiberAllocate useValgrind r).1 := by
    obtain ⟨before, -, hnext⟩ := exists_next hlegal
    refine ⟨phase, hlegal, ?_⟩
    rintro rfl
    cases before <;> simp [FiberEvent.next] at hnext
  refine ⟨?_, ?_, ?_, h.starts⟩
  · intro other hother
    by_cases hne : other = (fiberAllocate useValgrind r).1
    · subst hne
      exact ⟨r, List.mem_cons_self, haligned, by simp⟩
    · obtain ⟨region, hregion, hok⟩ := h.region other ((allocated_cons_of_ne hne).mp hother)
      refine ⟨region, List.mem_cons_of_mem r hregion, ?_⟩
      simpa [Function.update_of_ne hne] using hok
  · intro region hregion
    rcases List.mem_cons.mp hregion with rfl | hregion
    · exact hself
    · apply (allocated_cons_of_ne ?_).mpr (h.owner region hregion)
      intro he
      exact hfresh region hregion (fiberAllocate_injective he)
  · apply List.pairwise_cons.mpr ⟨?_, h.apart⟩
    intro other hother
    exact hapart other hother (hfresh other hother)

/-- A region is freed: it is one that `malloc` has handed out. -/
theorem free (h : Housed useValgrind history memory)
    (hlegal : replay fiber ((fiber, .freed) :: history) = some phase) :
    fiberFree useValgrind fiber ∈ memory.regions ∧
      Housed useValgrind ((fiber, .freed) :: history)
        { memory with regions := memory.regions.erase (fiberFree useValgrind fiber) } := by
  obtain ⟨hbefore, hafter⟩ := allocated_of_freed hlegal
  obtain ⟨r, hr, -, hfields⟩ := h.region fiber hbefore
  have hfiber : (fiberAllocate useValgrind r).1 = fiber := congrArg Prod.fst hfields
  have hfree : fiberFree useValgrind fiber = r := by
    rw [← hfiber]
    exact fiberFree_fiberAllocate useValgrind r
  rw [hfree]
  have hne : ∀ other, Allocated ((fiber, .freed) :: history) other → other ≠ fiber := by
    rintro other hother rfl
    exact hafter hother
  refine ⟨hr, ?_, ?_, h.apart.sublist List.erase_sublist, h.starts⟩
  · intro other hother
    obtain ⟨region, hregion, hok⟩ :=
      h.region other ((allocated_cons_of_ne (hne other hother)).mp hother)
    refine ⟨region, (h.nodup.mem_erase_iff).mpr ⟨?_, hregion⟩, hok⟩
    rintro rfl
    have hother' : (fiberAllocate useValgrind region).1 = other := congrArg Prod.fst hok.2
    exact hne other hother (hother'.symm.trans hfiber)
  · intro region hregion
    obtain ⟨hrne, hregion⟩ := h.nodup.mem_erase_iff.mp hregion
    apply (allocated_cons_of_ne ?_).mpr (h.owner region hregion)
    intro he
    exact hrne (fiberAllocate_injective (he.trans hfiber.symm))

/-- Any other event than these leaves the regions and the fields of all fibers alone. -/
theorem other (h : Housed useValgrind history memory)
    (hlegal : replay fiber ((fiber, event) :: history) = some phase)
    (hallocated : event ≠ .allocated) (hfreed : event ≠ .freed) :
    Housed useValgrind ((fiber, event) :: history) memory := by
  obtain ⟨hbefore, hafter⟩ := allocated_of_other hlegal hallocated hfreed
  have hsame : ∀ other, Allocated ((fiber, event) :: history) other ↔ Allocated history other := by
    intro other
    by_cases hne : other = fiber
    · rw [hne]
      exact iff_of_true hafter hbefore
    · exact allocated_cons_of_ne hne
  refine ⟨?_, ?_, h.apart, h.starts⟩
  · intro other hother
    exact h.region other ((hsame other).mp hother)
  · intro region hregion
    exact (hsame _).mpr (h.owner region hregion)

/-- A fiber is started that has been allocated, on the stack that lies in its own region. -/
theorem start (h : Housed useValgrind history memory)
    (hlegal : replay fiber ((fiber, .dispatched none) :: history) = some phase) :
    Housed useValgrind ((fiber, .dispatched none) :: history)
      { memory with
        starts := ⟨fiber, memory.fields fiber, startStackPointer (memory.fields fiber)⟩ ::
          memory.starts } := by
  have hkept := h.other hlegal (by simp) (by simp)
  obtain ⟨hbefore, -⟩ := allocated_of_other hlegal (by simp) (by simp)
  obtain ⟨region, -, haligned, hfields⟩ := h.region fiber hbefore
  refine ⟨hkept.region, hkept.owner, hkept.apart, ?_⟩
  intro entry hentry
  rcases List.mem_cons.mp hentry with rfl | hentry
  · exact ⟨rfl, region, haligned, hfields⟩
  · exact h.starts entry hentry

/-- **One event** keeps the invariant, and is possible, one case for each kind of event in the life
of a fiber. -/
theorem handle (h : Housed useValgrind history memory) (hroom : memory.Room region)
    (hlegal : replay fiber ((fiber, event) :: history) = some phase)
    (hgiven : event = .allocated →
      region.map (fun r => (fiberAllocate useValgrind r).1) = some fiber) :
    ∃ memory', memory.handle useValgrind region (fiber, event) = some memory' ∧
      Housed useValgrind ((fiber, event) :: history) memory' ∧ memory'.Room region := by
  cases event with
  | allocated =>
      obtain ⟨r, rfl, rfl⟩ := Option.map_eq_some_iff.mp (hgiven rfl)
      refine ⟨_, rfl, h.allocate hroom hlegal, ?_⟩
      rintro r' ⟨⟩
      obtain ⟨haligned, hapart⟩ := hroom r rfl
      refine ⟨haligned, ?_⟩
      intro other hother hne
      exact hapart other ((List.mem_cons.mp hother).resolve_left hne) hne
  | dispatched context =>
      rcases context with _ | context
      · exact ⟨_, rfl, h.start hlegal, hroom⟩
      · exact ⟨_, rfl, h.other hlegal (by simp) (by simp), hroom⟩
  | freed =>
      obtain ⟨hin, hkept⟩ := h.free hlegal
      refine ⟨_, if_pos hin, hkept, ?_⟩
      intro r hr
      obtain ⟨haligned, hapart⟩ := hroom r hr
      refine ⟨haligned, ?_⟩
      intro other hother hne
      exact hapart other (List.mem_of_mem_erase hother) hne
  | _ => exact ⟨_, rfl, h.other hlegal (by simp) (by simp), hroom⟩

/-- **All events of a call**, from the oldest on, are handled one after the other, by induction over
them. -/
theorem handleAll {events : List (FiberId × FiberEvent)} (h : Housed useValgrind history memory)
    (hroom : memory.Room region)
    (hlegal : ∀ fiber, ∃ phase, replay fiber (events ++ history) = some phase)
    (hgiven : ∀ fiber, (fiber, .allocated) ∈ events →
      region.map (fun r => (fiberAllocate useValgrind r).1) = some fiber) :
    ∃ memory', memory.handleAll useValgrind region events = some memory' ∧
      Housed useValgrind (events ++ history) memory' ∧ memory'.Room region := by
  induction events with
  | nil => exact ⟨memory, rfl, h, hroom⟩
  | cons entry events ih =>
      obtain ⟨fiber, event⟩ := entry
      have hlegal' : ∀ other, ∃ phase, replay other (events ++ history) = some phase := by
        intro other
        obtain ⟨phase, hphase⟩ := hlegal other
        have hsplit : replay other ([(fiber, event)] ++ (events ++ history)) = some phase := hphase
        exact replay_of_append hsplit
      obtain ⟨memory', hmemory', hkept, hroom'⟩ := ih hlegal'
        fun other hin => hgiven other (List.mem_cons_of_mem _ hin)
      obtain ⟨phase, hphase⟩ := hlegal fiber
      obtain ⟨memory'', hmemory'', hkept', hroom''⟩ := hkept.handle hroom' hphase (by
        rintro rfl
        exact hgiven fiber List.mem_cons_self)
      refine ⟨memory'', ?_, hkept', hroom''⟩
      rw [FiberMemory.handleAll, hmemory']
      exact hmemory''

end Housed

/-! ## Runs -/

/-- The scheduler's invariant and that of its memory. -/
structure FiberScheduler.Sound (useValgrind : Bool) (s : FiberScheduler) : Prop where
  accounted : Accounted s.scheduler
  housed : Housed useValgrind s.scheduler.history s.memory

namespace FiberScheduler.Sound

variable {useValgrind : Bool} {self : FiberScheduler} {fiber : FiberId} {region : Option ℕ}
  {action : SchedulerAction}

/-- The history has a fiber allocated exactly if the scheduler counts its region among those it
has. -/
theorem allocated_iff (h : Sound useValgrind self) :
    Allocated self.scheduler.history fiber ↔ fiber ∈ self.scheduler.regions := by
  have hphase := h.accounted.history fiber
  have hiff := h.accounted.phase_eq_unallocated_iff fiber
  constructor
  · rintro ⟨phase, hreplay, hne⟩
    rw [hphase] at hreplay
    cases hreplay
    by_contra hout
    exact hne (hiff.mpr hout)
  · intro hin
    refine ⟨_, hphase, ?_⟩
    intro he
    exact hiff.mp he hin

/-- A new region is no fiber's: it overlaps none of those in use, so the fiber it gives is at an
address of its own. -/
theorem fresh (h : Sound useValgrind self) (hregion : self.memory.Malloced region) :
    self.scheduler.Fresh (region.map fun region => (fiberAllocate useValgrind region).1) := by
  rintro fiber hfiber hin
  obtain ⟨r, rfl, rfl⟩ := Option.map_eq_some_iff.mp hfiber
  obtain ⟨r', hr', -, hfields⟩ := h.housed.region _ (h.allocated_iff.mpr hin)
  have hrecord : (fiberAllocate useValgrind r').1 = (fiberAllocate useValgrind r).1 := by
    rw [hfields]
  have hsame : r' = r := fiberAllocate_injective hrecord
  have hapart := (hregion r rfl).2 r' hr'
  have hsize : fiberSize = 65536 := rfl
  omega

/-- What may be asked of the scheduler with memory may be asked of the one without, at the fiber's
address in the region that `malloc` returns; and there is room for it. -/
theorem enabled (h : Sound useValgrind self) (hen : self.Enabled action) :
    self.scheduler.Enabled (action.place useValgrind) ∧ self.memory.Room action.region := by
  have hroom : ∀ region, self.memory.Malloced region → self.memory.Room region :=
    fun region hregion r hr => ⟨(hregion r hr).1, fun other hother _ =>
      (hregion r hr).2 other hother⟩
  cases action with
  | addFiber function argument region => exact ⟨h.fresh hen, hroom region hen⟩
  | addAndRunFiber function argument region => exact ⟨⟨hen.1, h.fresh hen.2⟩, hroom region hen.2⟩
  | _ => exact ⟨hen, by rintro r ⟨⟩⟩

/-- **Every call that may be made can be carried out**, and keeps the invariants. -/
theorem step (h : Sound useValgrind self) (hen : self.Enabled action) :
    ∃ next, (fiberSystem useValgrind).step self action = some next ∧ Sound useValgrind next := by
  obtain ⟨henabled, hroom⟩ := h.enabled hen
  have haccounted := h.accounted.apply henabled
  obtain ⟨events, hhistory, hgiven⟩ := self.scheduler.grows_apply useValgrind action
  have hevents : (self.scheduler.apply (action.place useValgrind)).history.take
      ((self.scheduler.apply (action.place useValgrind)).history.length -
        self.scheduler.history.length) = events := by
    rw [hhistory, List.length_append, Nat.add_sub_cancel]
    exact List.take_left
  obtain ⟨memory, hmemory, hhoused, -⟩ := h.housed.handleAll hroom
    (fun fiber => ⟨_, hhistory ▸ haccounted.history fiber⟩) hgiven
  refine ⟨⟨self.scheduler.apply (action.place useValgrind), memory⟩, ?_, haccounted, ?_⟩
  · simp only [fiberSystem, if_pos hen, hevents, hmemory, Option.map_some]
  · rw [hhistory]
    exact hhoused

end FiberScheduler.Sound

/-- The scheduler with its memory is sound in every state that a run can reach, for either build. -/
theorem sound_of_reachable {useValgrind : Bool} {s : FiberScheduler}
    (h : (fiberSystem useValgrind).Reachable s) : s.Sound useValgrind := by
  refine StepSystem.ReachableWhen.induct (I := FiberScheduler.Sound useValgrind) ?_ ?_ h
  · rintro ⟨scheduler, memory⟩ ⟨⟨fibers, rfl⟩, hregions, hstarts⟩
    dsimp only at hregions hstarts
    refine ⟨accounted_of_reachable (.init ⟨fibers, rfl⟩), ?_, ?_, ?_, ?_⟩
    · rintro fiber ⟨phase, hphase, hne⟩
      cases hphase
      exact absurd rfl hne
    · intro region hregion
      rw [hregions] at hregion
      exact absurd hregion List.not_mem_nil
    · rw [hregions]
      exact List.Pairwise.nil
    · intro start hstart
      rw [hstarts] at hstart
      exact absurd hstart List.not_mem_nil
  · intro s action next _ hs _ hstep
    have hen : s.Enabled action := by
      by_contra hnot
      simp [fiberSystem, hnot] at hstep
    obtain ⟨next', hnext', hsound⟩ := hs.step hen
    rw [hstep] at hnext'
    cases hnext'
    exact hsound

/-- **The memory of fibers**, in both builds and whatever regions `malloc` returns. A fiber's record
and its stack are apart in one region; every call can be carried out, so `Fiber_Free` gives back
just such a region; and a fiber, new or used again, is started on its stack. The stack pointer it is
started with is aligned as the calling convention asks if and only if `USE_VALGRIND` is defined. -/
theorem fiber_memory {useValgrind : Bool} {s : FiberScheduler}
    (h : (fiberSystem useValgrind).Reachable s) :
    (∀ fiber ∈ s.scheduler.regions, ∃ region ∈ s.memory.regions, 16 ∣ region ∧
      FitsIn useValgrind region fiber (s.memory.fields fiber)) ∧
    (∀ action, s.Enabled action → ∃ next, (fiberSystem useValgrind).step s action = some next) ∧
    ∀ start ∈ s.memory.starts,
      (∃ region, 16 ∣ region ∧ FitsIn useValgrind region start.fiber start.stack) ∧
      start.stack.Contains start.stackPointer ∧
      (EntryAligned start.stackPointer ↔ useValgrind = true) := by
  have hsound := sound_of_reachable h
  refine ⟨?_, ?_, ?_⟩
  · intro fiber hfiber
    obtain ⟨region, hregion, haligned, hfields⟩ :=
      hsound.housed.region fiber (hsound.allocated_iff.mpr hfiber)
    have hfits := fitsIn_fiberAllocate useValgrind region
    rw [hfields] at hfits
    exact ⟨region, hregion, haligned, hfits⟩
  · intro action hen
    obtain ⟨next, hstep, -⟩ := hsound.step hen
    exact ⟨next, hstep⟩
  · intro start hstart
    obtain ⟨hpointer, region, haligned, hfields⟩ := hsound.housed.starts start hstart
    have hfits := fitsIn_fiberAllocate useValgrind region
    have hcontains := contains_startStackPointer useValgrind region
    have hentry := entryAligned_iff useValgrind haligned
    rw [hfields] at hfits hcontains hentry
    rw [hpointer]
    exact ⟨⟨region, haligned, hfits⟩, hcontains, hentry⟩

/-- No fiber, and nothing on the heap. -/
def noFibers : FiberScheduler where
  scheduler := .init fun _ => ⟨none, 0, 0⟩
  memory := ⟨[], fun _ => ⟨0, 0⟩, []⟩

/-- The first fiber exits while a second is ready, and the second uses its region again. -/
def regionTwice : List SchedulerAction :=
  [.addFiber 7 0 (some 65536), .tick, .addFiber 8 0 (some 131072), .exitCurrentFiber,
    .addFiber 9 0 none, .exitCurrentFiber]

/-- A region is used by two fibers one after the other. In the build for Valgrind all three entries
have the stack pointer that the calling convention asks for. -/
theorem fiber_memory_regionTwice :
    ∃ s, (fiberSystem true).run noFibers regionTwice = some s ∧
      s.memory.starts.map (·.fiber) = [131008, 196544, 131008] ∧
      ∀ start ∈ s.memory.starts, EntryAligned start.stackPointer := by
  refine ⟨_, rfl, by decide, ?_⟩
  intro start hstart
  have hmemory := fiber_memory (StepSystem.reachable_of_run ⟨⟨_, rfl⟩, rfl, rfl⟩
    (rfl : (fiberSystem true).run noFibers regionTwice = some _))
  exact (hmemory.2.2 start hstart).2.2.mpr rfl

/-- Without `USE_VALGRIND` a fiber is started with a stack pointer of the wrong alignment. -/
theorem not_entryAligned :
    ¬∀ useValgrind s, (fiberSystem useValgrind).Reachable s →
      ∀ start ∈ s.memory.starts, EntryAligned start.stackPointer := by
  intro h
  have haligned := h false _ (StepSystem.reachable_of_run ⟨⟨_, rfl⟩, rfl, rfl⟩
    (rfl : (fiberSystem false).run noFibers [.addFiber 7 0 (some 65536), .tick] = some _))
    ⟨131016, ⟨65536, 65480⟩, 131008⟩ (by decide)
  revert haligned
  unfold EntryAligned
  decide

end Pixy.Sched
