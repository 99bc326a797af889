import Pixy.Sched.Awake
import Pixy.Sched.Lifecycle
import Pixy.Sync.Semaphore

/-!
# Semaphore wake-ups

The front waiter of a list is woken before it leaves the list, and put back to sleep when another
fiber takes what it was woken for. So between two calls the code keeps to this: of the fibers in a
waiter list only the front one may be awake, and it is awake exactly when the counter lets it
through (`Front`).

* `Moves` is what waking, or putting back, the front of one list does to everything else; the code
  of both functions is a composition of such moves (`moves_resumeFront`, `moves_unresumeFront`).
* `WellQueued` is the invariant. It reads the same in the mirror (`WellQueued.mirror`), so only
  `Semaphore_Down` is looked at; `up_eq_mirror` does the rest.
* `semaphore_wake_up` is the result for every reachable state.
-/

namespace Pixy.Sync

open Pixy.Found Pixy.Sched

/-! ## One waiter list -/

/-- Of the fibers in a waiter list only the front one may be awake, and it is exactly when `go`
holds. -/
structure Front (awake : FiberId → Prop) (waiters : List FiberId) (go : Prop) : Prop where
  /-- The front waiter is awake when it may go. -/
  front : ∀ fiber, waiters.head? = some fiber → (awake fiber ↔ go)
  /-- Those behind it sleep. -/
  behind : ∀ fiber ∈ waiters.tail, ¬ awake fiber

namespace Front

variable {awake awake' : FiberId → Prop} {waiters : List FiberId} {go go' : Prop}

/-- Only the waiters' own sleep matters, and only the truth of the condition. -/
theorem congr (h : Front awake waiters go) (ha : ∀ fiber ∈ waiters, awake' fiber ↔ awake fiber)
    (hgo : go' ↔ go) : Front awake' waiters go' where
  front fiber hf := by rw [ha fiber (List.mem_of_head? hf), hgo, h.front fiber hf]
  behind fiber hf := by rw [ha fiber (List.mem_of_mem_tail hf)]; exact h.behind fiber hf

/-- Where the front may not go, all the waiters of the list sleep, the front one among them. -/
theorem asleep (h : Front awake waiters go) (hgo : ¬ go) : ∀ fiber ∈ waiters, ¬ awake fiber := by
  intro fiber hf
  rcases waiters with _ | ⟨first, rest⟩
  · cases hf
  · rcases List.mem_cons.mp hf with rfl | hf
    · rwa [h.front fiber rfl]
    · exact h.behind fiber hf

/-- And conversely, where all the waiters sleep and the front one may not go, the list is in order.
-/
theorem of_asleep (h : ∀ fiber ∈ waiters, ¬ awake fiber) (hgo : ¬ go) : Front awake waiters go where
  front fiber hf := iff_of_false (h fiber (List.mem_of_head? hf)) hgo
  behind fiber hf := h fiber (List.mem_of_mem_tail hf)

/-- A waiter that is awake is the front one, and may go. -/
theorem eq_cons_of_awake (h : Front awake waiters go) {fiber : FiberId} (hf : fiber ∈ waiters)
    (ha : awake fiber) : go ∧ ∃ rest, waiters = fiber :: rest := by
  rcases waiters with _ | ⟨first, rest⟩
  · cases hf
  · rcases List.mem_cons.mp hf with rfl | hf
    · exact ⟨(h.front fiber rfl).mp ha, rest, rfl⟩
    · exact absurd ha (h.behind fiber hf)

end Front

/-- What happens to the rest when the front of one waiter list is woken or put back, or left
alone: the list is as `Front` asks, and no other fiber is touched. -/
structure Moves (scheduler next : Scheduler) (waiters : List FiberId) (go : Prop) : Prop where
  /-- The scheduler's invariant is kept. -/
  accounted : Accounted next
  /-- The list is in order. -/
  front : Front next.Awake waiters go
  /-- Fibers outside the list keep their state. -/
  frame : ∀ fiber ∉ waiters, next.Awake fiber ↔ scheduler.Awake fiber
  /-- Nobody comes to life or dies. -/
  live : ∀ fiber, next.Live fiber ↔ scheduler.Live fiber
  /-- The same fiber runs. -/
  active : next.activeFiber = scheduler.activeFiber

section Moves

variable {scheduler : Scheduler} {waiters : List FiberId} {go go' : Prop}

/-- A list in order may be left alone, and what is done to the scheduler is nothing. -/
theorem Moves.refl (h : Accounted scheduler) (hf : Front scheduler.Awake waiters go) :
    Moves scheduler scheduler waiters go :=
  ⟨h, hf, fun _ _ => .rfl, fun _ => .rfl, rfl⟩

/-- Waking the front of a list that slept, once it may go, puts the list in order again and touches
no fiber outside it. -/
theorem moves_resumeFront (h : Accounted scheduler) (hf : Front scheduler.Awake waiters go)
    (hwas : ¬ go) (hgo : go') (hnodup : waiters.Nodup)
    (hlive : ∀ fiber ∈ waiters, scheduler.Live fiber) :
    Moves scheduler (Semaphore.resumeFront scheduler waiters) waiters go' := by
  rcases waiters with _ | ⟨first, rest⟩
  · exact .refl h ⟨nofun, nofun⟩
  · have hsleep := hf.asleep hwas
    have hs : scheduler.Suspended first :=
      Scheduler.suspended_iff.mpr
        ⟨hlive first List.mem_cons_self, hsleep first List.mem_cons_self⟩
    have hne : ∀ fiber ∈ rest, fiber ≠ first := fun fiber hf he =>
      (List.nodup_cons.mp hnodup).1 (he ▸ hf)
    refine ⟨h.resume hs, ⟨?_, ?_⟩, ?_, fun _ => .rfl, rfl⟩
    · rintro _ ⟨⟩
      exact iff_of_true (Accounted.awake_resumeFiber.mpr (.inl rfl)) hgo
    · intro fiber hr ha
      rcases Accounted.awake_resumeFiber.mp ha with rfl | ha
      · exact hne fiber hr rfl
      · exact hsleep fiber (List.mem_cons_of_mem _ hr) ha
    · intro fiber hnot
      have : fiber ≠ first := fun he => hnot (he ▸ List.mem_cons_self)
      exact Accounted.awake_resumeFiber.trans (by simp [this])

/-- Putting back the front waiter of a list, which was woken and has not run yet, leaves a list that
sleeps, and no other fiber is touched. -/
theorem moves_unresumeFront (h : Accounted scheduler) (hf : Front scheduler.Awake waiters go)
    (hwas : go) (hgo : ¬ go') (hrun : ∀ fiber ∈ waiters, scheduler.activeFiber ≠ some fiber) :
    Moves scheduler (Semaphore.unresumeFront scheduler waiters) waiters go' := by
  rcases waiters with _ | ⟨first, rest⟩
  · exact .refl h ⟨nofun, nofun⟩
  · have ha : scheduler.Awake first := (hf.front first rfl).mpr hwas
    have hr := ha.mem_ready (hrun first List.mem_cons_self)
    refine ⟨h.unresume hr, .of_asleep ?_ hgo, ?_, fun _ => .rfl, rfl⟩
    · intro fiber hmem hawake
      obtain ⟨hne, hawake⟩ := (h.awake_unresumeFiber hr).mp hawake
      exact hf.behind fiber ((List.mem_cons.mp hmem).resolve_left hne) hawake
    · intro fiber hnot
      have : fiber ≠ first := fun he => hnot (he ▸ List.mem_cons_self)
      exact (h.awake_unresumeFiber hr).trans (by simp [this])

end Moves

/-! ## The invariant -/

/-- **A scheduler and a semaphore between two calls.** The counter is within its bounds, the waiters
are distinct live fibers, and both lists are in order. -/
structure WellQueued (scheduler : Scheduler) (s : Semaphore) : Prop where
  /-- The lower bound holds. -/
  lower : s.minValue ≤ s.value
  /-- The upper bound holds. -/
  upper : s.value ≤ s.maxValue
  /-- No fiber waits twice. -/
  nodup : (s.downWaiterList ++ s.upWaiterList).Nodup
  /-- Those who wait are alive. -/
  live : ∀ fiber ∈ s.downWaiterList ++ s.upWaiterList, scheduler.Live fiber
  /-- The front down-waiter is awake when the counter can be lowered. -/
  down : Front scheduler.Awake s.downWaiterList (s.minValue < s.value)
  /-- The front up-waiter is awake when the counter can be raised. -/
  up : Front scheduler.Awake s.upWaiterList (s.value < s.maxValue)

namespace WellQueued

variable {scheduler : Scheduler} {s : Semaphore} {fiber : FiberId}

/-- The invariant reads the same in the mirror, where those who wait to go down are those who wait
to go up. -/
theorem mirror (h : WellQueued scheduler s) : WellQueued scheduler s.mirror where
  lower := Int.neg_le_neg h.upper
  upper := Int.neg_le_neg h.lower
  nodup := List.nodup_append_comm.mp h.nodup
  live fiber hf := h.live fiber (List.mem_append.mpr (List.mem_append.mp hf).symm)
  down := h.up.congr (fun _ _ => .rfl) Int.neg_lt_neg_iff
  up := h.down.congr (fun _ _ => .rfl) Int.neg_lt_neg_iff

/-- The queues depend on the scheduler through their waiters alone, so what it does to other fibers
keeps them. -/
theorem congr (h : WellQueued scheduler s) {next : Scheduler}
    (hnext : ∀ fiber ∈ s.downWaiterList ++ s.upWaiterList,
      next.Live fiber ∧ (next.Awake fiber ↔ scheduler.Awake fiber)) : WellQueued next s where
  lower := h.lower
  upper := h.upper
  nodup := h.nodup
  live fiber hf := (hnext fiber hf).1
  down := h.down.congr (fun fiber hf => (hnext fiber (List.mem_append_left _ hf)).2) .rfl
  up := h.up.congr (fun fiber hf => (hnext fiber (List.mem_append_right _ hf)).2) .rfl

/-- The last statement of `Semaphore_Down` puts the list of up-waiters in order. -/
theorem moves_downTail (h : Accounted scheduler) (hupper : s.value + 1 ≤ s.maxValue)
    (hnodup : s.upWaiterList.Nodup) (hlive : ∀ fiber ∈ s.upWaiterList, scheduler.Live fiber)
    (hf : Front scheduler.Awake s.upWaiterList (s.value + 1 < s.maxValue)) :
    Moves scheduler (s.downTail scheduler) s.upWaiterList (s.value < s.maxValue) := by
  unfold Semaphore.downTail
  split_ifs with hedge
  · exact moves_resumeFront h hf (by omega) (by omega) hnodup hlive
  · exact .refl h (hf.congr (fun _ _ => .rfl) (by omega))

/-- First one list is put in order, then the other; neither move disturbs the other list. -/
theorem of_moves {first last : Scheduler} (hlower : s.minValue ≤ s.value)
    (hupper : s.value ≤ s.maxValue) (hnodup : (s.downWaiterList ++ s.upWaiterList).Nodup)
    (hlive : ∀ fiber ∈ s.downWaiterList ++ s.upWaiterList, scheduler.Live fiber)
    (hdown : Moves scheduler first s.downWaiterList (s.minValue < s.value))
    (hup : Moves first last s.upWaiterList (s.value < s.maxValue)) : WellQueued last s where
  lower := hlower
  upper := hupper
  nodup := hnodup
  live fiber hf := (hup.live fiber).mpr ((hdown.live fiber).mpr (hlive fiber hf))
  down := hdown.front.congr
    (fun fiber hf => hup.frame fiber fun hf' => List.disjoint_of_nodup_append hnodup hf hf') .rfl
  up := hup.front

/-! ## What `Semaphore_Down` does -/

/-- The first half of `Semaphore_Down`, called by a fiber that waits for nothing: it blocks as the
last down-waiter, or returns with the lists as they were. -/
theorem down_spec (h : WellQueued scheduler s) (hacc : Accounted scheduler)
    (ha : scheduler.activeFiber = some fiber)
    (hnot : fiber ∉ s.downWaiterList ++ s.upWaiterList) :
    Accounted (s.down scheduler fiber).2.1 ∧
      WellQueued (s.down scheduler fiber).2.1 (s.down scheduler fiber).1 ∧
      (s.down scheduler fiber).1.downWaiterList =
        (if (s.down scheduler fiber).2.2 then s.downWaiterList ++ [fiber]
          else s.downWaiterList) ∧
      (s.down scheduler fiber).1.upWaiterList = s.upWaiterList := by
  have hlower := h.lower
  have hupper := h.upper
  have hdown : fiber ∉ s.downWaiterList := fun hf => hnot (List.mem_append_left _ hf)
  have hup : fiber ∉ s.upWaiterList := fun hf => hnot (List.mem_append_right _ hf)
  by_cases hmin : s.value = s.minValue
  · -- it blocks, and everyone it queues behind sleeps
    have hblock : s.down scheduler fiber =
        ({ s with downWaiterList := s.downWaiterList ++ [fiber] },
          scheduler.suspendCurrentFiber, true) := if_pos hmin
    rw [hblock]
    refine ⟨hacc.suspendCurrentFiber, ⟨hlower, hupper, ?_, ?_, ?_, ?_⟩, rfl, rfl⟩
    · have := List.nodup_middle.mpr (List.nodup_cons.mpr ⟨hnot, h.nodup⟩)
      simpa using this
    · intro other hother
      rw [Accounted.live_suspendCurrentFiber ha]
      by_cases hne : other = fiber
      · exact hne ▸ hacc.live_of_awake (.inl ha)
      · refine h.live other ?_
        simp only [List.mem_append, List.mem_singleton] at hother ⊢
        tauto
    · refine .of_asleep (fun other hother => ?_) (by simp [hmin])
      rw [hacc.awake_suspendCurrentFiber ha]
      rintro ⟨hne, hawake⟩
      refine h.down.asleep (by omega) other ?_ hawake
      exact (List.mem_append.mp hother).resolve_right fun hf => hne (List.mem_singleton.mp hf)
    · refine h.up.congr (fun other hother => ?_) .rfl
      rw [hacc.awake_suspendCurrentFiber ha]
      exact and_iff_right fun he => hup (he ▸ hother)
  · -- it passes; the front down-waiter is put back if nothing is left for it
    have hpass : s.down scheduler fiber =
        ({ s with value := s.value - 1 },
          Semaphore.downTail { s with value := s.value - 1 }
            (if s.value - 1 = s.minValue then Semaphore.unresumeFront scheduler s.downWaiterList
              else scheduler), false) := if_neg hmin
    have hfirst : Moves scheduler
        (if s.value - 1 = s.minValue then Semaphore.unresumeFront scheduler s.downWaiterList
          else scheduler) s.downWaiterList (s.minValue < s.value - 1) := by
      split_ifs with hedge
      · exact moves_unresumeFront hacc h.down (by omega) (by omega) fun other hother he =>
          hdown (Option.some.inj (ha.symm.trans he) ▸ hother)
      · exact .refl hacc (h.down.congr (fun _ _ => .rfl) (by omega))
    have hlast := moves_downTail (s := { s with value := s.value - 1 }) hfirst.accounted
      (by simpa using hupper) (List.nodup_append.mp h.nodup).2.1
      (fun other hf => (hfirst.live other).mpr (h.live other (List.mem_append_right _ hf)))
      (h.up.congr (fun other hf => hfirst.frame other fun hf' =>
        List.disjoint_of_nodup_append h.nodup hf' hf) (by simp))
    rw [hpass]
    exact ⟨hlast.accounted, of_moves (s := { s with value := s.value - 1 }) (by simp; omega)
      (by simp; omega) h.nodup h.live hfirst hlast, rfl, rfl⟩

/-- A down-waiter that runs was let through: it is the front one and the counter can be lowered. -/
theorem woken (h : WellQueued scheduler s) (ha : scheduler.activeFiber = some fiber)
    (hf : fiber ∈ s.downWaiterList) :
    s.minValue < s.value ∧ ∃ rest, s.downWaiterList = fiber :: rest :=
  h.down.eq_cons_of_awake hf (.inl ha)

/-- The second half of `Semaphore_Down`: the waiter leaves the list, and the lists are in order for
the counter as it is then. -/
theorem downWoken_spec (h : WellQueued scheduler s) (hacc : Accounted scheduler)
    (ha : scheduler.activeFiber = some fiber) (hf : fiber ∈ s.downWaiterList) :
    Accounted (s.downWoken scheduler fiber).2 ∧
      WellQueued (s.downWoken scheduler fiber).2 (s.downWoken scheduler fiber).1 ∧
      s.downWaiterList = fiber :: (s.downWoken scheduler fiber).1.downWaiterList ∧
      (s.downWoken scheduler fiber).1.upWaiterList = s.upWaiterList := by
  obtain ⟨hgo, rest, hrest⟩ := h.woken ha hf
  have hupper := h.upper
  have hnodup : (rest ++ s.upWaiterList).Nodup := by
    have := h.nodup
    rw [hrest, List.cons_append] at this
    exact (List.nodup_cons.mp this).2
  have hlive : ∀ other ∈ rest ++ s.upWaiterList, scheduler.Live other := fun other hother =>
    h.live other (by rw [hrest]; exact List.mem_cons_of_mem _ hother)
  have hsleep : ∀ other ∈ rest, ¬ scheduler.Awake other := by
    have := h.down.behind
    rwa [hrest] at this
  have hparts := List.nodup_append.mp hnodup
  -- the next down-waiter is woken if something is left
  have hfirst : Moves scheduler
      (if s.value - 1 > s.minValue then Semaphore.resumeFront scheduler rest else scheduler) rest
      (s.minValue < s.value - 1) := by
    split_ifs with hleft
    · exact moves_resumeFront hacc (Front.of_asleep hsleep not_false) not_false hleft hparts.1
        fun other hother => hlive other (List.mem_append_left _ hother)
    · exact .refl hacc (.of_asleep hsleep hleft)
  have hlast := moves_downTail
    (s := { s with downWaiterList := rest, value := s.value - 1 }) hfirst.accounted
    (by simpa using hupper) hparts.2.1
    (fun other hother => (hfirst.live other).mpr (hlive other (List.mem_append_right _ hother)))
    (h.up.congr (fun other hother => hfirst.frame other fun hother' =>
      List.disjoint_of_nodup_append hnodup hother' hother) (by simp))
  have herase : s.downWaiterList.erase fiber = rest := by simp [hrest]
  simp only [Semaphore.downWoken, herase]
  exact ⟨hlast.accounted, of_moves (s := { s with downWaiterList := rest, value := s.value - 1 })
    (by simp; omega) (by simp; omega) hnodup hlive hfirst hlast, hrest, trivial⟩

/-! ## What `Semaphore_Up` does, in the mirror -/

/-- **What `Semaphore_Up` keeps**: the books of the scheduler and the lists of the semaphore; its
caller joins those who wait to go up exactly if it blocks. -/
theorem up_spec (h : WellQueued scheduler s) (hacc : Accounted scheduler)
    (ha : scheduler.activeFiber = some fiber)
    (hnot : fiber ∉ s.downWaiterList ++ s.upWaiterList) :
    Accounted (s.up scheduler fiber).2.1 ∧
      WellQueued (s.up scheduler fiber).2.1 (s.up scheduler fiber).1 ∧
      (s.up scheduler fiber).1.upWaiterList =
        (if (s.up scheduler fiber).2.2 then s.upWaiterList ++ [fiber] else s.upWaiterList) ∧
      (s.up scheduler fiber).1.downWaiterList = s.downWaiterList := by
  obtain ⟨hacc', hq, hdown, hup⟩ := h.mirror.down_spec hacc ha
    (fun hf => hnot (List.mem_append.mpr (List.mem_append.mp hf).symm))
  rw [Semaphore.up_eq_mirror]
  exact ⟨hacc', hq.mirror, hdown, hup⟩

/-- **What `Semaphore_Up` keeps after its suspension**: its caller was the first to wait there, and
leaves the list as it returns. -/
theorem upWoken_spec (h : WellQueued scheduler s) (hacc : Accounted scheduler)
    (ha : scheduler.activeFiber = some fiber) (hf : fiber ∈ s.upWaiterList) :
    Accounted (s.upWoken scheduler fiber).2 ∧
      WellQueued (s.upWoken scheduler fiber).2 (s.upWoken scheduler fiber).1 ∧
      s.upWaiterList = fiber :: (s.upWoken scheduler fiber).1.upWaiterList ∧
      (s.upWoken scheduler fiber).1.downWaiterList = s.downWaiterList := by
  obtain ⟨hacc', hq, hdown, hup⟩ := h.mirror.downWoken_spec hacc ha hf
  rw [Semaphore.upWoken_eq_mirror]
  exact ⟨hacc', hq.mirror, hdown, hup⟩

end WellQueued

/-! ## Whom it leaves alone -/

/-- A fiber is as alive and as awake as it was. -/
structure Untouched (scheduler next : Scheduler) (fiber : FiberId) : Prop where
  /-- It is alive as before. -/
  live : next.Live fiber ↔ scheduler.Live fiber
  /-- It is awake as before. -/
  awake : next.Awake fiber ↔ scheduler.Awake fiber

namespace Untouched

variable {scheduler next last : Scheduler} {fiber : FiberId}

/-- Where nothing is done a fiber is untouched, as alive and as awake as it was. -/
theorem refl : Untouched scheduler scheduler fiber := ⟨.rfl, .rfl⟩

/-- A fiber that is untouched by one call and then by another is untouched by both. -/
theorem trans (h : Untouched scheduler next fiber) (h' : Untouched next last fiber) :
    Untouched scheduler last fiber :=
  ⟨h'.live.trans h.live, h'.awake.trans h.awake⟩

/-- An untouched fiber is suspended exactly if it was, as that is to be alive and not awake. -/
theorem suspended (h : Untouched scheduler next fiber) :
    next.Suspended fiber ↔ scheduler.Suspended fiber := by
  rw [Scheduler.suspended_iff, Scheduler.suspended_iff, h.live, h.awake]

end Untouched

section Frame

variable {scheduler : Scheduler} {s : Semaphore} {fiber other : FiberId} {waiters : List FiberId}

/-- Resuming the front waiter touches no fiber that is not among the waiters. -/
theorem untouched_resumeFront (hnot : other ∉ waiters) :
    Untouched scheduler (Semaphore.resumeFront scheduler waiters) other := by
  rcases waiters with _ | ⟨first, rest⟩
  · exact .refl
  · have hne : other ≠ first := List.ne_of_not_mem_cons hnot
    refine ⟨.rfl, ?_⟩
    simp [Semaphore.resumeFront, Accounted.awake_resumeFiber, hne]

/-- Taking back the front waiter touches no fiber that is not among the waiters. -/
theorem untouched_unresumeFront (hnot : other ∉ waiters) :
    Untouched scheduler (Semaphore.unresumeFront scheduler waiters) other := by
  rcases waiters with _ | ⟨first, rest⟩
  · exact .refl
  · have hne : other ≠ first := List.ne_of_not_mem_cons hnot
    refine ⟨.rfl, ?_⟩
    simp [Semaphore.unresumeFront, Scheduler.Awake, Scheduler.unresumeFiber, Scheduler.log,
      List.mem_erase_of_ne hne]

/-- The last statement of `Semaphore_Down` touches no fiber that does not wait to go up. -/
theorem untouched_downTail (hnot : other ∉ s.upWaiterList) :
    Untouched scheduler (s.downTail scheduler) other := by
  unfold Semaphore.downTail
  split_ifs
  · exact untouched_resumeFront hnot
  · exact .refl

/-- **Frame.** `Semaphore_Down` leaves a fiber alone that does not wait in the semaphore, also the
one that calls it unless it blocks. -/
theorem untouched_down (h : Accounted scheduler) (ha : scheduler.activeFiber = some fiber)
    (hnot : other ∉ s.downWaiterList ++ s.upWaiterList)
    (hblocked : (s.down scheduler fiber).2.2 = true → other ≠ fiber) :
    Untouched scheduler (s.down scheduler fiber).2.1 other := by
  rw [List.mem_append, not_or] at hnot
  unfold Semaphore.down at hblocked ⊢
  by_cases hmin : s.value = s.minValue
  · rw [if_pos hmin] at hblocked ⊢
    have hne : other ≠ fiber := hblocked rfl
    refine ⟨Accounted.live_suspendCurrentFiber ha, ?_⟩
    rw [h.awake_suspendCurrentFiber ha]
    simp [hne]
  · rw [if_neg hmin]
    refine Untouched.trans ?_ (untouched_downTail (s := { s with value := s.value - 1 }) hnot.2)
    dsimp only
    split_ifs
    · exact untouched_unresumeFront hnot.1
    · exact .refl

/-- And so does its second half, which wakes nobody but the front waiters that are left. -/
theorem untouched_downWoken (hnot : other ∉ s.downWaiterList.erase fiber ++ s.upWaiterList) :
    Untouched scheduler (s.downWoken scheduler fiber).2 other := by
  rw [List.mem_append, not_or] at hnot
  refine Untouched.trans ?_ (untouched_downTail
    (s := { s with downWaiterList := s.downWaiterList.erase fiber, value := s.value - 1 }) hnot.2)
  dsimp only
  split_ifs
  · exact untouched_resumeFront hnot.1
  · exact .refl

/-- `Semaphore_Up` touches no fiber that waits for nothing there, other than its caller where that
blocks. -/
theorem untouched_up (h : Accounted scheduler) (ha : scheduler.activeFiber = some fiber)
    (hnot : other ∉ s.downWaiterList ++ s.upWaiterList)
    (hblocked : (s.up scheduler fiber).2.2 = true → other ≠ fiber) :
    Untouched scheduler (s.up scheduler fiber).2.1 other := by
  rw [Semaphore.up_eq_mirror] at hblocked ⊢
  exact untouched_down h ha (fun hf => hnot (List.mem_append.mpr (List.mem_append.mp hf).symm))
    hblocked

/-- `Semaphore_Up` after its suspension touches none but the other waiters of the semaphore. -/
theorem untouched_upWoken (hnot : other ∉ s.downWaiterList ++ s.upWaiterList.erase fiber) :
    Untouched scheduler (s.upWoken scheduler fiber).2 other := by
  rw [Semaphore.upWoken_eq_mirror]
  exact untouched_downWoken fun hf => hnot (List.mem_append.mpr (List.mem_append.mp hf).symm)

end Frame

/-! ## Every reachable state -/

/-- **The invariant of the system.** A fiber's position is the list it is in. -/
structure SemaphoreInvariant (s : SemaphoreState) : Prop where
  /-- The scheduler's invariant holds. -/
  accounted : Accounted s.scheduler
  /-- So does the semaphore's. -/
  queued : WellQueued s.scheduler s.semaphore
  /-- The down-waiters are the fibers inside `Semaphore_Down`. -/
  inDown : ∀ fiber, s.position fiber = .inDown ↔ fiber ∈ s.semaphore.downWaiterList
  /-- The up-waiters are the fibers inside `Semaphore_Up`. -/
  inUp : ∀ fiber, s.position fiber = .inUp ↔ fiber ∈ s.semaphore.upWaiterList

namespace SemaphoreInvariant

variable {s : SemaphoreState} {fiber : FiberId}

/-- A fiber is outside of the semaphore's functions exactly if it is in neither of the lists. -/
theorem outside_iff (h : SemaphoreInvariant s) : s.position fiber = .outside ↔
    fiber ∉ s.semaphore.downWaiterList ++ s.semaphore.upWaiterList := by
  rw [List.mem_append, ← h.inDown, ← h.inUp]
  cases s.position fiber <;> simp

/-- A use of the scheduler that spares the waiters keeps the invariant, as it neither wakes nor
takes back one of them. -/
theorem scheduler (h : SemaphoreInvariant s) {action : SchedulerAction} (hrun : s.RunsOutside)
    (hen : s.scheduler.Enabled action) (hspares : s.Spares action) :
    SemaphoreInvariant { s with scheduler := s.scheduler.apply action } where
  accounted := h.accounted.apply hen
  queued := by
    refine h.queued.congr fun fiber hf => ?_
    have hpos : s.position fiber ≠ .outside := fun hp => h.outside_iff.mp hp hf
    refine h.accounted.apply_frame hen (h.queued.live fiber hf) ?_ ?_ ?_
    · exact fun ha => hpos (hrun fiber ha)
    · rintro rfl
      exact hpos hspares
    · rintro rfl
      exact hpos hspares
  inDown := h.inDown
  inUp := h.inUp

/-- `Semaphore_Down`, called by the running fiber, keeps the invariant, whether the caller goes on
at once or waits. -/
theorem down (h : SemaphoreInvariant s) (ha : s.scheduler.activeFiber = some fiber)
    (hout : s.position fiber = .outside) :
    SemaphoreInvariant
      { scheduler := (s.semaphore.down s.scheduler fiber).2.1
        semaphore := (s.semaphore.down s.scheduler fiber).1
        position := if (s.semaphore.down s.scheduler fiber).2.2 then
          Function.update s.position fiber .inDown else s.position } := by
  obtain ⟨hacc, hq, hdown, hup⟩ := h.queued.down_spec h.accounted ha (h.outside_iff.mp hout)
  refine ⟨hacc, hq, fun other => ?_, fun other => ?_⟩
  · dsimp only
    rw [hdown]
    by_cases hb : (s.semaphore.down s.scheduler fiber).2.2 <;> by_cases ho : other = fiber <;>
      simp [hb, ho, h.inDown]
  · dsimp only
    rw [hup, ← h.inUp]
    by_cases hb : (s.semaphore.down s.scheduler fiber).2.2 <;> by_cases ho : other = fiber <;>
      simp [hb, ho, hout]

/-- `Semaphore_Up`, called by the running fiber, keeps the invariant, by the mirror image of the
argument for `Semaphore_Down`. -/
theorem up (h : SemaphoreInvariant s) (ha : s.scheduler.activeFiber = some fiber)
    (hout : s.position fiber = .outside) :
    SemaphoreInvariant
      { scheduler := (s.semaphore.up s.scheduler fiber).2.1
        semaphore := (s.semaphore.up s.scheduler fiber).1
        position := if (s.semaphore.up s.scheduler fiber).2.2 then
          Function.update s.position fiber .inUp else s.position } := by
  obtain ⟨hacc, hq, hup, hdown⟩ := h.queued.up_spec h.accounted ha (h.outside_iff.mp hout)
  refine ⟨hacc, hq, fun other => ?_, fun other => ?_⟩
  · dsimp only
    rw [hdown, ← h.inDown]
    by_cases hb : (s.semaphore.up s.scheduler fiber).2.2 <;> by_cases ho : other = fiber <;>
      simp [hb, ho, hout]
  · dsimp only
    rw [hup]
    by_cases hb : (s.semaphore.up s.scheduler fiber).2.2 <;> by_cases ho : other = fiber <;>
      simp [hb, ho, h.inUp]

/-- `Semaphore_Down`, resumed where it was suspended, keeps the invariant: its caller leaves the
list, and the next one is woken if it may go. -/
theorem downWoken (h : SemaphoreInvariant s) (ha : s.scheduler.activeFiber = some fiber)
    (hpos : s.position fiber = .inDown) :
    SemaphoreInvariant
      { scheduler := (s.semaphore.downWoken s.scheduler fiber).2
        semaphore := (s.semaphore.downWoken s.scheduler fiber).1
        position := Function.update s.position fiber .outside } := by
  have hf := (h.inDown fiber).mp hpos
  obtain ⟨hacc, hq, hdown, hup⟩ := h.queued.downWoken_spec h.accounted ha hf
  have hnot : fiber ∉ (s.semaphore.downWoken s.scheduler fiber).1.downWaiterList := by
    have := (List.nodup_append.mp h.queued.nodup).1
    rw [hdown] at this
    exact (List.nodup_cons.mp this).1
  refine ⟨hacc, hq, fun other => ?_, fun other => ?_⟩
  · by_cases ho : other = fiber
    · simp [ho, hnot]
    · simp [ho, h.inDown, hdown]
  · by_cases ho : other = fiber
    · have := List.disjoint_of_nodup_append h.queued.nodup hf
      simpa [ho, hup] using this
    · simp [ho, h.inUp, hup]

/-- `Semaphore_Up`, resumed where it was suspended, keeps the invariant, by the mirror image of the
argument for `Semaphore_Down`. -/
theorem upWoken (h : SemaphoreInvariant s) (ha : s.scheduler.activeFiber = some fiber)
    (hpos : s.position fiber = .inUp) :
    SemaphoreInvariant
      { scheduler := (s.semaphore.upWoken s.scheduler fiber).2
        semaphore := (s.semaphore.upWoken s.scheduler fiber).1
        position := Function.update s.position fiber .outside } := by
  have hf := (h.inUp fiber).mp hpos
  obtain ⟨hacc, hq, hup, hdown⟩ := h.queued.upWoken_spec h.accounted ha hf
  have hnot : fiber ∉ (s.semaphore.upWoken s.scheduler fiber).1.upWaiterList := by
    have := (List.nodup_append.mp h.queued.nodup).2.1
    rw [hup] at this
    exact (List.nodup_cons.mp this).1
  refine ⟨hacc, hq, fun other => ?_, fun other => ?_⟩
  · by_cases ho : other = fiber
    · have := fun hd => List.disjoint_of_nodup_append h.queued.nodup hd hf
      simpa [ho, hdown] using this
    · simp [ho, h.inDown, hdown]
  · by_cases ho : other = fiber
    · simp [ho, hnot]
    · simp [ho, h.inUp, hup]

/-- Every step keeps the invariant, one case for each thing that a step can do. -/
theorem step (h : SemaphoreInvariant s) {action : SemaphoreAction} {next : SemaphoreState}
    (hstep : s.step action = some next) : SemaphoreInvariant next := by
  obtain ⟨use, -, hrun, henabled, hspares, rfl⟩ | ⟨fiber, -, ha, hout, rfl⟩ |
    ⟨fiber, -, ha, hout, rfl⟩ | ⟨fiber, -, ha, hpos, rfl⟩ | ⟨fiber, -, ha, hpos, rfl⟩ :=
    SemaphoreState.step_cases hstep
  · exact h.scheduler hrun henabled hspares
  · exact h.down ha hout
  · exact h.up ha hout
  · exact h.downWoken ha hpos
  · exact h.upWoken ha hpos

end SemaphoreInvariant

/-- The invariant holds of every reachable state, as it holds in the beginning and every step keeps
it. -/
theorem semaphoreInvariant_of_reachable {s : SemaphoreState} (h : semaphoreSystem.Reachable s) :
    SemaphoreInvariant s := by
  refine StepSystem.ReachableWhen.induct (I := SemaphoreInvariant) ?_ ?_ h
  · rintro s ⟨hsched, ⟨value, minValue, maxValue, hinit⟩, hout⟩
    unfold Semaphore.init? at hinit
    split_ifs at hinit with hbounds
    have hs := (Option.some.inj hinit).symm
    have hacc := accounted_of_reachable hsched
    constructor
    · exact hacc
    · rw [hs]
      exact ⟨by simp; omega, by simp; omega, List.nodup_nil, nofun, ⟨nofun, nofun⟩, ⟨nofun, nofun⟩⟩
    · simp [hs, hout]
    · simp [hs, hout]
  · rintro s action next - hs - hstep
    exact hs.step hstep

/-! ## What it means for the program -/

/-- The counter is within its bounds. -/
def Semaphore.InBounds (self : Semaphore) : Prop :=
  self.minValue ≤ self.value ∧ self.value ≤ self.maxValue

/-- Every fiber ever passed to `Scheduler_ResumeFiber` was in neither list at the time, and every
one passed to `Scheduler_UnresumeFiber` was in the ready list. -/
structure GenuineResumes (history : List (FiberId × FiberEvent)) : Prop where
  /-- A resumed fiber was suspended. -/
  resumed : ∀ newer older fiber, history = newer ++ (fiber, .resumed) :: older →
    ∃ context, replay fiber older = some (.suspended context)
  /-- An unresumed fiber was ready. -/
  unresumed : ∀ newer older fiber, history = newer ++ (fiber, .unresumed) :: older →
    ∃ context, replay fiber older = some (.ready context)

/-- Where the books are kept every fiber that was resumed was suspended at the time, and every fiber
that was taken back was ready. -/
theorem genuineResumes_of_accounted {scheduler : Scheduler} (h : Accounted scheduler) :
    GenuineResumes scheduler.history where
  resumed newer older fiber hh := by
    obtain ⟨before, after, hbefore, hnext⟩ := replay_before (hh ▸ h.history fiber)
    obtain ⟨context, rfl, -⟩ : ∃ context, before = .suspended context ∧ after = .ready context := by
      simpa using FiberEvent.next_cases hnext
    exact ⟨context, hbefore⟩
  unresumed newer older fiber hh := by
    obtain ⟨before, after, hbefore, hnext⟩ := replay_before (hh ▸ h.history fiber)
    obtain ⟨context, rfl, -⟩ : ∃ context, before = .ready context ∧ after = .suspended context := by
      simpa using FiberEvent.next_cases hnext
    exact ⟨context, hbefore⟩

/-- What holds while the running fiber, if any, is outside the semaphore's code. -/
structure WakeUpInvariant (s : SemaphoreState) : Prop where
  /-- The counter is within its bounds. -/
  bounds : s.semaphore.InBounds
  /-- The front down-waiter is in the ready list, once, exactly when the counter can be lowered. -/
  down_front : ∀ fiber, s.semaphore.downWaiterList.head? = some fiber →
    s.scheduler.readyFiberList.count fiber =
      if s.semaphore.value > s.semaphore.minValue then 1 else 0
  /-- No other down-waiter is in the ready list. -/
  down_behind : ∀ fiber ∈ s.semaphore.downWaiterList.tail,
    fiber ∉ s.scheduler.readyFiberList
  /-- The front up-waiter is in the ready list, once, exactly when the counter can be raised. -/
  up_front : ∀ fiber, s.semaphore.upWaiterList.head? = some fiber →
    s.scheduler.readyFiberList.count fiber =
      if s.semaphore.value < s.semaphore.maxValue then 1 else 0
  /-- No other up-waiter is in the ready list. -/
  up_behind : ∀ fiber ∈ s.semaphore.upWaiterList.tail, fiber ∉ s.scheduler.readyFiberList
  /-- When nobody is ready, nobody blocked in `Semaphore_Down` could go on. -/
  down_blocked : s.scheduler.readyFiberList = [] → s.semaphore.downWaiterList ≠ [] →
    s.semaphore.value = s.semaphore.minValue
  /-- When nobody is ready, nobody blocked in `Semaphore_Up` could go on. -/
  up_blocked : s.scheduler.readyFiberList = [] → s.semaphore.upWaiterList ≠ [] →
    s.semaphore.value = s.semaphore.maxValue

/-- Where no waiter runs, to be awake is to be ready. -/
theorem Front.ready {scheduler : Scheduler} {waiters : List FiberId} {go : Prop} [Decidable go]
    (h : Front scheduler.Awake waiters go) (hacc : Accounted scheduler)
    (hrun : ∀ fiber ∈ waiters, scheduler.activeFiber ≠ some fiber) :
    (∀ fiber, waiters.head? = some fiber →
      scheduler.readyFiberList.count fiber = if go then 1 else 0) ∧
    (∀ fiber ∈ waiters.tail, fiber ∉ scheduler.readyFiberList) ∧
    (scheduler.readyFiberList = [] → waiters ≠ [] → ¬ go) := by
  refine ⟨fun fiber hf => ?_, fun fiber hf hr => h.behind fiber hf (.inr hr), fun hr hw hgo => ?_⟩
  · split_ifs with hgo
    · have ha := (h.front fiber hf).mpr hgo
      exact List.count_eq_one_of_mem hacc.ready_nodup
        (ha.mem_ready (hrun fiber (List.mem_of_head? hf)))
    · exact List.count_eq_zero.mpr fun hr => hgo ((h.front fiber hf).mp (.inr hr))
  · obtain ⟨first, rest, rfl⟩ := List.exists_cons_of_ne_nil hw
    have ha := ((h.front first rfl).mpr hgo).mem_ready (hrun first List.mem_cons_self)
    rw [hr] at ha
    cases ha

/-- The invariant gives what the semaphore promises at all times when its waiters run outside. -/
theorem SemaphoreInvariant.wakeUpInvariant {s : SemaphoreState} (h : SemaphoreInvariant s)
    (hrun : s.RunsOutside) : WakeUpInvariant s := by
  have hnone : ∀ fiber ∈ s.semaphore.downWaiterList ++ s.semaphore.upWaiterList,
      s.scheduler.activeFiber ≠ some fiber := fun fiber hf ha =>
    h.outside_iff.mp (hrun fiber ha) hf
  have hlower := h.queued.lower
  have hupper := h.queued.upper
  obtain ⟨hdf, hdb, hdn⟩ := h.queued.down.ready h.accounted
    fun fiber hf => hnone fiber (List.mem_append_left _ hf)
  obtain ⟨huf, hub, hun⟩ := h.queued.up.ready h.accounted
    fun fiber hf => hnone fiber (List.mem_append_right _ hf)
  exact ⟨⟨hlower, hupper⟩, hdf, hdb, huf, hub, fun hr hw => by have := hdn hr hw; omega,
    fun hr hw => by have := hun hr hw; omega⟩

/-- **Semaphore wake-ups.** In every reachable state in which the running fiber is outside the
semaphore's code the front waiters are ready exactly when the counter lets them go, and no other
waiter is; every resume and unresume so far was genuine; and a waiter that runs again, which does
not look at the counter a second time, keeps it within its bounds. -/
theorem semaphore_wake_up {s : SemaphoreState} (h : semaphoreSystem.Reachable s) :
    (s.RunsOutside → WakeUpInvariant s) ∧ GenuineResumes s.scheduler.history ∧
    (∀ fiber, s.scheduler.activeFiber = some fiber → s.position fiber = .inDown →
      (s.semaphore.downWoken s.scheduler fiber).1.InBounds) ∧
    (∀ fiber, s.scheduler.activeFiber = some fiber → s.position fiber = .inUp →
      (s.semaphore.upWoken s.scheduler fiber).1.InBounds) := by
  have hs := semaphoreInvariant_of_reachable h
  refine ⟨hs.wakeUpInvariant, genuineResumes_of_accounted hs.accounted, ?_, ?_⟩
  · intro fiber ha hpos
    have hq := (hs.downWoken ha hpos).queued
    exact ⟨hq.lower, hq.upper⟩
  · intro fiber ha hpos
    have hq := (hs.upWoken ha hpos).queued
    exact ⟨hq.lower, hq.upper⟩

/-- Fiber 1 blocks in `Semaphore_Down`; fiber 2 raises the counter, which wakes fiber 1, takes it
back at once, which puts fiber 1 back, and raises it again. -/
def bargingFiber : List SemaphoreAction :=
  [.scheduler (.addFiber 7 0 (some 1)), .scheduler (.addFiber 7 0 (some 2)), .scheduler .tick,
    .down, .up, .down, .up]

/-- The counter is raised, taken back and raised again before the waiter runs: it has been woken,
put back and woken again, and is ready. -/
theorem semaphore_wake_up_bargingFiber :
    ∃ semaphore s, Semaphore.init? 0 0 1 = some semaphore ∧
      semaphoreSystem.run ⟨.init fun _ => ⟨none, 0, 0⟩, semaphore, fun _ => .outside⟩
        bargingFiber = some s ∧
      s.semaphore.downWaiterList = [1] ∧ s.scheduler.readyFiberList = [1] ∧
      s.scheduler.history.count (1, .unresumed) = 1 ∧ WakeUpInvariant s := by
  refine ⟨_, _, rfl, rfl, by decide, by decide, by decide, ?_⟩
  refine (semaphore_wake_up (StepSystem.reachable_of_run ?_
    (rfl : semaphoreSystem.run ⟨.init fun _ => ⟨none, 0, 0⟩, ⟨0, 0, 1, [], []⟩, fun _ => .outside⟩
      bargingFiber = some _))).1 (by decide)
  exact ⟨.init ⟨_, rfl⟩, ⟨0, 0, 1, rfl⟩, fun _ => rfl⟩

end Pixy.Sync
