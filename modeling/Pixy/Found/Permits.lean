import Mathlib
import Pixy.Found.Runs

/-!
# Permits

A number of permits, and who holds one. That is what a counting semaphore is for: `permitSystem`
says so without a counter, waiters or a scheduler. A program keeps the promise if it simulates this
system (`StepSystem.Simulates`); then never more hold a permit than there are
(`card_le_of_reachable`), and where there is one permit, one holds it (`eq_of_reachable`).

Nothing here mentions the program.
-/

namespace Pixy.Found

variable {α : Type*} [DecidableEq α] {capacity : ℕ} {held : Finset α}

/-- What can be done with a permit. -/
inductive PermitAction (α : Type*)
  /-- Someone who has none gets one. -/
  | acquire (holder : α)
  /-- Someone who has one gives it back. -/
  | release (holder : α)

/-- **The permits**, by those who hold one. -/
def permitSystem (α : Type*) [DecidableEq α] (capacity : ℕ) :
    StepSystem (Finset α) (PermitAction α) where
  init held := held = ∅
  step held
    | .acquire holder =>
      if holder ∉ held ∧ held.card < capacity then some (insert holder held) else none
    | .release holder => if holder ∈ held then some (held.erase holder) else none

/-- Taking a permit, as a run of one step: it is possible for who has none while some are left, and
adds him to the holders. -/
theorem acquire_eq_some {holder : α} (hnot : holder ∉ held) (hroom : held.card < capacity) :
    (permitSystem α capacity).run held [.acquire holder] = some (insert holder held) := by
  simp [StepSystem.run, permitSystem, hnot, hroom]

/-- Giving a permit back, as a run of one step: who holds one may always do so, and is no holder
then. -/
theorem release_eq_some {holder : α} (hin : holder ∈ held) :
    (permitSystem α capacity).run held [.release holder] = some (held.erase holder) := by
  simp [StepSystem.run, permitSystem, hin]

/-- **Never more than there are.** In every reachable state the holders are no more than the
permits, since one is taken only while some are left. -/
theorem card_le_of_reachable (h : (permitSystem α capacity).Reachable held) :
    held.card ≤ capacity := by
  refine StepSystem.ReachableWhen.induct (I := fun held => held.card ≤ capacity) ?_ ?_ h
  · rintro _ rfl
    simp
  · rintro held action next - hle - hstep
    cases action with
    | acquire holder =>
        obtain ⟨⟨hnot, hroom⟩, hnext⟩ := Option.ite_none_right_eq_some.mp hstep
        cases hnext
        rw [Finset.card_insert_of_notMem hnot]
        exact hroom
    | release holder =>
        obtain ⟨-, hnext⟩ := Option.ite_none_right_eq_some.mp hstep
        cases hnext
        exact (Finset.card_erase_le).trans hle

/-- One permit excludes all others: of a single permit there is at most one holder, which is mutual
exclusion. -/
theorem eq_of_reachable (h : (permitSystem α 1).Reachable held) {holder other : α}
    (hin : holder ∈ held)
    (hin' : other ∈ held) : holder = other :=
  Finset.card_le_one.mp (card_le_of_reachable h) holder hin other hin'

end Pixy.Found
