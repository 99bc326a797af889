import Pixy.Loop.Reach

/-!
# Which watches are unlinked

Where every callback finds the fields where they were stored, `IOPoller_ClearWatch` is only called
on a watch that is linked, as long as nobody closes a descriptor that a fiber waits for with a
timeout (`no_stale_watch`). `Close` leaves the timeout behind, and its expiry unlinks the watch
again, from an event that may have been freed (`stale_watch_closed`).
-/

namespace Pixy.Loop

open Pixy.Found Pixy.Sched Pixy.Sync Pixy.Poll Pixy.Pool

variable {n : ℕ}

namespace Runtime

variable {s : Runtime n} {watch : WatchId} {poller : IOPoller Callback}

/-- **No stale watch is unlinked**, in any run in which no descriptor is closed that a fiber waits
for with a timeout. -/
theorem no_stale_watch (h : (runtimeSystem n timedContext).ReachableWhen (Spares true) s)
    (hclears : .clearsWatch watch poller ∈ s.log) : Unlinks poller watch := by
  obtain ⟨hinvariant, -⟩ := invariant_of_spared (fun _ _ hc => hc) h
  obtain ⟨newer, older, hlog⟩ := List.append_of_mem hclears
  exact hinvariant.recorded.orderly newer older _ hlog

/-! ## Runs -/

/-- A watch, and where its neighbours lead back to. -/
def Happening.leadsBack : Happening → Option (WatchId × Node)
  | .clearsWatch watch poller =>
    some (watch, poller.links.next (poller.links.prev (.watchItem watch)))
  | _ => none

/-- Nobody closes the descriptor, and the wait expires. -/
def expiresUndisturbed : List (RuntimeAction 1) :=
  [.schedulerTick, .addFiber 7 0 (some 2), .waitForFD 3 .ioReadable 10 0 true (some 101) true,
    .sleepCurrentFiber 20 0 true, .poll (fun _ => .dirtyEventListHead) (.ready []) (fun _ => true),
    .expire 11 [⟨1, 10, 1, .waitForFDCallback3⟩] (fun _ => true), .dispatch]

/-- A fiber waits with a timeout, nobody closes its descriptor, and the timeout expires: the
callback clears a watch that is linked, and changes only the list it is in. -/
theorem no_stale_watch_expiresUndisturbed : ∃ (s : Runtime 1) (poller : IOPoller Callback),
    (runtimeSystem 1 timedContext).ReachableWhen (Spares true) s ∧
      .clearsWatch 1 poller ∈ s.log ∧ Unlinks poller 1 := by
  have hend : ((runtimeSystem 1 timedContext).run started expiresUndisturbed).map
      (fun s => s.log.filterMap Happening.leadsBack) = some [(1, .watchItem 1)] := by
    decide +kernel
  obtain ⟨s, hrun, hs⟩ := Option.map_eq_some_iff.mp hend
  have hreach : (runtimeSystem 1 timedContext).ReachableWhen (Spares true) s := by
    refine StepSystem.ReachableWhen.run (.init started_initial) (fun u a ha => ?_) hrun
    simp only [expiresUndisturbed, List.mem_cons, List.not_mem_nil, or_false] at ha
    rcases ha with rfl | rfl | rfl | rfl | rfl | rfl | rfl <;> trivial
  obtain ⟨happening, hin, hback⟩ := List.mem_filterMap.mp (hs ▸ List.mem_singleton.mpr rfl)
  cases happening with
  | clearsWatch watch poller =>
      obtain ⟨rfl, -⟩ := Prod.mk.inj (Option.some.inj hback)
      exact ⟨s, poller, hreach, hin, no_stale_watch hreach hin⟩
  | _ => cases hback

/-- The descriptor is closed under the wait, its event is freed, and the wait expires. -/
def closedUnderWait : List (RuntimeAction 1) :=
  [.schedulerTick, .addFiber 7 0 (some 2), .waitForFD 3 .ioReadable 10 0 true (some 101) true,
    .close 3, .waitForFD 4 .ioReadable (-1) 0 true (some 102) true,
    .poll (fun _ => .dirtyEventListHead) (.ready []) (fun _ => true),
    .expire 11 [⟨1, 10, 1, .waitForFDCallback3⟩] (fun _ => true), .dispatch]

/-- **A stale watch is unlinked**: after a `Close` under a wait the callback clears a watch that is
linked nowhere. -/
theorem stale_watch_closed : ∃ (s : Runtime 1) (poller : IOPoller Callback),
    (runtimeSystem 1 timedContext).Reachable s ∧ .clearsWatch 1 poller ∈ s.log ∧
      ¬LinkedIn poller 1 := by
  have hend : ((runtimeSystem 1 timedContext).run started closedUnderWait).map
      (fun s => s.log.filterMap Happening.leadsBack) =
        some [(1, .watchListHead 101 .ioReadable)] := by
    decide +kernel
  obtain ⟨s, hrun, hs⟩ := Option.map_eq_some_iff.mp hend
  obtain ⟨happening, hin, hback⟩ := List.mem_filterMap.mp (hs ▸ List.mem_singleton.mpr rfl)
  cases happening with
  | clearsWatch watch poller =>
      obtain ⟨rfl, hnext⟩ := Prod.mk.inj (Option.some.inj hback)
      refine ⟨s, poller, StepSystem.reachable_of_run started_initial hrun, hin, ?_⟩
      rintro ⟨event, -, condition, items, hring, hitem⟩
      rw [hring.next_prev hitem] at hnext
      cases hnext
  | _ => cases hback

end Runtime

end Pixy.Loop
