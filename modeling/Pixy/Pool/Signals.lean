import Pixy.Pool.Places

/-!
# No lost wake-up

A signal is sent when the list was empty, and by a worker that leaves something behind. It may be
used up by a worker that finds the list empty again, so what is kept is not that every signal
reaches a work but this: while the list is not empty and somebody sleeps, somebody is on the way to
the mutex (`Attended`). `no_lost_wake_up` says what follows for works and for the stop.
-/

namespace Pixy.Pool

open Pixy.Found

variable {n : ℕ} {W : Type} [DecidableEq W]

/-- The worker's next step is to lock the mutex and look at the list. -/
def ThreadPool.AboutToExamine (self : ThreadPool n W) (worker : Fin n) : Prop :=
  self.workers worker = .atLock ∨ self.workers worker = .woken

/-- **The invariant.** -/
def Attended (s : ThreadPool n W) : Prop :=
  s.workList ≠ [] → (∃ worker, s.workers worker = .sleeping) → ∃ worker, s.AboutToExamine worker

/-! ## Signals -/

section Signals

variable {s next : ThreadPool n W} {woken : Finset (Fin n)} {worker : Fin n}

/-- Whoever still sleeps after a signal was not the only one: somebody was woken. -/
theorem woken_of_signal (h : s.signal woken = some next)
    (hsleep : ∃ worker, next.workers worker = .sleeping) :
    ∃ worker, s.workers worker = .sleeping ∧ next.workers worker = .woken := by
  unfold ThreadPool.signal at h
  split_ifs at h with hmay
  cases h
  obtain ⟨other, hother⟩ := hsleep
  by_cases hin : other ∈ woken
  · simp [hin] at hother
  · obtain ⟨first, hfirst⟩ := hmay.2 ⟨other, by simpa [hin] using hother⟩
    exact ⟨first, hmay.1 first hfirst, if_pos hfirst⟩

/-- The signal of a worker is compiled in exactly where there can be a sleeper to hear it. -/
theorem woken_of_relay (hawake : s.workers worker ≠ .sleeping) (h : s.relay woken = some next)
    (hsleep : ∃ other, next.workers other = .sleeping) :
    ∃ other ≠ worker, next.workers other = .woken := by
  unfold ThreadPool.relay at h
  split_ifs at h with htwo
  · obtain ⟨first, hfirst, hwoken⟩ := woken_of_signal h hsleep
    exact ⟨first, fun he => hawake (he ▸ hfirst), hwoken⟩
  · -- a single worker, and it does not sleep
    cases h
    obtain ⟨other, hother⟩ := hsleep
    have : other = worker := Fin.ext (by omega)
    exact absurd (this ▸ hother) hawake

/-- An insertion signals when the list was empty, and otherwise somebody is on the way already. -/
theorem Attended.insertWorkListItem (h : Attended s) {item : WorkListItem W}
    (hins : s.insertWorkListItem item woken = some next) : Attended next := by
  intro _ hsleep
  simp only [ThreadPool.insertWorkListItem] at hins
  split_ifs at hins with hempty
  · obtain ⟨first, -, hfirst⟩ := woken_of_signal hins hsleep
    exact ⟨first, .inr hfirst⟩
  · cases hins
    exact h (fun hnil => hempty (by rw [hnil]; rfl)) hsleep

end Signals

/-! ## The steps -/

variable {s next : ThreadPool n W} {worker : Fin n}

omit [DecidableEq W] in
/-- A worker that neither falls asleep nor was on its way. -/
theorem Attended.setWorker (h : Attended s) (state : Worker W) (hstate : state ≠ .sleeping)
    (hbusy : ¬ s.AboutToExamine worker) (hlist : next.workList = s.workList)
    (hworkers : next.workers = Function.update s.workers worker state) : Attended next := by
  intro hne ⟨sleeper, hsleeper⟩
  rw [hlist] at hne
  rw [hworkers] at hsleeper
  have hother : sleeper ≠ worker := fun he => hstate (by simpa [he] using hsleeper)
  rw [Function.update_of_ne hother] at hsleeper
  obtain ⟨first, hfirst⟩ := h hne ⟨sleeper, hsleeper⟩
  have hne' : first ≠ worker := fun he => hbusy (he ▸ hfirst)
  exact ⟨first, by rwa [ThreadPool.AboutToExamine, hworkers, Function.update_of_ne hne']⟩

omit [DecidableEq W] in
/-- A worker that gets on its way attends to the list, whoever else does. -/
theorem attended_of_aboutToExamine (worker : Fin n) (h : next.AboutToExamine worker) :
    Attended next :=
  fun _ _ => ⟨worker, h⟩

/-- **A worker's section.** It leaves an empty list, or hands the signal on. -/
theorem attended_examine {woken : Finset (Fin n)} (hawake : s.workers worker ≠ .sleeping)
    (hexamines : s.Examines worker woken next) : Attended next := by
  -- what follows from the signal for a worker that does not go to sleep
  have hhanded : ∀ {u signalled : ThreadPool n W} (state : Worker W),
      u.relay woken = some signalled → u.workers worker ≠ .sleeping → state ≠ .sleeping →
      Attended (signalled.setWorker worker state) := by
    intro u signalled state hrelay hu hstate _ ⟨sleeper, hsleeper⟩
    have hother : sleeper ≠ worker := fun he =>
      hstate (by simpa [ThreadPool.setWorker, he] using hsleeper)
    obtain ⟨first, hne, hfirst⟩ := woken_of_relay hu hrelay
      ⟨sleeper, by simpa [ThreadPool.setWorker, hother] using hsleeper⟩
    exact ⟨first, .inr (by simpa [ThreadPool.setWorker, hne] using hfirst)⟩
  cases hexamines with
  | empty hlist => exact fun hne => absurd hlist hne
  | marker hlist hrelay hs => exact hhanded .exited hrelay hawake (by simp)
  | @work work rest signalled hlist hrelay hs =>
      by_cases hrest : rest = []
      · intro hne
        refine absurd ?_ hne
        show signalled.workList = []
        rw [hs.rest]
        exact hrest
      · exact hhanded (.holding work) (hrelay hrest) hawake (by simp)

/-- **Every step keeps somebody on the way** to the list as long as there is something on it while a
worker sleeps. -/
theorem Attended.step (h : Attended s) {action : PoolAction n W}
    (hstep : s.step action = some next) : Attended next := by
  cases ThreadPool.steps hstep with
  | @postWork work fields woken next hphase hidle hpost =>
      exact insertWorkListItem
        (s := ThreadPool.record { s with works := Function.update s.works work fields } work
          (.posted fields)) h hpost
  | stop hphase hstop => exact insertWorkListItem (s := { s with phase := .stopping }) h hstop
  | join hphase hexited =>
      rintro - ⟨sleeper, hsleeper⟩
      exact absurd ((hexited sleeper).symm.trans hsleeper) (by simp)
  | readPipe hpipe hbatch hread =>
      unfold ThreadPool.readPipe at hread
      obtain ⟨works, -, hnext⟩ := Option.bind_eq_some_iff.mp hread
      cases hnext
      exact h
  | callback hbatch => exact h
  | examine hw hexamines =>
      refine attended_examine ?_ hexamines
      rcases hw with hw | hw <;> simp [hw]
  | @start worker work hw =>
      exact h.setWorker (.running work) (by simp) (by simp [ThreadPool.AboutToExamine, hw]) rfl rfl
  | @finish worker work hw =>
      exact h.setWorker (.writing work) (by simp) (by simp [ThreadPool.AboutToExamine, hw]) rfl rfl
  | @write worker work hw =>
      exact attended_of_aboutToExamine worker
        (.inl (by simp [ThreadPool.record, ThreadPool.setWorker]))
  | @wake worker hw =>
      exact attended_of_aboutToExamine worker (.inr (by simp [ThreadPool.setWorker]))

/-- That somebody attends to the list is kept by every step, so it holds in every reachable
state. -/
theorem attended_of_reachable (h : (poolSystem n W).Reachable s) : Attended s := by
  refine StepSystem.ReachableWhen.induct (I := Attended) ?_ ?_ h
  · rintro _ ⟨works, rfl⟩ hne
    exact absurd rfl hne
  · exact fun s action next _ hs _ hstep => hs.step hstep

/-! ## What it means for works and for the stop -/

/-- The steps a worker takes of its own accord; to wake for no reason is none of them. -/
def PoolAction.By (worker : Fin n) : PoolAction n W → Prop
  | .examine other _ | .start other | .finish other | .write other => other = worker
  | _ => False

/-- The worker can take a step of its own. -/
def ThreadPool.CanStep (self : ThreadPool n W) (worker : Fin n) : Prop :=
  ∃ action next, PoolAction.By worker action ∧ self.step action = some next

/-- Some set of sleepers may always be woken by a signal: one of them if there is any, and none
otherwise. -/
theorem exists_relay (s : ThreadPool n W) : ∃ woken next, s.relay woken = some next := by
  let sleepers : Finset (Fin n) := Finset.univ.filter fun worker => s.workers worker = .sleeping
  have hmay : s.MayWake sleepers := by
    refine ⟨fun worker hw => (Finset.mem_filter.mp hw).2, ?_⟩
    rintro ⟨worker, hw⟩
    exact ⟨worker, Finset.mem_filter.mpr ⟨Finset.mem_univ worker, hw⟩⟩
  by_cases htwo : 2 ≤ n
  · exact ⟨sleepers, _, by rw [ThreadPool.relay, if_pos htwo, ThreadPool.signal, if_pos hmay]⟩
  · exact ⟨sleepers, s, by rw [ThreadPool.relay, if_neg htwo]⟩

/-- Whoever is about to examine the list can do so at once, whichever sleepers are woken by it. -/
theorem ThreadPool.AboutToExamine.can_examine (h : s.AboutToExamine worker) :
    ∃ woken next, s.step (.examine worker woken) = some next := by
  have hsection : ∃ woken next, s.examine worker woken = some next := by
    rcases hlist : s.workList with _ | ⟨work | _, rest⟩
    · exact ⟨∅, s.setWorker worker .sleeping, by simp only [ThreadPool.examine, hlist]⟩
    · obtain ⟨woken, signalled, hrelay⟩ := exists_relay { s with workList := rest }
      by_cases hrest : rest ≠ []
      · exact ⟨woken, _, by
          simp only [ThreadPool.examine, hlist, if_pos hrest, hrelay, Option.map_some]; rfl⟩
      · exact ⟨woken, _, by
          simp only [ThreadPool.examine, hlist, if_neg hrest, Option.map_some]; rfl⟩
    · obtain ⟨woken, signalled, hrelay⟩ := exists_relay s
      exact ⟨woken, _, by simp only [ThreadPool.examine, hlist, hrelay, Option.map_some]; rfl⟩
  obtain ⟨woken, next, hexamine⟩ := hsection
  refine ⟨woken, next, ?_⟩
  rcases h with hw | hw <;> simpa only [ThreadPool.step, hw] using hexamine

omit [DecidableEq W] in
/-- What one worker does leaves the others alone, up to a signal. -/
theorem Signalled.other_worker {u v : ThreadPool n W} (h : Signalled u v) {other : Fin n}
    (hne : worker ≠ other) (state : Worker W) :
    (v.setWorker other state).workers worker = u.workers worker ∨
      u.workers worker = .sleeping ∧ (v.setWorker other state).workers worker = .woken := by
  have hwakes := h.wakes worker
  simpa [ThreadPool.setWorker, hne] using hwakes

/-- A worker is moved by a step of its own, or woken by another's, or it stays where it is. -/
theorem ThreadPool.step_workers {action : PoolAction n W} (hstep : s.step action = some next)
    (worker : Fin n) : next.workers worker = s.workers worker ∨
      s.workers worker = .sleeping ∧ next.workers worker = .woken ∨ action.By worker := by
  have hown : ∀ {other : Fin n} (state : Worker W), worker ≠ other →
      (s.setWorker other state).workers worker = s.workers worker := fun _ hne => by
    simp [ThreadPool.setWorker, hne]
  cases ThreadPool.steps hstep with
  | postWork hphase hidle hpost => exact ((Signalled.of_insert hpost).wakes worker).imp_right .inl
  | stop hphase hstop => exact ((Signalled.of_insert hstop).wakes worker).imp_right .inl
  | join hphase hexited => exact .inl rfl
  | readPipe hpipe hbatch hread =>
      unfold ThreadPool.readPipe at hread
      obtain ⟨works, -, hnext⟩ := Option.bind_eq_some_iff.mp hread
      cases hnext
      exact .inl rfl
  | callback hbatch => exact .inl rfl
  | @examine other woken next hw hexamines =>
      by_cases hne : worker = other
      · exact .inr (.inr hne.symm)
      · cases hexamines with
        | empty hlist => exact .inl (hown .sleeping hne)
        | marker hlist hrelay hs => exact (hs.other_worker hne .exited).imp_right .inl
        | work hlist hrelay hs => exact (hs.other_worker hne (.holding _)).imp_right .inl
  | @start other work hw =>
      by_cases hne : worker = other
      · exact .inr (.inr hne.symm)
      · exact .inl (hown (.running work) hne)
  | @finish other work hw =>
      by_cases hne : worker = other
      · exact .inr (.inr hne.symm)
      · exact .inl (hown (.writing work) hne)
  | @write other work hw =>
      by_cases hne : worker = other
      · exact .inr (.inr hne.symm)
      · exact .inl (hown .atLock hne)
  | @wake other hw =>
      by_cases hne : worker = other
      · exact .inr (.inl ⟨hne ▸ hw, by simp [ThreadPool.setWorker, hne]⟩)
      · exact .inl (hown .woken hne)

/-- A worker about to examine the list does so before anything else: it stays where it is until
then. -/
theorem ThreadPool.AboutToExamine.examines_first (h : s.AboutToExamine worker)
    {action : PoolAction n W} (hstep : s.step action = some next) :
    next.workers worker = s.workers worker ∨ ∃ woken, action = .examine worker woken := by
  rcases ThreadPool.step_workers hstep worker with hsame | ⟨hsleeping, -⟩ | hby
  · exact .inl hsame
  · rcases h with hw | hw <;> exact absurd (hw.symm.trans hsleeping) (by simp)
  · -- of its own steps only the section is possible
    right
    cases action with
    | examine other woken => exact ⟨woken, by rw [show other = worker from hby]⟩
    | start other | finish other | write other =>
        obtain rfl : other = worker := hby
        rcases h with hw | hw <;> simp only [ThreadPool.step, hw, reduceCtorEq] at hstep
    | postWork | stop | join | readPipe | callback | wake => exact hby.elim

/-- What holds of sleepers at any time. -/
structure NoLostWakeUp (s : ThreadPool n W) : Prop where
  /-- While the list is not empty, a sleeper is not alone: another worker is awake and will look at
  the list before it does anything else. -/
  attended : s.workList ≠ [] → ∀ worker, s.workers worker = .sleeping →
    ∃ other ≠ worker, s.AboutToExamine other ∧
      (∃ woken next, s.step (.examine other woken) = some next) ∧
      ∀ action next, s.step action = some next →
        next.workers other = s.workers other ∨ ∃ woken, action = .examine other woken
  /-- So no work waits for a busy worker while another sleeps. -/
  not_busy : ∀ work ∈ s.queue, (∃ worker, s.workers worker = .sleeping) →
    ¬ ∀ worker, s.workers worker = .sleeping ∨ (s.workers worker).load.isSome ∨
      s.workers worker = .exited
  /-- Once the stop marker is queued, no worker sleeps unless another can take a step. -/
  stop : s.phase = .stopping → ∀ worker, s.workers worker = .sleeping →
    ∃ other ≠ worker, s.CanStep other
  /-- And until all have exited some worker can, unless the pipe has no room and everybody who has
  not exited waits to write. -/
  stop_progress : s.phase = .stopping →
    (∀ worker, s.workers worker = .exited) ∨ (∃ worker, s.CanStep worker) ∨
      ¬ s.PipeHasRoom ∧
        ∀ worker, s.workers worker = .exited ∨ ∃ work, s.workers worker = .writing work

/-- A worker that is neither asleep nor past its loop can take a step, provided that the pipe has
room for its pointer if it is about to write it. -/
theorem ThreadPool.canStep (s : ThreadPool n W) (worker : Fin n)
    (hsleep : s.workers worker ≠ .sleeping) (hexit : s.workers worker ≠ .exited)
    (hroom : s.PipeHasRoom ∨ ∀ work, s.workers worker ≠ .writing work) : s.CanStep worker := by
  have hexamine : s.AboutToExamine worker → s.CanStep worker := fun h => by
    obtain ⟨woken, next, hstep⟩ := h.can_examine
    exact ⟨.examine worker woken, next, rfl, hstep⟩
  rcases hw : s.workers worker with _ | _ | _ | work | work | work | _
  · exact hexamine (.inl hw)
  · exact absurd hw hsleep
  · exact hexamine (.inr hw)
  · exact ⟨.start worker, _, rfl, by simp only [ThreadPool.step, hw]; rfl⟩
  · exact ⟨.finish worker, _, rfl, by simp only [ThreadPool.step, hw]; rfl⟩
  · have hroom : s.PipeHasRoom := hroom.resolve_right fun hnot => hnot work hw
    exact ⟨.write worker, _, rfl, by simp only [ThreadPool.step, hw, if_pos hroom]; rfl⟩
  · exact absurd hw hexit

/-- Where the list is attended no wake-up is lost: as long as there is something in it some worker
is awake, and the stop marker gets through to all of them. -/
theorem Attended.noLostWakeUp (h : Attended s) (he : Ending s) : NoLostWakeUp s := by
  have hother : s.workList ≠ [] → ∀ worker, s.workers worker = .sleeping →
      ∃ other ≠ worker, s.AboutToExamine other := by
    intro hne worker hw
    obtain ⟨other, hother⟩ := h hne ⟨worker, hw⟩
    refine ⟨other, ?_, hother⟩
    rintro rfl
    rcases hother with ho | ho <;> exact absurd (ho.symm.trans hw) (by simp)
  have hmarker : s.phase = .stopping → s.workList ≠ [] := fun hphase hnil => by
    have hshape := he.shape
    rw [hnil, if_pos hphase] at hshape
    exact absurd hshape.symm (by simp)
  have hstop : s.phase = .stopping → ∀ worker, s.workers worker = .sleeping →
      ∃ other ≠ worker, s.CanStep other := by
    intro hphase worker hw
    obtain ⟨other, hne, hother⟩ := hother (hmarker hphase) worker hw
    obtain ⟨woken, next, hstep⟩ := hother.can_examine
    exact ⟨other, hne, .examine other woken, next, rfl, hstep⟩
  refine ⟨fun hne worker hw => ?_, fun work hin ⟨worker, hw⟩ hbusy => ?_, hstop, fun hphase => ?_⟩
  · obtain ⟨other, hne', hother⟩ := hother hne worker hw
    exact ⟨other, hne', hother, hother.can_examine, fun _ _ hstep => hother.examines_first hstep⟩
  · have hne : s.workList ≠ [] := fun hnil => by
      rw [ThreadPool.queue, hnil] at hin
      cases hin
    obtain ⟨other, -, ho⟩ := hother hne worker hw
    rcases hbusy other with hb | hb | hb <;> rcases ho with ho | ho <;> simp [ho, Worker.load] at hb
  · by_cases hcan : ∃ worker, s.CanStep worker
    · exact .inr (.inl hcan)
    · -- nobody sleeps and nobody is on the way, so whoever has not exited waits to write
      have hwaits : ∀ worker, s.workers worker = .exited ∨
          ¬ s.PipeHasRoom ∧ ∃ work, s.workers worker = .writing work := by
        intro worker
        by_cases hexit : s.workers worker = .exited
        · exact .inl hexit
        · have hsleep : s.workers worker ≠ .sleeping := by
            intro hsleep
            obtain ⟨other, -, hother⟩ := hstop hphase worker hsleep
            exact hcan ⟨other, hother⟩
          have hnot : ¬(s.PipeHasRoom ∨ ∀ work, s.workers worker ≠ .writing work) := by
            intro hroom
            exact hcan ⟨worker, s.canStep worker hsleep hexit hroom⟩
          push Not at hnot
          exact .inr hnot
      by_cases hall : ∀ worker, s.workers worker = .exited
      · exact .inl hall
      · obtain ⟨worker, hw⟩ := not_forall.mp hall
        have hfull : ¬ s.PipeHasRoom := ((hwaits worker).resolve_left hw).1
        refine .inr (.inr ⟨hfull, ?_⟩)
        intro other
        exact (hwaits other).imp_right And.right

/-- **No lost wake-up and no stuck stop.** For every number of workers, in every state that any
interleaving of posts, a stop and the workers' steps reaches. The one thing that can hold up
everybody after a stop is a pipe without room. -/
theorem no_lost_wake_up (h : (poolSystem n W).Reachable s) : NoLostWakeUp s :=
  (attended_of_reachable h).noLostWakeUp (located_of_reachable h).2

/-- Three workers fall asleep, a post wakes the second, and the stop comes before it looks. -/
def sleepingWorker : List (PoolAction 3 Bool) :=
  [.examine 0 ∅, .examine 1 ∅, .examine 2 ∅, .postWork true ⟨1, 2, 3, 4⟩ {1}, .stop ∅]

/-- Three workers sleep, and a post and the stop come before the one that is woken looks at the
list. No wake-up is lost by that. -/
theorem no_lost_wake_up_sleepingWorker :
    ∃ s, (poolSystem 3 Bool).run (.init fun _ => ⟨0, 0, 0, 0⟩) sleepingWorker = some s ∧
      s.workers 0 = .sleeping ∧ s.phase = .stopping ∧ NoLostWakeUp s := by
  have hend : ((poolSystem 3 Bool).run (.init fun _ => ⟨0, 0, 0, 0⟩) sleepingWorker).map
      (fun s => (s.workers 0, s.phase)) = some (.sleeping, .stopping) := by decide +kernel
  obtain ⟨s, hrun, hs⟩ := Option.map_eq_some_iff.mp hend
  obtain ⟨hworker, hphase⟩ := Prod.mk.inj hs
  exact ⟨s, hrun, hworker, hphase, no_lost_wake_up (StepSystem.reachable_of_run ⟨_, rfl⟩ hrun)⟩

end Pixy.Pool
