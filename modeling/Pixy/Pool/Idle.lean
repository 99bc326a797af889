import Pixy.Pool.Places

/-!
# Which works are under way

A work is `Idle` when it was never posted or has been called back since. A post begins and a
callback ends what lies between; no step of a worker does either.
-/

namespace Pixy.Pool

open Pixy.Found

variable {n : ℕ} {W : Type} [DecidableEq W]

/-- It was never posted, or was called back since. -/
def ThreadPool.Idle (self : ThreadPool n W) (work : W) : Prop := replay work self.log = some .idle

instance (self : ThreadPool n W) (work : W) : Decidable (self.Idle work) :=
  inferInstanceAs (Decidable (_ = _))

/-- The steps of the pool that are not the main thread's. -/
def OfWorker : PoolAction n W → Bool
  | .examine .. | .start _ | .finish _ | .write _ | .wake _ => true
  | _ => false

/-- The events that begin and end nothing. -/
def WorkEvent.Between : WorkEvent n → Prop
  | .posted _ | .calledBack .. => False
  | _ => True

variable {s next : ThreadPool n W} {work other : W}

/-- A work is idle in the eyes of the log exactly if the phase that goes with its place says so. -/
theorem Located.idle_iff {phase : W → WorkPhase n} (h : Located s phase) :
    s.Idle work ↔ phase work = .idle := by
  unfold ThreadPool.Idle
  rw [h.replayed]
  exact Option.some_inj

omit [DecidableEq W] in
/-- Such an event leads from one phase of a work that is under way to another. -/
theorem WorkEvent.not_idle_of_between {event : WorkEvent n} (h : event.Between)
    {before after : WorkPhase n} (hnext : event.next before = some after) :
    before ≠ .idle ∧ after ≠ .idle := by
  cases event <;> cases before <;> simp only [WorkEvent.next, reduceCtorEq] at hnext
  · exact h.elim
  all_goals try split_ifs at hnext
  all_goals first | exact h.elim | (cases hnext; simp)

/-- What a worker adds to the log begins and ends nothing. -/
theorem idle_of_between {event : WorkEvent n} (hevent : event.Between)
    (hlog : next.log = (work, event) :: s.log) {after : WorkPhase n}
    (hafter : replay work next.log = some after) : next.Idle other ↔ s.Idle other := by
  unfold ThreadPool.Idle
  rw [hlog] at hafter ⊢
  by_cases ho : work = other
  · subst ho
    simp only [replay, if_true] at hafter ⊢
    obtain ⟨before, hbefore, hnext⟩ := Option.bind_eq_some_iff.mp hafter
    obtain ⟨hb, ha⟩ := WorkEvent.not_idle_of_between hevent hnext
    rw [hbefore, Option.bind_some, hnext]
    simp [hb, ha]
  · simp [replay, ho]

omit [DecidableEq W] in
/-- Waking sleepers changes neither the log nor the works, the batch or the phase of the pool. -/
theorem log_of_signalled (h : Signalled s next) :
    next.log = s.log ∧ next.works = s.works ∧ next.batch = s.batch ∧ next.phase = s.phase := by
  rw [h.rest]
  exact ⟨rfl, rfl, rfl, rfl⟩

/-- What a step of a worker does to the log, and what it leaves alone. -/
theorem step_ofWorker {action : PoolAction n W} (hworker : OfWorker action)
    (hstep : s.step action = some next) :
    (next.works = s.works ∧ next.batch = s.batch ∧ next.phase = s.phase) ∧
      (next.log = s.log ∨ ∃ work event, WorkEvent.Between event ∧
        next.log = (work, event) :: s.log) := by
  cases ThreadPool.steps hstep with
  | postWork => cases hworker
  | stop => cases hworker
  | join => cases hworker
  | readPipe => cases hworker
  | callback => cases hworker
  | examine hw hexamines =>
      cases hexamines with
      | empty hlist => exact ⟨⟨rfl, rfl, rfl⟩, .inl rfl⟩
      | marker hlist hrelay hs =>
          obtain ⟨hlog, hworks, hbatch, hphase⟩ := log_of_signalled hs
          exact ⟨⟨hworks, hbatch, hphase⟩, .inl hlog⟩
      | work hlist hrelay hs =>
          obtain ⟨hlog, hworks, hbatch, hphase⟩ := log_of_signalled hs
          exact ⟨⟨hworks, hbatch, hphase⟩, .inr ⟨_, .taken _, trivial, congrArg (_ :: ·) hlog⟩⟩
  | start hw => exact ⟨⟨rfl, rfl, rfl⟩, .inr ⟨_, .started .., trivial, rfl⟩⟩
  | finish hw => exact ⟨⟨rfl, rfl, rfl⟩, .inr ⟨_, .returned _, trivial, rfl⟩⟩
  | write hw => exact ⟨⟨rfl, rfl, rfl⟩, .inr ⟨_, .written _, trivial, rfl⟩⟩
  | wake hw => exact ⟨⟨rfl, rfl, rfl⟩, .inl rfl⟩

/-- **Workers begin and end nothing**: what a worker does moves a work from one place to another, so
the works that are under way are the same. -/
theorem idle_ofWorker {action : PoolAction n W} {phase : W → WorkPhase n}
    (hworker : OfWorker action) (hstep : s.step action = some next) (hnext : Located next phase)
    (work : W) : next.Idle work ↔ s.Idle work := by
  obtain ⟨-, hlog | ⟨owner, event, hevent, hlog⟩⟩ := step_ofWorker hworker hstep
  · unfold ThreadPool.Idle
    rw [hlog]
  · exact idle_of_between hevent hlog (hnext.replayed owner)

/-- **A post begins something**: the work was idle, it is now under way with the fields given, and
all others are as they were. -/
theorem idle_postWork {phase : W → WorkPhase n} {fields : Work} {woken : Finset (Fin n)}
    (h : Located s phase) (hstep : s.step (.postWork work fields woken) = some next) :
    s.Idle work ∧ (∀ other, next.Idle other ↔ s.Idle other ∧ other ≠ work) ∧
      next.works = Function.update s.works work fields ∧ next.batch = s.batch := by
  obtain ⟨-, hidle, hpost⟩ := ThreadPool.steps hstep
  have hnext := h.postWork (h.idle_iff.mp hidle) hpost
  obtain ⟨-, hworks, hbatch, -⟩ := log_of_signalled (Signalled.of_insert hpost)
  refine ⟨hidle, fun other => ?_, hworks, hbatch⟩
  rw [hnext.idle_iff, h.idle_iff]
  by_cases ho : other = work <;> simp [ho]

/-- **A read begins and ends nothing**, and where there is something to read and no batch is pending
it is possible. -/
theorem idle_readPipe {phase : W → WorkPhase n} (h : Located s phase) (hpipe : s.pipe ≠ [])
    (hbatch : s.batch = []) : ∃ next phase', s.step .readPipe = some next ∧ Located next phase' ∧
      (∀ work, next.Idle work ↔ s.Idle work) ∧ next.works = s.works ∧
      next.workList = s.workList ∧ next.workers = s.workers ∧ next.phase = s.phase := by
  obtain ⟨works, next, hread, hworks, -, hlist, hworkers, hphase, hnext⟩ := h.readPipe hbatch
  refine ⟨next, _, ?_, hnext, fun work => ?_, ?_, hlist, hworkers, hphase⟩
  · simp only [ThreadPool.step]
    rw [if_pos ⟨hpipe, hbatch⟩]
    exact hread
  · rw [hnext.idle_iff, h.idle_iff]
    split_ifs with hin
    · cases hp : phase work <;> simp [Located.readPhase]
    · rfl
  · unfold ThreadPool.readPipe at hread
    simp only [Option.bind_eq_bind, Option.bind_eq_some_iff, Option.some.injEq] at hread
    obtain ⟨_, _, rfl⟩ := hread
    rfl

/-- **A callback ends something**: the first work of the batch, which was under way, is idle again,
and nothing else has changed. -/
theorem idle_callback {phase : W → WorkPhase n} {rest : List W} (h : Located s phase)
    (hbatch : s.batch = work :: rest) : ∃ next, s.step .callback = some next ∧
      Located next (Function.update phase work .idle) ∧ next.batch = rest ∧
      (∀ other, next.Idle other ↔ s.Idle other ∨ other = work) ∧ next.works = s.works ∧
      ¬s.Idle work ∧ next.workList = s.workList ∧ next.workers = s.workers ∧
      next.phase = s.phase := by
  have hnext := h.callback hbatch
  refine ⟨_, by simp only [ThreadPool.step, hbatch], hnext, rfl, fun other => ?_, rfl, ?_, rfl, rfl,
    rfl⟩
  · rw [hnext.idle_iff, h.idle_iff]
    by_cases ho : other = work <;> simp [ho]
  · rw [h.idle_iff]
    intro hidle
    have hplace := (h.batch work).mp (hbatch ▸ List.mem_cons_self)
    rw [hidle] at hplace
    cases hplace

end Pixy.Pool
